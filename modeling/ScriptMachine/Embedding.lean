import ScriptMachine.Dispatch
import ScriptMachine.Report

/-!
# Embedding

What a program that holds a machine does with it.  When a run fails with a condition beyond catching, all its
activations are dropped; the machine stays usable and keeps its globals.
-/

namespace ScriptMachine.VM

def boundary (x : VM α) : VM (Except RunError α) := do
  match ← attempt x with
  | .ok a => return .ok a
  | .error (.thrown e) => return .error (.exception e)
  | .error (.uncatchable u) =>
    modify Machine.reset
    return .error (.uncatchable u)
  | .error f =>
    let trace ← trace
    let v ← onStore ((← realm).errorValue f)
    return .error (.exception ⟨v, trace⟩)

def run (fuel : Nat) (p : ProgramId) : VM (Except RunError Value) := boundary (enter fuel (.program p))

def callFunction (fuel : Nat) (callee this : Value) (args : List Value) : VM (Except RunError Value) :=
  boundary (enter fuel (.call callee this args))

def defineGlobal (name : Text) (v : Value) : VM Unit := do
  let _ ← onStore (Store.put (← realm).global (.text name) v)

/-- The value of a global name: a lexical one, or a property of the global object.  Absent when it has none, or is
not yet initialised. -/
def readGlobal (name : Text) : VM (Option Value) := do
  let realm ← realm
  match ← onStore (Store.readName realm.globalScope name) with
  | .ok (some v) => return some v
  | .ok none => onStore (Store.get? realm.global (.text name))
  | .error _ => return none

/-- The value of a fault as a script would catch it; absent when it could not. -/
def caughtValue? (f : Fault) : VM (Option Value) := do
  if f.isUncatchable then return none else return some (← onStore ((← realm).errorValue f))

end ScriptMachine.VM
