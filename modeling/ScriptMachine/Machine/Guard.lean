import ScriptMachine.Machine.Monad

/-!
# Guarded computations

A guarded computation that fails is undone: frames, registers and operand stack are put back, and then the iterators
it left open are closed, innermost first.  A catchable fault leaves it as a thrown value with the trace of the place
that raised it.
-/

namespace ScriptMachine

namespace VM

/-- Give a fault its final form: a thrown value or a condition, with a trace. -/
def settle (f : Fault) : VM Fault := do
  match f with
  | .thrown e => if e.trace.isEmpty then return .thrown { e with trace := ← trace } else return .thrown e
  | .uncatchable u =>
    if u.trace.isEmpty then return .uncatchable { u with trace := ← trace } else return .uncatchable u
  | f =>
    let v ← onStore ((← realm).errorValue f)
    return .thrown ⟨v, ← trace⟩

/-- Close the iterators among some loops.  Given is the fault that goes on. -/
def closeEach (enter : Enter) (f : Fault) : List OpenLoop → VM Fault
  | [] => return f
  | l :: rest => do
    match l.source with
    | .keys _ => closeEach enter f rest
    | .items i =>
      match ← attempt (enter (.close i)) with
      | .ok _ => closeEach enter f rest
      | .error closing => closeEach enter (f.afterClosing closing) rest

def closeLoops (enter : Enter) (n : Nat) (f : Fault) : VM Fault := do
  let opened := aboveBottom n (← get).loops
  modify fun m => { m with loops := bottomOf n m.loops }
  closeEach enter f opened

def dropOpened (enter : Enter) (s : Snapshot) (f : Fault) : VM Fault := do
  let f ← closeLoops enter s.loops f
  modify fun m => { m with refs := bottomOf s.refs m.refs }
  return f

/-- Go back to a snapshot because of a fault.  The result is the fault that goes on from there. -/
def rollBack (enter : Enter) (s : Snapshot) (f : Fault) : VM Fault := do
  modify fun m => m.restore s
  dropOpened enter s f

def undo (enter : Enter) (s : Snapshot) (f : Fault) : VM α := do
  let f ← settle f
  raise (← rollBack enter s f)

def guarded (enter : Enter) (x : VM α) : VM α := do
  let s := (← get).snapshot
  match ← attempt x with
  | .ok a => return a
  | .error f => undo enter s f

end VM

end ScriptMachine
