import ScriptMachine.Iteration.Items
import ScriptMachine.Iteration.Keys
import ScriptMachine.Machine.Blocks
import ScriptMachine.Machine.Jump

/-!
# Loop instructions

Loops over keys and over items share one stack.  While an iterator takes a step it is off the stack, so that a
failure of its `next` leaves it behind unclosed.
-/

namespace ScriptMachine

/-- Whether an object backs a record along a chain, within a number of records. -/
def Store.backsScopeWithin (σ : Store) (o : ObjectId) : Nat → ScopeId → Bool
  | 0, _ => false
  | n + 1, s =>
    let x := σ.scope s
    x.object = some o || (x.outer.any fun outer => σ.backsScopeWithin o n outer)

namespace VM

/-! ### Keys -/

/-- A cursor over the keys of a value.  Names hidden from a scope are passed by while that scope is active. -/
def openCursor (v : Value) : VM KeyCursor := do
  if v.isNullish then onStore (KeyCursor.start none)
  else
    let o ← toObject v
    let cursor ← onStore (KeyCursor.start (some o))
    let m ← get
    return if m.store.backsScopeWithin o m.store.scopes.size m.regs.scope then cursor.screened o else cursor

def enumerate : VM Unit := do
  let cursor ← openCursor (← pop)
  pushLoop ⟨.undefined, .keys cursor⟩
  advance

def nextKey (offset : Int) : VM Unit := do
  match (← get).loops with
  | [] => raise (.internal .loopUnderflow)
  | ⟨value, .keys cursor⟩ :: rest =>
    match ← onStore cursor.next with
    | (some key, cursor) =>
      modify fun m => { m with loops := ⟨key.toValue, .keys cursor⟩ :: rest }
      advance
    | (none, cursor) =>
      modify fun m => { m with loops := ⟨value, .keys cursor⟩ :: rest }
      jump offset
  | _ => raise (.internal .cursorExpected)

/-! ### Items -/

def iterate (enter : Enter) (popped : Bool) : VM Unit := do
  let i ← openIterator enter (← takeTop popped)
  pushLoop ⟨.undefined, .items i⟩
  advance

def stepLoop (enter : Enter) : VM (Value × Option Value × IteratorId) := do
  let l ← popLoop
  match l.source with
  | .keys _ => raise (.internal .iteratorExpected)
  | .items i => return (l.value, ← ofOutcome (← stepIterator enter i), i)

def nextItem (enter : Enter) (offset : Int) : VM Unit := do
  match ← stepLoop enter with
  | (_, some v, i) =>
    pushLoop ⟨v, .items i⟩
    advance
  | (value, none, i) =>
    pushLoop ⟨value, .items i⟩
    jump offset

def nextItemOrUndefined (enter : Enter) : VM Unit := do
  let (value, item, i) ← stepLoop enter
  pushLoop ⟨value, .items i⟩
  pushNext (item.getD .undefined)

def restArray (enter : Enter) (fuel : Nat) : VM Unit := do
  match (← popLoop).source with
  | .keys _ => raise (.internal .restFromCursor)
  | .items i => pushArray (← drain enter fuel i [])

/-! ### Both -/

def loopValue : VM Unit := do
  match (← get).loops with
  | [] => raise (.internal .loopUnderflow)
  | l :: _ => pushNext l.value

def leaveLoop : VM Unit := do
  let _ ← popLoop
  advance

def closeLoop (enter : Enter) : VM Unit := do
  match (← popLoop).source with
  | .keys _ => advance
  | .items i =>
    closeIterator enter i
    advance

/-! ### Spreading -/

def pushItems (enter : Enter) (fuel : Nat) : VM Unit := do
  let v ← pop
  let o ← literalTarget
  forItems enter fuel v fun x => demand (Store.pushItem o x)
  advance

def pushArguments (enter : Enter) (fuel : Nat) : VM Unit := do
  let v ← pop
  forItems enter fuel v push
  advance

end VM

end ScriptMachine
