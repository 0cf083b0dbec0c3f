import ScriptMachine.Machine.Members

/-!
# Iterators

An iterator ends when its `next` reports so, fails, or yields something other than an object, and when it is closed.
After that neither `next` nor `return` is called again.
-/

namespace ScriptMachine.VM

def iteratorMethod (v : Value) : VM (Option Value) := do
  if v.isNullish then return none else getProperty v (.symbol .iterator)

def memberCallable (member : Option Value) : VM Bool := do
  match member with
  | some (.object o) => onStore (Store.isCallable o)
  | _ => return false

def openIterator (enter : Enter) (v : Value) : VM IteratorId := do
  let method ← iteratorMethod v
  if ← memberCallable method then
    let iterator ← enter (.call (method.getD .undefined) v [])
    if iterator.isObject then
      let next ← getProperty iterator (.ofString "next")
      newIterator ⟨iterator, next.getD .undefined, .active⟩
    else raise (.type .iteratorNotObject)
  else raise (.type (.notIterable (← display v)))

/-- What the answer of a `next` method says: the next item, or nothing at the end. -/
def itemOf (answer : Outcome Value) : VM (Outcome (Option Value)) := do
  match answer with
  | .error f => return .error f
  | .ok (.object o) =>
    if (← onStore (Store.get? o (.ofString "done"))).any Value.truthy then return .ok none
    else return .ok (some ((← onStore (Store.get? o (.ofString "value"))).getD .undefined))
  | .ok v => return .error (.type (.iteratorResult (← display v)))

/-- Take a step: the next item, or nothing at the end.  With anything but an item the iterator ends. -/
def stepIterator (enter : Enter) (i : IteratorId) : VM (Outcome (Option Value)) := do
  if (← iterator i).status = .active then
    let item ← itemOf (← attempt (enter (.next i)))
    match item with
    | .ok (some _) => return item
    | _ =>
      setStatus i .ended
      return item
  else return .ok none

/-- Close an iterator that has not ended, by its `return` method if it has one. -/
def closeIterator (enter : Enter) (i : IteratorId) : VM Unit := do
  let r ← iterator i
  if r.status = .active then
    setStatus i .closing
    let method := (← getProperty r.iterator (.ofString "return")).getD .undefined
    if method.isNullish then setStatus i .ended
    else
      let v ← enter (.finish i method)
      if v.isObject then return () else raise (.type (.iteratorResult (← display v)))
  else return ()

/-- Hand the items of an iterator to a function, which builds up a result.  When it fails, the iterator is closed.
Given are the result so far and how the iteration ended. -/
def feed (enter : Enter) (f : σ → Value → VM σ) : Nat → IteratorId → σ → VM (σ × Outcome Unit)
  | 0, _, _ => outOfFuel
  | n + 1, i, s => do
    match ← stepIterator enter i with
    | .error e => return (s, .error e)
    | .ok none => return (s, .ok ())
    | .ok (some v) =>
      match ← attempt (f s v) with
      | .ok s => feed enter f n i s
      | .error e =>
        match ← attempt (closeIterator enter i) with
        | .ok _ => return (s, .error e)
        | .error closing => return (s, .error (e.afterClosing closing))

def feedItems (enter : Enter) (fuel : Nat) (v : Value) (f : σ → Value → VM σ) (s : σ) : VM (σ × Outcome Unit) := do
  match ← attempt (openIterator enter v) with
  | .error e => return (s, .error e)
  | .ok i => feed enter f fuel i s

def forItems (enter : Enter) (fuel : Nat) (v : Value) (f : Value → VM Unit) : VM Unit := do
  ofOutcome (← feedItems enter fuel v (fun _ x => f x) ()).2

/-- The items of a value, as many as the limit allows.  Given are those taken, newest first, and how it ended. -/
def collectItems (enter : Enter) (fuel : Nat) (v : Value) (limit : Option ItemLimit) : VM (List Value × Outcome Unit) :=
  feedItems enter fuel v (fun taken x =>
    match limit with
    | some l => if taken.length = l.count then raise l.fault else return x :: taken
    | none => return x :: taken) []

def drain (enter : Enter) : Nat → IteratorId → List Value → VM (List Value)
  | 0, _, _ => outOfFuel
  | n + 1, i, taken => do
    match ← ofOutcome (← stepIterator enter i) with
    | some v => drain enter n i (v :: taken)
    | none => return taken.reverse

end ScriptMachine.VM
