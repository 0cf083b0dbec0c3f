import ScriptMachine.Machine.Monad
import ScriptMachine.Value.Convert

/-!
# Conversions

Conversions that may run script code, because an object says by its methods which primitive value it stands for,
and the comparisons that use them.
-/

namespace ScriptMachine

/-- The methods that turn an object into a primitive value, in the order they are tried. -/
def Hint.methods : Hint → List String
  | .text => ["toString", "valueOf"]
  | .default | .number => ["valueOf", "toString"]

def Store.unbindWithin (σ : Store) : Nat → ObjectId → ObjectId
  | 0, o => o
  | n + 1, o =>
    match (σ.object o).kind with
    | .bound f => σ.unbindWithin n f.target
    | _ => o

namespace VM

/-! ### Primitive values -/

def primitiveBy (enter : Enter) (o : ObjectId) : List String → VM Value
  | [] => raise (.type .noPrimitive)
  | name :: rest => do
    match ← onStore (Store.get? o (.ofString name)) with
    | some (.object method) =>
      if ← onStore (Store.isCallable method) then
        let v ← enter (.call (.object method) (.object o) [])
        if v.isObject then primitiveBy enter o rest else return v
      else primitiveBy enter o rest
    | _ => primitiveBy enter o rest

/-- The primitive value of a value.  A wrapper stands for what it wraps. -/
def toPrimitive (enter : Enter) (v : Value) (hint : Hint) : VM Value := do
  match v with
  | .object o =>
    match (← onStore (Store.made o)).kind with
    | .primitive inner => return inner
    | _ => primitiveBy enter o hint.methods
  | v => return v

def toNumber (enter : Enter) (v : Value) : VM Value := do
  ofOutcome (← toPrimitive enter v .number).primitiveNumber

def toText (enter : Enter) (v : Value) : VM Text := do
  ofOutcome (← toPrimitive enter v .text).primitiveText

def primitiveKey : Value → Outcome PropertyKey
  | .symbol s => .ok (.symbol s)
  | v => v.primitiveText.map .text

def toPropertyKey (enter : Enter) (v : Value) : VM PropertyKey := do
  ofOutcome (primitiveKey (← toPrimitive enter v .text))

def toObject (v : Value) : VM ObjectId := do demand ((← realm).toObject v)

/-! ### Comparisons -/

def looseEquals (enter : Enter) (a b : Value) : VM Bool := do
  let a := a.orUndefined
  let b := b.orUndefined
  if a.isNullish || b.isNullish then return a.isNullish && b.isNullish
  else match a, b with
    | .object x, .object y => return x == y
    | .object _, y => return (← toPrimitive enter a .default).looselyEqual y
    | x, .object _ => return x.looselyEqual (← toPrimitive enter b .default)
    | x, y => return x.looselyEqual y

/-- The order of two primitive values: texts by their units, all else as numbers.  Absent when one is not a
number. -/
def lessThan? (a b : Value) : Outcome (Option Bool) :=
  match a, b with
  | .text s, .text t => .ok (some (s.compare t = .lt))
  | a, b => do return (← a.primitiveNumber).lessThan? (← b.primitiveNumber)

def typeOf (v : Value) : VM String := do
  match v with
  | .undefined | .empty | .unresolved .. => return "undefined"
  | .null => return "object"
  | .bool _ => return "boolean"
  | .int _ | .int64 _ | .float _ => return "number"
  | .text _ => return "string"
  | .symbol _ => return "symbol"
  | .object o => return if ← onStore (Store.isCallable o) then "function" else "object"

def inheritsFrom (v : Value) (target : ObjectId) : VM Bool := do
  match v with
  | .object o =>
    match ← onStore (Store.get? target (.ofString "prototype")) with
    | some (.object p) =>
      onStore do
        let first ← Store.prototype? o
        Store.reachesWithin p (← get).objects.size first
    | other => raise (.type (.instancePrototype (← display (other.getD .undefined))))
  | _ => return false

/-- Whether a value is an instance of a function.  A bound function stands for its target. -/
def instanceOf (v target : Value) : VM Bool := do
  match target with
  | .object t =>
    if ← onStore (Store.isCallable t) then
      let σ := (← get).store
      inheritsFrom v (σ.unbindWithin σ.objects.size t)
    else raise (.type .instanceTarget)
  | _ => raise (.type .instanceTarget)

def hasIn (enter : Enter) (key target : Value) : VM Bool := do
  match target with
  | .object o =>
    let key ← toPropertyKey enter key
    onStore (Store.has o key)
  | _ => raise (.type (.searchTarget (← display key) (← display target)))

end VM

end ScriptMachine
