import ScriptMachine.Machine.Convert

/-!
# Operator instructions

Binary operators pop their right operand and put the result in the place of the left one.  Conversions run
before the result is stored, left operand first.
-/

namespace ScriptMachine.VM

def operands : VM (Value × Value) := do
  let right ← pop
  let left ← peek 0
  return (left, right)

/-- The sum of two primitive values: texts are joined when one of them is a text. -/
def sum (l r : Value) : Outcome Value := do
  if l.isText || r.isText then
    let s ← l.primitiveText
    let t ← r.primitiveText
    return .text (s ++ t)
  else
    let m ← l.primitiveNumber
    let n ← r.primitiveNumber
    return m.add n

def add (enter : Enter) : VM Unit := do
  let (left, right) ← operands
  let l ← toPrimitive enter left .default
  let r ← toPrimitive enter right .default
  replaceNext (← ofOutcome (sum l r))

def numeric (enter : Enter) (op : Value → Value → Value) : VM Unit := do
  let (left, right) ← operands
  let l ← toNumber enter left
  let r ← toNumber enter right
  replaceNext (op l r)

def unary (enter : Enter) (op : UnaryOp) : VM Unit := do
  let v ← toNumber enter (← peek 0)
  replaceNext (op.apply v)

def related (r : Relation) (a b : Value) : Outcome Bool :=
  match r with
  | .less => return (← lessThan? a b).getD false
  | .greater => return (← lessThan? b a).getD false
  | .lessEqual => return (← lessThan? b a).any (!·)
  | .greaterEqual => return (← lessThan? a b).any (!·)

def relation (enter : Enter) (r : Relation) : VM Unit := do
  let (left, right) ← operands
  let a ← toPrimitive enter left .number
  let b ← toPrimitive enter right .number
  replaceNext (.bool (← ofOutcome (related r a b)))

def equality (enter : Enter) (strict negated : Bool) : VM Unit := do
  let (left, right) ← operands
  let equal ← if strict then pure (left.strictEquals right) else looseEquals enter left right
  replaceNext (.bool (equal != negated))

def testInstance : VM Unit := do
  let (v, target) ← operands
  replaceNext (.bool (← instanceOf v target))

def testMember (enter : Enter) : VM Unit := do
  let (key, target) ← operands
  replaceNext (.bool (← hasIn enter key target))

def convertKey (enter : Enter) : VM Unit := do
  let key ← toPropertyKey enter (← peek 0)
  replaceNext key.toValue

def convertText (enter : Enter) : VM Unit := do
  let t ← toText enter (← peek 0)
  replaceNext (.text t)

def joinUnits (enter : Enter) (units : List UInt16) : List Value → VM (List UInt16)
  | [] => return units
  | v :: rest => do joinUnits enter (units ++ (← toText enter v).units) rest

def concat (enter : Enter) (n : Nat) : VM Unit := do
  let parts ← popMany n
  pushNext (.text (.ofUnits (← joinUnits enter [] parts)))

end ScriptMachine.VM
