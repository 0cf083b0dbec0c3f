import ScriptMachine.Value

/-!
# Arithmetic

Operations on values that are already numbers.  Results stay integers while they are exact: sums of safe integers
are safe integers or doubles, sums with a 64-bit operand are 64-bit while they fit, products and remainders of
whole numbers are exact when the result fits 64 bits.  Everything else is computed in doubles.
-/

namespace ScriptMachine.Value

def toFloat (v : Value) : Float := v.float?.getD Binary64.nan

/-- A 64-bit integer, if the value fits one. -/
def fit64? (i : Int) : Option Int64 :=
  if Int64.minValue.toInt ≤ i ∧ i ≤ Int64.maxValue.toInt then some (Int64.ofInt i) else none

def add (l r : Value) : Value :=
  match l, r with
  | .int a, .int b => ofInt (a + b)
  | _, _ => match l.wholeValue?, r.wholeValue? with
    | some a, some b => match fit64? (a.toInt + b.toInt) with
      | some s => ofInt64 s
      | none => .float (Binary64.ofInt64 a + Binary64.ofInt64 b)
    | _, _ => .float (l.toFloat + r.toFloat)

def sub (l r : Value) : Value :=
  match l, r with
  | .int a, .int b => ofInt (a - b)
  | _, _ => match l.wholeValue?, r.wholeValue? with
    | some a, some b => match fit64? (a.toInt - b.toInt) with
      | some s => ofInt64 s
      | none => .float (Binary64.ofInt64 a - Binary64.ofInt64 b)
    | _, _ => .float (l.toFloat - r.toFloat)

/-- The quotient cut toward zero, if there is a divisor and the quotient fits. -/
def quotient? (a b : Int64) : Option Int64 := if b = 0 then none else fit64? (a.toInt.tdiv b.toInt)

/-- The remainder of the division cut toward zero, if there is a divisor and the quotient fits. -/
def remainder? (a b : Int64) : Option Int64 := if b = 0 ∨ quotient? a b = none then none else some (a % b)

/-- The product of two whole numbers, if it fits 64 bits and is not negative zero.  A wrapped product is
recognised by dividing it again. -/
def product? (a b : Int64) : Option Value :=
  if (a = 0 ∧ b < 0) ∨ (b = 0 ∧ a < 0) then some negativeZero
  else if a = 0 ∨ quotient? (a * b) a = some b then some (ofInt (a * b))
  else none

def mul (l r : Value) : Value :=
  match l.integer?, r.integer? with
  | some a, some b => (product? a b).getD (.float (l.toFloat * r.toFloat))
  | _, _ => .float (l.toFloat * r.toFloat)

def div (l r : Value) : Value := .float (l.toFloat / r.toFloat)

def mod (l r : Value) : Value :=
  match l.integer?, r.integer? with
  | some a, some b =>
    if b = 0 then nan
    else match remainder? a b with
      | some m => if m = 0 ∧ a < 0 then negativeZero else ofInt m
      | none => .float (Binary64.remainder l.toFloat r.toFloat)
  | _, _ => .float (Binary64.remainder l.toFloat r.toFloat)

def neg : Value → Value
  | .int i => if i = 0 then negativeZero else .int (-i)
  | .int64 i => match fit64? (-i.toInt) with
    | some n => ofInt64 n
    | none => .float (-Binary64.ofInt64 i)
  | v => .float (-v.toFloat)

def inc : Value → Value
  | .int i => ofInt (i + 1)
  | .int64 i => match fit64? (i.toInt + 1) with
    | some n => ofInt64 n
    | none => .float (Binary64.ofInt64 i + 1.0)
  | v => .float (v.toFloat + 1.0)

def dec : Value → Value
  | .int i => ofInt (i - 1)
  | .int64 i => match fit64? (i.toInt - 1) with
    | some n => ofInt64 n
    | none => .float (Binary64.ofInt64 i - 1.0)
  | v => .float (v.toFloat - 1.0)

/-- Whether `l` is less than `r`; undecided when either is NaN. -/
def lessThan? (l r : Value) : Option Bool :=
  match l.wholeValue?, r.wholeValue? with
  | some a, some b => some (decide (a < b))
  | _, _ =>
    let x := l.toFloat
    let y := r.toFloat
    if x.isNaN || y.isNaN then none else some (decide (x < y))

/-! ### Words of 32 bits -/

def toUInt32 : Value → UInt32
  | .int i | .int64 i => i.toUInt64.toUInt32
  | .float f => UInt32.ofNat (Binary64.residue32 f)
  | _ => 0

def toInt32 (v : Value) : Int32 := v.toUInt32.toInt32

def ofInt32 (i : Int32) : Value := .int i.toInt64

def ofUInt32 (u : UInt32) : Value := .int u.toUInt64.toInt64

end ScriptMachine.Value

namespace ScriptMachine

inductive ArithOp where
  | sub | mul | div | mod
  deriving DecidableEq

def ArithOp.apply : ArithOp → Value → Value → Value
  | .sub => Value.sub
  | .mul => Value.mul
  | .div => Value.div
  | .mod => Value.mod

inductive BitOp where
  | and | or | xor
  | shiftLeft | shiftRight
  | shiftRightZero
  deriving DecidableEq

/-- Shift counts are taken modulo 32. -/
def BitOp.apply (op : BitOp) (l r : Value) : Value :=
  let a := l.toInt32
  let count := r.toUInt32 % 32
  match op with
  | .and => .ofInt32 (a &&& r.toInt32)
  | .or => .ofInt32 (a ||| r.toInt32)
  | .xor => .ofInt32 (a ^^^ r.toInt32)
  | .shiftLeft => .ofInt32 (a <<< count.toInt32)
  | .shiftRight => .ofInt32 (a >>> count.toInt32)
  | .shiftRightZero => .ofUInt32 (l.toUInt32 >>> count)

inductive UnaryOp where
  | toNumber | plus | neg | inc | dec | bitNot
  deriving DecidableEq

def UnaryOp.apply : UnaryOp → Value → Value
  | .toNumber, v | .plus, v => v
  | .neg, v => v.neg
  | .inc, v => v.inc
  | .dec, v => v.dec
  | .bitNot, v => .ofInt32 (~~~v.toInt32)

inductive Relation where
  | less | lessEqual | greater | greaterEqual
  deriving DecidableEq

end ScriptMachine
