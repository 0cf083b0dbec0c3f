/-!
# Exact views of binary64 numbers

A finite double is `± mantissa * 2 ^ exponent` with a natural mantissa.  The operations here read that form
off the bits and compute in exact integers: the integer value of a double, its residue modulo `2 ^ 32`, and the
remainder of a division whose quotient is cut toward zero.
-/

namespace ScriptMachine

/-- The number `± mantissa * 2 ^ exponent`. -/
structure Dyadic where
  negative : Bool
  mantissa : Nat
  exponent : Int
  deriving DecidableEq

/-- The leading bit of a normal mantissa, which the bits of a double leave out. -/
def Binary64.leadingBit : Nat := 0x10000000000000

def Binary64.signWeight : Nat := 0x8000000000000000

namespace Dyadic

open Binary64 (leadingBit signWeight)

def ofFloat? (f : Float) : Option Dyadic :=
  let bits := f.toBits.toNat
  let negative := decide (signWeight ≤ bits)
  let biased : Nat := bits / leadingBit % 2048
  let fraction : Nat := bits % leadingBit
  if biased = 2047 then none
  else if biased = 0 then some ⟨negative, fraction, -1074⟩
  else some ⟨negative, leadingBit + fraction, (biased : Int) - 1075⟩

def isIntegral (d : Dyadic) : Bool := decide (0 ≤ d.exponent) || d.mantissa % Nat.pow 2 d.exponent.natAbs == 0

def magnitude (d : Dyadic) : Nat :=
  if 0 ≤ d.exponent then d.mantissa * Nat.pow 2 d.exponent.natAbs
  else d.mantissa / Nat.pow 2 d.exponent.natAbs

def truncated (d : Dyadic) : Int := if d.negative then -(d.magnitude : Int) else d.magnitude

def mantissaAt (d : Dyadic) (e : Int) : Nat := d.mantissa * Nat.pow 2 (d.exponent - e).natAbs

def remainder (a b : Dyadic) : Dyadic :=
  let e := min a.exponent b.exponent
  ⟨a.negative, a.mantissaAt e % b.mantissaAt e, e⟩

/-- The double with this value.  The value has to be one a double can hold. -/
def toFloat (d : Dyadic) : Float :=
  let sign := if d.negative then signWeight else 0
  if d.mantissa = 0 then Float.ofBits (UInt64.ofNat sign)
  else
    let top := d.mantissa.log2
    let scale := d.exponent + top
    if scale < -1022 then
      Float.ofBits (UInt64.ofNat (sign + (⟨false, d.mantissa, d.exponent + 1074⟩ : Dyadic).magnitude))
    else
      let fraction := (⟨false, d.mantissa, 52 - top⟩ : Dyadic).magnitude - leadingBit
      Float.ofBits (UInt64.ofNat (sign + (scale + 1023).toNat * leadingBit + fraction))

end Dyadic

namespace Binary64

def nan : Float := 0.0 / 0.0

def infinity : Float := 1.0 / 0.0

def negativeInfinity : Float := -1.0 / 0.0

def negativeZero : Float := Float.ofBits 0x8000000000000000

/-- The double nearest to an integer; of two that are equally near, the one with the even mantissa. -/
def ofInt64 (i : Int64) : Float := Float.ofModel (Float.Model.ofInt i.toInt)

def signBit (f : Float) : Bool := decide (0x8000000000000000 ≤ f.toBits)

def isNegativeZero (f : Float) : Bool := f == 0.0 && signBit f

/-- The integer a double stands for, when it is whole, not negative zero and fits 64 bits. -/
def integer? (f : Float) : Option Int64 :=
  if isNegativeZero f then none
  else match Dyadic.ofFloat? f with
    | none => none
    | some d =>
      if d.isIntegral && decide (Int64.minValue.toInt ≤ d.truncated) && decide (d.truncated ≤ Int64.maxValue.toInt)
      then some (Int64.ofInt d.truncated) else none

/-- The residue modulo `2 ^ 32` of the value cut toward zero; zero for the infinities and NaN. -/
def residue32 (f : Float) : Nat :=
  match Dyadic.ofFloat? f with
  | none => 0
  | some d => (d.truncated % 0x100000000).toNat

/-- The remainder of a division cut toward zero.  It has the sign of the dividend. -/
def remainder (a b : Float) : Float :=
  match Dyadic.ofFloat? a, Dyadic.ofFloat? b with
  | none, _ => nan
  | some x, some y => if y.mantissa = 0 then nan else (x.remainder y).toFloat
  | some _, none => if b.isNaN then nan else a

def hex (f : Float) : String :=
  let digits := Nat.toDigits 16 f.toBits.toNat
  String.ofList (List.replicate (16 - digits.length) '0' ++ digits)

end Binary64

end ScriptMachine
