import ScriptMachine.Number.Binary64

/-!
# Shortest decimals

The decimal of a double is the one with the fewest digits that reads back as the same double; of several such
the nearest, and of two equally near the larger.  The search is exact: for one digit, two digits and so on it
tests the two neighbours of the value on the decimal grid of that many digits against the interval of reals
that round to the double.
-/

namespace ScriptMachine

structure Decimal where
  digits : Nat
  exponent : Int
  deriving DecidableEq

namespace Decimal

def powerFraction (base : Nat) (e : Int) : Nat × Nat := if 0 ≤ e then (base.pow e.natAbs, 1) else (1, base.pow e.natAbs)

/-- The least `k` with `num / den < 10 ^ k`, searched upward from `k`. -/
def pointPosition (num den : Nat) : Nat → Int → Int
  | 0, k => k
  | fuel + 1, k =>
    let (p, q) := powerFraction 10 k
    if num * q < p * den then k else pointPosition num den fuel (k + 1)

/-- The reals that round to `mantissa * 2 ^ exponent`, in quarters of a unit in the last place. -/
structure Rounding where
  low : Nat
  value : Nat
  high : Nat
  closed : Bool

/-- The rounding interval of a double.  Below a power of two the gap is half as wide. -/
def Rounding.of (mantissa : Nat) (exponent : Int) : Rounding where
  low := if mantissa = Binary64.leadingBit ∧ -1074 < exponent then 4 * mantissa - 1 else 4 * mantissa - 2
  value := 4 * mantissa
  high := 4 * mantissa + 2
  closed := mantissa % 2 == 0

/-- Whether `c * grid` lies in the interval, where `unit` and `grid` are measured in a common unit. -/
def Rounding.holds (r : Rounding) (unit grid c : Nat) : Bool :=
  if r.closed then decide (r.low * unit ≤ c * grid) && decide (c * grid ≤ r.high * unit)
  else decide (r.low * unit < c * grid) && decide (c * grid < r.high * unit)

/-- The multiple of the grid chosen for the value, if one of its two neighbours rounds to it. -/
def Rounding.onGrid? (r : Rounding) (unit grid : Nat) : Option Nat :=
  let c := r.value * unit / grid
  let below := r.holds unit grid c
  let above := r.holds unit grid (c + 1)
  if below && above then
    if r.value * unit - c * grid < (c + 1) * grid - r.value * unit then some c else some (c + 1)
  else if below then some c
  else if above then some (c + 1)
  else none

/-- The first grid with a hit, from `digits` significant digits on. -/
def Rounding.search (r : Rounding) (unit unitDen : Nat) (point : Int) : Nat → Nat → Decimal
  | 0, digits =>
    let (g, gDen) := powerFraction 10 (point - digits)
    ⟨r.value * (unit * gDen) / (g * unitDen), point - digits⟩
  | fuel + 1, digits =>
    let (g, gDen) := powerFraction 10 (point - digits)
    match r.onGrid? (unit * gDen) (g * unitDen) with
    | some c => ⟨c, point - digits⟩
    | none => r.search unit unitDen point fuel (digits + 1)

def stripZeros : Nat → Decimal → Decimal
  | 0, d => d
  | fuel + 1, d =>
    if d.digits % 10 = 0 ∧ d.digits ≠ 0 then stripZeros fuel ⟨d.digits / 10, d.exponent + 1⟩ else d

def shortest (mantissa : Nat) (exponent : Int) : Decimal :=
  let r := Rounding.of mantissa exponent
  let (unit, unitDen) := powerFraction 2 (exponent - 2)
  let point := pointPosition (r.value * unit) unitDen 650 (-324)
  stripZeros 20 (r.search unit unitDen point 17 1)

def digitChars (d : Decimal) : List Char := Nat.toDigits 10 d.digits

def point (d : Decimal) : Int := d.exponent + d.digitChars.length

def toFloat (d : Decimal) : Float :=
  if d.digits = 0 then 0.0
  else if 310 < d.point then Binary64.infinity
  else if d.point < -330 then 0.0
  else if 0 ≤ d.exponent then Float.ofScientific d.digits false d.exponent.natAbs
  else Float.ofScientific d.digits true d.exponent.natAbs

end Decimal

end ScriptMachine
