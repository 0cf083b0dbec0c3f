import ScriptMachine.Text.Blank
import ScriptMachine.Number.Shortest

/-!
# Numeric texts

A numeric text, blanks at both ends apart, is empty, an infinity, digits of base 2, 8 or 16 after their mark, or
a decimal literal: an optional sign, digits with an optional point and at least one digit around it, and an
optional exponent.
-/

namespace ScriptMachine

inductive NumericLiteral where
  | blank
  | infinity (negative : Bool)
  | radix (base : Nat) (digits : List Nat)
  | decimal (negative : Bool) (value : Decimal)

namespace NumericLiteral

def radixDigit? (base : Nat) (c : Char) : Option Nat :=
  let v :=
    if '0' ≤ c ∧ c ≤ '9' then some (c.toNat - 48)
    else if 'a' ≤ c ∧ c ≤ 'f' then some (c.toNat - 87)
    else if 'A' ≤ c ∧ c ≤ 'F' then some (c.toNat - 55)
    else none
  v.filter (· < base)

def radixDigits? (base : Nat) (cs : List Char) : Option NumericLiteral :=
  if cs.isEmpty then none else (cs.mapM (radixDigit? base)).map (.radix base)

def splitSign : List Char → Bool × List Char
  | '-' :: cs => (true, cs)
  | '+' :: cs => (false, cs)
  | cs => (false, cs)

def splitDigits (cs : List Char) : List Char × List Char := (cs.takeWhile Char.isDigit, cs.dropWhile Char.isDigit)

def splitFraction : List Char → List Char × List Char
  | '.' :: cs => splitDigits cs
  | cs => ([], cs)

def digitsNat (cs : List Char) : Nat := cs.foldl (fun n c => 10 * n + (c.toNat - 48)) 0

def exponent? : List Char → Option Int
  | [] => some 0
  | c :: cs =>
    let (negative, digits) := splitSign cs
    if (c = 'e' ∨ c = 'E') ∧ digits ≠ [] ∧ digits.all Char.isDigit then
      some (if negative then -(digitsNat digits : Int) else digitsNat digits)
    else none

def decimal? (cs : List Char) : Option NumericLiteral :=
  let (negative, rest) := splitSign cs
  let (whole, rest) := splitDigits rest
  let (fraction, rest) := splitFraction rest
  if whole.isEmpty && fraction.isEmpty then none
  else (exponent? rest).map fun e =>
    .decimal negative ⟨digitsNat (whole ++ fraction), e - fraction.length⟩

def ofTrimmed? (cs : List Char) : Option NumericLiteral :=
  if cs = [] then some .blank
  else if cs = "Infinity".toList ∨ cs = "+Infinity".toList then some (.infinity false)
  else if cs = "-Infinity".toList then some (.infinity true)
  else match cs with
    | '0' :: 'x' :: rest | '0' :: 'X' :: rest => radixDigits? 16 rest
    | '0' :: 'o' :: rest | '0' :: 'O' :: rest => radixDigits? 8 rest
    | '0' :: 'b' :: rest | '0' :: 'B' :: rest => radixDigits? 2 rest
    | _ => decimal? cs

def read? (cs : List Char) : Option NumericLiteral := ofTrimmed? (Text.trimBlanks cs)

/-- The double of a literal.  Digits of a base are taken in one by one, each step rounded. -/
def toFloat : NumericLiteral → Float
  | .blank => 0.0
  | .infinity negative => if negative then Binary64.negativeInfinity else Binary64.infinity
  | .radix base digits =>
    digits.foldl (fun acc d => acc * Float.ofNat base + Float.ofNat d) 0.0
  | .decimal negative value => if negative then -value.toFloat else value.toFloat

end NumericLiteral

end ScriptMachine
