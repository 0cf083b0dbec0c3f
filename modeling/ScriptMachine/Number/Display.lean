import ScriptMachine.Number.Shortest

/-!
# Number text

A number is written with its shortest digits: positionally while the decimal point stays within 21 digits to the
right of the first digit and 5 zeros to its left, else with an exponent.
-/

namespace ScriptMachine

structure NumberLayout where
  leastPoint : Int
  greatestPoint : Int
  exponentMark : String
  positiveSign : String

def NumberLayout.script : NumberLayout := ⟨-5, 21, "e", "+"⟩

def NumberLayout.positional (digits : List Char) (point : Int) : String :=
  if point ≤ 0 then "0." ++ String.ofList (List.replicate point.natAbs '0' ++ digits)
  else if (digits.length : Int) ≤ point then
    String.ofList (digits ++ List.replicate (point - digits.length).natAbs '0')
  else String.ofList (digits.take point.natAbs ++ '.' :: digits.drop point.natAbs)

def NumberLayout.scientific (l : NumberLayout) (digits : List Char) (point : Int) : String :=
  let mantissa := match digits with
    | [] => []
    | [d] => [d]
    | d :: rest => d :: '.' :: rest
  let e := point - 1
  String.ofList mantissa ++ l.exponentMark ++ (if e < 0 then "-" else l.positiveSign) ++ toString e.natAbs

def NumberLayout.write (l : NumberLayout) (d : Decimal) : String :=
  if l.leastPoint ≤ d.point ∧ d.point ≤ l.greatestPoint then
    NumberLayout.positional d.digitChars d.point
  else l.scientific d.digitChars d.point

def numberText (f : Float) : String :=
  match Dyadic.ofFloat? f with
  | none => if f.isNaN then "NaN" else if f > 0.0 then "Infinity" else "-Infinity"
  | some d =>
    if d.mantissa = 0 then "0"
    else (if d.negative then "-" else "")
      ++ NumberLayout.script.write (Decimal.shortest d.mantissa d.exponent)

end ScriptMachine
