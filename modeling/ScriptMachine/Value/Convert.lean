import ScriptMachine.Fault
import ScriptMachine.Number.Literal

/-!
# Conversions of primitive values

Numbers of texts, and numbers and texts of primitive values.  Objects are turned into primitives by the machine,
since that may run script code; here an object counts as not a number.
-/

namespace ScriptMachine

/-- The number a text spells: an integer when its value is a safe one, NaN when the text is not numeric. -/
def Text.toNumber (t : Text) : Value :=
  match NumericLiteral.read? (Text.decode t.units) with
  | none => Value.nan
  | some .blank => .int 0
  | some literal =>
    let f := literal.toFloat
    match Binary64.integer? f with
    | some i => if Value.isSafe i then .int i else .float f
    | none => .float f

namespace Value

def primitiveNumber : Value → Outcome Value
  | .undefined | .empty | .unresolved _ _ => .ok nan
  | .null => .ok (.int 0)
  | .bool b => .ok (.int (if b then 1 else 0))
  | .text t => .ok t.toNumber
  | .symbol _ => .error (.type .symbolToNumber)
  | .object _ => .ok nan
  | v => .ok v

def primitiveText (v : Value) : Outcome Text :=
  match v.primitiveText? with
  | some t => .ok t
  | none => .error (.type .symbolToText)

def looselyEqual (a b : Value) : Bool :=
  match a.orUndefined, b.orUndefined with
  | .undefined, y => y.isNullish
  | .null, y => y.isNullish
  | x, y =>
    if y.isNullish then false
    else match x, y with
      | .text s, .text t => s == t
      | .symbol s, .symbol t => s == t
      | .object o, .object p => o == p
      | x, y =>
        match numeral x, numeral y with
        | some m, some n => numbersEqual m n
        | _, _ => false
where
  /-- The number that stands for a boolean, a text or a number in a comparison with another of these. -/
  numeral : Value → Option Value
    | .bool b => some (.int (if b then 1 else 0))
    | .text t => some t.toNumber
    | .symbol _ | .object _ => none
    | v => some v

end Value

end ScriptMachine
