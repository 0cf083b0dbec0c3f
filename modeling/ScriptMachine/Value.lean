import ScriptMachine.Text
import ScriptMachine.Number.Display

/-!
# Values

Numbers have three forms: exact integers within the safe range, 64-bit integers, and doubles.  Objects are named
by their place in the store.  Two markers never reach a script as values of their own: `empty` stands in a slot
that holds nothing yet, and `unresolved` is what a lookup that found nothing leaves for a later use to report.
-/

namespace ScriptMachine

structure ObjectId where
  index : Nat
  deriving DecidableEq, Inhabited

/-- A symbol.  Two symbols are the same when their identities are; the description is for readers. -/
structure Symbol where
  id : Nat
  description : Option Text
  deriving DecidableEq

def Symbol.display (s : Symbol) : String :=
  match s.description with
  | some d => "Symbol(" ++ d.display ++ ")"
  | none => "Symbol()"

inductive Value where
  | undefined
  | null
  | bool (b : Bool)
  /-- An integer, by convention within the safe range. -/
  | int (i : Int64)
  | int64 (i : Int64)
  | float (f : Float)
  | text (t : Text)
  | symbol (s : Symbol)
  | object (o : ObjectId)
  | empty
  /-- A name that was looked up in vain, as a member of an object or by itself. -/
  | unresolved (name : Text) (member : Bool)
  deriving Inhabited

namespace Value

/-- Integers of at most this magnitude are exact as doubles together with both neighbours. -/
def maxSafe : Int := 0x1FFFFFFFFFFFFF

def isSafe (i : Int64) : Bool := decide (-maxSafe ≤ i.toInt) && decide (i.toInt ≤ maxSafe)

/-- The value of an integer result: a double outside the safe range. -/
def ofInt (i : Int64) : Value := if isSafe i then .int i else .float (Binary64.ofInt64 i)

/-- The value of a 64-bit integer result: exact in and outside the safe range. -/
def ofInt64 (i : Int64) : Value := if isSafe i then .int i else .int64 i

def ofNat (n : Nat) : Value := ofInt64 (Int64.ofNat n)

def ofString (s : String) : Value := .text (Text.ofString s)

def nan : Value := .float Binary64.nan

def negativeZero : Value := .float Binary64.negativeZero

/-! ### Classes of values -/

def isUndefined : Value → Bool
  | .undefined => true
  | _ => false

def isNullish : Value → Bool
  | .undefined | .null => true
  | _ => false

def isEmpty : Value → Bool
  | .empty => true
  | _ => false

def isNumber : Value → Bool
  | .int _ | .int64 _ | .float _ => true
  | _ => false

def isText : Value → Bool
  | .text _ => true
  | _ => false

def isObject : Value → Bool
  | .object _ => true
  | _ => false

def isNegativeZero : Value → Bool
  | .float f => Binary64.isNegativeZero f
  | _ => false

def isNaN : Value → Bool
  | .float f => f.isNaN
  | _ => false

/-! ### Parts of values -/

def object? : Value → Option ObjectId
  | .object o => some o
  | _ => none

def text? : Value → Option Text
  | .text t => some t
  | _ => none

def float? : Value → Option Float
  | .int i | .int64 i => some (Binary64.ofInt64 i)
  | .float f => some f
  | _ => none

/-- The integer value of a whole number; negative zero has none. -/
def integer? : Value → Option Int64
  | .int i | .int64 i => some i
  | .float f => Binary64.integer? f
  | _ => none

def wholeValue? : Value → Option Int64
  | .int i | .int64 i => some i
  | _ => none

/-- The whole number that a number is equal to.  Both zeros are zero. -/
def wholeNumber? : Value → Option Int
  | .int i | .int64 i => some i.toInt
  | .float f => do
    let d ← Dyadic.ofFloat? f
    if d.isIntegral then some d.truncated else none
  | _ => none

/-- Undefined in place of the internal markers. -/
def orUndefined : Value → Value
  | .empty | .unresolved _ _ => .undefined
  | v => v

def truthy : Value → Bool
  | .undefined | .null | .empty | .unresolved _ _ => false
  | .bool b => b
  | .int i | .int64 i => i != 0
  | .float f => f != 0.0 && !f.isNaN
  | .text t => !t.isEmpty
  | .symbol _ | .object _ => true

/-! ### Equality -/

/-- Equality of numbers: of integers exactly, else as doubles. -/
def numbersEqual (a b : Value) : Bool :=
  match a.wholeValue?, b.wholeValue? with
  | some i, some j => i == j
  | _, _ => match a.float?, b.float? with
    | some x, some y => x == y
    | _, _ => false

def strictEquals : Value → Value → Bool
  | .undefined, .undefined => true
  | .null, .null => true
  | .bool a, .bool b => a == b
  | .text a, .text b => a == b
  | .symbol a, .symbol b => a == b
  | .object a, .object b => a == b
  | a, b => a.isNumber && b.isNumber && numbersEqual a b

/-- Strict equality, except that NaN equals itself and the two zeros differ. -/
def sameValue (a b : Value) : Bool :=
  match a.float?, b.float? with
  | some x, some y =>
    if x.isNaN && y.isNaN then true
    else if x == 0.0 && y == 0.0 then Binary64.signBit x == Binary64.signBit y
    else strictEquals a b
  | _, _ => strictEquals a b

/-! ### Text of values -/

def primitiveText? : Value → Option Text
  | .undefined | .empty | .unresolved _ _ => some (Text.ofString "undefined")
  | .null => some (Text.ofString "null")
  | .bool true => some (Text.ofString "true")
  | .bool false => some (Text.ofString "false")
  | .int i | .int64 i => some (Text.ofString (toString i.toInt))
  | .float f => some (Text.ofString (numberText f))
  | .text t => some t
  | .symbol _ => none
  | .object _ => some (Text.ofString "[object Object]")

def display (showObject : ObjectId → String) : Value → String
  | .text t => t.display
  | .symbol s => s.display
  | .object o => showObject o
  | v => (v.primitiveText?.map Text.display).getD ""

/-- A value with its form: texts quoted, 64-bit integers, negative zero and the markers told apart. -/
def debug (showObject : ObjectId → String) : Value → String
  | .undefined => "undefined"
  | .null => "null"
  | .bool b => toString b
  | .int i => toString i.toInt
  | .int64 i => toString i.toInt ++ "n64"
  | .float f => if Binary64.isNegativeZero f then "-0" else numberText f
  | .text t => t.quoted
  | .symbol s => s.display
  | .object o => showObject o
  | .empty => "<empty>"
  | .unresolved name _ => "<unresolved " ++ name.display ++ ">"

end Value

end ScriptMachine
