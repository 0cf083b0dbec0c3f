import ScriptMachine.Text

/-!
# JSON documents

A reader for JSON texts.  Fields of an object keep their order and repetitions, strings keep surrogates that
stand alone, and of a number only one thing is kept: the natural number it spells with digits alone.
-/

namespace ScriptMachine

inductive Json where
  | null
  | bool (b : Bool)
  /-- A number, with its value if it is written by decimal digits and nothing else. -/
  | number (natural : Option Nat)
  | string (t : Text)
  | array (items : List Json)
  | object (fields : List (Text × Json))

namespace Json

def isSpace (c : Char) : Bool := c == ' ' || c == '\n' || c == '\t' || c == '\r'

def skipSpace (cs : List Char) : List Char := cs.dropWhile isSpace

def hexDigit? (c : Char) : Option Nat :=
  if '0' ≤ c ∧ c ≤ '9' then some (c.toNat - 48)
  else if 'a' ≤ c ∧ c ≤ 'f' then some (c.toNat - 87)
  else if 'A' ≤ c ∧ c ≤ 'F' then some (c.toNat - 55)
  else none

/-- The unit written by four hexadecimal digits, and what follows them. -/
def hexUnit? : List Char → Option (UInt16 × List Char)
  | a :: b :: c :: d :: rest => do
    let a ← hexDigit? a
    let b ← hexDigit? b
    let c ← hexDigit? c
    let d ← hexDigit? d
    return ((((a * 16 + b) * 16 + c) * 16 + d).toUInt16, rest)
  | _ => none

def shortEscape? : Char → Option Char
  | '"' => some '"'
  | '\\' => some '\\'
  | '/' => some '/'
  | 'b' => some '\x08'
  | 'f' => some '\x0c'
  | 'n' => some '\n'
  | 'r' => some '\r'
  | 't' => some '\t'
  | _ => none

/-- The units of a string up to its closing quotation mark, and what follows it. -/
def stringUnits? : Nat → List Char → Option (List UInt16 × List Char)
  | 0, _ => none
  | _ + 1, [] => none
  | fuel + 1, c :: rest =>
    if c = '"' then some ([], rest)
    else if c = '\\' then
      match rest with
      | 'u' :: rest => do
        let (u, rest) ← hexUnit? rest
        let (us, rest) ← stringUnits? fuel rest
        return (u :: us, rest)
      | e :: rest => do
        let c ← shortEscape? e
        let (us, rest) ← stringUnits? fuel rest
        return (Text.encodeChar c ++ us, rest)
      | [] => none
    else if c.toNat < 0x20 then none
    else do
      let (us, rest) ← stringUnits? fuel rest
      return (Text.encodeChar c ++ us, rest)

def digits? (cs : List Char) : Option (List Char × List Char) :=
  match cs.takeWhile Char.isDigit with
  | [] => none
  | ds => some (ds, cs.dropWhile Char.isDigit)

def whole? (cs : List Char) : Option (List Char × List Char) := do
  let (ds, rest) ← digits? cs
  match ds with
  | '0' :: _ :: _ => none
  | _ => return (ds, rest)

def fraction? : List Char → Option (Bool × List Char)
  | '.' :: cs => (digits? cs).map fun r => (true, r.2)
  | cs => some (false, cs)

def exponent? : List Char → Option (Bool × List Char)
  | 'e' :: cs | 'E' :: cs =>
    let cs := match cs with
      | '+' :: r | '-' :: r => r
      | r => r
    (digits? cs).map fun r => (true, r.2)
  | cs => some (false, cs)

def number? (cs : List Char) : Option (Json × List Char) := do
  let (negative, cs) := match cs with
    | '-' :: r => (true, r)
    | r => (false, r)
  let (ds, cs) ← whole? cs
  let (fraction, cs) ← fraction? cs
  let (exponent, cs) ← exponent? cs
  let natural :=
    if negative || fraction || exponent then none
    else some (ds.foldl (fun n c => 10 * n + (c.toNat - 48)) 0)
  return (.number natural, cs)

def keyword? (word cs : List Char) : Option (List Char) :=
  if word.isPrefixOf cs then some (cs.drop word.length) else none

mutual

def value? : Nat → List Char → Option (Json × List Char)
  | 0, _ => none
  | fuel + 1, cs =>
    match skipSpace cs with
    | 'n' :: r => (keyword? "ull".toList r).map fun r => (.null, r)
    | 't' :: r => (keyword? "rue".toList r).map fun r => (.bool true, r)
    | 'f' :: r => (keyword? "alse".toList r).map fun r => (.bool false, r)
    | '"' :: r => (stringUnits? (r.length + 1) r).map fun s => (.string (Text.ofUnits s.1), s.2)
    | '[' :: r =>
      match skipSpace r with
      | ']' :: r => some (.array [], r)
      | r => (items? fuel r).map fun s => (.array s.1, s.2)
    | '\x7b' :: r =>
      match skipSpace r with
      | '\x7d' :: r => some (.object [], r)
      | r => (fields? fuel r).map fun s => (.object s.1, s.2)
    | r => number? r

def items? : Nat → List Char → Option (List Json × List Char)
  | 0, _ => none
  | fuel + 1, cs => do
    let (item, cs) ← value? fuel cs
    match skipSpace cs with
    | ',' :: r =>
      let (items, r) ← items? fuel r
      return (item :: items, r)
    | ']' :: r => return ([item], r)
    | _ => none

def fields? : Nat → List Char → Option (List (Text × Json) × List Char)
  | 0, _ => none
  | fuel + 1, cs => do
    match skipSpace cs with
    | '"' :: r =>
      let (name, r) ← stringUnits? (r.length + 1) r
      match skipSpace r with
      | ':' :: r =>
        let (v, r) ← value? fuel r
        match skipSpace r with
        | ',' :: r =>
          let (fields, r) ← fields? fuel r
          return ((Text.ofUnits name, v) :: fields, r)
        | '\x7d' :: r => return ([(Text.ofUnits name, v)], r)
        | _ => none
      | _ => none
    | _ => none

end

def read? (document : String) : Option Json := do
  let cs := document.toList
  let (v, rest) ← value? (2 * cs.length + 2) cs
  if (skipSpace rest).isEmpty then some v else none

end Json

end ScriptMachine
