import ScriptMachine.Realm.Intrinsics

/-!
# Outlines of values

A finite picture of a value that may be part of a cyclic graph of objects.  Objects are numbered in the order in which
they are first met, so that two pictures can be told to speak of one object.  Within a picture an object is drawn once,
and only down to a certain depth; elsewhere its number stands for it.  Drawing does not make lazy objects.
-/

namespace ScriptMachine

inductive Mention where
  | intrinsic (name : String)
  | numbered (n : Nat)

/-- What an outline tells of an object apart from its properties. -/
structure Card where
  number : Nat
  shown : String
  className : String
  extensible : Bool
  prototype : Option Mention
  wrapped : Option Value
  /-- The kind of an error object, and whether it carries a host error. -/
  error : Option (ErrorKind × Bool)

inductive Outline where
  | primitive (v : Value)
  | mention (m : Mention)
  | lazy (number : Nat) (shown : String)
  /-- The first properties, and how many there are beyond. -/
  | object (card : Card) (properties : List (PropertyKey × Property × Outline)) (more : Nat)

namespace Outline

/-- Objects met so far, in order, and those drawn in the current picture. -/
structure Sketch where
  numbers : Array ObjectId
  drawn : List ObjectId

abbrev Draw := StateM Sketch

def numberOf (o : ObjectId) : Draw Nat := do
  let s ← get
  match s.numbers.findIdx? (· = o) with
  | some n => return n
  | none =>
    set { s with numbers := s.numbers.push o }
    return s.numbers.size

def mentioned (names : Intrinsics) (o : ObjectId) : Draw Mention :=
  match names.name? o with
  | some name => return .intrinsic name
  | none => do return .numbered (← numberOf o)

def wrapped? : ObjectKind → Option Value
  | .primitive v => some v
  | _ => none

def error? : ObjectKind → Option (ErrorKind × Bool)
  | .error kind wrapped => some (kind, wrapped.isSome)
  | _ => none

def maxProperties : Nat := 40

def ofObject (σ : Store) (names : Intrinsics) (inner : Value → Draw Outline) (o : ObjectId) : Draw Outline := do
  if (← get).drawn.contains o then return .mention (.numbered (← numberOf o))
  else
    let x := σ.object o
    let number ← numberOf o
    modify fun s => { s with drawn := o :: s.drawn }
    if x.kind.isLazy then return .lazy number x.kind.describe
    else
      let prototype ← x.prototype.mapM (mentioned names)
      let keys := x.ownKeys
      let found := (keys.take maxProperties).filterMap fun key =>
        (x.ownProperty? σ.scopes key).map fun p => (key, p)
      let properties ← found.mapM fun (key, p) => do return (key, p, ← inner p.value)
      let card : Card :=
        ⟨number, x.kind.describe, x.kind.className, x.extensible, prototype, wrapped? x.kind, error? x.kind⟩
      return .object card properties (keys.length - maxProperties)

def ofValue (σ : Store) (names : Intrinsics) : Nat → Value → Draw Outline
  | 0, .object o => return .mention (← mentioned names o)
  | levels + 1, .object o =>
    match names.name? o with
    | some name => return .mention (.intrinsic name)
    | none => ofObject σ names (ofValue σ names levels) o
  | _, v => return .primitive v

def maxLevels : Nat := 4

def ofObjectInFull (σ : Store) (names : Intrinsics) (o : ObjectId) : Draw Outline :=
  ofObject σ names (ofValue σ names (maxLevels - 1)) o

def picture (x : Draw Outline) (numbers : Array ObjectId) : Outline × Array ObjectId :=
  let (o, s) := x.run ⟨numbers, []⟩
  (o, s.numbers)

end Outline

end ScriptMachine
