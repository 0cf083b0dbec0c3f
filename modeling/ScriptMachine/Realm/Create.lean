import ScriptMachine.Store.Property

/-!
# New objects

How a realm makes objects of each kind: their prototypes and the properties they start with.
-/

namespace ScriptMachine

def Shell.ofFunction (prototype : ObjectId) (name : Text) (length : Nat) : Shell where
  prototype := some prototype
  properties :=
    (PropertyTable.empty.insert .length (.hiddenReadOnly (.ofNat length))).insert
      (.ofString "name") (.hiddenReadOnly (.text name))
  extensible := true

namespace Realm

variable (realm : Realm)

def newObject : Store.Op ObjectId := Store.newObject (.ofKind (some realm.objectPrototype) .ordinary)

def newArray (elements : List Value) : Store.Op ObjectId :=
  Store.newObject (.ofKind (some realm.arrayPrototype) (.array elements.toArray))

def newNative (f : NativeFunction) : Store.Op ObjectId :=
  Store.newObject ⟨.ofFunction realm.functionPrototype f.name f.length, .native f⟩

/-- A script function.  One that can be constructed has an object for its instances to inherit from. -/
def newFunction (f : Closure) : Store.Op ObjectId := do
  let shell := Shell.ofFunction realm.functionPrototype f.template.name f.template.length
  if f.kind.isNormal then
    let prototype ← realm.newObject
    let properties := shell.properties.insert (.ofString "prototype") ⟨.object prototype, true, false, false⟩
    Store.newObject ⟨{ shell with properties }, .function f⟩
  else
    Store.newObject ⟨shell, .function f⟩

/-- The parameter count left after some arguments are fixed, at least zero and as a 32-bit number. -/
def boundLength (length : Int64) (fixed : Nat) : Nat := (length - Int64.ofNat fixed).toInt.toNat % UInt32.size

def newBound (f : BoundFunction) : Store.Op ObjectId := do
  let name := ((← Store.get? f.target (.ofString "name")).bind Value.text?).getD .empty
  let length := ((← Store.get? f.target .length).bind Value.integer?).getD 0
  let shownName := Text.ofString ("bound " ++ name.display)
  Store.newObject
    ⟨.ofFunction realm.functionPrototype shownName (boundLength length f.args.length), .bound f⟩

def newProxy (target : ObjectId) (handler : ProxyHandler) : Store.Op ObjectId :=
  Store.newObject (.ofKind (some realm.objectPrototype) (.proxy target handler))

def makeError (kind : ErrorKind) (message : Text) (wrapped : Option HostError) : Store.Op ObjectId :=
  let properties := PropertyTable.empty.insert (.ofString "message") (.hidden (.text message))
  Store.newObject ⟨⟨some (realm.errorPrototypes.of kind), properties, true⟩, .error kind wrapped⟩

def newError (kind : ErrorKind) (message : Text) : Store.Op ObjectId := realm.makeError kind message none

def newHostError (e : HostError) : Store.Op ObjectId := realm.makeError .host (Text.ofString e.message) (some e)

def wrapperPrototype? : Value → Option ObjectId
  | .bool _ => some realm.booleanPrototype
  | .int _ | .int64 _ | .float _ => some realm.numberPrototype
  | .text _ => some realm.stringPrototype
  | .symbol _ => some realm.symbolPrototype
  | _ => none

/-- The object of a value: itself, or a wrapper around a primitive value. -/
def toObject (v : Value) : Store.Op (Outcome ObjectId) := do
  match v with
  | .object o => return .ok o
  | _ =>
    match realm.wrapperPrototype? v with
    | some p => return .ok (← Store.newObject (.ofKind (some p) (.primitive v)))
    | none => return .error (.type (.noObject (v.orUndefined.display fun _ => "")))

/-- The error object of a fault; a thrown value stands for itself. -/
def errorValue (f : Fault) : Store.Op Value := do
  match f with
  | .thrown e => return e.value
  | .host e => return .object (← realm.newHostError e)
  | f =>
    let (kind, message) := f.report
    return .object (← realm.newError kind (Text.ofString message))

end Realm

end ScriptMachine
