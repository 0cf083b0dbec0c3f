import ScriptMachine.Realm.Create

/-!
# Built-in functions

The functions of a new realm, written as host code, and the realm itself.
-/

namespace ScriptMachine

namespace Builtins

def objectToString (c : HostCall) : Host Value := do
  let tag ← match c.this with
    | .undefined => pure "Undefined"
    | .null => pure "Null"
    | v => do Host.ask (.className (← Host.toObject v))
  return .ofString ("[object " ++ tag ++ "]")

def objectValueOf (c : HostCall) : Host Value := return .object (← Host.toObject c.this)

def functionCall (c : HostCall) : Host Value := Host.call c.this (c.argument 0) c.arguments.tail

/-- Fix receiver and first arguments of the receiver. -/
def functionBind (c : HostCall) : Host Value := do
  match c.this with
  | .object target =>
    if ← Host.ask (.isCallable target) then
      return .object (← Host.ask (.newBound target (c.argument 0) c.arguments.tail))
    else Host.fail (.type .bindTarget)
  | _ => Host.fail (.type .bindTarget)

def lengthOf (o : ObjectId) : Host Nat := do
  let length := (← Host.get o .length).getD .undefined
  return (← Host.toNumber length).toUInt32.toNat

/-- Append the texts of the next `n` items of an array-like object to the units so far, which are held in
reverse. -/
def joinItems (o : ObjectId) : Nat → Nat → List UInt16 → Host Value
  | 0, _, units => return .text (.ofUnits units.reverse)
  | n + 1, i, units => do
    let units := if i = 0 then units else 44 :: units
    let item := (← Host.get o (.ofNat i)).getD .undefined
    if item.isNullish then joinItems o n (i + 1) units
    else
      let t ← Host.toText item
      joinItems o n (i + 1) (t.units.reverse ++ units)

def arrayToString (c : HostCall) : Host Value := do
  let o ← Host.toObject c.this
  joinItems o (← lengthOf o) 0 []

def pushAll (o : ObjectId) : List Value → Host Unit
  | [] => return ()
  | v :: rest => do
    Host.ofOutcome (← Host.ask (.pushItem o v))
    pushAll o rest

def arrayPush (c : HostCall) : Host Value := do
  let o ← Host.toObject c.this
  pushAll o c.arguments
  return (← Host.get o .length).getD .undefined

/-- One step of an iterator over an array-like object.  Once exhausted it stays so. -/
def arrayNext (source : ObjectId) (position exhausted : CellId) : Host Value := do
  if (← Host.ask (.readCell exhausted)) ≠ 0 then Host.iteratorResult .undefined true
  else
    let i ← Host.ask (.readCell position)
    if (← lengthOf source) ≤ i then
      Host.ask (.writeCell exhausted 1)
      Host.iteratorResult .undefined true
    else
      Host.ask (.writeCell position (i + 1))
      Host.iteratorResult ((← Host.get source (.ofNat i)).getD .undefined) false

def arrayValues (c : HostCall) : Host Value := do
  let source ← Host.toObject c.this
  let position ← Host.ask (.newCell 0)
  let exhausted ← Host.ask (.newCell 0)
  let next ← Host.makeNative "next" 0 fun _ => arrayNext source position exhausted
  let realm ← Host.ask .realm
  let o ← Host.ask (.newObject (some realm.iteratorPrototype))
  let _ ← Host.ask (.define o (.ofString "next") (.hidden (.object next)) false)
  return .object o

def iteratorSelf (c : HostCall) : Host Value := return c.this

/-- `eval` other than by name: in the global scope, not strict. -/
def indirectEval (c : HostCall) : Host Value := do
  match c.arguments with
  | .text source :: _ =>
    let realm ← Host.ask .realm
    Host.evaluate source false false (.object realm.global)
  | v :: _ => return v
  | [] => return .undefined

def errorMessage (v : Value) : Host Text := if v.isUndefined then return .empty else Host.toText v

def errorCall (kind : ErrorKind) (c : HostCall) : Host Value := do
  return .object (← Host.ask (.newError kind (← errorMessage (c.argument 0))))

def errorConstruct (kind : ErrorKind) (args : List Value) (newTarget : Value) : Host Value := do
  let e ← Host.ask (.newError kind (← errorMessage ((args[0]?).getD .undefined)))
  match newTarget with
  | .object t =>
    match ← Host.get t (.ofString "prototype") with
    | some (.object p) =>
      let _ ← Host.ask (.setPrototype e (some p))
      return .object e
    | _ => return .object e
  | _ => return .object e

def native (name : String) (length : Nat) (body : HostCall → Host Value) : NativeFunction where
  name := Text.ofString name
  length
  call c := (body c).behaviour
  construct := none

def errorConstructor (kind : ErrorKind) : NativeFunction where
  name := Text.ofString kind.name
  length := 1
  call c := (errorCall kind c).behaviour
  construct := some fun args newTarget => (errorConstruct kind args newTarget).behaviour

end Builtins

namespace Realm

open Store

def hide (o : ObjectId) (key : PropertyKey) (v : Value) : Op Unit := do
  let _ ← define o key (.hidden v) false

def fix (o : ObjectId) (key : String) (v : Value) : Op Unit := do
  let _ ← define o (.ofString key) (.permanent v) false

def errorPrototype (kind : ErrorKind) (parent : ObjectId) : Op ObjectId := do
  let o ← Store.newObject (.ofKind (some parent) .ordinary)
  hide o (.ofString "name") (.ofString kind.name)
  hide o (.ofString "message") (.ofString "")
  return o

def skeleton : Op Realm := do
  let objectPrototype ← Store.newObject (.ofKind none .ordinary)
  let make := fun kind => Store.newObject (.ofKind (some objectPrototype) kind)
  let functionPrototype ← make .ordinary
  let arrayPrototype ← make (.array #[])
  let stringPrototype ← make (.primitive (.text .empty))
  let numberPrototype ← make (.primitive (.int 0))
  let booleanPrototype ← make (.primitive (.bool false))
  let symbolPrototype ← make .ordinary
  let iteratorPrototype ← make .ordinary
  let global ← make .ordinary
  let error ← errorPrototype .error objectPrototype
  let type ← errorPrototype .type error
  let reference ← errorPrototype .reference error
  let range ← errorPrototype .range error
  let grammar ← errorPrototype .grammar error
  let makeNative := fun (f : NativeFunction) =>
    Store.newObject ⟨.ofFunction functionPrototype f.name f.length, .native f⟩
  let arrayValues ← makeNative (Builtins.native "values" 0 Builtins.arrayValues)
  let eval ← makeNative (Builtins.native "eval" 1 Builtins.indirectEval)
  let globalScope ← newScope { Scope.new none with names := some .empty, holdsVars := true }
  return {
    global, globalScope, objectPrototype, functionPrototype, arrayPrototype, stringPrototype, numberPrototype
    booleanPrototype, symbolPrototype, iteratorPrototype, eval, arrayValues
    errorPrototypes := { error, type, reference, range, grammar } }

def method (realm : Realm) (o : ObjectId) (key : PropertyKey) (f : NativeFunction) : Op Unit := do
  hide o key (.object (← realm.newNative f))

def installPrototypes (realm : Realm) : Op Unit := do
  let named := fun o name length body =>
    realm.method o (.ofString name) (Builtins.native name length body)
  named realm.objectPrototype "toString" 0 Builtins.objectToString
  named realm.objectPrototype "valueOf" 0 Builtins.objectValueOf
  named realm.functionPrototype "call" 1 Builtins.functionCall
  named realm.functionPrototype "bind" 1 Builtins.functionBind
  named realm.arrayPrototype "toString" 0 Builtins.arrayToString
  named realm.arrayPrototype "push" 1 Builtins.arrayPush
  hide realm.arrayPrototype (.ofString "values") (.object realm.arrayValues)
  hide realm.arrayPrototype (.symbol .iterator) (.object realm.arrayValues)
  hide realm.stringPrototype (.symbol .iterator) (.object realm.arrayValues)
  realm.method realm.iteratorPrototype (.symbol .iterator)
    (Builtins.native "[Symbol.iterator]" 0 Builtins.iteratorSelf)

def installError (realm : Realm) (kind : ErrorKind) : Op Unit := do
  let o ← realm.newNative (Builtins.errorConstructor kind)
  fix o "prototype" (.object (realm.errorPrototypes.of kind))
  hide realm.global (.ofString kind.name) (.object o)

def installGlobals (realm : Realm) : Op Unit := do
  hide realm.global (.ofString "globalThis") (.object realm.global)
  hide realm.global (.ofString "eval") (.object realm.eval)
  fix realm.global "undefined" .undefined
  fix realm.global "NaN" .nan
  fix realm.global "Infinity" (.float Binary64.infinity)

def create : Op Realm := do
  let realm ← skeleton
  realm.installPrototypes
  realm.installError .error
  realm.installError .type
  realm.installError .reference
  realm.installError .range
  realm.installError .grammar
  realm.installGlobals
  return realm

end Realm

end ScriptMachine
