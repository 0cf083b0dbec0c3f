import ScriptMachine.Realm.Builtins

/-!
# A toolkit of host objects

Ready-made host functions that look at the machine and drive it, iterables that follow a script, proxies and lazy
objects.  They write to the journal what happens to them.
-/

namespace ScriptMachine.Toolkit

/-! ### Host functions -/

def log (c : HostCall) : Host Value := do
  let shown ← c.arguments.mapM Host.display
  Host.log (" ".intercalate shown)
  return c.arguments.getLast?.getD .undefined

def collect (c : HostCall) : Host Value := Host.newArray (c.this :: c.arguments)

def constant (v : Value) (_ : HostCall) : Host Value := return v

def throwArgument (c : HostCall) : Host Value := Host.fail (.throwing (c.argument 0))

def failing (f : Fault) (_ : HostCall) : Host Value := Host.fail f

def invoke (c : HostCall) : Host Value := Host.call (c.argument 0) (c.argument 1) (c.arguments.drop 2)

def tryCall (c : HostCall) : Host Value := do
  match ← Host.ofOutcome (← Host.ask (.tryCall (c.argument 0) .undefined c.arguments.tail)) with
  | .ok v => Host.newArray [.bool true, v]
  | .error e =>
    Host.newArray [.bool false, e.value, .ofString ("|".intercalate (e.trace.map TraceFrame.display))]

def construct (c : HostCall) : Host Value := Host.construct (c.argument 0) c.arguments.tail none

def constructFor (c : HostCall) : Host Value := Host.construct (c.argument 0) (c.arguments.drop 2) (some (c.argument 1))

def info (c : HostCall) : Host Value := do
  let interrupted ← Host.ask .interrupted
  Host.newArray [
    c.this, .bool c.newTarget.isSome, c.newTarget.getD .undefined, .text c.functionName, .bool interrupted]

def depths (_ : HostCall) : Host Value := do
  let (frames, loops, scopes) ← Host.ask .depths
  Host.newArray [.ofNat frames, .ofNat loops, .ofNat scopes]

def trace (_ : HostCall) : Host Value := do
  let trace ← Host.ask .trace
  Host.newArray (trace.map fun f => .ofString f.display)

def trip (i : Interrupt) (_ : HostCall) : Host Value := do
  Host.ask (.setInterrupt i)
  return .bool (← Host.ask .interrupted)

def untrip (_ : HostCall) : Host Value := do
  Host.ask .clearInterrupt
  return .bool (← Host.ask .interrupted)

/-- Evaluate a text in the scope of the caller; other values stand for themselves. -/
def evaluateDirect (strict : Bool) (c : HostCall) : Host Value := do
  match c.argument 0 with
  | .text source => Host.evaluate source true strict c.this
  | v => return v

def items (limit : Option ItemLimit) (c : HostCall) : Host Value := do
  Host.newArray (← Host.ofOutcome (← Host.ask (.items (c.argument 0) limit)))

def toNumber (c : HostCall) : Host Value := Host.toNumber (c.argument 0)

def memory (_ : HostCall) : Host Value := return .ofNat (← Host.ask .memory)

/-- A property whose attributes are spelled by the letters `w`, `e` and `c`. -/
def flagged (v : Value) (flags : String) : Property :=
  ⟨v, flags.toList.contains 'w', flags.toList.contains 'e', flags.toList.contains 'c'⟩

def define (c : HostCall) : Host Value := do
  match c.argument 0 with
  | .object o =>
    let key ← Host.ofOutcome (← Host.ask (.toPropertyKey (c.argument 1)))
    let flags ← Host.display (c.argument 3)
    return .bool (← Host.define o key (flagged (c.argument 2) flags) true)
  | _ => return .undefined

inductive ConstructStyle where
  | primitive
  | failing
  | recording

def ConstructStyle.behaviour (style : ConstructStyle) (args : List Value) (newTarget : Value) : Host Value := do
  match style with
  | .primitive => return .int 7
  | .failing => Host.fail (.type (.reported "ctor failed"))
  | .recording =>
    let o ← Host.newObject
    Host.put o "args" (← Host.newArray args)
    Host.put o "nt" newTarget
    return .object o

def native (name : Text) (length : Nat) (style : Option ConstructStyle) (body : HostCall → Host Value) :
    NativeFunction where
  name
  length
  call c := (body c).behaviour
  construct := style.map fun style args newTarget => (style.behaviour args newTarget).behaviour

/-! ### Iterables -/

inductive Ending where
  | done | throws | primitive | internal
  /-- A step that says neither value nor end. -/
  | bare

inductive Closing where
  | object | throws | primitive | internal
  | absent
  | value (v : Value)

structure Iterable where
  id : String
  items : List Value
  ending : Ending
  closing : Closing

namespace Iterable

def next (i : Iterable) (steps : CellId) : Host Value := do
  let p ← Host.ask (.readCell steps)
  Host.ask (.writeCell steps (p + 1))
  Host.log s!"{i.id} next {p}"
  match i.items[p]? with
  | some v => Host.iteratorResult v false
  | none =>
    match i.ending with
    | .done => Host.iteratorResult (.ofString "last") true
    | .throws => Host.fail (.throwing (.ofString "next failed"))
    | .primitive => return .int 5
    | .internal => Host.fail (.internal (.reported "next broke"))
    | .bare => return .object (← Host.newObject)

def close? (i : Iterable) : Option (Host Value) :=
  let logged (rest : Host Value) : Host Value := do
    Host.log s!"{i.id} return"
    rest
  match i.closing with
  | .object => some (logged do return .object (← Host.newObject))
  | .throws => some (logged (Host.fail (.throwing (.ofString "return failed"))))
  | .primitive => some (logged (return .null))
  | .internal => some (logged (Host.fail (.internal (.reported "return broke"))))
  | .absent | .value _ => none

def iterator (i : Iterable) : Host Value := do
  Host.log s!"{i.id} open"
  let o ← Host.newObject
  let steps ← Host.ask (.newCell 0)
  Host.put o "next" (.object (← Host.makeNative "next" 0 fun _ => i.next steps))
  match i.close?, i.closing with
  | some body, _ => Host.put o "return" (.object (← Host.makeNative "return" 0 fun _ => body))
  | none, .value v => Host.put o "return" v
  | none, _ => pure ()
  return .object o

def create (realm : Realm) (i : Iterable) : Store.Op ObjectId := do
  let f ← realm.newNative (Builtins.native "[Symbol.iterator]" 0 fun _ => i.iterator)
  let o ← realm.newObject
  let _ ← Store.put o (.symbol .iterator) (.object f)
  return o

end Iterable

/-! ### Proxies -/

def taggingHandler : ProxyHandler :=
  { ProxyHandler.forward with
    apply := fun target this args => Host.behaviour do
      let v ← Host.call (.object target) this args
      return .ofString ("proxied " ++ (← Host.display v)) }

def refusingHandler : ProxyHandler where
  apply _ _ args := .done (.error (.type (.reported s!"apply trap {args.length}")))
  construct _ args _ := .done (.error (.range (.reported s!"construct trap {args.length}")))

/-! ### Lazy objects -/

inductive LazyForm where
  | object | array | native
  | twice

def numberedProperties (items : List Value) : PropertyTable :=
  items.zipIdx.foldl (fun t (v, i) => t.insert (.ofString s!"k{i}") (.plain v)) .empty

def argumentsArray (c : HostCall) : Host Value := Host.newArray c.arguments

/-- A lazy object that becomes an ordinary one with some properties. -/
def lazyObject (realm : Realm) (items : List Value) : ObjectKind :=
  .lazy "lazy object" ⟨some realm.objectPrototype, numberedProperties items, true⟩ .ordinary

def lazyKind (realm : Realm) (form : LazyForm) (items : List Value) : ObjectKind :=
  match form with
  | .object => lazyObject realm items
  | .array => .lazy "lazy array" (.new (some realm.arrayPrototype)) (.array items.toArray)
  | .native =>
    .lazy "lazy native" (.new (some realm.functionPrototype)) (.native (Builtins.native "lazyNative" 0 argumentsArray))
  | .twice => .lazy "lazy outer" (.new none) (lazyObject realm items)

def newLazy (realm : Realm) (form : LazyForm) (items : List Value) : Store.Op ObjectId :=
  Store.newObject (.ofKind none (lazyKind realm form items))

end ScriptMachine.Toolkit
