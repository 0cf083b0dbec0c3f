import ScriptMachine.Limits
import ScriptMachine.Program
import ScriptMachine.Property
import ScriptMachine.Realm

/-!
# Host functions

A host function is a tree of requests to the machine: it asks for one operation, and how it goes on depends on
the answer.  Since a tree is all the machine knows of a host function, what every request keeps, every host
function keeps.

`Host` is the monad in which such trees are written.
-/

namespace ScriptMachine

structure CellId where
  index : Nat
  deriving DecidableEq

structure HostCall where
  this : Value
  arguments : List Value
  /-- The constructor that `new` was applied to; absent in a plain call. -/
  newTarget : Option Value
  functionName : Text

def HostCall.argument (c : HostCall) (i : Nat) : Value := (c.arguments[i]?).getD .undefined

inductive Interrupt where
  /-- Run a callback and go on: the lines it writes to the journal, and how it fails. -/
  | callback (lines : List String) (failure : Option HostError)
  | error (e : HostError)
  | data (text : Option String)

inductive Hint where
  | default | number | text
  deriving DecidableEq

structure IteratorId where
  index : Nat
  deriving DecidableEq

/-- How many items a host function takes before it fails, and how it fails then. -/
structure ItemLimit where
  count : Nat
  fault : Fault

inductive HostOp where
  | call (callee this : Value) (args : List Value)
  | tryCall (callee this : Value) (args : List Value)
  | construct (callee : Value) (args : List Value) (newTarget : Option Value)
  | evaluate (source : Text) (direct strict : Bool) (this : Value)
  | runProgram (p : ProgramId)
  | toPrimitive (v : Value) (hint : Hint)
  | toNumber (v : Value)
  | toText (v : Value)
  | toPropertyKey (v : Value)
  | toObject (v : Value)
  | looseEquals (a b : Value)
  | instanceOf (v target : Value)
  | hasIn (key target : Value)
  | items (iterable : Value) (limit : Option ItemLimit)
  | openIterator (iterable : Value)
  | stepIterator (i : IteratorId)
  | closeIterator (i : IteratorId)
  | getProperty (v : Value) (key : PropertyKey)
  | putProperty (v : Value) (key : PropertyKey) (x : Value) (strict : Bool)
  | copyProperties (target : ObjectId) (source : Value)
  | get (o : ObjectId) (key : PropertyKey)
  | define (o : ObjectId) (key : PropertyKey) (p : Property) (strict : Bool)
  | assign (o : ObjectId) (key : PropertyKey) (v : Value) (strict : Bool)
  | delete (o : ObjectId) (key : PropertyKey) (strict : Bool)
  | ownProperty (o : ObjectId) (key : PropertyKey)
  | ownKeys (o : ObjectId)
  | preventExtensions (o : ObjectId)
  | setPrototype (o : ObjectId) (prototype : Option ObjectId)
  | pushItem (o : ObjectId) (v : Value)
  | isCallable (o : ObjectId)
  | className (o : ObjectId)
  | newObject (prototype : Option ObjectId)
  | newArray (elements : List Value)
  | newBound (target : ObjectId) (this : Value) (args : List Value)
  | newError (kind : ErrorKind) (message : Text)
  | newCell (n : Nat)
  | readCell (c : CellId)
  | writeCell (c : CellId) (n : Nat)
  | setInterrupt (i : Interrupt)
  | clearInterrupt
  | setLimits (l : Limits)
  | setCompiler (c : Compiler)
  | interrupted
  /-- Saved frames, open loops, and scope records made so far. -/
  | depths
  | trace
  | memory
  | log (line : String)
  | display (v : Value)
  | realm

@[reducible] def HostOp.Answer : HostOp → Type
  | .call .. | .construct .. | .evaluate .. | .runProgram .. | .toPrimitive .. | .toNumber .. => Outcome Value
  | .tryCall .. => Outcome (Except Exception Value)
  | .toText .. => Outcome Text
  | .toPropertyKey .. => Outcome PropertyKey
  | .toObject .. => Outcome ObjectId
  | .items .. => Outcome (List Value)
  | .openIterator .. => Outcome IteratorId
  | .get .. => Option Value
  | .getProperty .. | .stepIterator .. => Outcome (Option Value)
  | .ownProperty .. => Option Property
  | .ownKeys .. => List PropertyKey
  | .define .. | .assign .. | .delete .. | .looseEquals .. | .instanceOf .. | .hasIn .. => Outcome Bool
  | .pushItem .. | .putProperty .. | .copyProperties .. | .closeIterator .. => Outcome Unit
  | .setPrototype .. | .isCallable .. | .interrupted => Bool
  | .className .. | .display .. => String
  | .newObject .. | .newArray .. | .newBound .. | .newError .. => ObjectId
  | .newCell .. => CellId
  | .readCell .. | .memory => Nat
  | .writeCell .. | .setInterrupt .. | .clearInterrupt | .setLimits .. | .setCompiler .. => Unit
  | .preventExtensions .. | .log .. => Unit
  | .depths => Nat × Nat × Nat
  | .trace => Trace
  | .realm => Realm

inductive Behaviour where
  | done (outcome : Outcome Value)
  | ask (op : HostOp) (next : op.Answer → Behaviour)
  | makeNative (name : Text) (length : Nat) (body : HostCall → Behaviour) (next : ObjectId → Behaviour)

instance : Inhabited Behaviour := ⟨.done (.ok .undefined)⟩

/-- Host code that yields an `α`: what is done, given what is done with the `α`. -/
def Host (α : Type) : Type := (α → Behaviour) → Behaviour

namespace Host

instance : Monad Host where
  pure a := fun k => k a
  bind m f := fun k => m fun a => f a k

def behaviour (m : Host Value) : Behaviour := m fun v => .done (.ok v)

def fail (f : Fault) : Host α := fun _ => .done (.error f)

def ask (op : HostOp) : Host op.Answer := fun k => .ask op k

def ofOutcome : Outcome α → Host α
  | .ok a => pure a
  | .error f => fail f

def call (callee this : Value) (args : List Value) : Host Value := do
  ofOutcome (← ask (.call callee this args))

def construct (callee : Value) (args : List Value) (newTarget : Option Value) : Host Value := do
  ofOutcome (← ask (.construct callee args newTarget))

def evaluate (source : Text) (direct strict : Bool) (this : Value) : Host Value := do
  ofOutcome (← ask (.evaluate source direct strict this))

def toNumber (v : Value) : Host Value := do ofOutcome (← ask (.toNumber v))

def toText (v : Value) : Host Text := do ofOutcome (← ask (.toText v))

def toObject (v : Value) : Host ObjectId := do ofOutcome (← ask (.toObject v))

def get (o : ObjectId) (key : PropertyKey) : Host (Option Value) := ask (.get o key)

def define (o : ObjectId) (key : PropertyKey) (p : Property) (strict : Bool) : Host Bool := do
  ofOutcome (← ask (.define o key p strict))

def put (o : ObjectId) (key : String) (v : Value) : Host Unit := do
  let _ ← ask (.define o (.ofString key) (.plain v) false)

def newObject : Host ObjectId := do
  let realm ← ask .realm
  ask (.newObject (some realm.objectPrototype))

def newArray (elements : List Value) : Host Value := do
  return .object (← ask (.newArray elements))

def makeNative (name : String) (length : Nat) (body : HostCall → Host Value) : Host ObjectId :=
  fun k => .makeNative (Text.ofString name) length (fun c => (body c).behaviour) k

def log (line : String) : Host Unit := ask (.log line)

def display (v : Value) : Host String := ask (.display v)

def iteratorResult (v : Value) (done : Bool) : Host Value := do
  let o ← newObject
  put o "value" v
  put o "done" (.bool done)
  return .object o

end Host

structure NativeFunction where
  name : Text
  length : Nat
  call : HostCall → Behaviour
  construct : Option (List Value → Value → Behaviour)

structure ProxyHandler where
  apply : ObjectId → Value → List Value → Behaviour
  construct : ObjectId → List Value → Value → Behaviour

namespace ProxyHandler

def forward : ProxyHandler where
  apply target this args := (Host.call (.object target) this args).behaviour
  construct target args newTarget := (Host.construct (.object target) args (some newTarget)).behaviour

end ProxyHandler

end ScriptMachine
