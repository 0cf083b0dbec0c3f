import ScriptMachine.Host.Behaviour

/-!
# Objects

An object has a prototype, properties, and a kind that may add properties of its own: the elements of an array,
the units of a wrapped text, the parameters that an arguments object stands for.  A lazy object becomes another
one at its first use.
-/

namespace ScriptMachine

structure Shell where
  prototype : Option ObjectId
  properties : PropertyTable
  extensible : Bool
  deriving Inhabited

def Shell.new (prototype : Option ObjectId) : Shell := ⟨prototype, .empty, true⟩

inductive FunctionKind where
  | normal
  | method
  /-- Receiver and new target come from the place of definition. -/
  | arrow (this newTarget : Value)

def FunctionKind.isNormal : FunctionKind → Bool
  | .normal => true
  | _ => false

structure Closure where
  template : FunctionTemplate
  scope : ScopeId
  kind : FunctionKind

structure BoundFunction where
  target : ObjectId
  this : Value
  args : List Value

inductive ObjectKind where
  | ordinary
  | array (elements : Array Value)
  /-- While `mapped` holds at an index, the element there is the slot of the scope record. -/
  | arguments (scope : ScopeId) (mapped : List Bool)
  | primitive (v : Value)
  | error (kind : ErrorKind) (wrapped : Option HostError)
  | function (f : Closure)
  | native (f : NativeFunction)
  | bound (f : BoundFunction)
  | proxy (target : ObjectId) (handler : ProxyHandler)
  /-- Not yet made: a line for the journal when it is, and what it becomes. -/
  | lazy (line : String) (shell : Shell) (kind : ObjectKind)

instance : Inhabited ObjectKind := ⟨.ordinary⟩

structure Object extends Shell where
  kind : ObjectKind
  deriving Inhabited

namespace ObjectKind

/-- The object a kind stands for once it is made, and the journal lines of its making. -/
def settle (shell : Shell) : ObjectKind → Object × List String
  | .lazy line inner kind =>
    let (o, lines) := settle inner kind
    (o, line :: lines)
  | kind => (⟨shell, kind⟩, [])

def isLazy : ObjectKind → Bool
  | .lazy .. => true
  | _ => false

def className : ObjectKind → String
  | .ordinary | .lazy .. | .proxy .. => "Object"
  | .array _ => "Array"
  | .arguments .. => "Arguments"
  | .error .. => "Error"
  | .function _ | .native _ | .bound _ => "Function"
  | .primitive (.text _) => "String"
  | .primitive (.bool _) => "Boolean"
  | .primitive (.symbol _) => "Symbol"
  | .primitive _ => "Number"

def describe : ObjectKind → String
  | .function f => "[Function: " ++ f.template.name.display ++ "]"
  | .native f => "[Function: " ++ f.name.display ++ "]"
  | .bound _ => "[Function: bound]"
  | .array elements => "[Array(" ++ toString elements.size ++ ")]"
  | kind => "[object " ++ kind.className ++ "]"

end ObjectKind

namespace Object

def ofKind (prototype : Option ObjectId) (kind : ObjectKind) : Object := ⟨.new prototype, kind⟩

/-- The parameter an index of an arguments object stands for. -/
def mappedIndex? (mapped : List Bool) (key : PropertyKey) : Option Nat :=
  key.index?.filter fun i => mapped[i]? = some true

def mappedValue (scopes : Array Scope) (scope : ScopeId) (i : Nat) : Value :=
  ((((scopes[scope.index]?).getD default).slots[i]?).getD .undefined).orUndefined

/-- An own property, including those that the kind of the object adds. -/
def ownProperty? (scopes : Array Scope) (o : Object) (key : PropertyKey) : Option Property :=
  match o.kind with
  | .array elements =>
    match key.index? with
    | some i => ((elements[i]?).filter (fun v => !v.isEmpty)).map .plain
    | none =>
      if key = .length then some ⟨.ofNat elements.size, true, false, false⟩
      else o.properties.find? key
  | .primitive (.text t) =>
    match key.index? with
    | some i => (t.unitAt? i).map fun u => ⟨.text (.ofUnits [u]), false, true, false⟩
    | none =>
      if key = .length then some ⟨.ofNat t.length, false, false, false⟩
      else o.properties.find? key
  | .arguments scope mapped =>
    match mappedIndex? mapped key with
    | some i => some (.plain (mappedValue scopes scope i))
    | none => o.properties.find? key
  | _ => o.properties.find? key

def addedIndices (o : Object) : List Nat :=
  match o.kind with
  | .array elements =>
    (elements.toList.zipIdx.filter (fun e => !e.1.isEmpty)).map (·.2)
  | .primitive (.text t) => List.range t.length
  | .arguments _ mapped => (mapped.zipIdx.filter (·.1)).map (·.2)
  | _ => []

def addedKeys (o : Object) : List PropertyKey :=
  match o.kind with
  | .array _ | .primitive (.text _) => [.length]
  | _ => []

/-- Own keys: array indices in ascending order, then other texts, then symbols, both in order of insertion. -/
def ownKeys (o : Object) : List PropertyKey :=
  let keys := o.properties.keys
  let indices := (o.addedIndices ++ keys.filterMap PropertyKey.index?).mergeSort.eraseReps
  let texts := o.addedKeys ++ keys.filter fun k => k.index?.isNone && !k.isSymbol
  indices.map .ofNat ++ texts ++ keys.filter fun k => k.isSymbol

end Object

end ScriptMachine
