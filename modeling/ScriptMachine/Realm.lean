import ScriptMachine.Scope

/-!
# The realm

The objects every program finds: the global object and record, the prototypes of each kind of value, and the
symbols with a meaning of their own.
-/

namespace ScriptMachine

namespace Symbol

/-- Key of the method that opens an iterator. -/
def iterator : Symbol := ⟨0, some (Text.ofString "Symbol.iterator")⟩

/-- Key of the object that hides names from `with`. -/
def unscopables : Symbol := ⟨1, some (Text.ofString "Symbol.unscopables")⟩

/-- Marks the operands of a call with a variable number of arguments. -/
def variadicMarker : Symbol := ⟨2, some (Text.ofString "variadic")⟩

def firstFree : Nat := 3

end Symbol

structure ErrorPrototypes where
  error : ObjectId
  type : ObjectId
  reference : ObjectId
  range : ObjectId
  grammar : ObjectId

def ErrorPrototypes.of (p : ErrorPrototypes) : ErrorKind → ObjectId
  | .error | .host => p.error
  | .type => p.type
  | .reference | .uninitialized => p.reference
  | .range => p.range
  | .grammar => p.grammar

structure Realm where
  global : ObjectId
  globalScope : ScopeId
  objectPrototype : ObjectId
  functionPrototype : ObjectId
  arrayPrototype : ObjectId
  stringPrototype : ObjectId
  numberPrototype : ObjectId
  booleanPrototype : ObjectId
  symbolPrototype : ObjectId
  iteratorPrototype : ObjectId
  errorPrototypes : ErrorPrototypes
  /-- The function whose calls by name evaluate in the scope of the caller. -/
  eval : ObjectId
  arrayValues : ObjectId

end ScriptMachine
