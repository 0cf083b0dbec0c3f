import ScriptMachine.Store.Property

/-!
# Names of the intrinsic objects

The objects of a realm by the names under which they are known.  An object that has several names goes by the first.
-/

namespace ScriptMachine

abbrev Intrinsics := List (String × ObjectId)

namespace Intrinsics

def object? (t : Intrinsics) (name : String) : Option ObjectId := t.lookup name

def name? (t : Intrinsics) (o : ObjectId) : Option String := (t.find? fun e => e.2 = o).map (·.1)

end Intrinsics

namespace Realm

/-- The global object, the prototypes and the functions that the realm itself holds. -/
def held (r : Realm) : Intrinsics :=
  let e := r.errorPrototypes
  [("global", r.global), ("Object.prototype", r.objectPrototype), ("Function.prototype", r.functionPrototype),
    ("Array.prototype", r.arrayPrototype), ("String.prototype", r.stringPrototype),
    ("Number.prototype", r.numberPrototype), ("Boolean.prototype", r.booleanPrototype),
    ("Symbol.prototype", r.symbolPrototype), ("Iterator.prototype", r.iteratorPrototype), ("eval", r.eval),
    ("Array.values", r.arrayValues), ("Error.prototype", e.error), ("TypeError.prototype", e.type),
    ("ReferenceError.prototype", e.reference), ("RangeError.prototype", e.range),
    ("SyntaxError.prototype", e.grammar)]

def globalFunction (r : Realm) (name : String) : Store.Op Intrinsics := do
  match ← Store.get? r.global (.ofString name) with
  | some (.object o) => return [(name, o)]
  | _ => return []

/-- The named objects of the realm, with the constructors of errors that the global object has now. -/
def intrinsics (r : Realm) : Store.Op Intrinsics := do
  let constructors ←
    ["Error", "TypeError", "ReferenceError", "RangeError", "SyntaxError"].mapM r.globalFunction
  return r.held ++ constructors.flatten

end Realm

end ScriptMachine
