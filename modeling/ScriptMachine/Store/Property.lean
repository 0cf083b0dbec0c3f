import ScriptMachine.Store

/-!
# Properties of stored objects

Reading, assigning, defining and deleting properties, and what depends on the prototype chain.  A failed
operation reports `false`, or in strict mode a type error.

Chains of prototypes, of proxies and of bound functions are followed for as many steps as the store has objects,
which is enough for every chain that does not return to itself.
-/

namespace ScriptMachine.Store

/-! ### Reading -/

def prototype? (o : ObjectId) : Op (Option ObjectId) := do return (← made o).prototype

def isExtensible (o : ObjectId) : Op Bool := do return (← made o).extensible

def className (o : ObjectId) : Op String := do return (← made o).kind.className

def ownProperty? (o : ObjectId) (key : PropertyKey) : Op (Option Property) := do
  let x ← made o
  return x.ownProperty? (← get).scopes key

def ownKeys (o : ObjectId) : Op (List PropertyKey) := do return (← made o).ownKeys

def hasOwn (o : ObjectId) (key : PropertyKey) : Op Bool := do return (← ownProperty? o key).isSome

/-- The property nearest along the prototype chain, within a number of objects. -/
def findWithin (key : PropertyKey) : Nat → ObjectId → Op (Option Property)
  | 0, _ => return none
  | n + 1, o => do
    let x ← made o
    match x.ownProperty? (← get).scopes key, x.prototype with
    | some p, _ => return some p
    | none, some p => findWithin key n p
    | none, none => return none

def find? (o : ObjectId) (key : PropertyKey) : Op (Option Property) := do
  findWithin key (← get).objects.size o

def get? (o : ObjectId) (key : PropertyKey) : Op (Option Value) := do
  return (← find? o key).map (·.value)

def has (o : ObjectId) (key : PropertyKey) : Op Bool := do return (← find? o key).isSome

def elements? (o : ObjectId) : Op (Option (List Value)) := do
  match (← made o).kind with
  | .array elements => return some (elements.toList.map Value.orUndefined)
  | _ => return none

/-! ### Callable objects -/

def isCallableWithin : Nat → ObjectId → Op Bool
  | 0, _ => return false
  | n + 1, o => do
    match (← made o).kind with
    | .function _ | .native _ | .bound _ => return true
    | .proxy target _ => isCallableWithin n target
    | _ => return false

def isCallable (o : ObjectId) : Op Bool := do isCallableWithin (← get).objects.size o

def isConstructorWithin : Nat → ObjectId → Op Bool
  | 0, _ => return false
  | n + 1, o => do
    match (← made o).kind with
    | .function f => return f.kind.isNormal
    | .native f => return f.construct.isSome
    | .bound f => isConstructorWithin n f.target
    | .proxy target _ => isConstructorWithin n target
    | _ => return false

def isConstructor (o : ObjectId) : Op Bool := do isConstructorWithin (← get).objects.size o

/-! ### Assigning -/

def resize (elements : Array Value) (n : Nat) : Array Value :=
  if n ≤ elements.size then elements.extract 0 n
  else elements ++ Array.replicate (n - elements.size) .empty

/-- The length a value gives an array: a whole number below `2 ^ 32`. -/
def arrayLength? (v : Value) : Option Nat := do
  let n ← v.wholeNumber?
  if 0 ≤ n ∧ n < UInt32.size then some n.toNat else none

/-- The elements with one set, filled up with holes as far as needed. -/
def setElement (elements : Array Value) (i : Nat) (v : Value) : Array Value :=
  let elements := if i < elements.size then elements else resize elements (i + 1)
  elements.setIfInBounds i v

def isTextKey (t : Text) (key : PropertyKey) : Bool := key = .length || (key.index?.any fun i => decide (i < t.length))

/-- What the kind of an object makes of an assignment: done or refused, or nothing in particular. -/
def assignByKind (σ : Store) (o : ObjectId) (key : PropertyKey) (v : Value) : Outcome (Option Bool × Store) :=
  let x := σ.object o
  match x.kind with
  | .array elements =>
    match key.index? with
    | some i =>
      if elements.size ≤ i ∧ !x.extensible then .ok (some false, σ)
      else .ok (some true, σ.setObject o { x with kind := .array (setElement elements i v) })
    | none =>
      if key = .length then
        match arrayLength? v with
        | some n => .ok (some true, σ.setObject o { x with kind := .array (resize elements n) })
        | none => .error (.range .arrayLength)
      else .ok (none, σ)
  | .primitive (.text t) => .ok (if isTextKey t key then some false else none, σ)
  | .arguments scope mapped =>
    match Object.mappedIndex? mapped key with
    | some i => .ok (some true, σ.modifyScope scope fun s => { s with slots := s.slots.setIfInBounds i v })
    | none => .ok (none, σ)
  | _ => .ok (none, σ)

def granted (ok strict : Bool) (refusal : TypeCause) : Outcome Bool :=
  if !ok && strict then .error (.type refusal) else .ok ok

/-- Assign to a property of the table, or add one; an inherited property that is read only forbids it. -/
def assignInTable (o : ObjectId) (key : PropertyKey) (v : Value) : Op Bool := do
  let x := (← get).object o
  match x.properties.find? key with
  | some p =>
    if p.writable then
      modify fun σ => σ.setObject o { x with properties := x.properties.insert key { p with value := v } }
      return true
    else return false
  | none =>
    let inherited ← match x.prototype with
      | some p => find? p key
      | none => pure none
    if (inherited.any fun p => !p.writable) || !x.extensible then return false
    else
      modify fun σ => σ.modifyObject o fun x => { x with properties := x.properties.insert key (.plain v) }
      return true

def assign (o : ObjectId) (key : PropertyKey) (v : Value) (strict : Bool) : Op (Outcome Bool) := do
  materialize o
  match assignByKind (← get) o key v with
  | .error f => return .error f
  | .ok (some ok, σ) =>
    set σ
    return granted ok strict (.readOnly key.display)
  | .ok (none, _) => return granted (← assignInTable o key v) strict (.readOnly key.display)

/-! ### Defining -/

def mayDefine (extensible : Bool) (current : Option Property) (p : Property) : Bool :=
  match current with
  | none => extensible
  | some c =>
    c.configurable ||
      (!p.configurable && p.enumerable == c.enumerable
        && (c.writable || (!p.writable && p.value.sameValue c.value)))

def defineAllowed (σ : Store) (o : ObjectId) (key : PropertyKey) (p : Property) : Outcome Store :=
  let x := σ.object o
  match x.kind with
  | .array elements =>
    match key.index? with
    | some i => .ok (σ.setObject o { x with kind := .array (setElement elements i p.value) })
    | none =>
      if key = .length then
        match arrayLength? p.value with
        | some n => .ok (σ.setObject o { x with kind := .array (resize elements n) })
        | none => .error (.range .arrayLength)
      else .ok (σ.setObject o { x with properties := x.properties.insert key p })
  | .arguments scope mapped =>
    let mapped := match Object.mappedIndex? mapped key with
      | some i => mapped.set i false
      | none => mapped
    .ok (σ.setObject o { x with kind := .arguments scope mapped, properties := x.properties.insert key p })
  | _ => .ok (σ.setObject o { x with properties := x.properties.insert key p })

def define (o : ObjectId) (key : PropertyKey) (p : Property) (strict : Bool) : Op (Outcome Bool) := do
  let current ← ownProperty? o key
  let σ ← get
  if mayDefine (σ.object o).extensible current p then
    match defineAllowed σ o key p with
    | .ok σ =>
      set σ
      return .ok true
    | .error f => return .error f
  else return granted false strict (.redefinition key.display)

def put (o : ObjectId) (key : PropertyKey) (v : Value) : Op Bool := do
  return (← define o key (.plain v) false).toOption.getD false

/-! ### Deleting -/

def deleteByKind (x : Object) (key : PropertyKey) : Option (Bool × Object) :=
  match x.kind with
  | .array elements =>
    match key.index? with
    | some i => some (true, { x with kind := .array (elements.setIfInBounds i .empty) })
    | none => if key = .length then some (false, x) else none
  | .primitive (.text t) => if isTextKey t key then some (false, x) else none
  | .arguments scope mapped =>
    (Object.mappedIndex? mapped key).map fun i =>
      (true, { x with kind := .arguments scope (mapped.set i false) })
  | _ => none

def delete (o : ObjectId) (key : PropertyKey) (strict : Bool) : Op (Outcome Bool) := do
  let x ← made o
  let (ok, x) := match deleteByKind x key with
    | some r => r
    | none => match x.properties.find? key with
      | some p => if p.configurable then (true, { x with properties := x.properties.erase key }) else (false, x)
      | none => (true, x)
  modify fun σ => σ.setObject o x
  return granted ok strict (.undeletable key.display)

/-! ### Prototypes, extensibility, elements -/

/-- Whether following prototypes from `start` leads to `o`. -/
def reachesWithin (o : ObjectId) : Nat → Option ObjectId → Op Bool
  | _, none => return false
  | 0, some _ => return true
  | n + 1, some p => do
    if p = o then return true
    else reachesWithin o n (← prototype? p)

/-- Set the prototype.  Refused when the object would inherit from itself, or is not extensible and the
prototype is another one. -/
def setPrototype (o : ObjectId) (prototype : Option ObjectId) : Op Bool := do
  materialize o
  if ← reachesWithin o (← get).objects.size prototype then return false
  else
    let x := (← get).object o
    if x.extensible then
      modify fun σ => σ.modifyObject o fun x => { x with prototype }
      return true
    else return x.prototype = prototype

def preventExtensions (o : ObjectId) : Op Unit := do
  materialize o
  modify fun σ => σ.modifyObject o fun x => { x with extensible := false }

def pushItem (o : ObjectId) (v : Value) : Op (Outcome Unit) := do
  match ((← get).object o).kind with
  | .array elements =>
    if 0xFFFFFFFF ≤ elements.size then return .error (.range .arrayLength)
    else
      modify fun σ => σ.modifyObject o fun x => { x with kind := .array (elements.push v) }
      return .ok ()
  | _ => return .error (.type .notArray)

/-! ### Objects as scopes -/

/-- Whether an object provides a name to a `with` scope: it has the property, and does not hide it. -/
def provides (o : ObjectId) (name : Text) : Op Bool := do
  if !(← has o (.text name)) then return false
  else match ← get? o (.symbol .unscopables) with
    | some (.object hidden) =>
      match ← get? hidden (.text name) with
      | some flag => return !flag.truthy
      | none => return true
    | _ => return true

/-- Read a name in a single record; absent when the record does not provide it. -/
def readName (s : ScopeId) (name : Text) : Op (Outcome (Option Value)) := do
  let x := (← get).scope s
  match x.object with
  | some o =>
    if ← provides o name then return .ok (some ((← get? o (.text name)).getD .undefined))
    else return .ok none
  | none => return x.read? name

end ScriptMachine.Store
