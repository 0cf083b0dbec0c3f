import ScriptMachine.Machine.Convert

/-!
# Members of values

Reading, assigning and deleting members, and the instructions that build object literals.
-/

namespace ScriptMachine.VM

/-! ### Reading -/

/-- A member of a value, absent when there is none.  A primitive value has the members of its wrapper. -/
def getProperty (v : Value) (key : PropertyKey) : VM (Option Value) := do
  match v with
  | .object o => onStore (Store.get? o key)
  | .undefined | .null | .empty | .unresolved .. =>
    raise (.type (.memberRead key.display (← display v.orUndefined)))
  | v =>
    let o ← toObject v
    onStore (Store.get? o key)

/-- A member of a value.  A missing one reads as undefined, or as a marker that a call will report. -/
def propertyOrMarker (v : Value) (key : PropertyKey) (callee : Bool) : VM Value := do
  match ← getProperty v key with
  | some found => return found
  | none => return if callee then .unresolved (Text.ofString key.display) true else .undefined

def getMember (name : Text) (callee : Bool) : VM Unit := do
  let v ← peek 0
  replaceNext (← propertyOrMarker v (.text name) callee)

def getElement (enter : Enter) (read : ElementRead) : VM Unit := do
  let keyValue ← pop
  let v ← peek 0
  if v.isNullish then raise (.type (.memberRead (← display keyValue) (← display v)))
  else
    let key ← if read = .convertedKey then ofOutcome (primitiveKey keyValue) else toPropertyKey enter keyValue
    replaceNext (← propertyOrMarker v key (read = .callee))

/-! ### Assigning -/

/-- Assign a member.  Outside strict mode, members of primitive values are dropped. -/
def putProperty (v : Value) (key : PropertyKey) (x : Value) (strict : Bool) : VM Unit := do
  match v with
  | .object o =>
    let _ ← demand (Store.assign o key x strict)
  | .undefined | .null | .empty | .unresolved .. =>
    raise (.type (.memberWrite key.display (← display v.orUndefined)))
  | v =>
    if strict then raise (.type (.memberOnPrimitive key.display (← typeOf v) (← display v)))
    else return ()

def assigned (x : Value) (popped : Bool) : VM Unit := do
  if popped then advance else pushNext x

def setMember (name : Text) (strict popped : Bool) : VM Unit := do
  let x ← pop
  let v ← pop
  putProperty v (.text name) x strict
  assigned x popped

def setElement (enter : Enter) (strict popped : Bool) : VM Unit := do
  let x ← pop
  let keyValue ← pop
  let v ← pop
  if v.isNullish then raise (.type (.memberWrite (← display keyValue) (← display v)))
  else
    let key ← toPropertyKey enter keyValue
    putProperty v key x strict
    assigned x popped

/-! ### Literals -/

def literalTarget : VM ObjectId := do
  match ← peek 0 with
  | .object o => return o
  | v => raise (.internal (.literalTarget (← display v)))

def definePlain (o : ObjectId) (key : PropertyKey) (x : Value) : VM Unit := do
  let _ ← demand (Store.define o key (.plain x) true)

def defineElement (enter : Enter) : VM Unit := do
  let x ← pop
  let keyValue ← pop
  let key ← toPropertyKey enter keyValue
  definePlain (← literalTarget) key x
  advance

def defineMember (name : Text) : VM Unit := do
  let x ← pop
  definePlain (← literalTarget) (.text name) x
  advance

def setPrototype : VM Unit := do
  let prototype ← pop
  let o ← literalTarget
  match prototype with
  | .object p =>
    let _ ← onStore (Store.setPrototype o (some p))
    advance
  | .null =>
    let _ ← onStore (Store.setPrototype o none)
    advance
  | _ => advance

def pushItem : VM Unit := do
  let x ← pop
  let o ← literalTarget
  demand (Store.pushItem o x)
  advance

/-! ### References and deletion -/

def memberReference (name : Text) (strict : Bool) : VM Unit := do
  let o ← toObject (← pop)
  pushRef (.property o (.text name) strict false)
  advance

def elementReference (enter : Enter) (strict : Bool) : VM Unit := do
  let keyValue ← pop
  let o ← toObject (← pop)
  let key ← toPropertyKey enter keyValue
  pushRef (.property o key strict false)
  advance

def deleteMember (name : Text) (strict : Bool) : VM Unit := do
  let o ← toObject (← peek 0)
  replaceNext (.bool (← demand (Store.delete o (.text name) strict)))

def deleteElement (enter : Enter) (strict : Bool) : VM Unit := do
  let keyValue ← pop
  let o ← toObject (← peek 0)
  let key ← toPropertyKey enter keyValue
  replaceNext (.bool (← demand (Store.delete o key strict)))

/-! ### Copies -/

def copyKey (target source : ObjectId) (key : PropertyKey) : VM Unit := do
  match ← onStore (Store.ownProperty? source key) with
  | some p => if p.enumerable then definePlain target key p.value else return ()
  | none => return ()

def copyKeys (target source : ObjectId) : List PropertyKey → VM Unit
  | [] => return ()
  | key :: rest => do
    copyKey target source key
    copyKeys target source rest

/-- Copy the own enumerable properties of a value; null and undefined have none. -/
def copyProperties (target : ObjectId) (source : Value) : VM Unit := do
  if source.isNullish then return ()
  else
    let o ← toObject source
    copyKeys target o (← onStore (Store.ownKeys o))

def copyMembers : VM Unit := do
  let source ← pop
  copyProperties (← literalTarget) source
  advance

def restObject : VM Unit := do
  let source ← peek 0
  let rest ← onStore (← realm).newObject
  copyProperties rest source
  pushNext (.object rest)

/-- Destructuring needs something other than null and undefined. -/
def checkCoercible : VM Unit := do
  let v ← peek 0
  if v.isNullish then raise (.type (.destructured (← display v.orUndefined)))
  else advance

end ScriptMachine.VM
