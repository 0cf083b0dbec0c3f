import ScriptMachine.Machine.Monad

/-!
# Names and slots

How instructions find the place a name stands for: by a fixed address on the operand stack or in a scope record,
or by a walk along the records.  A walk stops at the first record that provides the name; after the last record
comes the global object.

Walks along the records take as many steps as the store has records, which is enough for every chain that does
not return to itself.
-/

namespace ScriptMachine

namespace Store

def recordProvides (s : ScopeId) (name : Text) : Op Bool := do
  let x := (← get).scope s
  match x.object with
  | some o => provides o name
  | none => return (x.find? name).isSome

/-- The first record that provides a name, within a number of records. -/
def providerWithin (name : Text) : Nat → ScopeId → Op (Option ScopeId)
  | 0, _ => return none
  | n + 1, s => do
    if ← recordProvides s name then return some s
    else match ((← get).scope s).outer with
      | some outer => providerWithin name n outer
      | none => return none

def provider? (s : ScopeId) (name : Text) : Op (Option ScopeId) := do
  providerWithin name (← get).scopes.size s

end Store

namespace VM

/-! ### Slots on the operand stack -/

/-- The stack slot of an address, absent for an argument that was not passed. -/
def slotIndex (a : SlotAddress) : VM (Option Nat) := do
  let base ← frameBase
  let args := (← regs).args
  if 0 < a.index then return some (base + (if a.argsInScope then 0 else args) + a.index.toNat)
  else if a.index.natAbs ≤ args then return some (base + a.index.natAbs)
  else return none

def slotOrFault (a : SlotAddress) (cause : InternalCause) : VM Nat := do
  match ← slotIndex a with
  | some i => return i
  | none => raise (.internal cause)

def readEmpty (v : Value) (lexical : Bool) (name : Option Text) : Outcome Value :=
  match v with
  | .empty => if lexical then .error (.uninitialized name) else .ok .undefined
  | v => .ok v

def readSlot (a : SlotAddress) (lexical : Bool) (name : Option Text) : VM Value := do
  match ← slotIndex a with
  | some i => ofOutcome (readEmpty (← slot i) lexical name)
  | none => return .undefined

def loadSlot (a : SlotAddress) (lexical : Bool) : VM Unit := do
  pushNext (← readSlot a lexical none)

def storeSlot (a : SlotAddress) (lexical popped : Bool) : VM Unit := do
  if a.index = 0 then raise (.internal .receiverStore)
  else
    let i ← slotOrFault a .missingArgumentStore
    if lexical then
      if (← slot i).isEmpty then raise (.uninitialized none)
    setSlot i (← takeTop popped)
    advance

def initSlot (a : SlotAddress) : VM Unit := do
  let i ← slotOrFault a .missingArgumentInit
  setSlot i (← pop)
  advance

/-! ### Slots of scope records -/

def outerScope (s : ScopeId) : Nat → VM ScopeId
  | 0 => return s
  | n + 1 => do
    match (← scopeRecord s).outer with
    | some outer => outerScope outer n
    | none => raise (.internal .scopeLevel)

def scopeAt (level : Nat) : VM ScopeId := do outerScope (← regs).scope level

def writeScopeSlot (s : ScopeId) (index : Nat) (v : Value) : VM Unit := do
  if index < (← scopeRecord s).slots.size then
    modifyScope s fun x => { x with slots := x.slots.setIfInBounds index v }
  else raise (.internal (.scopeSlot index))

def loadScope (a : ScopeAddress) (lexical : Bool) : VM Unit := do
  let x ← scopeRecord (← scopeAt a.level)
  match x.slots[a.index]? with
  | some v => pushNext (← ofOutcome (readEmpty v lexical (x.nameOf? a.index)))
  | none => raise (.internal (.scopeSlot a.index))

def storeScope (a : ScopeAddress) (lexical popped : Bool) : VM Unit := do
  let s ← scopeAt a.level
  let v ← takeTop popped
  let x ← scopeRecord s
  if lexical && ((x.slots[a.index]?).any Value.isEmpty) then raise (.uninitialized (x.nameOf? a.index))
  else
    writeScopeSlot s a.index v
    advance

def initScope (a : ScopeAddress) : VM Unit := do
  let s ← scopeAt a.level
  let v ← pop
  writeScopeSlot s a.index v
  advance

def updateScope (s : ScopeId) (f : Scope → Outcome Scope) : VM Unit := do
  let x ← ofOutcome (f (← scopeRecord s))
  modifyScope s fun _ => x

def initGlobal (name : Text) : VM Unit := do
  let v ← pop
  updateScope (← realm).globalScope (·.init name v)
  advance

/-! ### Walking along the records -/

/-- What `look` finds in one of the innermost `n` records from one on; else the record after them. -/
def scan (look : ScopeId → VM (Option α)) : Nat → ScopeId → VM (α ⊕ ScopeId)
  | 0, s => return .inr s
  | n + 1, s => do
    match ← look s with
    | some a => return .inl a
    | none => scan look n (← outerScope s 1)

def lookAlong (look : ScopeId → VM (Option α)) (name : Text) : VM (Option α) := do
  match ← onStore (Store.provider? (← regs).scope name) with
  | some s => look s
  | none => return none

/-! ### Reading names -/

def scopeReceiver (s : ScopeId) : VM Value := do
  match (← scopeRecord s).object with
  | some o => return .object o
  | none => return .undefined

def readIn? (name : Text) (s : ScopeId) : VM (Option (Value × Value)) := do
  match ← demand (Store.readName s name) with
  | some v => return some (v, ← scopeReceiver s)
  | none => return none

def pushRead (read : DynamicRead) (v receiver : Value) : VM Unit := do
  if read.callee then push receiver
  pushNext v

def loadMixed (read : DynamicRead) (index : Nat) : VM Unit := do
  match ← scan (readIn? read.target.name) read.target.level (← regs).scope with
  | .inl (v, receiver) => pushRead read v receiver
  | .inr s =>
    match (← scopeRecord s).slots[index]? with
    | some .empty =>
      if read.lexical then raise (.uninitialized (some read.target.name)) else pushRead read .undefined .undefined
    | some v => pushRead read v.orUndefined .undefined
    | none => raise (.internal (.scopeSlot index))

def loadMixedSlot (read : DynamicRead) (a : SlotAddress) : VM Unit := do
  match ← scan (readIn? read.target.name) read.target.level (← regs).scope with
  | .inl (v, receiver) => pushRead read v receiver
  | .inr _ =>
    let v ← readSlot a read.lexical (some read.target.name)
    pushRead read v .undefined

/-- A name with its receiver, looked for along the whole chain and then in the global object. -/
def lookup? (name : Text) : VM (Option (Value × Value)) := do
  match ← lookAlong (readIn? name) name with
  | some found => return some found
  | none => return (← onStore (Store.get? (← realm).global (.text name))).map fun v => (v, .undefined)

def loadName (name : Text) : VM Unit := do
  match ← lookup? name with
  | some (v, _) => pushNext v
  | none => raise (.unresolved name)

def loadNameOrMarker (name : Text) : VM Unit := do
  match ← lookup? name with
  | some (v, _) => pushNext v
  | none => pushNext (.unresolved name false)

def loadNameCallee (name : Text) : VM Unit := do
  let (v, receiver) := (← lookup? name).getD (.unresolved name false, .undefined)
  push receiver
  pushNext v

/-! ### Resolving names -/

def referenceIn? (name : Text) (strict : Bool) (s : ScopeId) : VM (Option Reference) := do
  let x ← scopeRecord s
  match x.object with
  | some o =>
    if ← onStore (Store.provides o name) then return some (.property o (.text name) strict true)
    else return none
  | none => return (x.find? name).map fun i => .scope name s i.index (i.kind.foldStrict strict)

def resolveMixed (write : DynamicWrite) (index : Nat) : VM Unit := do
  let name := write.target.name
  match ← scan (referenceIn? name write.strict) write.target.level (← regs).scope with
  | .inl r => pushRef r
  | .inr s => pushRef (.scope name s index (write.kind.foldStrict write.strict))
  advance

def resolveMixedSlot (write : DynamicWrite) (a : SlotAddress) : VM Unit := do
  let name := write.target.name
  match ← scan (referenceIn? name write.strict) write.target.level (← regs).scope with
  | .inl r => pushRef r
  | .inr _ =>
    let i ← slotOrFault a .missingArgumentReference
    pushRef (.slot name i (write.kind.foldStrict write.strict))
  advance

def globalReference (name : Text) (strict : Bool) : VM Reference := do
  let global := (← realm).global
  let known ← if strict then onStore (Store.has global (.text name)) else pure true
  return if known then .property global (.text name) strict true else .unresolved name

def resolve (name : Text) (strict : Bool) : VM Reference := do
  match ← lookAlong (referenceIn? name strict) name with
  | some r => return r
  | none => globalReference name strict

def resolveName (name : Text) (strict : Bool) : VM Unit := do
  pushRef (← resolve name strict)
  advance

/-! ### References -/

/-- The value of a reference; absent when its object no longer has the name. -/
def readReference : Reference → VM (Option Value)
  | .slot name i kind => do return some (← ofOutcome (kind.read name (← slot i)))
  | .scope name s i kind => do
    return some (← ofOutcome (kind.read name (((← scopeRecord s).slots[i]?).getD .undefined)))
  | .property o key _ binding => do
    match ← onStore (Store.get? o key) with
    | some v => return some v
    | none => return if binding then none else some .undefined
  | .unresolved name => raise (.unresolved name)

/-- Assign to a reference.  In strict mode a name of an object must be its own. -/
def writeReference (r : Reference) (v : Value) : VM Unit := do
  match r with
  | .slot name i kind =>
    if ← ofOutcome (kind.admits name (← slot i)) then setSlot i v
  | .scope name s i kind =>
    match (← scopeRecord s).slots[i]? with
    | some current =>
      if ← ofOutcome (kind.admits name current) then updateScope s (·.writeSlot name i v)
    | none => raise (.internal (.bindingSlot name.display))
  | .property o key strict binding =>
    let missing ← if binding && strict then do pure !(← onStore (Store.hasOwn o key)) else pure false
    if missing then raise (.unresolved (Text.ofString key.display))
    else
      let _ ← demand (Store.assign o key v strict)
  | .unresolved name => raise (.unresolved name)

def initReference (r : Reference) (v : Value) : VM Unit := do
  match r with
  | .slot _ i _ => setSlot i v
  | .scope name s i _ => updateScope s (·.writeSlot name i v)
  | .property o key strict _ =>
    let _ ← demand (Store.assign o key v strict)
  | .unresolved name => raise (.unresolved name)

def getValue : VM Unit := do
  let r ← topRef
  match ← readReference r with
  | some v => pushNext v
  | none => raise (.unresolved r.name)

def putValue (popped : Bool) : VM Unit := do
  let r ← popRef
  writeReference r (← takeTop popped)
  advance

def initValue : VM Unit := do
  let r ← popRef
  initReference r (← pop)
  advance

/-! ### Deleting and assigning globals -/

def deleteFromGlobal (name : Text) : VM Bool := do
  let global := (← realm).global
  if ← onStore (Store.has global (.text name)) then demand (Store.delete global (.text name) false)
  else return true

def deleteFromScope (s : ScopeId) (name : Text) : VM Bool := do
  let x ← scopeRecord s
  match x.object with
  | some o => demand (Store.delete o (.text name) false)
  | none =>
    let deletable := (x.find? name).any fun i => i.kind = .hoisted true
    if deletable then modifyScope s (·.deleteBinding name)
    return deletable

def deleteName (name : Text) : VM Unit := do
  match ← onStore (Store.provider? (← regs).scope name) with
  | some s => pushNext (.bool (← deleteFromScope s name))
  | none => pushNext (.bool (← deleteFromGlobal name))

def deleteGlobal (name : Text) : VM Unit := do
  let global := (← realm).global
  if ← onStore (Store.has global (.text name)) then
    let deleted ← demand (Store.delete global (.text name) false)
    if deleted then modify fun m => { m with varNames := m.varNames.filter (· ≠ name) }
    pushNext (.bool deleted)
  else pushNext (.bool true)

/-- Assign a global name: a lexical one, or a property of the global object. -/
def assignGlobal (name : Text) (v : Value) (strict : Bool) : VM Unit := do
  let realm ← realm
  match ← referenceIn? name strict realm.globalScope with
  | some r => writeReference r v
  | none =>
    let missing ← if strict then do pure !(← onStore (Store.hasOwn realm.global (.text name))) else pure false
    if missing then raise (.unresolved name)
    else
      let _ ← demand (Store.assign realm.global (.text name) v strict)

def setGlobal (name : Text) (strict : Bool) : VM Unit := do
  assignGlobal name (← peek 0) strict
  advance

end VM

end ScriptMachine
