import ScriptMachine.Machine.Convert

/-!
# Scopes of functions and blocks

What entering and leaving a function or a block does to the scope register and to the operand stack, and how
arguments are passed: on the stack, or in the slots of the scope record of the function.
-/

namespace ScriptMachine

namespace Scope

def fill (s : Scope) (args : List Value) : Scope :=
  let count := min args.length s.slots.size
  { s with slots := (args.take count).toArray ++ s.slots.extract count s.slots.size }

def fillMissing (s : Scope) (passed params : Nat) : Scope :=
  if passed ≤ params ∧ params ≤ s.slots.size then
    { s with slots := s.slots.extract 0 passed ++ Array.replicate (params - passed) .undefined
        ++ s.slots.extract params s.slots.size }
  else s

def withArguments (s : Scope) (args : List Value) (params : Nat) : Scope :=
  let s := s.fill args
  if params < args.length then { s with surplus := args.drop params } else s.fillMissing args.length params

/-- The record of a function whose first arguments are put into it, but stay on the stack too. -/
def withCopies (s : Scope) (args : List Value) (params copied : Nat) : Scope :=
  let s := s.fill (args.take copied)
  if copied < args.length then if params < args.length then { s with surplus := args.drop params } else s
  else s.fillMissing args.length copied

end Scope

namespace VM

/-! ### Entering -/

def enterScope (x : Scope) : VM Unit := do
  let s ← onStore (Store.newScope x)
  modify fun m => { m with regs := { m.regs with scope := s }, scopesMade := m.scopesMade + 1 }

def innerScope (size : Nat) (names : Option ScopeNames) : VM Scope := do
  return .withLayout (some (← regs).scope) size names

/-- Set the base of a frame whose arguments are on top of the stack; they are the result. -/
def beginFrame : VM (List Value) := do
  let n := (← regs).args
  let top ← top
  if top < n + 1 then raise (.internal .entryArguments)
  else
    modifyRegs fun r => { r with base := some (top - (n + 1)) }
    slots (top - n) top

def padArguments (params : Nat) : VM Unit := do
  let n := (← regs).args
  if n < params then
    pushAll (List.replicate (params - n) .undefined)
    modifyRegs fun r => { r with args := params }

def enterFunction (e : FunctionEntry) : VM Unit := do
  let args ← beginFrame
  let x := { ← innerScope e.scopeSize e.names with holdsVars := true }
  if e.argsToScope then
    setTop ((← top) - args.length)
    enterScope (x.withArguments args e.params)
  else
    padArguments e.params
    enterScope x
  reserve e.stackSize
  advance

def enterParameters (e : ParameterEntry) : VM Unit := do
  let args ← beginFrame
  let x := { ← innerScope e.scopeSize e.names with holdsVars := true }
  enterScope (x.withCopies args e.params e.copied)
  advance

def enterBody (e : BodyEntry) : VM Unit := do
  if 0 < e.layout.scopeSize then
    enterScope { ← innerScope e.layout.scopeSize e.layout.names with holdsVars := true }
  if e.overArguments then
    let n := (← regs).args
    let top ← top
    if top < n then raise (.internal .bodyBelowFrame) else setTop (top - n)
  reserve e.layout.stackSize
  advance

def enterBare (stackSize params : Nat) : VM Unit := do
  let _ ← beginFrame
  padArguments params
  reserve stackSize
  advance

def enterBlock (l : ScopeLayout) : VM Unit := do
  if 0 < l.scopeSize then enterScope (← innerScope l.scopeSize l.names)
  reserve l.stackSize
  advance

def enterCatch (l : ScopeLayout) : VM Unit := do
  let x ← innerScope (max l.scopeSize 1) l.names
  let caught ← pop
  enterScope { x with slots := x.slots.setIfInBounds 0 caught }
  reserve l.stackSize
  advance

def enterWith : VM Unit := do
  let o ← toObject (← pop)
  enterScope (.forObject o (some (← regs).scope))
  advance

/-! ### Leaving -/

def leaveScope : VM Unit := do
  match (← scopeRecord (← regs).scope).outer with
  | some outer => modifyRegs fun r => { r with scope := outer }
  | none => raise (.internal .outermostScope)

def leaveBlock (stackSize : Nat) (scopeToo : Bool) : VM Unit := do
  if scopeToo then leaveScope
  let top ← top
  if top < stackSize then raise (.internal .blockBelowFrame)
  else
    setTop (top - stackSize)
    advance

def leaveWith : VM Unit := do
  leaveScope
  advance

def copyScope : VM Unit := do
  let x ← scopeRecord (← regs).scope
  enterScope { Scope.new x.outer with slots := x.slots, names := x.names }
  advance

/-! ### Receivers and arguments -/

/-- The receiver outside strict mode: the global object for null and undefined, a wrapper for a primitive
value. -/
def boxReceiver : VM Unit := do
  let base ← frameBase
  let this ← slot base
  let boxed ← if this.isNullish then pure (← realm).global else toObject this
  setSlot base (.object boxed)
  advance

def calleeOfFrame : VM Value := do
  match ← frameBase with
  | 0 => raise (.internal .noCallee)
  | base + 1 => slot base

def loadCallee : VM Unit := do pushNext (← calleeOfFrame)

def putItems (o : ObjectId) : Nat → List Value → VM Unit
  | _, [] => return ()
  | i, v :: rest => do
    let _ ← onStore (Store.put o (.ofNat i) v)
    putItems o (i + 1) rest

def defineHidden (o : ObjectId) (key : PropertyKey) (v : Value) : VM Unit := do
  let _ ← demand (Store.define o key (.hidden v) false)

/-- The arguments object of a function whose first `params` parameters are in its record. -/
def createArguments (params : Nat) (mapped : Bool) : VM Unit := do
  let r ← regs
  let realm ← realm
  let x ← scopeRecord r.scope
  let count := min params r.args
  let kind := ObjectKind.arguments r.scope (if mapped then List.replicate count true else [])
  let o ← onStore (Store.newObject (.ofKind (some realm.objectPrototype) kind))
  if mapped then putItems o count x.surplus
  else putItems o 0 ((x.slots.toList.take count).map Value.orUndefined ++ x.surplus)
  defineHidden o .length (.ofNat r.args)
  if mapped then defineHidden o (.ofString "callee") (← calleeOfFrame)
  defineHidden o (.symbol .iterator) (.object realm.arrayValues)
  pushNext (.object o)

def pushArray (items : List Value) : VM Unit := do
  pushNext (.object (← onStore ((← realm).newArray items)))

def restFromStack (params : Nat) : VM Unit := do
  let args := (← regs).args
  if params < args then
    let base ← frameBase
    pushArray (← slots (base + params + 1) (base + args + 1))
  else pushArray []

def restFromScope : VM Unit := do
  let s := (← regs).scope
  let rest := (← scopeRecord s).surplus
  modifyScope s fun x => { x with surplus := [] }
  pushArray rest

/-! ### Function objects -/

def newFunction (form : FunctionForm) (template : FunctionTemplate) : VM Unit := do
  let r ← regs
  let kind ← match form with
    | .normal => pure FunctionKind.normal
    | .method => pure .method
    | .arrow => pure (.arrow (← receiver) r.newTarget)
  pushNext (.object (← onStore ((← realm).newFunction ⟨template, r.scope, kind⟩)))

end VM

end ScriptMachine
