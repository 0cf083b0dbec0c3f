import ScriptMachine.Host.Perform
import ScriptMachine.Machine.Jump

/-!
# Calls

A call takes `[receiver, callee, arguments …]` off the operand stack.  Entering a script function swaps the first
two, so that the frame of the callee starts with `callee, receiver, arguments …`, its base at the receiver; on
return the result takes the place of the callee.

Script functions that script code calls run in the same dispatch loop.  All other calls run behind a frame of
their own: a native frame for host code, a boundary for script code called by the host.
-/

namespace ScriptMachine

inductive Callee where
  | script (f : Closure)
  | native (f : NativeFunction)
  | bound (f : BoundFunction)
  | proxy (target : ObjectId) (handler : ProxyHandler)

def ObjectKind.callee? : ObjectKind → Option Callee
  | .function f => some (.script f)
  | .native f => some (.native f)
  | .bound f => some (.bound f)
  | .proxy target handler => some (.proxy target handler)
  | _ => none

namespace VM

/-! ### Callees -/

def calleeOf (v : Value) : VM (ObjectId × Callee) := do
  match v with
  | .object o =>
    match (← onStore (Store.made o)).kind.callee? with
    | some callee => return (o, callee)
    | none => raise (.type (.notFunction (← display v)))
  | .unresolved name false => raise (.unresolved name)
  | .unresolved name true => raise (.type (.memberNotFunction name.display))
  | v => raise (.type (.notFunction (← display v)))

/-- Calls by instruction keep the number of frames below a limit of their own. -/
def checkDepth : VM Unit := do
  let m ← get
  if m.limits.callDepth ≠ 0 ∧ m.limits.callDepth ≤ m.frames.length + 1 then raise (.range .callDepth)
  else return ()

def callBase (n : Nat) : VM Nat := do
  let top ← top
  if top < n + 2 then raise (.internal .callOperands) else return top - (n + 2)

/-- The number of arguments above the innermost marker, less `fixed` other operands. -/
def variadicCount (fixed : Nat) : VM Nat := do
  let isMarker : Value → Bool
    | .symbol s => s == .variadicMarker
    | _ => false
  match (← get).stack.toList.reverse.findIdx? isMarker with
  | none => raise (.internal .variadicMarker)
  | some count => if count < fixed then raise (.internal .variadicOperands) else return count - fixed

def endVariadic : VM Unit := do
  let v ← pop
  replaceNext v

/-! ### Script functions in the running loop -/

def pushCaller : VM Unit := do
  advance
  match ← attempt pushFrame with
  | .ok _ => return ()
  | .error f =>
    modifyRegs fun r => { r with pc := r.pc - 1 }
    raise f

/-- Start a script function with receiver and callee from slot `first` on.  An arrow function has its receiver and new
target from the place of its definition. -/
def enterScript (f : Closure) (first n : Nat) (newTarget : Option Value) : VM Unit := do
  pushCaller
  let base := first + 1
  let target ← match f.kind with
    | .arrow this captured => do
      setSlot first (← slot base)
      setSlot base this
      pure captured
    | .normal | .method => do
      writeStack (·.swap first base)
      pure (newTarget.getD .undefined)
  modifyRegs fun r =>
    { r with
      newTarget := target, constructing := newTarget.isSome, args := n, program := some f.template.program
      native := none, scope := f.scope, base := some base, pc := 0 }

/-! ### Host code in the running loop -/

def enterNative (name : Text) : VM Unit := modifyRegs fun r => { r with program := none, native := some name }

/-- Run host code behind a native frame.  When it fails, the frame stays for the trace. -/
def behindNative (name : Text) (body : VM Value) : VM Value := do
  pushFrame
  enterNative name
  let v ← body
  popFrame
  return v

def nativeInLoop (name : Text) (body : VM Value) : VM Value := do
  advance
  behindNative name body

def finishCall (first : Nat) (v : Value) : VM Unit := do
  setSlot first v
  setTop (first + 1)

def proxyName : Text := Text.ofString "proxy"

/-! ### Call instructions -/

/-- Call with `n` arguments, unwrapping a number of bound functions at most. -/
def callWithin (enter : Enter) (fuel : Nat) : Nat → Nat → VM Unit
  | 0, _ => outOfFuel
  | k + 1, n => do
    checkDepth
    let first ← callBase n
    let (_, callee) ← calleeOf (← slot (first + 1))
    match callee with
    | .script f => enterScript f first n none
    | .native f =>
      let this ← slot first
      let args ← slots (first + 2) (← top)
      finishCall first (← nativeInLoop f.name (runHost enter fuel (f.call ⟨this, args, none, f.name⟩)))
    | .proxy target handler =>
      let this ← slot first
      let args ← slots (first + 2) (← top)
      finishCall first (← nativeInLoop proxyName (runHost enter fuel (handler.apply target this args)))
    | .bound f =>
      setSlot first f.this
      setSlot (first + 1) (.object f.target)
      writeStack (·.insertAt (first + 2) f.args)
      callWithin enter fuel k (n + f.args.length)

def call (enter : Enter) (fuel n : Nat) : VM Unit := do
  callWithin enter fuel ((← get).store.objects.size + 1) n

def namedPrototype (newTarget : Value) : VM ObjectId := do
  match newTarget with
  | .object o =>
    match ← onStore (Store.get? o (.ofString "prototype")) with
    | some (.object p) => return p
    | _ => return (← realm).objectPrototype
  | _ => return (← realm).objectPrototype

def freshReceiver (newTarget : Value) : VM Value := do
  let prototype ← namedPrototype newTarget
  return .object (← onStore (Store.newObject (.ofKind (some prototype) .ordinary)))

def scriptConstructor? (v : Value) : VM (Option Closure) := do
  match ← attempt (calleeOf v) with
  | .ok (_, .script f) => return if f.kind.isNormal then some f else none
  | _ => return none

def construct (enter : Enter) (n : Nat) : VM Unit := do
  checkDepth
  let top ← top
  if top < n + 1 then raise (.internal .constructOperands)
  else
    let first := top - (n + 1)
    let callee ← slot first
    match ← scriptConstructor? callee with
    | some f =>
      let this ← freshReceiver callee
      writeStack (·.insertAt first [this])
      enterScript f first n (some callee)
    | none =>
      let args ← popMany n
      replaceNext (← enter (.construct callee args none))

/-- A call by the name `eval`: if it is the function of the realm, the text runs in the scope of the caller. -/
def callEval (enter : Enter) (fuel n : Nat) (strict : Bool) : VM Unit := do
  let first ← callBase n
  match ← slot (first + 1) with
  | .object o =>
    if o = (← realm).eval then
      let v ← if n = 0 then pure .undefined else do
        match ← slot (first + 2) with
        | .text source => do enter (.evaluate source true strict (← receiver))
        | v => pure v
      finishCall first v
      advance
    else call enter fuel n
  | .unresolved name false => raise (.unresolved name)
  | _ => raise (.type .evalNotFunction)

/-- Forget the handlers of the running loop that belong to frames at depth `frames` or above. -/
def dropHandlers (frames : Nat) : VM Unit := modify fun m =>
  { m with handlers := m.handlers.dropWhile fun h => h.depth = m.depth && decide (frames ≤ h.snapshot.frames) }

/-- What a function yields that returns a value: a constructor that returns no object yields its receiver. -/
def returned (v : Value) (base : Nat) : VM Value := do
  if (← regs).constructing && !v.isObject then slot base else return v

def handBack : VM Unit := do
  let v ← pop
  let base ← frameBase
  match base with
  | 0 => raise (.internal .returnWithoutCallee)
  | calleeSlot + 1 =>
    let v ← returned v base
    setTop base
    setSlot calleeSlot v

/-- Go back to the caller.  Going back to a boundary ends the loop. -/
def leaveFrame : VM Unit := do
  let frames := (← get).frames
  dropHandlers frames.length
  popFrame
  if (frames.head?.map Activation.isBoundary).getD false then endLoop

def ret : VM Unit := do
  handBack
  leaveFrame

/-! ### Calls from outside the loop -/

def callNative (enter : Enter) (name : Text) (body : VM Value) : VM Value := guarded enter (behindNative name body)

/-- Receiver and new target of a script function: an arrow function has its own. -/
def receivers (f : Closure) (this newTarget : Value) : Value × Value :=
  match f.kind with
  | .arrow captured target => (captured, target)
  | .normal | .method => (this, newTarget)

/-- Save the running activation and go to a boundary, then start a script function that will return there. -/
def enterFromOutside (callee : ObjectId) (f : Closure) (this : Value) (args : List Value) (newTarget : Value) :
    VM Unit := do
  pushFrame
  modifyRegs fun r => { r with program := none, native := none }
  let (this, newTarget) := receivers f this newTarget
  push (.object callee)
  let base ← top
  push this
  pushAll args
  pushFrame
  modifyRegs fun r =>
    { r with
      args := args.length, program := some f.template.program, scope := f.scope, base := some base, pc := 0
      newTarget, constructing := false }

/-- Run a script function to its end in a loop of its own.  The function returns to a boundary. -/
def runScript (run : VM Unit) (callee : ObjectId) (f : Closure) (this : Value) (args : List Value)
    (newTarget : Value) : VM Value := do
  enterFromOutside callee f this args newTarget
  run
  let v ← pop
  popFrame
  return v

def callScript (enter : Enter) (run : VM Unit) (callee : ObjectId) (f : Closure) (this : Value)
    (args : List Value) (newTarget : Value) : VM Value := do
  checkDepth
  guarded enter (runScript run callee f this args newTarget)

def callValue (enter : Enter) (fuel : Nat) (run : VM Unit) (callee this : Value) (args : List Value) : VM Value := do
  match ← calleeOf callee with
  | (o, .script f) => callScript enter run o f this args .undefined
  | (_, .native f) => callNative enter f.name (runHost enter fuel (f.call ⟨this, args, none, f.name⟩))
  | (_, .bound f) => enter (.call (.object f.target) f.this (f.args ++ args))
  | (_, .proxy target handler) =>
    callNative enter proxyName (runHost enter fuel (handler.apply target this args))

def refuseConstruct (v : Value) : VM α := do raise (.type (.notConstructor (← display v)))

/-- Construct with a value.  The new target is the value itself, if no other is given; that of a bound function is
its target. -/
def constructValue (enter : Enter) (fuel : Nat) (run : VM Unit) (callee : Value) (args : List Value)
    (newTarget : Option Value) : VM Value := do
  let newTarget := newTarget.getD callee
  match ← attempt (calleeOf callee) with
  | .error _ => refuseConstruct callee
  | .ok (o, .script f) =>
    if f.kind.isNormal then
      let this ← freshReceiver newTarget
      let v ← callScript enter run o f this args newTarget
      return if v.isObject then v else this
    else refuseConstruct callee
  | .ok (_, .native f) =>
    let body := match f.construct with
      | some construct => construct args newTarget
      | none => f.call ⟨callee, args, some newTarget, f.name⟩
    callNative enter f.name (runHost enter fuel body)
  | .ok (o, .bound f) =>
    let target := if newTarget.object? = some o then .object f.target else newTarget
    enter (.construct (.object f.target) (f.args ++ args) (some target))
  | .ok (_, .proxy target handler) =>
    callNative enter proxyName (runHost enter fuel (handler.construct target args newTarget))

end VM

/-! ### Evaluation -/

/-- Whether a record other than the global one holds hoisted names along a chain, within a number of records. -/
def Store.inFunctionWithin (σ : Store) (global : ScopeId) : Nat → ScopeId → Bool
  | 0, _ => false
  | n + 1, s =>
    let x := σ.scope s
    s ≠ global && (x.holdsVars || (x.outer.any fun outer => σ.inFunctionWithin global n outer))

namespace VM

def inFunction : VM Bool := do
  let m ← get
  return m.store.inFunctionWithin m.realm.globalScope m.store.scopes.size m.regs.scope

def compile (source : Text) (options : CompileOptions) : VM ProgramId := do
  match (← get).compiler with
  | none => raise (.type .noCompiler)
  | some compiler =>
    let (lines, compiled) := compiler source options
    onStore (modify fun σ => σ.log lines)
    match compiled with
    | .ok p => return p
    | .error message => raise (.grammar (.reported message))

def startProgram (p : ProgramId) (this : Value) : VM Unit := do
  let base ← top
  modifyRegs fun r =>
    { r with
      program := some p, native := none, pc := 0, args := 0, result := .undefined, constructing := false
      base := some base }
  push this

def endProgram (top : Nat) : VM Value := do
  let v := (← regs).result
  modifyRegs fun r => { r with result := .undefined }
  popFrame
  setTop top
  return v

/-- Compile and run source text, in the scope of the running code if `direct`, else in the global scope. -/
def evaluate (run : VM Unit) (source : Text) (direct strict : Bool) (this : Value) : VM Value := do
  let inFunction ← if direct then inFunction else pure false
  let p ← compile source ⟨strict, direct, inFunction⟩
  let top ← top
  pushFrame
  unless direct do
    let global := (← realm).globalScope
    modifyRegs fun r => { r with scope := global }
  startProgram p this
  run
  endProgram top

/-- Run a program in the global scope to its end.  The receiver is the global object. -/
def runGlobally (run : VM Unit) (p : ProgramId) : VM Value := do
  let top ← top
  pushFrame
  let realm ← realm
  modifyRegs fun r => { r with scope := realm.globalScope, newTarget := .undefined }
  startProgram p (.object realm.global)
  run
  endProgram top

def runProgram (enter : Enter) (run : VM Unit) (p : ProgramId) : VM Value := guarded enter (runGlobally run p)

end VM

end ScriptMachine
