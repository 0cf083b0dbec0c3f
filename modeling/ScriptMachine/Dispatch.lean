import ScriptMachine.Iteration.Loops
import ScriptMachine.Machine.Calls
import ScriptMachine.Machine.Declare
import ScriptMachine.Machine.Names
import ScriptMachine.Machine.Operators
import ScriptMachine.Machine.Try

/-!
# Dispatch

One instruction after the other, until the loop is halted.  Before each instruction the machine looks for an
interrupt.
-/

namespace ScriptMachine.VM

/-! ### Instructions -/

def loadConstant (index : Nat) : VM Unit := do
  let m ← get
  match m.regs.program.bind fun p => (m.store.program p).constants[index]? with
  | some v => pushNext v
  | none => raise (.internal (.constant index))

def copyTo (n : Nat) : VM Unit := do
  let v ← peek 0
  let top ← top
  if top < n + 1 then raise (.internal .copyUnderflow)
  else
    setSlot (top - (n + 1)) v
    advance

def setResult (v : Value) : VM Unit := do
  modifyRegs fun r => { r with result := v }
  advance

def execute (enter : Enter) (fuel : Nat) : Instruction → VM Unit
  | .loadConstant index => loadConstant index
  | .loadUndefined => pushNext .undefined
  | .loadEmpty => pushNext .empty
  | .loadGlobalObject => do pushNext (.object (← realm).global)
  | .loadCallee => loadCallee
  | .loadNewTarget => do pushNext (← regs).newTarget
  | .saveResult => do setResult (← pop)
  | .clearResult => setResult .undefined
  | .pop => drop
  | .dup => do pushNext (← peek 0)
  | .copyFrom n => do pushNext (← peek n)
  | .copyTo n => copyTo n
  | .halt => halt
  | .loadSlot a lexical => loadSlot a lexical
  | .storeSlot a lexical popped => storeSlot a lexical popped
  | .initSlot a => initSlot a
  | .loadScope a lexical => loadScope a lexical
  | .storeScope a lexical popped => storeScope a lexical popped
  | .initScope a => initScope a
  | .initGlobal name => initGlobal name
  | .loadMixed read index => loadMixed read index
  | .loadMixedSlot read a => loadMixedSlot read a
  | .resolveMixed write index => resolveMixed write index
  | .resolveMixedSlot write a => resolveMixedSlot write a
  | .resolveName name strict => resolveName name strict
  | .loadName name => loadName name
  | .loadNameOrMarker name => loadNameOrMarker name
  | .loadNameCallee name => loadNameCallee name
  | .deleteName name => deleteName name
  | .deleteGlobal name => deleteGlobal name
  | .setGlobal name strict => setGlobal name strict
  | .getValue => getValue
  | .putValue popped => putValue popped
  | .initValue => initValue
  | .unary op => unary enter op
  | .add => add enter
  | .arith op => numeric enter op.apply
  | .bitwise op => numeric enter op.apply
  | .not => do replaceNext (.bool (!(← peek 0).truthy))
  | .relation r => relation enter r
  | .equality strict negated => equality enter strict negated
  | .instanceOf => testInstance
  | .hasIn => testMember enter
  | .typeOf => do replaceNext (.ofString (← typeOf (← peek 0)))
  | .toPropertyKey => convertKey enter
  | .toText => convertText enter
  | .concat n => concat enter n
  | .jump test offset => jumpOn test offset
  | .getMember name callee => getMember name callee
  | .getElement read => getElement enter read
  | .setMember name strict popped => setMember name strict popped
  | .setElement strict popped => setElement enter strict popped
  | .defineElement => defineElement enter
  | .defineMember name => defineMember name
  | .setPrototype => setPrototype
  | .memberReference name strict => memberReference name strict
  | .elementReference strict => elementReference enter strict
  | .deleteMember name strict => deleteMember name strict
  | .deleteElement strict => deleteElement enter strict
  | .newObject => do pushNext (.object (← onStore (← realm).newObject))
  | .newArray _ => pushArray []
  | .pushItem => pushItem
  | .pushItems => pushItems enter fuel
  | .pushArguments => pushArguments enter fuel
  | .restArray => restArray enter fuel
  | .copyMembers => copyMembers
  | .restObject => restObject
  | .checkCoercible => checkCoercible
  | .startVariadic => pushNext (.symbol .variadicMarker)
  | .callVariadic => do call enter fuel (← variadicCount 2)
  | .endVariadic => endVariadic
  | .constructVariadic => do construct enter (← variadicCount 1)
  | .callEvalVariadic strict => do callEval enter fuel (← variadicCount 2) strict
  | .call n => call enter fuel n
  | .callEval n strict => callEval enter fuel n strict
  | .construct n => construct enter n
  | .ret => ret
  | .boxReceiver => boxReceiver
  | .newFunction form template => newFunction form template
  | .enterFunction e => enterFunction e
  | .enterParameters e => enterParameters e
  | .enterBody e => enterBody e
  | .enterBare stackSize params => enterBare stackSize params
  | .enterBlock l => enterBlock l
  | .enterCatch l => enterCatch l
  | .leaveBlock stackSize scopeToo => leaveBlock stackSize scopeToo
  | .copyScope => copyScope
  | .bindVars b => bindVars b
  | .bindGlobals b => bindGlobals b
  | .createArguments params mapped => createArguments params mapped
  | .restFromStack params => restFromStack params
  | .restFromScope => restFromScope
  | .enterWith => enterWith
  | .leaveWith => leaveWith
  | .enumerate => enumerate
  | .nextKey offset => nextKey offset
  | .loopValue => loopValue
  | .leaveLoop => leaveLoop
  | .closeLoop => closeLoop enter
  | .iterate popped => iterate enter popped
  | .nextItem offset => nextItem enter offset
  | .nextItemOrUndefined => nextItemOrUndefined enter
  | .guard catchOffset finallyOffset => startTry catchOffset finallyOffset
  | .endFinally => advance
  | .raise => do raise (.throwing (← pop))
  | .raiseConstant name => raise (.type (.namedConstant name.display))

/-! ### The loop -/

/-- Take up an interrupt: run its callback, or stop. -/
def takeInterrupt : VM Unit := do
  match (← get).interrupt with
  | none => return ()
  | some i =>
    modify fun m => { m with interrupt := none }
    let stop := fun condition => do raise (.uncatchable ⟨condition, ← trace⟩)
    match i with
    | .callback lines failure =>
      onStore (modify fun σ => σ.log lines)
      match failure with
      | some e => stop (.callbackFailed e)
      | none => return ()
    | .error e => stop (.interrupted (.error e))
    | .data text => stop (.interrupted (.data text))

def fetch : VM Instruction := do
  let m ← get
  match m.regs.program with
  | none => raise (.internal .noProgram)
  | some p =>
    match (m.store.program p).code[m.regs.pc]? with
    | some i => return i
    | none => raise (.internal (.outsideProgram m.regs.pc))

def step (enter : Enter) (fuel : Nat) : VM Unit := do
  takeInterrupt
  execute enter fuel (← fetch)

/-- Take a turn of a dispatch loop: a step, the fault of which goes to the handlers of the loop. -/
def turn (enter : Enter) (fuel : Nat) : VM Unit := do
  match ← attempt (step enter fuel) with
  | .ok _ => return ()
  | .error f => unwind enter f

def loop (turn : VM Unit) : Nat → VM Unit
  | 0 => outOfFuel
  | n + 1 => do
    if (← get).halted then return ()
    else
      turn
      loop turn n

def loopWithin (turn : VM Unit) (fuel : Nat) : VM Unit := do
  let m ← get
  if m.limits.maxLoops < m.depth then raise .loopDepth
  else
    set { m with halted := false }
    loop turn fuel

def leaveDispatch (handlers : Nat) (m : Machine) : Machine :=
  { m with handlers := bottomOf handlers m.handlers, depth := m.depth - 1, halted := false }

def dispatch (turn : VM Unit) (fuel : Nat) : VM Unit := fun m =>
  let handlers := m.handlers.length
  match loopWithin turn fuel { m with depth := m.depth + 1 } with
  | .ok a m => .ok a (leaveDispatch handlers m)
  | .error e m => .error e (leaveDispatch handlers m)

/-! ### Nesting -/

/-- Carry out an entry: its dispatch loop by `run`, nested entries by `enter`. -/
def start (enter : Enter) (fuel : Nat) (run : VM Unit) : Entry → VM Value
  | .call callee this args => callValue enter fuel run callee this args
  | .construct callee args newTarget => constructValue enter fuel run callee args newTarget
  | .evaluate source direct strict this => evaluate run source direct strict this
  | .program p => runProgram enter run p
  | .next i => do
    let r ← iterator i
    callValue enter fuel run r.next r.iterator []
  | .finish i method => do
    setStatus i .ended
    callValue enter fuel run method (← iterator i).iterator []
  | .close i => do
    guarded enter (closeIterator enter i)
    return .undefined

/-- Carry out an entry.  The fuel bounds how deep entries nest and how long each loop runs. -/
def enter : Nat → Entry → VM Value
  | 0, _ => outOfFuel
  | fuel + 1, entry => start (enter fuel) fuel (dispatch (turn (enter fuel) fuel) fuel) entry

end ScriptMachine.VM
