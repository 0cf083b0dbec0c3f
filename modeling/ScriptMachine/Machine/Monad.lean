import ScriptMachine.Machine

/-!
# Computations of the machine

A computation changes the state and yields a value, or is aborted: by a fault, or because its fuel is used up.
An aborted computation leaves the state as it is at that point; unwinding takes it from there.
-/

namespace ScriptMachine

inductive Abort where
  | fault (f : Fault)
  /-- The bound on the number of steps was reached.  Nothing catches this. -/
  | outOfFuel

abbrev VM := EStateM Abort Machine

/-- Requests that run a computation from its start: those that may nest without bound. -/
inductive Entry where
  | call (callee this : Value) (args : List Value)
  | construct (callee : Value) (args : List Value) (newTarget : Option Value)
  | evaluate (source : Text) (direct strict : Bool) (this : Value)
  | program (p : ProgramId)
  | next (i : IteratorId)
  /-- Call the `return` method of an iterator that is being closed. -/
  | finish (i : IteratorId) (method : Value)
  | close (i : IteratorId)

abbrev Enter := Entry → VM Value

namespace VM

/-! ### Faults -/

def raise (f : Fault) : VM α := throw (.fault f)

def outOfFuel : VM α := throw .outOfFuel

def ofOutcome : Outcome α → VM α
  | .ok a => return a
  | .error f => raise f

def attempt (x : VM α) : VM (Outcome α) := fun m =>
  match x m with
  | .ok a m => .ok (.ok a) m
  | .error (.fault f) m => .ok (.error f) m
  | .error .outOfFuel m => .error .outOfFuel m

/-! ### Parts of the state -/

def realm : VM Realm := return (← get).realm

def regs : VM Activation := return (← get).regs

def modifyRegs (f : Activation → Activation) : VM Unit := modify fun m => { m with regs := f m.regs }

def advance : VM Unit := modifyRegs fun r => { r with pc := r.pc + 1 }

def onStore (op : Store.Op α) : VM α := fun m =>
  let (a, store) := op.run m.store
  .ok a { m with store }

def demand (op : Store.Op (Outcome α)) : VM α := do ofOutcome (← onStore op)

def scopeRecord (s : ScopeId) : VM Scope := return (← get).store.scope s

def modifyScope (s : ScopeId) (f : Scope → Scope) : VM Unit := onStore (modify fun σ => σ.modifyScope s f)

def display (v : Value) : VM String := return (← get).store.display v

def trace : VM Trace := return (← get).trace

/-! ### The operand stack -/

def onStack (f : OperandStack → Outcome (α × OperandStack)) : VM α := fun m =>
  match f m.stack with
  | .ok (a, stack) => .ok a { m with stack }
  | .error f => .error (.fault f) m

def readStack (f : OperandStack → Outcome α) : VM α := do ofOutcome (f (← get).stack)

def modifyStack (f : OperandStack → OperandStack) : VM Unit := modify fun m => { m with stack := f m.stack }

def writeStack (f : OperandStack → Outcome OperandStack) : VM Unit := onStack fun s => (f s).map fun s => ((), s)

def top : VM Nat := return (← get).stack.top

def push (v : Value) : VM Unit := modifyStack (·.push v)

def pushAll (vs : List Value) : VM Unit := modifyStack fun s => vs.foldl OperandStack.push s

def pop : VM Value := onStack (·.pop)

def popMany (n : Nat) : VM (List Value) := onStack (·.popMany n)

def peek (depth : Nat) : VM Value := readStack (·.peek depth)

def slot (i : Nat) : VM Value := readStack (·.get i)

def slots (first last : Nat) : VM (List Value) := readStack (·.slice first last)

def setSlot (i : Nat) (v : Value) : VM Unit := writeStack (·.set i v)

def replaceTop (v : Value) : VM Unit := writeStack (·.replaceTop v)

def setTop (n : Nat) : VM Unit := modifyStack (·.setTop n)

def reserve (n : Nat) : VM Unit := modifyStack (·.reserve n)

def takeTop (popped : Bool) : VM Value := if popped then pop else peek 0

def pushNext (v : Value) : VM Unit := do
  push v
  advance

def replaceNext (v : Value) : VM Unit := do
  replaceTop v
  advance

/-! ### Frames -/

def pushFrame : VM Unit := do
  let m ← get
  if m.limits.maxFrames ≠ 0 ∧ m.limits.maxFrames ≤ m.frames.length + 1 then raise (.range .callDepth)
  else set { m with frames := m.regs :: m.frames }

def popFrame : VM Unit := do
  let m ← get
  match m.frames with
  | [] => raise (.internal .frameUnderflow)
  | regs :: frames => set { m with regs, frames }

def frameBase : VM Nat := do
  match (← regs).base with
  | some base => return base
  | none => raise (.internal .outsideFunction)

def receiver : VM Value := do
  match (← regs).base with
  | some base => slot base
  | none => return .object (← realm).global

def endLoop : VM Unit := modify fun m => { m with halted := true }

/-! ### Loops and references -/

def iterator (i : IteratorId) : VM IteratorRecord := return (← get).iterator i

def newIterator (r : IteratorRecord) : VM IteratorId := fun m =>
  .ok ⟨m.iterators.size⟩ { m with iterators := m.iterators.push r }

def setStatus (i : IteratorId) (status : IteratorStatus) : VM Unit := modify (·.setStatus i status)

def popLoop : VM OpenLoop := do
  let m ← get
  match m.loops with
  | [] => raise (.internal .loopUnderflow)
  | l :: loops =>
    set { m with loops }
    return l

def pushLoop (l : OpenLoop) : VM Unit := modify fun m => { m with loops := l :: m.loops }

def pushRef (r : Reference) : VM Unit := modify fun m => { m with refs := r :: m.refs }

def topRef : VM Reference := do
  match (← get).refs with
  | [] => raise (.internal .referenceUnderflow)
  | r :: _ => return r

def popRef : VM Reference := do
  let m ← get
  match m.refs with
  | [] => raise (.internal .referenceUnderflow)
  | r :: refs =>
    set { m with refs }
    return r

end VM

end ScriptMachine
