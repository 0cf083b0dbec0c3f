import ScriptMachine.OperandStack
import ScriptMachine.Realm.Builtins

/-!
# The state of the machine

One activation runs at a time; those that wait for it are saved as frames.  All activations share the operand
stack.  Besides it there are stacks of open loops, of references that wait for an assignment, and of handlers
of try statements.  These stacks are lists with the innermost entry first.
-/

namespace ScriptMachine

def bottomOf (n : Nat) (l : List α) : List α := l.drop (l.length - n)

def aboveBottom (n : Nat) (l : List α) : List α := l.take (l.length - n)

theorem bottomOf_append (a b : List α) : bottomOf b.length (a ++ b) = b := by
  simp [bottomOf]

/-! ### Activations -/

structure Activation where
  /-- The code it runs; absent in host code and at a boundary. -/
  program : Option ProgramId
  native : Option Text
  pc : Nat
  /-- Operand stack slot of the receiver; the callee is in the slot below. -/
  base : Option Nat
  args : Nat
  scope : ScopeId
  newTarget : Value
  result : Value
  constructing : Bool
  deriving Inhabited

namespace Activation

def idle (scope : ScopeId) : Activation := ⟨none, none, 0, none, 0, scope, .undefined, .undefined, false⟩

/-- A return into a boundary ends the dispatch loop that was started for the call. -/
def isBoundary (a : Activation) : Bool := a.program.isNone && a.native.isNone

end Activation

/-! ### References -/

inductive Reference where
  | slot (name : Text) (index : Nat) (kind : BindingKind)
  | scope (name : Text) (record : ScopeId) (index : Nat) (kind : BindingKind)
  /-- A property; `binding` when it was found as a name and not as a member. -/
  | property (base : ObjectId) (key : PropertyKey) (strict binding : Bool)
  | unresolved (name : Text)

def Reference.name : Reference → Text
  | .slot name .. | .scope name .. | .unresolved name => name
  | .property _ key .. => Text.ofString key.display

/-! ### Iterators -/

inductive IteratorStatus where
  | active
  /-- It is being closed, and its `return` method has not been called. -/
  | closing
  | ended
  deriving DecidableEq

structure IteratorRecord where
  iterator : Value
  next : Value
  status : IteratorStatus

/-! ### Open loops -/

/-- A walk over the enumerable names of an object and its prototypes.  The keys of each object are taken when
the walk reaches it. -/
structure KeyCursor where
  current : Option ObjectId
  pending : List PropertyKey
  /-- Names seen so far, enumerable or not. -/
  visited : List PropertyKey
  /-- The object whose hidden names are passed by, when it backs a scope. -/
  screen : Option ObjectId

inductive LoopSource where
  | keys (cursor : KeyCursor)
  | items (i : IteratorId)

structure OpenLoop where
  value : Value
  source : LoopSource

/-! ### Handlers -/

/-- What an unwinding goes back to: the depths of the stacks, and the registers. -/
structure Snapshot where
  frames : Nat
  regs : Activation
  top : Nat
  loops : Nat
  refs : Nat

inductive TryPart where
  | body | catching | finishing
  deriving DecidableEq

structure Handler where
  catchPc : Option Nat
  finallyPc : Option Nat
  part : TryPart
  resume : Nat
  /-- The fault that a finally section raises again on normal completion. -/
  pending : Option Fault
  /-- The dispatch loop that owns the handler. -/
  depth : Nat
  snapshot : Snapshot

/-! ### The machine -/

structure Machine where
  store : Store
  realm : Realm
  /-- Names declared globally and not lexically. -/
  varNames : List Text
  limits : Limits
  regs : Activation
  stack : OperandStack
  frames : List Activation
  loops : List OpenLoop
  /-- Iterators opened so far, each named by its place. -/
  iterators : Array IteratorRecord
  refs : List Reference
  handlers : List Handler
  halted : Bool
  depth : Nat
  scopesMade : Nat
  interrupt : Option Interrupt
  compiler : Option Compiler

namespace Machine

def new (limits : Limits) : Machine :=
  let (realm, store) := Realm.create.run .empty
  { store, realm, limits, varNames := [], regs := .idle realm.globalScope, stack := .new, frames := [], loops := []
    iterators := #[], refs := [], handlers := [], halted := false, depth := 0, scopesMade := 0, interrupt := none
    compiler := none }

def reset (m : Machine) : Machine :=
  { m with
    regs := .idle m.realm.globalScope, stack := m.stack.clear, frames := [], loops := [], refs := [], handlers := []
    halted := false, depth := 0 }

/-- An iterator.  What was never opened has ended. -/
def iterator (m : Machine) (i : IteratorId) : IteratorRecord :=
  (m.iterators[i.index]?).getD ⟨.undefined, .undefined, .ended⟩

def setStatus (m : Machine) (i : IteratorId) (status : IteratorStatus) : Machine :=
  { m with iterators := m.iterators.modify i.index fun r => { r with status } }

theorem index_lt_of_not_ended {m : Machine} {i : IteratorId} (h : (m.iterator i).status ≠ .ended) :
    i.index < m.iterators.size := by
  refine Nat.lt_of_not_le fun hle => h ?_
  rw [iterator, Array.getElem?_eq_none hle]
  rfl

theorem iterator_setStatus_self {m : Machine} {i : IteratorId} (h : i.index < m.iterators.size)
    (status : IteratorStatus) : (m.setStatus i status).iterator i = { m.iterator i with status } := by
  simp [iterator, setStatus, Array.getElem_modify, h]

theorem iterator_setStatus_of_ne {m : Machine} {i j : IteratorId} (h : j ≠ i) (status : IteratorStatus) :
    (m.setStatus i status).iterator j = m.iterator j := by
  have hne : i.index ≠ j.index := fun heq => h (by cases i; cases j; exact congrArg IteratorId.mk heq.symm)
  simp [iterator, setStatus, Array.getElem?_modify, hne]

def snapshot (m : Machine) : Snapshot := ⟨m.frames.length, m.regs, m.stack.top, m.loops.length, m.refs.length⟩

/-- Go back to a snapshot, but for loops and references. -/
def restore (m : Machine) (s : Snapshot) : Machine :=
  { m with frames := bottomOf s.frames m.frames, regs := s.regs, stack := m.stack.setTop s.top }

def summary (m : Machine) : String :=
  s!"Vm \x7b pc: {m.regs.pc}, sp: {m.stack.top}, frames: {m.frames.length}, "
    ++ s!"try_handlers: {m.handlers.length}, native_depth: {m.depth} \x7d"

end Machine

/-! ### Traces -/

/-- The trace line of an activation that is at an instruction; a boundary has none. -/
def Activation.traceFrame? (σ : Store) (a : Activation) (pc : Nat) : Option TraceFrame :=
  match a.program, a.native with
  | some p, _ =>
    let p := σ.program p
    let (line, column) := (p.position? pc).getD (0, 0)
    some {
      functionName := if p.name.isEmpty then none else some p.name.display
      file := p.sourceName?, line, column, native := false }
  | none, some name =>
    some { functionName := some name.display, file := none, line := 0, column := 0, native := true }
  | none, none => none

/-- The running activation and the saved ones, which hold their return address, up to the limit. -/
def Machine.trace (m : Machine) : Trace :=
  let running := m.regs.traceFrame? m.store m.regs.pc
  let saved := m.frames.map fun a => a.traceFrame? m.store (a.pc - 1)
  ((running :: saved).filterMap id).take m.limits.traceLength

end ScriptMachine
