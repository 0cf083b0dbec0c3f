import ScriptMachine.Proofs.CallAgreement
import ScriptMachine.Proofs.Closing
import ScriptMachine.Proofs.Constructors

/-!
# Calls with a variable number of arguments

Such a call begins with a marker on the operand stack.  Its operands are pushed above the marker: single values, all items
of a value that is spread, and the results of other calls, which may be variadic too.  The call instruction finds out how
many there are by searching the stack for the innermost marker, and an instruction of its own drops the marker afterwards.

* `variadicCount_of_holds`, `CallForm.execute_variadic` — the search finds the number of arguments.
* `Performs` — an instruction does a task above the operands that are below it, and what is left when that comes back;
  `CallForm.performs` says that calls with a fixed number of arguments do.
* `Pushes` — turns of a run that push arguments; `DisciplinedRun.pushes` says that these are then on the stack, in order.

Main result: `variadic_calls_fixed`.
-/

namespace ScriptMachine.VM

variable {vs lower items ws : List Value} {v w : Value} {m : Machine} {strict : Bool} {t : Nat}

/-! ### The marker -/

/-- What marks the place above which the operands of a variadic call are pushed. -/
def marker : Value := .symbol .variadicMarker

section Marker

variable {m : Machine} {below ops : List Value}

theorem variadicCount_of_holds (fixed n : Nat) (hstack : m.stack.Holds (below ++ marker :: ops)) (hops : marker ∉ ops)
    (hn : ops.length = fixed + n) : variadicCount fixed m = .ok n m := by
  have hfound : ∀ p : Value → Bool, p marker = true → (∀ v, p v = true → v = marker) →
      m.stack.toList.reverse.findIdx? p = some ops.length := fun p hp honly => by
    have hnone : ops.reverse.findIdx? p = none := by
      rw [List.findIdx?_eq_none_iff]
      intro v hv
      rw [Bool.eq_false_iff]
      exact fun hpv => hops (honly v hpv ▸ List.mem_reverse.mp hv)
    rw [hstack.toList_eq, List.reverse_append, List.reverse_cons, List.append_assoc, List.findIdx?_append, hnone]
    simp [List.findIdx?_cons, hp]
  unfold variadicCount
  rw [get_bind, hfound]
  · dsimp only
    rw [if_neg (by omega), hn, Nat.add_sub_cancel_left]
    rfl
  · rfl
  · intro v hv
    cases v with
    | symbol s => rw [eq_of_beq hv]; rfl
    | _ => cases hv

theorem endVariadic_of_holds (hstack : m.stack.Holds (vs ++ [w, v])) :
    ∃ m', endVariadic m = .ok () m' ∧ WentOn m m' (vs ++ [v]) := by
  have hsplit : m.stack.Holds ((vs ++ [w]) ++ [v]) := by simpa using hstack
  obtain ⟨s, hpop, hs⟩ := hsplit.pop
  have hpopped : pop m = .ok v { m with stack := s } := onStack_of_ok hpop
  obtain ⟨m', hreplace, hwent⟩ := replaceNext_of_holds (m := { m with stack := s }) hs v
  refine ⟨m', ?_, hwent.frames, hwent.regs, hwent.operands⟩
  unfold endVariadic
  rw [bind_ok hpopped, hreplace]

end Marker

/-! ### Forms of calls -/

/-- The calls that there are both with a fixed and with a variable number of arguments. -/
inductive CallForm where
  | call
  | construct
  | callEval (strict : Bool)

namespace CallForm

def fixed : CallForm → Nat → Instruction
  | .call, n => .call n
  | .construct, n => .construct n
  | .callEval strict, n => .callEval n strict

def variadic : CallForm → Instruction
  | .call => .callVariadic
  | .construct => .constructVariadic
  | .callEval strict => .callEvalVariadic strict

/-- What is pushed for a call; a construction has no receiver. -/
def operands (this callee : Value) (args : List Value) : CallForm → List Value
  | .construct => callee :: args
  | .call | .callEval _ => this :: callee :: args

theorem execute_variadic (form : CallForm) {below args : List Value} {this callee : Value}
    (hstack : m.stack.Holds (below ++ marker :: form.operands this callee args))
    (hmarker : marker ∉ form.operands this callee args) (enter : Enter) (fuel : Nat) :
    execute enter fuel form.variadic m = execute enter fuel (form.fixed args.length) m := by
  have hcount := fun fixed hfixed => variadicCount_of_holds fixed args.length hstack hmarker hfixed
  cases form with
  | call | callEval => exact bind_ok (hcount 2 (by simp [operands]; omega))
  | construct => exact bind_ok (hcount 1 (by simp [operands]; omega))

end CallForm

/-! ### What a call is about -/

/-- What a call comes to: a function with its receiver and arguments, a constructor with the object it is to set up, host
code, an entry in a loop of its own, a value at once, or a fault. -/
inductive Task where
  | function (o : ObjectId) (f : Closure) (this : Value) (args : List Value) (newTarget : Value)
  | constructor (o : ObjectId) (f : Closure) (this : ObjectId) (args : List Value)
  | host (name : Text) (behaviour : Behaviour)
  | entry (e : Entry)
  | value (v : Value)
  | refused (fault : Fault)

section Tasks

variable (m : Machine) (below : List Value) (this callee target : Value) (bs : List BoundFunction) (args : List Value)

/-- What a call through bound functions to a target comes to, and the store that it is done in. -/
def callTask : Store × Task :=
  let σ := m.store.seenAlong callee bs
  (σ, match σ.destination target (boundReceiver bs this) (boundArguments bs args) with
    | .script o f =>
      .function o f (receivers f (boundReceiver bs this) .undefined).1 (boundArguments bs args)
        (receivers f (boundReceiver bs this) .undefined).2
    | .host name behaviour => .host name behaviour
    | .refused fault => .refused fault)

def constructTask : Store × Task :=
  match callee, m.store.constructor? callee with
  | .object o, some f =>
    ((m.store.seen callee).withReceiver m.realm o, .constructor o f m.store.fresh args)
  | _, _ => (m.store.seen callee, .entry (.construct callee args none))

/-- The receiver of the running code, the frame of which is among these operands. -/
def receiverAmong : Value :=
  match m.regs.base with
  | some b => (below[b]?).getD .undefined
  | none => .object m.realm.global

/-- What the evaluation of source text comes to. -/
def evalTask (strict : Bool) : Task :=
  match args with
  | [] => .value .undefined
  | .text source :: _ => .entry (.evaluate source true strict (receiverAmong m below))
  | v :: _ => .value v

def CallForm.task : CallForm → Store × Task
  | .call => callTask m this callee target bs args
  | .construct => constructTask m callee args
  | .callEval strict =>
    match callee with
    | .object o =>
      if o = m.realm.eval then (m.store, evalTask m below args strict) else callTask m this callee target bs args
    | .unresolved name false => (m.store, .refused (.unresolved name))
    | _ => (m.store, .refused (.type .evalNotFunction))

variable {m}

theorem task_of_script {o : ObjectId} {f : Closure} (h : (m.store.object o).callee? = some (.script f)) :
    (CallForm.call.task m below this (.object o) (.object o) [] args).2 =
      .function o f (receivers f this .undefined).1 args (receivers f this .undefined).2 := by
  have hsame := (m.store.makes_seenAlong (.object o) []).callee o
  simp only [CallForm.task, callTask, Store.destination, hsame, h]
  rfl

end Tasks

def SameOperands (m m' : Machine) : Prop := ∀ vs, m.stack.Holds vs → m'.stack.Holds vs

/-- The call instruction `i` in `m` does a task, in a store, above these operands.

* A script function or constructor starts with its frame above them.  Returning, it lets its caller go on.
* Host code or an entry is run.  Coming back, with frames and operands as they were, it lets the caller go on.
* A value is there at once, and a fault is raised. -/
inductive Performs (fuel : Nat) (i : Instruction) (m : Machine) (below : List Value) (σ : Store) : Task → Prop where
  | function {o : ObjectId} {f : Closure} {this newTarget : Value} {args : List Value} {m₁ : Machine}
      (starts : ∀ enter, execute enter fuel i m = .ok () m₁) (store : m₁.store = σ) (suspended : Suspended m m₁)
      (started : Started below o f this args newTarget false m₁) (returns : ReturnsTo fuel i m below) :
      Performs fuel i m below σ (.function o f this args newTarget)
  | constructor {o this : ObjectId} {f : Closure} {args : List Value} {m₁ : Machine}
      (starts : ∀ enter, execute enter fuel i m = .ok () m₁) (store : m₁.store = σ) (suspended : Suspended m m₁)
      (started : Started below o f (.object this) args (.object o) true m₁) (yields : YieldsTo fuel i m below this) :
      Performs fuel i m below σ (.constructor o f this args)
  | host {name : Text} {b : Behaviour} {s : OperandStack}
      (runs : ∀ enter, execute enter fuel i m =
        (do finishCall below.length (← nativeInLoop name (runHost enter fuel b))) { m with store := σ, stack := s })
      (replies : ∀ enter v m₁, runHost enter fuel b (behind name { m with store := σ, stack := s }) = .ok v m₁ →
        m₁.frames = m.advanced.regs :: m.frames → SameOperands { m with store := σ, stack := s } m₁ →
        ∃ m₂, execute enter fuel i m = .ok () m₂ ∧ WentOn m m₂ (below ++ [v])) :
      Performs fuel i m below σ (.host name b)
  | entry {e : Entry} {s : OperandStack} {finish : Value → VM Unit}
      (runs : ∀ enter, execute enter fuel i m = (enter e >>= finish) { m with store := σ, stack := s })
      (replies : ∀ enter v m₁, enter e { m with store := σ, stack := s } = .ok v m₁ → m₁.frames = m.frames →
        m₁.regs = m.regs → SameOperands { m with store := σ, stack := s } m₁ →
        ∃ m₂, execute enter fuel i m = .ok () m₂ ∧ WentOn m m₂ (below ++ [v])) :
      Performs fuel i m below σ (.entry e)
  | value {v : Value} {m₁ : Machine} (done : ∀ enter, execute enter fuel i m = .ok () m₁) (store : m₁.store = σ)
      (wentOn : WentOn m m₁ (below ++ [v])) : Performs fuel i m below σ (.value v)
  | refused {f : Fault} {m₁ : Machine} (fails : ∀ enter, execute enter fuel i m = .error (.fault f) m₁)
      (store : m₁.store = σ) : Performs fuel i m below σ (.refused f)

section Performs

variable {fuel : Nat} {i : Instruction} {m : Machine} {below args : List Value} {this callee target : Value}
  {bs : List BoundFunction}

theorem performs_call (hbound : m.store.BoundTo callee bs target) (hroom : HasRoom 1 m)
    (hstack : m.stack.Holds (below ++ this :: callee :: args))
    (hi : ∀ enter, execute enter fuel i m = execute enter fuel (.call args.length) m) :
    Performs fuel i m below (callTask m this callee target bs args).1 (callTask m this callee target bs args).2 := by
  obtain ⟨s, hs, hinside⟩ := call_of_boundTo fuel hbound hroom hstack
  have hroom₁ : HasRoom 1 { m with store := m.store.seenAlong callee bs, stack := s } := ⟨hroom.calls, hroom.frames⟩
  have hruns := fun enter => (hi enter).trans (hinside enter)
  unfold callTask
  dsimp only
  cases hd : (m.store.seenAlong callee bs).destination target (boundReceiver bs this) (boundArguments bs args) with
  | script o f =>
    rw [hd] at hruns
    obtain rfl := Store.target_of_destination hd
    obtain ⟨m₁, henter, hstore, hcall, hstarted⟩ := enterScript_of_holds none hroom₁ hs
    have hstarts := fun enter => (hruns enter).trans henter
    have hcall : Suspended m m₁ := ⟨hcall.frames, hcall.handlers, hcall.depth⟩
    exact .function hstarts hstore hcall hstarted (returnsTo_of_started hstarts hcall hstarted)
  | host name b =>
    simp only [hd] at hruns
    refine .host hruns fun enter v m₁ hbody hframes hsame => ?_
    obtain ⟨m₂, hfinish, hwent⟩ := wentOn_of_host hroom₁ hbody hframes (hsame _ hs)
    exact ⟨m₂, (hruns enter).trans hfinish, hwent.frames, hwent.regs, hwent.operands⟩
  | refused f =>
    rw [hd] at hruns
    exact .refused hruns rfl

theorem performs_construct (hroom : HasRoom 1 m) (hstack : m.stack.Holds (below ++ callee :: args))
    (hi : ∀ enter, execute enter fuel i m = execute enter fuel (.construct args.length) m) :
    Performs fuel i m below (constructTask m callee args).1 (constructTask m callee args).2 := by
  cases hconstructor : m.store.constructor? callee with
  | some f =>
    obtain ⟨o, rfl, hscript, hnormal⟩ := script_of_constructor hconstructor
    obtain ⟨m₁, hexecute, hstore, hcall, hstarted⟩ := construct_of_script fuel hscript hnormal hroom hstack
    have hexecute : ∀ enter, execute enter fuel i m = .ok () m₁ := fun enter => (hi enter).trans (hexecute enter)
    simp only [constructTask, hconstructor]
    exact .constructor hexecute hstore hcall hstarted (yieldsTo_of_started hexecute hcall hstarted)
  | none =>
    obtain ⟨s, hs, hconstruct⟩ := construct_of_other hconstructor hroom hstack
    have hexecute : ∀ enter, execute enter fuel i m = _ := fun enter => (hi enter).trans (hconstruct enter fuel)
    have htask : constructTask m callee args = (m.store.seen callee, .entry (.construct callee args none)) := by
      unfold constructTask
      rw [hconstructor]
      cases callee <;> rfl
    rw [htask]
    refine .entry hexecute fun enter v m₁ hentry hframes hregs hsame => ?_
    obtain ⟨m₂, hreplace, hwent⟩ := replaceNext_of_holds (hsame _ hs) v
    refine ⟨m₂, ?_, hwent.frames.trans hframes, ?_, hwent.operands⟩
    · rw [hexecute, bind_ok hentry, hreplace]
    · rw [hwent.regs]
      unfold Machine.advanced
      rw [hregs]

theorem receiver_of_holds (rest : List Value) (hstack : m.stack.Holds (below ++ rest))
    (hbase : ∀ b, m.regs.base = some b → b < below.length) : receiver m = .ok (receiverAmong m below) m := by
  unfold receiver receiverAmong
  rw [regs_bind]
  cases hb : m.regs.base with
  | none => rfl
  | some b =>
    have hlt := hbase b hb
    refine slot_of_holds hstack ?_
    dsimp only
    rw [List.getElem?_append_left hlt, List.getElem?_eq_getElem hlt, Option.getD_some]

def finishEval (first : Nat) (v : Value) : VM Unit := do
  finishCall first v
  advance

theorem finishEval_of_same {m₁ : Machine} {rest : List Value} (hstack : m.stack.Holds (below ++ w :: rest))
    (hsame : SameOperands m m₁) (hframes : m₁.frames = m.frames) (hregs : m₁.regs = m.regs) (v : Value) :
    ∃ m₂, finishEval below.length v m₁ = .ok () m₂ ∧ m₂.store = m₁.store ∧ WentOn m m₂ (below ++ [v]) := by
  obtain ⟨s, hcall, hs⟩ := finishCall_of_holds (hsame _ hstack) v
  refine ⟨_, bind_ok hcall, rfl, hframes, ?_, hs⟩
  unfold Machine.advanced
  rw [hregs]

def evaluateFirst (enter : Enter) (strict : Bool) (this : Value) (first : Nat) : List Value → VM Unit
  | [] => finishEval first .undefined
  | .text source :: _ => enter (.evaluate source true strict this) >>= finishEval first
  | v :: _ => finishEval first v

theorem callEval_of_eval (enter : Enter) (fuel : Nat) (hlower : lower <+: below)
    (hbase : ∀ b, m.regs.base = some b → b < lower.length)
    (hstack : m.stack.Holds (below ++ this :: .object m.realm.eval :: args)) :
    execute enter fuel (.callEval args.length strict) m =
      evaluateFirst enter strict (receiverAmong m lower) below.length args m := by
  have hslot : slot (below.length + 1) m = .ok (.object m.realm.eval) m := slot_of_holds hstack (by simp)
  refine (bind_ok (callBase_of_holds hstack)).trans ((bind_ok hslot).trans ?_)
  refine (realm_bind _ m).trans ((congrFun (if_pos rfl) m).trans ?_)
  cases args with
  | nil => rfl
  | cons v rest =>
    have hfirst : slot (below.length + 2) m = .ok v m := slot_of_holds hstack (by simp)
    obtain ⟨upper, rfl⟩ := hlower
    have hreceiver : receiver m = .ok (receiverAmong m lower) m :=
      receiver_of_holds (upper ++ this :: .object m.realm.eval :: v :: rest) (by simpa using hstack) hbase
    refine (congrFun (if_neg (by simp)) m).trans ((bind_ok hfirst).trans ?_)
    cases v with
    | text source => exact bind_ok hreceiver
    | _ => rfl

theorem performs_eval (hlower : lower <+: below) (hbase : ∀ b, m.regs.base = some b → b < lower.length)
    (hstack : m.stack.Holds (below ++ this :: .object m.realm.eval :: args))
    (hi : ∀ enter, execute enter fuel i m = execute enter fuel (.callEval args.length strict) m) :
    Performs fuel i m below m.store (evalTask m lower args strict) := by
  have hvalue : ∀ v, (∀ enter, execute enter fuel i m = finishEval below.length v m) →
      Performs fuel i m below m.store (.value v) := by
    intro v hruns
    obtain ⟨m₂, hfinished, hstore, hwent⟩ := finishEval_of_same hstack (fun _ h => h) rfl rfl v
    exact .value (fun enter => (hruns enter).trans hfinished) hstore hwent
  have hruns := fun enter => (hi enter).trans (callEval_of_eval enter fuel hlower hbase hstack)
  cases args with
  | nil => exact hvalue _ hruns
  | cons v rest =>
    cases v with
    | text source =>
      refine .entry hruns fun enter v m₁ hentry hframes hregs hsame => ?_
      obtain ⟨m₂, hfinished, -, hwent⟩ := finishEval_of_same hstack hsame hframes hregs v
      exact ⟨m₂, (hruns enter).trans ((bind_ok hentry).trans hfinished), hwent⟩
    | _ => exact hvalue _ hruns

theorem performs_callEval (hlower : lower <+: below) (hbase : ∀ b, m.regs.base = some b → b < lower.length)
    (hbound : m.store.BoundTo callee bs target) (hroom : HasRoom 1 m)
    (hstack : m.stack.Holds (below ++ this :: callee :: args))
    (hi : ∀ enter, execute enter fuel i m = execute enter fuel (.callEval args.length strict) m) :
    Performs fuel i m below ((CallForm.callEval strict).task m lower this callee target bs args).1
      ((CallForm.callEval strict).task m lower this callee target bs args).2 := by
  have hslot : slot (below.length + 1) m = .ok callee m := slot_of_holds hstack (by simp)
  have hruns := fun enter => (hi enter).trans ((bind_ok (callBase_of_holds hstack)).trans (bind_ok hslot))
  cases callee with
  | object o =>
    unfold CallForm.task
    dsimp only
    split
    case isTrue heval =>
      subst heval
      exact performs_eval hlower hbase hstack hi
    case isFalse hother =>
      refine performs_call hbound hroom hstack fun enter => (hruns enter).trans ?_
      exact (realm_bind _ m).trans (congrFun (if_neg hother) m)
  | unresolved name member => cases member <;> exact .refused hruns rfl
  | _ => exact .refused hruns rfl

/-- The frame of the running code is below the call, where the call depends on it: what is evaluated has the receiver of
the running code. -/
def CallForm.FrameBelow (m : Machine) (below : List Value) : CallForm → Prop
  | .callEval _ => ∀ b, m.regs.base = some b → b < below.length
  | .call | .construct => True

theorem CallForm.performs (form : CallForm) (hlower : lower <+: below) (hbase : form.FrameBelow m lower)
    (hbound : m.store.BoundTo callee bs target) (hroom : HasRoom 1 m)
    (hstack : m.stack.Holds (below ++ form.operands this callee args))
    (hi : ∀ enter, execute enter fuel i m = execute enter fuel (form.fixed args.length) m) :
    Performs fuel i m below (form.task m lower this callee target bs args).1
      (form.task m lower this callee target bs args).2 := by
  cases form with
  | call => exact performs_call hbound hroom hstack hi
  | construct => exact performs_construct hroom hstack hi
  | callEval strict => exact performs_callEval hlower hbase hbound hroom hstack hi

end Performs

/-! ### Pushing arguments -/

/-- The turns from `a` on up to `b` push these values. -/
structure Nets (ms : Nat → Machine) (a b : Nat) (vs : List Value) : Prop where
  later : a ≤ b
  operands : ∀ ws, (ms a).stack.Holds ws → (ms b).stack.Holds (ws ++ vs)

/-- The turns from `a` on up to `b` replace these operands by a value. -/
structure Replaces (ms : Nat → Machine) (a b : Nat) (ops : List Value) (v : Value) : Prop where
  later : a ≤ b
  operands : ∀ ws, (ms a).stack.Holds (ws ++ ops) → (ms b).stack.Holds (ws ++ [v])

/-- The instruction that is executed in turn `t`, and the machine that it is executed in. -/
structure Executes (ms : Nat → Machine) (t : Nat) (i : Instruction) (m : Machine) : Prop where
  taken : takeInterrupt (ms t) = .ok () m
  next : next? (ms t) = some i

/-- An iterator yields these items, each of which is pushed, and comes to its end.  The operands are not touched by its
steps. -/
inductive Yields (enter : Enter) (i : IteratorId) : Machine → List Value → Machine → Prop where
  | done {m m' : Machine} (step : stepIterator enter i m = .ok (.ok none) m') (same : SameOperands m m') :
      Yields enter i m [] m'
  | item {m m₁ m' : Machine} {v : Value} {vs : List Value} (step : stepIterator enter i m = .ok (.ok (some v)) m₁)
      (same : SameOperands m m₁) (rest : Yields enter i { m₁ with stack := m₁.stack.push v } vs m') :
      Yields enter i m (v :: vs) m'

/-- In turn `t` the value on top of the stack is spread: an iterator over it is opened, which yields these items. -/
inductive Spreads (fuel : Nat) (ms : Nat → Machine) (t : Nat) (items : List Value) : Prop where
  | intro {m m₁ m' : Machine} {v : Value} {s : OperandStack} {i : IteratorId} (executes : Executes ms t .pushArguments m)
      (popped : m.stack.pop = .ok (v, s))
      (opened : openIterator (disciplined fuel) v { m with stack := s } = .ok i m₁)
      (same : SameOperands { m with stack := s } m₁) (yields : Yields (disciplined fuel) i m₁ items m')
      (finite : items.length < fuel)

/-- The turns from `a` on push these arguments one after the other: single values; all items of a value that is spread;
and what complete variadic calls come to, the arguments of which are pushed in the same way. -/
inductive Pushes (fuel : Nat) (ms : Nat → Machine) : Nat → List Value → Nat → Prop where
  | none (a : Nat) : Pushes fuel ms a [] a
  | value {a b c : Nat} {vs : List Value} {v : Value} (before : Pushes fuel ms a vs b) (pushed : Nets ms b c [v]) :
      Pushes fuel ms a (vs ++ [v]) c
  | spread {a b c : Nat} {vs items : List Value} {v : Value} (before : Pushes fuel ms a vs b)
      (pushed : Nets ms b c [v]) (spreads : Spreads fuel ms c items) : Pushes fuel ms a (vs ++ items) (c + 1)
  | call {a b c d : Nat} {vs ops : List Value} {v : Value} {m m' : Machine} (before : Pushes fuel ms a vs b)
      (starts : Executes ms b .startVariadic m) (operands : Pushes fuel ms (b + 1) ops c)
      (answered : Replaces ms c d ops v) (ends : Executes ms d .endVariadic m') : Pushes fuel ms a (vs ++ [v]) (d + 1)

section Pushing

variable {fuel k : Nat} {e : Entry} {s : Machine} {ms : Nat → Machine} {a b : Nat} {enter : Enter} {i : IteratorId}
  {m' : Machine}

theorem Pushes.le (h : Pushes fuel ms a vs b) : a ≤ b := by
  induction h with
  | none => exact Nat.le_refl _
  | value _ pushed ih => exact ih.trans pushed.later
  | spread _ pushed _ ih => exact (ih.trans pushed.later).trans (Nat.le_succ _)
  | call _ _ _ answered _ ihbefore ihoperands =>
    have hlater := answered.later
    omega

theorem forItems_of_feed {enter : Enter} {n : Nat} {f : Value → VM Unit} {i : IteratorId} {m m₁ m₂ : Machine}
    (hopen : openIterator enter v m = .ok i m₁) (hfeed : feed enter (fun _ x => f x) n i () m₁ = .ok ((), .ok ()) m₂) :
    forItems enter n v f m = .ok () m₂ := by
  have hitems : feedItems enter n v (fun _ x => f x) () m = .ok ((), .ok ()) m₂ := by
    unfold feedItems
    rw [bind_ok (attempt_ok hopen)]
    exact hfeed
  unfold forItems
  rw [bind_ok hitems]
  rfl

theorem Yields.feed (h : Yields enter i m items m') {n : Nat}
    (hn : items.length < n) : feed enter (fun _ => push) n i () m = .ok ((), .ok ()) m' := by
  induction h generalizing n with
  | done step =>
    obtain ⟨n, rfl⟩ : ∃ k, n = k + 1 := ⟨n - 1, by omega⟩
    rw [VM.feed, bind_ok step]
    rfl
  | item step _ _ ih =>
    obtain ⟨n, rfl⟩ : ∃ k, n = k + 1 := ⟨n - 1, by omega⟩
    rw [VM.feed, bind_ok step]
    exact ih (by simpa using hn)

theorem Yields.operands (h : Yields enter i m items m')
    (hstack : m.stack.Holds ws) : m'.stack.Holds (ws ++ items) := by
  induction h generalizing ws with
  | done _ same => simpa using same _ hstack
  | item _ same _ ih => simpa using ih ((same _ hstack).push _)

variable (hrun : DisciplinedRun fuel e s ms k)

include hrun

theorem DisciplinedRun.spreads (ht : t < k) (h : Spreads fuel ms t items) (hstack : (ms t).stack.Holds (ws ++ [v])) :
    (ms (t + 1)).stack.Holds (ws ++ items) := by
  cases h with
  | @intro m m₁ m' v' st i executes popped opened same yields finite =>
    rw [← taken_stack executes.taken] at hstack
    obtain ⟨st', hpop, hst⟩ := hstack.pop
    cases popped.symm.trans hpop
    have hpopped : pop m = .ok v { m with stack := st } := onStack_of_ok popped
    have hpushed := forItems_of_feed opened (yields.feed finite)
    have hexecute : execute (disciplined fuel) fuel .pushArguments m =
        .ok () { m' with regs := { m'.regs with pc := m'.regs.pc + 1 } } :=
      (bind_ok hpopped).trans (bind_ok hpushed)
    rw [hrun.state_eq ht ((step_eq _ fuel executes.taken executes.next).trans hexecute)]
    exact yields.operands (same _ hst)

theorem DisciplinedRun.startVariadic (ht : t < k) (h : Executes ms t .startVariadic m)
    (hstack : (ms t).stack.Holds ws) : (ms (t + 1)).stack.Holds (ws ++ [marker]) := by
  rw [hrun.executed ht h.taken h.next fun _ => rfl]
  rw [← taken_stack h.taken] at hstack
  exact hstack.push marker

theorem DisciplinedRun.endVariadic (ht : t < k) (h : Executes ms t .endVariadic m)
    (hstack : (ms t).stack.Holds (ws ++ [w, v])) : WentOn m (ms (t + 1)) (ws ++ [v]) := by
  rw [← taken_stack h.taken] at hstack
  obtain ⟨m', hends, hwent⟩ := endVariadic_of_holds hstack
  rwa [hrun.executed ht h.taken h.next fun _ => hends]

/-- **Arguments are pushed in order**, and nothing else is. -/
theorem DisciplinedRun.pushes (h : Pushes fuel ms a vs b) (hb : b ≤ k) (hstack : (ms a).stack.Holds ws) :
    (ms b).stack.Holds (ws ++ vs) := by
  induction h generalizing ws with
  | none => simpa using hstack
  | value before pushed ih =>
    have hbefore := ih (pushed.later.trans hb) hstack
    simpa using pushed.operands _ hbefore
  | spread before pushed spreads ih =>
    have hbefore := ih (by have hlater := pushed.later; omega) hstack
    simpa using hrun.spreads hb spreads (pushed.operands _ hbefore)
  | @call _ _ _ d vs _ v _ _ before starts operands answered ends ihbefore ihoperands =>
    have hlater := answered.later
    have hle := operands.le
    have hbefore := ihbefore (by omega) hstack
    have hoperands := ihoperands (by omega) (hrun.startVariadic (by omega) starts hbefore)
    have hanswered : (ms d).stack.Holds ((ws ++ vs) ++ [marker, v]) := by
      simpa using answered.operands _ hoperands
    simpa using (hrun.endVariadic hb ends hanswered).operands

end Pushing

/-! ### Variadic and fixed calls -/

/-- **Variadic calls are fixed calls**, but for callees that move their frame: with the marker and the operands pushed,
the instruction is the one for as many arguments as there are; whether it is executed above the marker or with the same
operands pushed directly, the same is called with the same receiver and arguments, and what comes back in place takes the
place of the operands.  The end of a variadic call drops what is below the result then, which is the marker if the callee
came back in place. -/
theorem variadic_calls_fixed {fuel k a c : Nat} {e : Entry} {s : Machine} {ms : Nat → Machine}
    (hrun : DisciplinedRun fuel e s ms k) (form : CallForm) {m₀ m : Machine} {below args : List Value}
    {this callee target : Value} {bs : List BoundFunction} (hbelow : (ms a).stack.Holds below)
    (hstart : Executes ms a .startVariadic m₀) (hpushes : Pushes fuel ms (a + 1) (form.operands this callee args) c)
    (hmarker : marker ∉ form.operands this callee args) (hc : c < k) (hcall : Executes ms c form.variadic m)
    (hbound : m.store.BoundTo callee bs target) (hroom : HasRoom 1 m) (hframe : form.FrameBelow m below)
    {direct : OperandStack} (hdirect : direct.Holds (below ++ form.operands this callee args)) :
    (∀ enter, execute enter fuel form.variadic m = execute enter fuel (form.fixed args.length) m) ∧
    Performs fuel form.variadic m (below ++ [marker]) (form.task m below this callee target bs args).1
      (form.task m below this callee target bs args).2 ∧
    Performs fuel (form.fixed args.length) { m with stack := direct } below
      (form.task m below this callee target bs args).1 (form.task m below this callee target bs args).2 ∧
    ∀ d m₁ ws w v, d < k → Executes ms d .endVariadic m₁ → (ms d).stack.Holds (ws ++ [w, v]) →
      WentOn m₁ (ms (d + 1)) (ws ++ [v]) := by
  have hle := hpushes.le
  have hmarked := hrun.startVariadic (by omega) hstart hbelow
  have hstack := hrun.pushes hpushes (Nat.le_of_lt hc) hmarked
  rw [← taken_stack hcall.taken] at hstack
  have hsame := fun enter => form.execute_variadic (by simpa using hstack) hmarker enter fuel
  refine ⟨hsame, form.performs (List.prefix_append _ _) hframe hbound hroom hstack hsame, ?_, ?_⟩
  · have hroom' : HasRoom 1 { m with stack := direct } := ⟨hroom.calls, hroom.frames⟩
    have hframe' : form.FrameBelow { m with stack := direct } below := by cases form <;> exact hframe
    have hfixed : ∀ enter, execute enter fuel (form.fixed args.length) { m with stack := direct } =
        execute enter fuel (form.fixed args.length) { m with stack := direct } := fun _ => rfl
    have hperforms := form.performs (List.prefix_refl below) hframe' hbound hroom' hdirect hfixed
    cases form <;> exact hperforms
  · exact fun d m₁ ws w v hd hends hstack => hrun.endVariadic hd hends hstack

/-! ### Testing runs -/

section Test

variable {fuel k : Nat} {e : Entry} {s m m' : Machine} {ms : Nat → Machine} {a b : Nat} {i : IteratorId}
  {vs ops items : List Value} {v : Value}

theorem follows_disciplined (fuel : Nat) (e : Entry) : Obeys following (tested baseTest fuel e) (disciplined fuel e) :=
  follows_tested (fun _ _ h => propagates_of_onlyScripts h) (fun _ _ _ h => (keepsBase_of_test h).toKeeps) fuel e

theorem disciplinedRun_of_tested (he : e.runsProgram = true) (hs : s.WellNested)
    (h : ∀ t < k, keepsBase? e s (stateAfter (tested baseTest fuel) fuel (nested s) t) = true ∧
      (stateAfter (tested baseTest fuel) fuel (nested s) t).halted = false ∧
      succeeds? (turn (tested baseTest fuel) fuel) (stateAfter (tested baseTest fuel) fuel (nested s) t) = some true) :
    DisciplinedRun fuel e s (stateAfter (tested baseTest fuel) fuel (nested s)) k := by
  have hhistory := history_stateAfter fun t ht => ⟨(h t ht).2.1, .inl (h t ht).2.2⟩
  exact ⟨.program he hs, rfl, history_disciplined (fun t ht => (keepsBase_of_test (h t ht).1).toKeeps)
    (hhistory.follows (follows_turn (follows_disciplined fuel) fuel))⟩

theorem nets_of_test (h : a ≤ b ∧ (ms b).stack.toList = (ms a).stack.toList ++ vs ∧
    (ms b).stack.top = (ms a).stack.top + vs.length) : Nets ms a b vs := by
  obtain ⟨hab, hlist, htop⟩ := h
  refine ⟨hab, fun ws hws => ⟨by rw [hlist, hws.toList_eq], by rw [htop, hws.top_eq, List.length_append]⟩⟩

theorem replaces_of_test (ws : List Value) (h : a ≤ b ∧ (ms a).stack.toList = ws ++ ops ∧
    (ms b).stack.toList = ws ++ [v] ∧ (ms b).stack.top = (ws ++ [v]).length) : Replaces ms a b ops v := by
  obtain ⟨hab, hbefore, hafter, htop⟩ := h
  refine ⟨hab, fun ws' hws => ?_⟩
  obtain rfl := List.append_cancel_right (hbefore.symm.trans hws.toList_eq)
  exact ⟨hafter, htop⟩

theorem executes_of_test {i : Instruction} (h : next? (ms t) = some i ∧ (ms t).interrupt.isNone = true) :
    Executes ms t i (ms t) :=
  ⟨takeInterrupt_of_none (Option.isNone_iff_eq_none.mp h.2), h.1⟩

deriving instance DecidableEq for FunctionKind, Closure

def scriptAt? (σ : Store) (o : ObjectId) : Option Closure :=
  match (σ.object o).callee? with
  | some (.script f) => some f
  | _ => none

theorem callee_of_test {σ : Store} {o : ObjectId} {f : Closure} (h : scriptAt? σ o = some f) :
    (σ.object o).callee? = some (.script f) := by
  unfold scriptAt? at h
  split at h <;> cases h
  assumption

def sameOperands? (m m' : Machine) : Bool := m'.stack.toList = m.stack.toList && m'.stack.top = m.stack.top

theorem sameOperands_of_test (h : sameOperands? m m' = true) : SameOperands m m' := by
  obtain ⟨hlist, htop⟩ : m'.stack.toList = m.stack.toList ∧ m'.stack.top = m.stack.top := by
    simpa [sameOperands?] using h
  exact fun ws hws => ⟨hlist.trans hws.toList_eq, htop.trans hws.top_eq⟩

/-- The items that an iterator yields in a number of steps, if it comes to its end and leaves the operands alone. -/
def yields? (enter : Enter) (i : IteratorId) : Nat → Machine → Option (List Value)
  | 0, _ => none
  | n + 1, m =>
    match stepIterator enter i m with
    | .ok (.ok none) m₁ => if sameOperands? m m₁ then some [] else none
    | .ok (.ok (some v)) m₁ =>
      if sameOperands? m m₁ then (yields? enter i n { m₁ with stack := m₁.stack.push v }).map (v :: ·) else none
    | _ => none

theorem yields_of_test {n : Nat} (h : yields? (tested baseTest fuel) i n m = some items) :
    ∃ m', Yields (disciplined fuel) i m items m' := by
  have hfollows : Obeys following (stepIterator (tested baseTest fuel) i) (stepIterator (disciplined fuel) i) :=
    obeys_stepIterator (fun e _ => (follows_disciplined fuel e).when _) i
  induction n generalizing m items with
  | zero => cases h
  | succ n ih =>
    unfold yields? at h
    split at h
    case h_1 m₁ hstep =>
      split at h
      case isTrue hsame =>
        cases h
        exact ⟨m₁, .done (hfollows.ok_of_following hstep) (sameOperands_of_test hsame)⟩
      case isFalse => cases h
    case h_2 v m₁ hstep =>
      split at h
      case isTrue hsame =>
        obtain ⟨rest, hrest, rfl⟩ := Option.map_eq_some_iff.mp h
        obtain ⟨m', hyields⟩ := ih hrest
        exact ⟨m', .item (hfollows.ok_of_following hstep) (sameOperands_of_test hsame) hyields⟩
      case isFalse => cases h
    case h_3 => cases h

/-- The items that the value on top of the stack is spread into. -/
def spreads? (enter : Enter) (fuel : Nat) (m : Machine) : Option (List Value) :=
  match m.stack.pop with
  | .ok (v, s) =>
    match openIterator enter v { m with stack := s } with
    | .ok i m₁ => if sameOperands? { m with stack := s } m₁ then yields? enter i fuel m₁ else none
    | _ => none
  | _ => none

theorem spreads_of_test (hexecutes : Executes ms t .pushArguments m)
    (h : spreads? (tested baseTest fuel) fuel m = some items) (hfinite : items.length < fuel) :
    Spreads fuel ms t items := by
  unfold spreads? at h
  split at h
  case h_1 v st hpop =>
    split at h
    case h_1 i m₁ hopen =>
      split at h
      case isTrue hsame =>
        obtain ⟨m', hyields⟩ := yields_of_test h
        have hfollows : Obeys following (openIterator (tested baseTest fuel) v) (openIterator (disciplined fuel) v) :=
          obeys_openIterator (fun e _ => (follows_disciplined fuel e).when _) v
        exact .intro hexecutes hpop (hfollows.ok_of_following hopen) (sameOperands_of_test hsame) hyields hfinite
      case isFalse => cases h
    case h_2 => cases h
  case h_2 => cases h

end Test

/-! ### A call with spread and nested arguments -/

/-- The function that is called; it returns its first argument. -/
def firstOfAll : Closure := ⟨⟨⟨1⟩, Text.ofString "f", 1, false⟩, (Machine.new .default).realm.globalScope, .normal⟩

/-- A program that, with an operand below, calls a function with a number, the only item of an iterable, and the result
of a nested call.  The `next` function of the iterable sets `done` to what `last` was before. -/
def spreadingCall : Machine :=
  let m := withCode #[.loadConstant 1, .startVariadic, .loadUndefined, .loadConstant 0, .loadConstant 2, .loadConstant 3,
    .pushArguments, .startVariadic, .loadUndefined, .loadConstant 0, .callVariadic, .endVariadic, .callVariadic,
    .endVariadic, .halt] #[.object ⟨0⟩, .int 5, .int 3, .object ⟨1⟩]
  let program (code : Array Instruction) (constants : Array Value) : Program :=
    { code, constants, name := Text.ofString "f", source := none, marks := [] }
  let function (p : Nat) : Object :=
    ⟨.new none, .function ⟨⟨⟨p⟩, Text.ofString "f", 0, false⟩, m.realm.globalScope, .normal⟩⟩
  let last := Text.ofString "last"
  { m with
    store := { m.store with
      objects := #[⟨.new none, .function firstOfAll⟩,
        ⟨⟨none, ⟨[(.symbol .iterator, .plain (.object ⟨2⟩))]⟩, true⟩, .ordinary⟩, function 2,
        ⟨⟨none, ⟨[(.ofString "next", .plain (.object ⟨4⟩))]⟩, true⟩, .ordinary⟩, function 3,
        ⟨⟨none, ⟨[(.ofString "value", .plain (.int 7)), (.ofString "last", .plain (.bool false))]⟩, true⟩, .ordinary⟩]
      programs := m.store.programs ++ #[
        program #[.enterBare 0 1, .loadSlot ⟨-1, false⟩ false, .ret] #[],
        program #[.enterBare 0 0, .loadConstant 0, .ret] #[.object ⟨3⟩],
        program #[.enterBare 0 0, .loadConstant 0, .loadConstant 0, .getMember last false,
          .setMember (Text.ofString "done") false true, .loadConstant 0, .loadConstant 1, .setMember last false true,
          .loadConstant 0, .ret] #[.object ⟨5⟩, .bool true]] } }

def spreadingRun : Nat → Machine := stateAfter (tested baseTest 16) 16 (nested spreadingCall)

/-- The function gets the number, the item and the result of the nested call, and its caller goes on with what it returns
in the place of all operands and the marker. -/
theorem variadic_calls_fixed_spreading :
    DisciplinedRun 16 (.program ⟨0⟩) spreadingCall spreadingRun 20 ∧
      Pushes 16 spreadingRun 2 [.undefined, .object ⟨0⟩, .int 3, .int 7, .undefined] 15 ∧
      (∃ m₁, (∀ enter, execute enter 16 .callVariadic (spreadingRun 15) = .ok () m₁) ∧
        Started [.int 5, marker] ⟨0⟩ firstOfAll .undefined [.int 3, .int 7, .undefined] .undefined false m₁) ∧
      WentOn (spreadingRun 15) (spreadingRun 19) [.int 5, marker, .int 3] ∧
      WentOn (spreadingRun 19) (spreadingRun 20) [.int 5, .int 3] := by
  have hrun : DisciplinedRun 16 (.program ⟨0⟩) spreadingCall spreadingRun 20 :=
    disciplinedRun_of_tested rfl ((wellNested_new .default).congr rfl rfl) (by decide +kernel)
  have hnext : ∀ p ∈ [(1, Instruction.startVariadic), (6, .pushArguments), (7, .startVariadic), (14, .endVariadic),
      (15, .callVariadic), (19, .endVariadic)],
        next? (spreadingRun p.1) = some p.2 ∧ (spreadingRun p.1).interrupt.isNone = true := by decide +kernel
  have hexecutes : ∀ t i, (t, i) ∈ _ → Executes spreadingRun t i (spreadingRun t) :=
    fun t i h => executes_of_test (hnext (t, i) h)
  have hloads : ∀ p ∈ [(2, Value.undefined), (3, .object ⟨0⟩), (4, .int 3), (5, .object ⟨1⟩), (8, .undefined),
      (9, .object ⟨0⟩)], (spreadingRun (p.1 + 1)).stack.toList = (spreadingRun p.1).stack.toList ++ [p.2] ∧
        (spreadingRun (p.1 + 1)).stack.top = (spreadingRun p.1).stack.top + 1 := by decide +kernel
  have hnets : ∀ t v, (t, v) ∈ _ → Nets spreadingRun t (t + 1) [v] :=
    fun t v h => nets_of_test ⟨Nat.le_succ t, hloads (t, v) h⟩
  -- receiver, callee and number, then the iterable, then the nested call
  have hthree : Pushes 16 spreadingRun 2 [.undefined, .object ⟨0⟩, .int 3] 5 :=
    (((Pushes.none 2).value (hnets 2 _ (by decide))).value (hnets 3 _ (by decide))).value (hnets 4 _ (by decide))
  have hspreads : Spreads 16 spreadingRun 6 [.int 7] :=
    spreads_of_test (hexecutes 6 _ (by decide)) (by decide +kernel) (by decide)
  have hspread : Pushes 16 spreadingRun 2 [.undefined, .object ⟨0⟩, .int 3, .int 7] 7 :=
    hthree.spread (hnets 5 (.object ⟨1⟩) (by decide)) hspreads
  have hnested : Pushes 16 spreadingRun 8 [.undefined, .object ⟨0⟩] 10 :=
    ((Pushes.none 8).value (hnets 8 _ (by decide))).value (hnets 9 _ (by decide))
  have hanswered : Replaces spreadingRun 10 14 [.undefined, .object ⟨0⟩] .undefined :=
    replaces_of_test [.int 5, marker, .undefined, .object ⟨0⟩, .int 3, .int 7, marker] (by decide +kernel)
  have hpushes : Pushes 16 spreadingRun 2 [.undefined, .object ⟨0⟩, .int 3, .int 7, .undefined] 15 :=
    hspread.call (hexecutes 7 _ (by decide)) hnested hanswered (hexecutes 14 _ (by decide))
  have hcall : Executes spreadingRun 15 .callVariadic (spreadingRun 15) := hexecutes 15 _ (by decide)
  have hscript := callee_of_test (f := firstOfAll) (o := ⟨0⟩) (σ := (spreadingRun 15).store) (by decide +kernel)
  have hbound : (spreadingRun 15).store.BoundTo (.object ⟨0⟩) [] (.object ⟨0⟩) :=
    .target (by simp only [Store.boundAt?, hscript])
  have hroom : HasRoom 1 (spreadingRun 15) := ⟨.inl (by decide +kernel), .inr (by decide +kernel)⟩
  have hbelow : (spreadingRun 1).stack.Holds [.int 5] := ⟨by decide +kernel, by decide +kernel⟩
  have hempty : OperandStack.new.Holds [] := ⟨rfl, rfl⟩
  have hdirect := hempty.pushAll
    ([.int 5] ++ CallForm.call.operands .undefined (.object ⟨0⟩) [.int 3, .int 7, .undefined])
  obtain ⟨_, hvariadic, _, hends⟩ := variadic_calls_fixed hrun .call hbelow (hexecutes 1 _ (by decide))
    hpushes (by decide) (by decide) hcall hbound hroom trivial hdirect
  rw [task_of_script _ _ _ hscript] at hvariadic
  have hreturning : Returning spreadingRun 15 18
      [.int 5, marker, .object ⟨0⟩, .undefined, .int 3, .int 7, .undefined] (.int 3) :=
    returning_of_test (by decide) (by decide +kernel)
  have hplace : InPlace spreadingRun 15 18 := by
    have hbase : ∀ t < 18, 15 < t →
        (spreadingRun t).regs.base = some ((spreadingRun t).stack.top - ((spreadingRun t).regs.args + 1)) := by
      decide +kernel
    exact fun t h15 h18 _ _ _ => hbase t h18 h15
  cases hvariadic with
  | function starts _ _ started returns =>
    have hwent := (returns hrun (by decide) hcall.taken hcall.next hreturning).2 hplace ⟨_, rfl⟩
    have hended := hends 19 (spreadingRun 19) [.int 5] marker (.int 3) (by decide)
      (hexecutes 19 _ (by decide)) hwent.operands
    exact ⟨hrun, hpushes, ⟨_, starts, started⟩, hwent, hended⟩

end ScriptMachine.VM
