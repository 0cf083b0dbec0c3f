import ScriptMachine.Proofs.Bases

/-!
# Calls from host code

Host code calls back into the machine, and what it calls may call, throw, catch and evaluate source text to any depth.
When the call is over, with a result or a fault, the machine is as it was before, if the discipline is kept; for the top
of the operand stack, bases have to be kept too.

Main result: `calls_balanced`.
-/

namespace ScriptMachine.VM

/-! ### The top of the stack -/

/-- Handlers, the number of dispatch loops and the top of the operand stack are the same. -/
structure Level (m m' : Machine) : Prop where
  handlers : m'.handlers = m.handlers
  depth : m'.depth = m.depth
  top : m'.stack.top = m.stack.top

/-- The law that the top of the stack stays the same, whatever becomes of it in a failure. -/
def level : Law where
  pre := Machine.WellNested
  rel := Level
  fail := isolating.rel
  stops _ := False
  refl _ := ⟨rfl, rfl, rfl⟩
  trans h h' := ⟨h'.handlers.trans h.handlers, h'.depth.trans h.depth, h'.top.trans h.top⟩
  keeps hm h := hm.congr h.handlers h.depth
  weaken h := ⟨h.handlers, h.depth⟩
  trans_fail h h' := ⟨h'.1.trans h.handlers, h'.2.trans h.depth⟩

instance : level.Aside := ⟨fun h => ⟨h.handlers, h.depth, by rw [h.stack]⟩⟩

instance : level.Guard where
  restore _ h := ⟨h.1, h.2, OperandStack.top_setTop _ _⟩
  refs _ _ := Law.Aside.aside {}

/-- Nested entries are level, and those that evaluate source text are so when they succeed. -/
structure Levels (enter : Enter) : Prop where
  strict : ∀ e, e.evaluates = false → Heeds level.strict (enter e)
  evaluate : ∀ e, Heeds level (enter e)

theorem Levels.isolates {enter : Enter} (he : Levels enter) (e : Entry) : Heeds isolating (enter e) :=
  (he.evaluate e).mono id (fun _ h => ⟨h.handlers, h.depth⟩) (fun _ => id) id

theorem level_of_ok {x : VM α} (hx : Heeds isolating x)
    (hok : ∀ m a m', m.WellNested → x m = .ok a m' → m'.stack.top = m.stack.top) : Heeds level x := by
  refine obeys_self fun m hm => ?_
  have hallows := hx.allows hm
  rcases h : x m with ⟨a, m'⟩ | ⟨f | _, m'⟩
  · rw [h] at hallows
    exact ⟨hallows.1, hallows.2, hok m a m' hm h⟩
  · rw [h] at hallows
    exact hallows
  · trivial

/-! ### Host functions -/

theorem level_saved {x : VM α} (hx : Heeds level x) : Heeds level (do pushFrame; let a ← x; popFrame; return a) := by
  have hpush : Heeds level pushFrame := level_of_ok obeys_pushFrame fun m _ m' _ h => by
    rcases pushFrame_spec m with hpush | ⟨hpush, _⟩
    · cases h.symm.trans hpush
      rfl
    · cases h.symm.trans hpush
  have hpop : Heeds level popFrame := level_of_ok obeys_popFrame fun m _ m' _ h => by
    cases hf : m.frames with
    | nil => cases h.symm.trans (popFrame_of_nil hf)
    | cons a rest =>
      cases h.symm.trans (popFrame_of_cons hf)
      rfl
  exact hpush.bind fun _ => hx.bind fun a => hpop.bind fun _ => obeys_pure a

theorem level_behindNative {enter : Enter} (he : Levels enter) (fuel : Nat) (name : Text) {b : Behaviour}
    (hb : b.Propagates) :
    Heeds level (behindNative name (runHost enter fuel b)) := by
  have hhost : Heeds level (runHost enter fuel b) :=
    obeys_propagating he.strict he.evaluate he.isolates (fun hm h => hm.congr h.1 h.2)
      (fun h h' => isolating.trans h h') fuel hb
  have henter : Heeds level (enterNative name) := obeys_modify fun _ => ⟨rfl, rfl, rfl⟩
  exact level_saved (henter.bind fun _ => hhost)

/-! ### Programs -/

/-- A computation that leaves the top of the stack somewhere whenever it succeeds. -/
def LeavesTop (t : Nat) (x : VM α) : Prop := ∀ m a m', x m = .ok a m' → m'.stack.top = t

theorem LeavesTop.bind {t : Nat} {x : VM α} {k : α → VM β} (hk : ∀ a, LeavesTop t (k a)) : LeavesTop t (x >>= k) := by
  intro m b m' h
  obtain ⟨a, m₁, _, hrest⟩ := bind_eq_ok.mp h
  exact hk a m₁ b m' hrest

theorem leavesTop_endProgram (t : Nat) : LeavesTop t (endProgram t) := by
  refine .bind fun r => .bind fun _ => .bind fun _ => ?_
  intro m v m' h
  cases h
  exact OperandStack.top_setTop _ _

theorem level_top {x : Nat → VM α} (hx : ∀ t, Heeds isolating (x t)) (ht : ∀ t, LeavesTop t (x t)) :
    Heeds level (do let t ← top; x t) :=
  level_of_ok (obeys_top.bind hx) fun m a m' _ h => ht m.stack.top m a m' h

section Runs

variable {run : VM Unit} (hrun : Heeds isolating run)

include hrun

theorem level_runGlobally (p : ProgramId) : Heeds level (runGlobally run p) := by
  refine level_top (fun t => ?_) fun t => ?_
  · refine obeys_pushFrame.bind fun _ => obeys_realm.bind fun _ => ?_
    exact (obeys_changeRegs _).bind fun _ => (passes_startProgram hrun _ _ t).obeys
  · refine .bind fun _ => .bind fun _ => .bind fun _ => ?_
    exact .bind fun _ => .bind fun _ => leavesTop_endProgram t

theorem level_evaluate (source : Text) (direct strict : Bool) (this : Value) :
    Heeds level (evaluate run source direct strict this) := by
  cases direct with
  | true =>
    refine obeys_inFunction.bind fun _ => (obeys_compile _ _).bind fun p => ?_
    refine level_top (fun t => ?_) fun t => ?_
    · exact obeys_pushFrame.bind fun _ => (obeys_pure PUnit.unit).bind fun _ => (passes_startProgram hrun p this t).obeys
    · exact .bind fun _ => .bind fun _ => .bind fun _ => leavesTop_endProgram t
  | false =>
    refine (obeys_pure _).bind fun _ => (obeys_compile _ _).bind fun p => ?_
    refine level_top (fun t => ?_) fun t => ?_
    · refine obeys_pushFrame.bind fun _ => obeys_realm.bind fun _ => ?_
      exact (obeys_changeRegs _).bind fun _ => (passes_startProgram hrun p this t).obeys
    · refine .bind fun _ => .bind fun _ => ?_
      exact .bind fun _ => .bind fun _ => .bind fun _ => leavesTop_endProgram t

end Runs

/-! ### Functions -/

/-- The boundary above which a function is called from outside, with the callee, its receiver and arguments pushed. -/
def outsideCall (callee : ObjectId) (this : Value) (args : List Value) (m : Machine) : Machine :=
  { m with
    regs := { m.regs with program := none, native := none }
    stack := args.foldl OperandStack.push ((m.stack.push (.object callee)).push this) }

/-- The registers of a function that is called from outside. -/
def calleeRegs (f : Closure) (args : List Value) (base : Nat) (newTarget : Value) (r : Activation) : Activation :=
  { r with
    args := args.length, program := some f.template.program, scope := f.scope, base := some base, pc := 0, newTarget
    constructing := false }

theorem functionBody_eq (run : VM Unit) (callee : ObjectId) (f : Closure) (this : Value) (args : List Value)
    (newTarget : Value) (m : Machine) : functionBody run callee f this args newTarget m = (do
      pushFrame
      modifyRegs (calleeRegs f args (m.stack.push (.object callee)).top (receivers f this newTarget).2)
      run
      pop : VM Value) (outsideCall callee (receivers f this newTarget).1 args m) := rfl

section Functions

variable {enter : Enter} (he : Nests enter) (fuel : Nat) {e : Entry}

include he

theorem isolating_watchedDispatch (w : Watch) : Heeds isolating (watchedDispatch w outOfFuel enter fuel e) :=
  obeys_dispatch fuel fun _ hs => obeys_checked fun _ hi _ => (obeys_turn he.isolates fuel hs).allows hi

variable (he' : e.runsProgram = false) (callee : ObjectId) (f : Closure) (this : Value) (args : List Value)
  (newTarget : Value)

include he'

/-- The return puts the top at the base, one above the callee, and the result is popped from the place of the callee. -/
theorem level_functionBody :
    Heeds level (functionBody (watchedDispatch baseDiscipline outOfFuel enter fuel e) callee f this args newTarget) := by
  have hrun := isolating_watchedDispatch he fuel (e := e) baseDiscipline
  refine level_of_ok ?_ fun m v m' hm h => ?_
  · refine (obeys_changeRegs _).bind fun _ => (obeys_push _).bind fun _ => obeys_top.bind fun _ => ?_
    refine (obeys_push _).bind fun _ => (obeys_pushAll _).bind fun _ => obeys_pushFrame.bind fun _ => ?_
    exact (obeys_changeRegs _).bind fun _ => hrun.bind fun _ => obeys_pop
  · rw [functionBody_eq] at h
    rcases pushFrame_spec (outsideCall callee (receivers f this newTarget).1 args m) with hpush | ⟨hpush, _⟩
    · rw [bind_ok hpush] at h
      obtain ⟨_, s, hregs, h⟩ := bind_eq_ok.mp h
      obtain ⟨_, m₁, hloop, hpop⟩ := bind_eq_ok.mp h
      have hs : s.WellNested := by
        cases hregs
        exact hm.congr rfl rfl
      have hbound : Bounded e s := by
        cases hregs
        exact fun _ => ⟨_, rfl, rfl⟩
      have hbase : s.regs.base = some (m.stack.top + 1) := by
        cases hregs
        exact congrArg some (OperandStack.top_push _ _)
      have htop := top_of_dispatch he hs hbound he' hbase hloop
      obtain ⟨stack, hstack, rfl⟩ := pop_eq_ok hpop
      rw [htop] at hstack
      exact hstack
    · rw [bind_error hpush] at h
      cases h

theorem level_runScript :
    Heeds level (runScript (watchedDispatch baseDiscipline outOfFuel enter fuel e) callee f this args newTarget) := by
  rw [runScript_eq]
  exact level_saved (level_functionBody he fuel he' callee f this args newTarget)

end Functions

/-! ### Entries -/

/-- **Entries that keep the discipline and bases are level.** -/
theorem levels_grounded (fuel : Nat) : Levels (grounded fuel) := by
  induction fuel with
  | zero => exact ⟨fun _ _ => obeys_outOfFuel, fun _ => obeys_outOfFuel⟩
  | succ fuel ih =>
    have hnests := nests_grounded fuel
    have hrun : ∀ e, Obeys isolating (watchedDispatch baseDiscipline outOfFuel (grounded fuel) fuel e) _ :=
      fun e => isolating_watchedDispatch hnests fuel baseDiscipline
    have hstrict : ∀ e, e.evaluates = false → Heeds level.strict (grounded (fuel + 1) e) :=
      fun e he => obeys_checked fun m hm hhost =>
        (strict_start fuel ih.strict (fun name _ hb => level_behindNative ih fuel name hb) he
          (fun he' => level_runScript hnests fuel he') (fun _ p => level_runGlobally (hrun e) p) m hm hhost).2
    refine ⟨hstrict, fun e => ?_⟩
    cases he : e.evaluates with
    | false => exact (hstrict e he).weaken
    | true =>
      cases e with
      | evaluate source direct strict this =>
        exact obeys_checked fun m hm _ => (level_evaluate (hrun _) _ _ _ _).allows hm
      | _ => cases he

/-- The calls that host code makes, given how entries are carried out. -/
inductive HostCallback : {α : Type} → (Enter → VM α) → Prop where
  | call (callee this : Value) (args : List Value) : HostCallback fun enter => enter (.call callee this args)
  | construct (callee : Value) (args : List Value) (newTarget : Option Value) :
      HostCallback fun enter => enter (.construct callee args newTarget)
  | tryCall (callee this : Value) (args : List Value) : HostCallback fun enter => tryCall enter callee this args

theorem HostCallback.strict {L : Law} [L.Guard] {enter : Enter}
    (he : ∀ e, e.evaluates = false → Heeds L.strict (enter e)) {α : Type} {x : Enter → VM α}
    (hx : HostCallback x) : Heeds L.strict (x enter) := by
  cases hx with
  | call | construct => exact he _ rfl
  | tryCall callee this args => exact obeys_tryCall (fun e he' => (he e he').when _) callee this args

/-- **Calls from host code are balanced.**  From well nested handlers, whatever the callee is: a call of host code that
keeps the discipline, which means that it is not stopped by the test for it, leaves frames, registers, handlers and the
number of dispatch loops as they were, however it ends.  If it keeps bases too, the top of the operand stack is the same
as well. -/
theorem calls_balanced (fuel : Nat) {α : Type} {x : Enter → VM α} (hx : HostCallback x) {m m' : Machine}
    (hm : m.WellNested) (hends : Ends (x (enter fuel)) m m') :
    (x (disciplined fuel) m = x (enter fuel) m → Balanced m m') ∧
      (x (grounded fuel) m = x (enter fuel) m → Balanced m m' ∧ m'.stack.top = m.stack.top) := by
  refine ⟨fun hkeeps => ?_, fun hkeeps => ?_⟩
  · unfold Ends at hends
    rw [← hkeeps] at hends
    exact (hx.strict (nests_disciplined fuel).strict).ends hm hends
  · unfold Ends at hends
    rw [← hkeeps] at hends
    have hbalanced := (hx.strict (nests_grounded fuel).strict).ends hm hends
    have hlevel := (hx.strict (levels_grounded fuel).strict).ends hm hends
    exact ⟨hbalanced, hlevel.top⟩

/-! ### Two calls -/

/-- A machine with functions that run some code, each with the next one as its constant. -/
def withFunctions (codes : List (Array Instruction)) : Machine :=
  let m := Machine.new .default
  let program (i : Nat) (code : Array Instruction) : Program :=
    { code, constants := #[.object ⟨i + 1⟩], name := Text.ofString "f", source := none, marks := [] }
  let function (i : Nat) : Object :=
    ⟨.new none, .function ⟨⟨⟨i⟩, Text.ofString "f", 0, false⟩, m.realm.globalScope, .normal⟩⟩
  { m with
    store := { m.store with
      objects := ((List.range codes.length).map function).toArray
      programs := (codes.mapIdx program).toArray } }

/-- A function that calls another one in a try statement and returns what it catches; the other one throws. -/
def catching : Machine :=
  withFunctions [#[.enterBare 0 0, .guard 5 0, .loadUndefined, .loadConstant 0, .call 0, .halt, .ret],
    #[.enterBare 0 0, .loadUndefined, .raise]]

theorem calls_balanced_catching :
    grounded 12 (.call (.object ⟨0⟩) .undefined []) catching = enter 12 (.call (.object ⟨0⟩) .undefined []) catching ∧
      ∃ m', Ends (enter 12 (.call (.object ⟨0⟩) .undefined [])) catching m' ∧ Balanced catching m' ∧
        m'.stack.top = catching.stack.top := by
  obtain ⟨hkeeps, m', hends⟩ :=
    grounded_of_test 12 (.call (.object ⟨0⟩) .undefined []) catching (by decide +kernel)
  have hm : catching.WellNested := (wellNested_new .default).congr rfl rfl
  have hcall := calls_balanced 12 (.call (.object ⟨0⟩) .undefined []) hm hends
  exact ⟨hkeeps, m', hends, hcall.2 hkeeps⟩

end ScriptMachine.VM
