import ScriptMachine.Proofs.Level

/-!
# Evaluations that fail

An evaluation of source text saves the running activation and starts the code of the text.  Calls and programs are undone
when they fail; an evaluation is not, so that what it leaves depends on where it fails.

Main result: `VM.failed_evaluation_not_undone`.
-/

namespace ScriptMachine

variable {direct strict : Bool} {m' : Machine} {f : Fault} {m : Machine} {source : Text} {this : Value}

/-- Frames, registers and the top of the operand stack are those of an earlier state. -/
structure Machine.AsBefore (m m' : Machine) : Prop where
  frames : m'.frames = m.frames
  regs : m'.regs = m.regs
  top : m'.stack.top = m.stack.top

namespace VM

/-! ### Up to the start -/

/-- An evaluation comes to the state from which its code is started, or is refused before. -/
inductive Preparation where
  | refused (fault : Fault) (σ : Store)
  | ready (s : Machine)

/-- The state from which the code of a text is started: behind the activation that evaluates it, with the receiver on the
operand stack. -/
def evaluationStart (p : ProgramId) (direct : Bool) (this : Value) (m : Machine) : Machine :=
  { m with
    frames := m.regs :: m.frames
    regs := { m.regs with
      scope := if direct then m.regs.scope else m.realm.globalScope, program := some p, native := none, pc := 0, args := 0
      result := .undefined, constructing := false, base := some m.stack.top }
    stack := m.stack.push this }

/-- What comes of an evaluation before its code runs: there has to be a compiler that accepts the text, and room for a
frame. -/
def preparation (source : Text) (direct strict : Bool) (this : Value) (m : Machine) : Preparation :=
  let inFunction := direct && m.store.inFunctionWithin m.realm.globalScope m.store.scopes.size m.regs.scope
  match m.compiler with
  | none => .refused (.type .noCompiler) m.store
  | some compiler =>
    match compiler source ⟨strict, direct, inFunction⟩ with
    | (lines, .error message) => .refused (.grammar (.reported message)) (m.store.log lines)
    | (lines, .ok p) =>
      if m.limits.maxFrames ≠ 0 ∧ m.limits.maxFrames ≤ m.frames.length + 1 then
        .refused (.range .callDepth) (m.store.log lines)
      else .ready (evaluationStart p direct this { m with store := m.store.log lines })

section Compile

variable {source : Text} {options : CompileOptions} {m : Machine} {compiler : Compiler} {lines : List String}

theorem compile_of_none (h : m.compiler = none) : compile source options m = .error (.fault (.type .noCompiler)) m := by
  unfold compile
  rw [get_bind, h]
  rfl

theorem compile_of_some (h : m.compiler = some compiler) :
    compile source options m =
      (do onStore (modify fun σ => σ.log (compiler source options).1)
          match (compiler source options).2 with
          | .ok p => return p
          | .error message => raise (.grammar (.reported message)) : VM ProgramId) m := by
  unfold compile
  rewrite [get_bind, h]
  rfl

theorem compile_of_error {message : String} (h : m.compiler = some compiler)
    (hcompiled : compiler source options = (lines, .error message)) :
    compile source options m =
      .error (.fault (.grammar (.reported message))) { m with store := m.store.log lines } := by
  rw [compile_of_some h, hcompiled]
  rfl

theorem compile_of_ok {p : ProgramId} (h : m.compiler = some compiler)
    (hcompiled : compiler source options = (lines, .ok p)) :
    compile source options m = .ok p { m with store := m.store.log lines } := by
  rw [compile_of_some h, hcompiled]
  rfl

end Compile

def runCompiled (run : VM Unit) (direct : Bool) (this : Value) (p : ProgramId) : VM Value := do
  let top ← top
  pushFrame
  if direct then pure () else toGlobalScope
  startProgram p this
  run
  endProgram top

theorem runCompiled_eq (run : VM Unit) (direct : Bool) (this : Value) (p : ProgramId) (m : Machine) :
    runCompiled run direct this p m =
      if m.limits.maxFrames ≠ 0 ∧ m.limits.maxFrames ≤ m.frames.length + 1 then .error (.fault (.range .callDepth)) m
      else (do run; endProgram m.stack.top : VM Value) (evaluationStart p direct this m) := by
  unfold runCompiled
  rw [top_bind]
  by_cases hfull : m.limits.maxFrames ≠ 0 ∧ m.limits.maxFrames ≤ m.frames.length + 1
  · have hpush : pushFrame m = .error (.fault (.range .callDepth)) m := congrFun (if_pos hfull) m
    rw [bind_error hpush, if_pos hfull]
  · have hpush : pushFrame m = .ok () { m with frames := m.regs :: m.frames } := congrFun (if_neg hfull) m
    rw [bind_ok hpush, if_neg hfull]
    cases direct <;> rfl

theorem evaluate_eq_bind (run : VM Unit) (source : Text) (direct strict : Bool) (this : Value) (m : Machine) :
    evaluate run source direct strict this m =
      (compile source ⟨strict, direct, direct && m.store.inFunctionWithin m.realm.globalScope m.store.scopes.size
        m.regs.scope⟩ >>= runCompiled run direct this) m := by
  cases direct <;> rfl

/-- **An evaluation** is refused, or runs its code and goes back. -/
theorem evaluate_eq (run : VM Unit) (source : Text) (direct strict : Bool) (this : Value) (m : Machine) :
    evaluate run source direct strict this m =
      match preparation source direct strict this m with
      | .refused f σ => .error (.fault f) { m with store := σ }
      | .ready s => (do run; endProgram m.stack.top : VM Value) s := by
  rw [evaluate_eq_bind]
  -- The outcome is named before the compiler is split on: the machine holds the compiler too.
  generalize houtcome : preparation source direct strict this m = outcome
  unfold preparation at houtcome
  dsimp only at houtcome
  split at houtcome
  case h_1 hcompiler =>
    subst houtcome
    exact bind_error (compile_of_none hcompiler)
  case h_2 compiler hcompiler =>
    split at houtcome
    case h_1 lines message hcompiled =>
      subst houtcome
      exact bind_error (compile_of_error hcompiler hcompiled)
    case h_2 lines p hcompiled =>
      rw [bind_ok (compile_of_ok hcompiler hcompiled), runCompiled_eq]
      split at houtcome
      case isTrue hfull =>
        subst houtcome
        exact if_pos hfull
      case isFalse hroom =>
        subst houtcome
        exact if_neg hroom

/-! ### Failures -/

/-- The state in which the completion value of a program has been taken. -/
def resultTaken (m : Machine) : Machine := { m with regs := { m.regs with result := .undefined } }

/-- How an evaluation fails that runs its code with `run`: it is refused before the code is started, or the code fails and
nothing is undone, or the code ends with no frame left to go back to. -/
inductive FailedEvaluation (run : VM Unit) (source : Text) (direct strict : Bool) (this : Value) (m : Machine) :
    Fault → Machine → Prop
  | refused {f : Fault} {σ : Store} (hrefused : preparation source direct strict this m = .refused f σ) :
      FailedEvaluation run source direct strict this m f { m with store := σ }
  | started {f : Fault} {s m' : Machine} (hready : preparation source direct strict this m = .ready s)
      (hfails : run s = .error (.fault f) m') : FailedEvaluation run source direct strict this m f m'
  | astray {s last : Machine} (hready : preparation source direct strict this m = .ready s)
      (hends : run s = .ok () last) (hframes : last.frames = []) :
      FailedEvaluation run source direct strict this m (.internal .frameUnderflow) (resultTaken last)

theorem endProgram_eq (top : Nat) (m : Machine) :
    endProgram top m = (do popFrame; setTop top; return m.regs.result : VM Value) (resultTaken m) := rfl

theorem endProgram_of_nil (top : Nat) (h : m.frames = []) :
    endProgram top m = .error (.fault (.internal .frameUnderflow)) (resultTaken m) := by
  rw [endProgram_eq]
  exact bind_error (popFrame_of_nil h)

theorem endProgram_of_cons (top : Nat) {regs : Activation} {frames : List Activation} (h : m.frames = regs :: frames) :
    endProgram top m = .ok m.regs.result { m with regs, frames, stack := m.stack.setTop top } := by
  have hpop := popFrame_of_cons (m := resultTaken m) h
  rw [endProgram_eq, bind_ok hpop]
  rfl

theorem evaluate_eq_error {run : VM Unit} :
    evaluate run source direct strict this m = .error (.fault f) m' ↔
      FailedEvaluation run source direct strict this m f m' := by
  rw [evaluate_eq]
  constructor
  · intro h
    cases hp : preparation source direct strict this m with
    | refused g σ =>
      rw [hp] at h
      cases h
      exact .refused hp
    | ready s =>
      rw [hp] at h
      rcases bind_eq_error.mp h with hfails | ⟨⟨⟩, last, hends, hback⟩
      · exact .started hp hfails
      · cases hframes : last.frames with
        | nil =>
          rw [endProgram_of_nil _ hframes] at hback
          cases hback
          exact .astray hp hends hframes
        | cons regs frames =>
          rw [endProgram_of_cons _ hframes] at hback
          cases hback
  · intro h
    cases h with
    | refused hrefused => rw [hrefused]
    | started hready hfails =>
      rw [hready]
      exact bind_error hfails
    | astray hready hends hframes =>
      rw [hready]
      exact (bind_ok hends).trans (endProgram_of_nil _ hframes)

/-! ### What is left -/

theorem frames_of_ready {s : Machine} (h : preparation source direct strict this m = .ready s) :
    s.frames = m.regs :: m.frames ∧ s.handlers = m.handlers ∧ s.depth = m.depth ∧ s.limits = m.limits := by
  unfold preparation at h
  dsimp only at h
  split at h
  · cases h
  split at h
  · cases h
  split at h
  · cases h
  · cases h
    exact ⟨rfl, rfl, rfl, rfl⟩

/-- Of an evaluation that was started the saved activation is still there after a failure, if the loop of its code leaves
frames alone. -/
theorem FailedEvaluation.saved {run : VM Unit} (hrun : Heeds steady run) {s : Machine} (hm : m.WellNested)
    (hready : preparation source direct strict this m = .ready s)
    (h : FailedEvaluation run source direct strict this m f m') : m.regs :: m.frames <:+ m'.frames := by
  obtain ⟨hframes, hhandlers, hdepth, -⟩ := frames_of_ready hready
  have hs : s.WellNested := hm.congr hhandlers hdepth
  rw [← hframes]
  cases h with
  | refused hrefused => cases hready.symm.trans hrefused
  | started hready' hfails =>
    cases hready.symm.trans hready'
    have hallows := hrun.allows hs
    rw [hfails] at hallows
    exact hallows.frames
  | astray hready' hends hnone =>
    cases hready.symm.trans hready'
    have hsteady := hrun.rel_of_ok hs hends
    rw [hsteady.frames, hframes] at hnone
    cases hnone

theorem failed_of_disciplined {fuel : Nat}
    (h : disciplined (fuel + 1) (.evaluate source direct strict this) m = .error (.fault f) m') :
    FailedEvaluation (watchedDispatch discipline outOfFuel (disciplined fuel) fuel (.evaluate source direct strict this))
      source direct strict this m f m' := by
  exact evaluate_eq_error.mp (passed_of_check h nofun).2

theorem leaveDispatch_start (s : Machine) :
    leaveDispatch s.handlers.length { s with depth := s.depth + 1 } = { s with halted := false } := by
  have hall : bottomOf s.handlers.length s.handlers = s.handlers := bottomOf_append [] s.handlers
  unfold leaveDispatch
  rw [hall]
  rfl

/-- **Failed evaluations are not undone.**  An evaluation that is refused, because there is no compiler, because the
compiler rejects the text, or because there is no room for a frame, leaves all but the store as it was.  Once the code
has been started, the state is the one in which the code failed: where loops are nested too deeply, that is the one from
which it was started.  From well nested handlers and if the discipline is kept, the activation that evaluates is then
still among the frames, and the machine is as before just if the evaluation was refused. -/
theorem failed_evaluation_not_undone (fuel : Nat) (source : Text) (direct strict : Bool) (this : Value)
    (m m' : Machine) (f : Fault) :
    (enter (fuel + 1) (.evaluate source direct strict this) m = .error (.fault f) m' ↔
      FailedEvaluation (dispatch (turn (enter fuel) fuel) fuel) source direct strict this m f m') ∧
    (∀ s, preparation source direct strict this m = .ready s → m.limits.maxLoops < m.depth + 1 →
      enter (fuel + 1) (.evaluate source direct strict this) m = .error (.fault .loopDepth) { s with halted := false }) ∧
    (FailedEvaluation (dispatch (turn (enter fuel) fuel) fuel) source direct strict this m f m' → m.WellNested →
      disciplined (fuel + 1) (.evaluate source direct strict this) m =
        enter (fuel + 1) (.evaluate source direct strict this) m →
      (m.AsBefore m' ↔ ∃ g σ, preparation source direct strict this m = .refused g σ) ∧
        ∀ s, preparation source direct strict this m = .ready s → m.regs :: m.frames <:+ m'.frames) := by
  have hfailed : ∀ {g m₁}, enter (fuel + 1) (.evaluate source direct strict this) m = .error (.fault g) m₁ ↔
      FailedEvaluation (dispatch (turn (enter fuel) fuel) fuel) source direct strict this m g m₁ := evaluate_eq_error
  refine ⟨hfailed, fun s hready hdeep => ?_, fun h hm hkeeps => ?_⟩
  · obtain ⟨-, -, hdepth, hlimits⟩ := frames_of_ready hready
    rw [← hlimits, ← hdepth] at hdeep
    refine hfailed.mpr (.started hready ?_)
    rw [dispatch_of_deep _ _ hdeep, leaveDispatch_start]
  · have hsaved : ∀ s, preparation source direct strict this m = .ready s → m.regs :: m.frames <:+ m'.frames :=
      fun s hready => (failed_of_disciplined (hkeeps.trans (hfailed.mpr h))).saved
        (steady_program (nests_disciplined fuel) fuel rfl) hm hready
    refine ⟨⟨fun hbefore => ?_, fun ⟨g, σ, hrefused⟩ => ?_⟩, hsaved⟩
    · cases hp : preparation source direct strict this m with
      | refused g σ => exact ⟨g, σ, rfl⟩
      | ready s =>
        have hlength := (hsaved s hp).length_le
        rw [hbefore.frames, List.length_cons] at hlength
        omega
    · cases h with
      | refused => exact ⟨rfl, rfl, rfl⟩
      | started hready | astray hready => cases hrefused.symm.trans hready

/-- A machine on which every text is compiled to code that throws. -/
def throwingSource : Machine :=
  { withFunctions [#[.loadUndefined, .raise]] with compiler := some fun _ _ => ([], .ok ⟨0⟩) }

/-- The same machine, on which no loop may be run. -/
def withoutLoops : Machine := { throwingSource with limits := { throwingSource.limits with maxLoops := 0 } }

theorem failed_evaluation_not_undone_throwing :
    (∃ s, preparation .empty false false .undefined withoutLoops = .ready s ∧
      enter 9 (.evaluate .empty false false .undefined) withoutLoops =
        .error (.fault .loopDepth) { s with halted := false }) ∧
    throwingSource.WellNested ∧
    disciplined 9 (.evaluate .empty false false .undefined) throwingSource =
      enter 9 (.evaluate .empty false false .undefined) throwingSource ∧
    ∃ f m', enter 9 (.evaluate .empty false false .undefined) throwingSource = .error (.fault f) m' ∧
      ¬ throwingSource.AsBefore m' ∧ throwingSource.regs :: throwingSource.frames <:+ m'.frames := by
  have hdeep := (failed_evaluation_not_undone 8 .empty false false .undefined withoutLoops withoutLoops .loopDepth).2.1
    _ rfl (by decide)
  obtain ⟨hgrounded, m', hends⟩ :=
    grounded_of_test 9 (.evaluate .empty false false .undefined) throwingSource (by decide +kernel)
  have hended : ended? (enter 9 (.evaluate .empty false false .undefined) throwingSource) = true := by decide +kernel
  have hkeeps : disciplined 9 (.evaluate .empty false false .undefined) throwingSource =
      enter 9 (.evaluate .empty false false .undefined) throwingSource :=
    ((follows_grounded 9 _).eq_of_ended (hgrounded ▸ hended)).trans hgrounded
  have hm : throwingSource.WellNested := (wellNested_new .default).congr rfl rfl
  rcases hends with ⟨v, hok⟩ | ⟨f, hfails⟩
  · have hnot : passes (fun _ => true) (enter 9 (.evaluate .empty false false .undefined) throwingSource) = false := by
      decide +kernel
    rw [hok] at hnot
    cases hnot
  · obtain ⟨hfailed, -, hleft⟩ := failed_evaluation_not_undone 8 .empty false false .undefined throwingSource m' f
    obtain ⟨hbefore, hsaved⟩ := hleft (hfailed.mp hfails) hm hkeeps
    refine ⟨⟨_, rfl, hdeep⟩, hm, hkeeps, f, m', hfails, fun h => ?_, hsaved _ rfl⟩
    obtain ⟨g, σ, hrefused⟩ := hbefore.mp h
    cases hrefused

end VM

end ScriptMachine
