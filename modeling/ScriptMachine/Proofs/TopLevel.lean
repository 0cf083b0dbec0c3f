import ScriptMachine.Embedding
import ScriptMachine.Proofs.Level
import ScriptMachine.Proofs.Restore

/-!
# Runs of programs

The holder of a machine runs programs on it, one after the other, and each run is to leave the machine at its top level
again.  A run that ends beyond catching always does.  A run that ends with a value goes back by one frame from where its
loop ended, and one that ends with an exception goes back to its start and closes iterators then; both are at the top
level again if the discipline and bases are kept.

* `Machine.TopLevel` — nothing runs, and nothing is left of what ran before.
* `realm_enter` — no run replaces the realm.

Main result: `left_after_run`.
-/

namespace ScriptMachine

/-- Nothing runs: there is no activation. -/
structure Machine.Idle (m : Machine) : Prop where
  frames : m.frames = []
  handlers : m.handlers = []
  depth : m.depth = 0
  program : m.regs.program = none
  base : m.regs.base = none
  scope : m.regs.scope = m.realm.globalScope

/-- Nothing runs, and there is nothing on the operand stack. -/
structure Machine.TopLevel (m : Machine) : Prop extends Machine.Idle m where
  top : m.stack.top = 0

namespace Machine

theorem topLevel_new (limits : Limits) : (new limits).TopLevel := by
  unfold new
  split
  exact ⟨⟨rfl, rfl, rfl, rfl, rfl, rfl⟩, rfl⟩

theorem topLevel_reset (m : Machine) : m.reset.TopLevel := ⟨⟨rfl, rfl, rfl, rfl, rfl, rfl⟩, rfl⟩

namespace Idle

variable {m m' : Machine}

theorem wellNested (hm : m.Idle) : m.WellNested := by
  constructor
  · simp [hm.handlers]
  · simp [hm.handlers]

theorem of_same (hm : m.Idle) (hframes : m'.frames = m.frames) (hregs : m'.regs = m.regs)
    (hhandlers : m'.handlers = m.handlers) (hdepth : m'.depth = m.depth) (hrealm : m'.realm = m.realm) : m'.Idle := by
  refine ⟨hframes.trans hm.frames, hhandlers.trans hm.handlers, hdepth.trans hm.depth, ?_, ?_, ?_⟩
  · rw [hregs, hm.program]
  · rw [hregs, hm.base]
  · rw [hregs, hrealm, hm.scope]

end Idle

end Machine

namespace VM

/-! ### The realm -/

/-- The law that the realm stays the same. -/
def rooted : Law :=
  .ofRel (fun _ => True) (fun m m' => m'.realm = m.realm) (fun _ => rfl) (fun h h' => h'.trans h) (fun _ _ => trivial)

instance : rooted.Lax where
  strict := id
  lax _ _ hr _ := hr

instance : rooted.Declares := ⟨fun _ _ _ _ _ _ => rfl⟩

instance : rooted.Loops := ⟨fun _ _ => rfl⟩

instance : rooted.Iterators where
  opens _ _ _ _ := rfl
  closes _ _ _ := rfl
  ends _ _ := rfl

instance : rooted.Guard where
  restore _ h := h
  refs _ _ := rfl

/-- **No run replaces the realm.** -/
theorem realm_program (fuel : Nat) (p : ProgramId) {m m' : Machine} (h : Ends (enter fuel (.program p)) m m') :
    m'.realm = m.realm :=
  (lax_enter (L := rooted) fuel (.program p)).now.ends trivial h

/-! ### What the holder of a machine gets -/

theorem boundary_cases {x : VM α} {m m' : Machine} {r : Except RunError α} (h : boundary x m = .ok r m') :
    (∃ a, r = .ok a ∧ x m = .ok a m') ∨ (∃ u, ∃ m₁ : Machine, r = .error (.uncatchable u) ∧ m' = m₁.reset) ∨
      ∃ e f m₁ σ, r = .error (.exception e) ∧ x m = .error (.fault f) m₁ ∧ m' = { m₁ with store := σ } := by
  unfold boundary at h
  rcases hx : x m with ⟨a, m₁⟩ | ⟨f | _, m₁⟩
  · rw [bind_ok (attempt_ok hx)] at h
    cases h
    exact .inl ⟨a, rfl, rfl⟩
  · rw [bind_ok (attempt_fault hx)] at h
    have hother : ∀ g, (do
        let trace ← trace
        let v ← onStore ((← realm).errorValue g)
        return .error (.exception ⟨v, trace⟩) : VM (Except RunError α)) m₁ = .ok r m' →
        ∃ e σ, r = .error (.exception e) ∧ m' = { m₁ with store := σ } := by
      intro g h
      obtain ⟨trace, _, htrace, h⟩ := bind_eq_ok.mp h
      cases htrace
      obtain ⟨realm, _, hrealm, h⟩ := bind_eq_ok.mp h
      cases hrealm
      obtain ⟨v, _, hvalue, h⟩ := bind_eq_ok.mp h
      cases hvalue
      cases h
      exact ⟨_, _, rfl, rfl⟩
    cases f with
    | thrown e =>
      cases h
      exact .inr (.inr ⟨e, _, m', m'.store, rfl, rfl, rfl⟩)
    | uncatchable u =>
      cases h
      exact .inr (.inl ⟨u, m₁, rfl, rfl⟩)
    | _ =>
      obtain ⟨e, σ, hr, hm'⟩ := hother _ h
      exact .inr (.inr ⟨e, _, m₁, σ, hr, rfl, hm'⟩)
  · rw [bind_error (attempt_outOfFuel hx)] at h
    cases h

/-! ### Programs -/

def programStart (p : ProgramId) (m : Machine) : Machine :=
  { m with
    frames := m.regs :: m.frames
    regs := { m.regs with
      scope := m.realm.globalScope, newTarget := .undefined, program := some p, native := none, pc := 0, args := 0
      result := .undefined, constructing := false, base := some m.stack.top }
    stack := m.stack.push (.object m.realm.global) }

theorem runGlobally_eq_ok {run : VM Unit} {p : ProgramId} {m m' : Machine} {v : Value}
    (h : runGlobally run p m = .ok v m') :
    ∃ last, run (programStart p m) = .ok () last ∧ last.frames = m'.regs :: m'.frames := by
  obtain ⟨top, _, htop, h⟩ := bind_eq_ok.mp h
  cases htop
  obtain ⟨_, m₁, hpush, h⟩ := bind_eq_ok.mp h
  rcases pushFrame_spec m with hpush' | ⟨hpush', _⟩
  · cases hpush.symm.trans hpush'
    have hstart : (do run; endProgram m.stack.top) (programStart p m) = .ok v m' := h
    obtain ⟨_, last, hrun, hend⟩ := bind_eq_ok.mp hstart
    refine ⟨last, hrun, ?_⟩
    obtain ⟨_, _, hregs, hend⟩ := bind_eq_ok.mp hend
    cases hregs
    obtain ⟨_, _, hresult, hend⟩ := bind_eq_ok.mp hend
    cases hresult
    obtain ⟨_, _, hpop, hend⟩ := bind_eq_ok.mp hend
    cases hend
    unfold popFrame at hpop
    cases hf : last.frames with
    | nil =>
      simp only [hf] at hpop
      cases hpop
    | cons a rest =>
      simp only [hf] at hpop
      cases hpop
      rfl
  · cases hpush.symm.trans hpush'

theorem guarded_eq_ok {enter : Enter} {x : VM α} {m m' : Machine} {a : α} (h : guarded enter x m = .ok a m') :
    x m = .ok a m' := by
  rcases hx : x m with ⟨a, m₁⟩ | ⟨f | _, m₁⟩
  · rw [guarded_of_ok enter hx] at h
    cases h
    rfl
  · rw [guarded_of_fault enter hx] at h
    obtain ⟨_, _, _, h⟩ := bind_eq_ok.mp h
    obtain ⟨_, _, _, h⟩ := bind_eq_ok.mp h
    cases h
  · rw [guarded_of_outOfFuel enter hx] at h
    cases h

theorem guarded_unclosed {enter : Enter} {x : VM α} {m m' : Machine} {f : Fault}
    (h : guarded enter x m = .error (.fault f) m') :
    ∃ f₀ m₀, x m = .error (.fault f₀) m₀ ∧
      ((∀ l ∈ aboveBottom m.loops.length m₀.loops, ∃ cursor, l.source = .keys cursor) →
        m'.frames = bottomOf m.frames.length m₀.frames ∧ m'.regs = m.regs ∧ m'.stack.top = m.stack.top) := by
  obtain ⟨f₀, m₀, σ, cs, hfails, hback⟩ := guarded_eq_fault h
  refine ⟨f₀, m₀, hfails, fun hkeys => ?_⟩
  rw [backTo_eq] at hback
  obtain ⟨closing, m₁, hclosing, hrest⟩ := bind_eq_ok.mp hback
  cases hclosing.symm.trans (closingFaults_of_keys enter hkeys _)
  cases hrest
  exact ⟨rfl, rfl, OperandStack.top_setTop _ _⟩

/-- What is left of a run that was started from `m`, whatever its code does. -/
def LeftBy (fuel : Nat) (p : ProgramId) (m m' : Machine) : Except RunError Value → Prop
  -- one frame is dropped of those there are when the loop of the program ends
  | .ok _ => m'.stack.top = 0 ∧ ∃ last,
      dispatch (turn (enter fuel) fuel) fuel (programStart p m) = .ok () last ∧ last.frames = m'.regs :: m'.frames
  -- the machine is at its top level unless an iterator is closed that is open when the program fails
  | .error (.exception _) => ∃ f last,
      runGlobally (dispatch (turn (enter fuel) fuel) fuel) p m = .error (.fault f) last ∧
        ((∀ l ∈ aboveBottom m.loops.length last.loops, ∃ cursor, l.source = .keys cursor) → m'.TopLevel)
  | .error (.uncatchable _) => m'.TopLevel

section Runs

variable {fuel : Nat} {p : ProgramId} {m m' : Machine} (hm : m.TopLevel)

include hm

theorem leftBy_ok {v : Value} (h : enter (fuel + 1) (.program p) m = .ok v m') : LeftBy fuel p m m' (.ok v) := by
  have hbody := guarded_eq_ok h
  have hloop : Obeys isolating (dispatch (turn (enter fuel) fuel) fuel) _ :=
    obeys_dispatch fuel fun s hs => obeys_turn (obeys_enter fuel) fuel hs
  have hlevel := (level_runGlobally hloop p).rel_of_ok hm.wellNested hbody
  exact ⟨hlevel.top.trans hm.top, runGlobally_eq_ok hbody⟩

theorem leftBy_fault {f : Fault} (h : enter (fuel + 1) (.program p) m = .error (.fault f) m') (e : Exception)
    (σ : Store) : LeftBy fuel p m { m' with store := σ } (.error (.exception e)) := by
  obtain ⟨f₀, last, hfails, hback⟩ := guarded_unclosed h
  refine ⟨f₀, last, hfails, fun hkeys => ?_⟩
  obtain ⟨hframes, hregs, htop⟩ := hback hkeys
  have hnone : m'.frames = m.frames := by
    rw [hframes, hm.frames]
    exact List.drop_length
  obtain ⟨hhandlers, hdepth⟩ := (obeys_enter (fuel + 1) (.program p)).ends hm.wellNested (.inr ⟨f, h⟩)
  have hrealm := realm_program (fuel + 1) p (.inr ⟨f, h⟩)
  exact ⟨hm.toIdle.of_same hnone hregs hhandlers hdepth hrealm, htop.trans hm.top⟩

/-- Runs that keep the discipline leave nothing running, and nothing on the stack if they keep bases. -/
theorem idle_of_ends (h : Ends (enter (fuel + 1) (.program p)) m m') :
    (disciplined (fuel + 1) (.program p) m = enter (fuel + 1) (.program p) m → m'.Idle) ∧
      (grounded (fuel + 1) (.program p) m = enter (fuel + 1) (.program p) m → m'.TopLevel) := by
  have hrealm := realm_program (fuel + 1) p h
  refine ⟨fun hkeeps => ?_, fun hkeeps => ?_⟩
  · unfold Ends at h
    rw [← hkeeps] at h
    have hbalanced := ((nests_disciplined (fuel + 1)).strict (.program p) rfl).ends hm.wellNested h
    exact hm.toIdle.of_same hbalanced.frames hbalanced.regs hbalanced.handlers hbalanced.depth hrealm
  · unfold Ends at h
    rw [← hkeeps] at h
    have hbalanced := ((nests_grounded (fuel + 1)).strict (.program p) rfl).ends hm.wellNested h
    have hlevel := ((levels_grounded (fuel + 1)).strict (.program p) rfl).ends hm.wellNested h
    exact ⟨hm.toIdle.of_same hbalanced.frames hbalanced.regs hbalanced.handlers hbalanced.depth hrealm,
      hlevel.top.trans hm.top⟩

end Runs

/-- **What a run leaves behind**, of any program and from the top level.  No handler and no dispatch loop is left in any
case, and nothing at all if the run ends beyond catching.  Otherwise it depends on where the loop of the program ends,
and on the iterators that are closed after a failure.  If the discipline is kept, nothing is left running; if bases are
kept too, the machine is at its top level again. -/
theorem left_after_run (fuel : Nat) (p : ProgramId) {m m' : Machine} {r : Except RunError Value} (hm : m.TopLevel)
    (hrun : run (fuel + 1) p m = .ok r m') :
    LeftBy fuel p m m' r ∧ m'.handlers = [] ∧ m'.depth = 0 ∧
      (disciplined (fuel + 1) (.program p) m = enter (fuel + 1) (.program p) m → m'.Idle) ∧
      (grounded (fuel + 1) (.program p) m = enter (fuel + 1) (.program p) m → m'.TopLevel) := by
  have hisolated : ∀ {m'}, Ends (enter (fuel + 1) (.program p)) m m' → m'.handlers = [] ∧ m'.depth = 0 := by
    intro m' h
    obtain ⟨hhandlers, hdepth⟩ := (obeys_enter (fuel + 1) (.program p)).ends hm.wellNested h
    exact ⟨hhandlers.trans hm.handlers, hdepth.trans hm.depth⟩
  rcases boundary_cases hrun with ⟨v, rfl, hok⟩ | ⟨u, m₁, rfl, rfl⟩ | ⟨e, f, m₁, σ, rfl, hfault, rfl⟩
  · obtain ⟨hhandlers, hdepth⟩ := hisolated (.inl ⟨v, hok⟩)
    exact ⟨leftBy_ok hm hok, hhandlers, hdepth, idle_of_ends hm (.inl ⟨v, hok⟩)⟩
  · have htop := Machine.topLevel_reset m₁
    exact ⟨htop, rfl, rfl, fun _ => htop.toIdle, fun _ => htop⟩
  · obtain ⟨hhandlers, hdepth⟩ := hisolated (.inr ⟨f, hfault⟩)
    obtain ⟨hidle, htop⟩ := idle_of_ends hm (.inr ⟨f, hfault⟩)
    refine ⟨leftBy_fault hm hfault e σ, hhandlers, hdepth, fun hkeeps => ?_, fun hkeeps => ?_⟩
    · exact (hidle hkeeps).of_same rfl rfl rfl rfl rfl
    · exact ⟨(htop hkeeps).toIdle.of_same rfl rfl rfl rfl rfl, (htop hkeeps).top⟩

/-! ### Two runs -/

/-- A program that calls a function which throws. -/
def throwing : Machine :=
  withFunctions [#[.loadUndefined, .loadConstant 0, .call 0, .halt], #[.enterBare 0 0, .loadUndefined, .raise]]

theorem left_after_run_throwing :
    grounded 12 (.program ⟨0⟩) throwing = enter 12 (.program ⟨0⟩) throwing ∧
      ∃ r m', run 12 ⟨0⟩ throwing = .ok r m' ∧ m'.TopLevel := by
  have hm : throwing.TopLevel := ⟨(Machine.topLevel_new .default).toIdle.of_same rfl rfl rfl rfl rfl, rfl⟩
  obtain ⟨hkeeps, _⟩ := grounded_of_test 12 (.program ⟨0⟩) throwing (by decide +kernel)
  obtain ⟨r, m', hrun, _⟩ := exists_of_passes (p := fun _ => true) (r := run 12 ⟨0⟩ throwing) (by decide +kernel)
  obtain ⟨_, _, _, _, htop⟩ := left_after_run 11 ⟨0⟩ hm hrun
  exact ⟨hkeeps, r, m', hrun, htop hkeeps⟩

end VM

end ScriptMachine
