import ScriptMachine.Proofs.Bases
import ScriptMachine.Proofs.TryStatement

/-!
# Going back

Whenever a guarded computation fails, and whenever a fault leads to a catch or a finally section, the machine goes back
to the start of what was guarded.  If the discipline is kept, frames and registers are then the same as at the start,
and no more references wait.  Operand stack and open loops are the same too before iterators are closed, and after that
they are as the closings leave them.

Main result: `unwinding_restores`.
-/

namespace ScriptMachine.VM

variable {m s : Machine} {fuel t : Nat} {e : Entry} {ms : Nat → Machine} {k : Nat}

/-! ### The machine is back -/

/-- In `m₁` all that was changed between `m` and `m₀` is put back, with iterators still to be closed. -/
structure PutBack (m m₀ m₁ : Machine) : Prop where
  frames : m₁.frames = m.frames
  regs : m₁.regs = m.regs
  top : m₁.stack.top = m.stack.top
  loops : m₁.loops = bottomOf m.loops.length m₀.loops

/-- The machine has gone from `m₀` back to where it was in `m`. -/
structure Restored (enter : Enter) (m m₀ m' : Machine) : Prop where
  frames : m'.frames = m.frames
  regs : m'.regs = m.regs
  refs : m'.refs.length ≤ m.refs.length
  /-- Operand stack and loops are put back, and then iterators are closed. -/
  closed : ∃ m₁ cs m₂, PutBack m m₀ m₁ ∧
    closingFaults enter (aboveBottom m.loops.length m₀.loops) m₁ = .ok cs m₂ ∧
    m'.stack = m₂.stack ∧ m'.loops = m₂.loops
  /-- Without iterators to be closed, that is all. -/
  unclosed : (∀ l ∈ aboveBottom m.loops.length m₀.loops, ∃ cursor, l.source = .keys cursor) →
    m'.stack.top = m.stack.top ∧ m'.loops.length ≤ m.loops.length

theorem closingFaults_of_keys (enter : Enter) {opened : List OpenLoop}
    (h : ∀ l ∈ opened, ∃ cursor, l.source = .keys cursor) (m : Machine) : closingFaults enter opened m = .ok [] m := by
  induction opened with
  | nil => rfl
  | cons l rest ih =>
    obtain ⟨hl, hrest⟩ := List.forall_mem_cons.mp h
    obtain ⟨value, source⟩ := l
    obtain ⟨cursor, hsource⟩ := hl
    dsimp only at hsource
    rw [hsource]
    exact ih hrest

theorem guarded_eq_fault {enter : Enter} {x : VM α} {m' : Machine} {f : Fault}
    (h : guarded enter x m = .error (.fault f) m') :
    ∃ f₀ m₀ σ cs, x m = .error (.fault f₀) m₀ ∧ backTo enter m.snapshot { m₀ with store := σ } = .ok cs m' := by
  rcases hx : x m with ⟨a, m₀⟩ | ⟨f₀ | _, m₀⟩
  · rw [guarded_of_ok enter hx] at h
    cases h
  · rw [guarded_of_fault enter hx] at h
    obtain ⟨g, σ, _, hsettle⟩ := settle_eq_ok f₀ m₀
    rw [bind_ok hsettle] at h
    rcases hback : backTo enter m.snapshot { m₀ with store := σ } with ⟨cs, m₁⟩ | ⟨e, m₁⟩
    · rw [bind_ok (rollBack_of_backTo hback)] at h
      cases h
      exact ⟨f₀, m₀, σ, cs, rfl, hback⟩
    · rw [bind_error (rollBack_of_abort hback)] at h
      cases h
      exact absurd hback (backTo_ne_fault _ _ _ _ _)
  · rw [guarded_of_outOfFuel enter hx] at h
    cases h

section Back

variable {enter : Enter} (he : Nests enter) {m m₀ m' : Machine}

include he

theorem restored_backTo {cs : List Fault} (hm₀ : m₀.WellNested) (hframes : m.frames <:+ m₀.frames)
    (hback : backTo enter m.snapshot m₀ = .ok cs m') : Restored enter m m₀ m' := by
  have hspec := backTo_spec he hm₀ hback
  have hbottom : bottomOf m.frames.length m₀.frames = m.frames := bottomOf_of_suffix hframes
  rw [backTo_eq] at hback
  obtain ⟨closing, m₂, hclosing, hrest⟩ := bind_eq_ok.mp hback
  cases hrest
  have hput : PutBack m m₀ { m₀.restore m.snapshot with loops := bottomOf m.loops.length m₀.loops } :=
    ⟨hbottom, rfl, OperandStack.top_setTop _ _, rfl⟩
  refine ⟨hspec.frames.trans hbottom, hspec.regs, ?_, ⟨_, cs, m₂, hput, hclosing, rfl, rfl⟩, fun hkeys => ?_⟩
  · show (bottomOf m.refs.length m₂.refs).length ≤ _
    rw [length_bottomOf]
    omega
  · have hnone := closingFaults_of_keys enter hkeys
      { m₀.restore m.snapshot with loops := bottomOf m.loops.length m₀.loops }
    cases hclosing.symm.trans hnone
    refine ⟨hput.top, ?_⟩
    rw [length_bottomOf]
    omega

/-- **A guarded computation that fails leaves the machine back**, if the computation leaves frames behind at most. -/
theorem restored_guarded {x : VM α} (hx : Heeds balanced x) (hm : m.WellNested) {f : Fault}
    (h : guarded enter x m = .error (.fault f) m') :
    ∃ f₀ m₀, x m = .error (.fault f₀) m₀ ∧ Restored enter m m₀ m' := by
  obtain ⟨f₀, m₀, σ, cs, hfails, hback⟩ := guarded_eq_fault h
  have hstranded : Stranded m m₀ := by
    have hallows := hx.allows hm
    rw [hfails] at hallows
    exact hallows
  have hm₀ : { m₀ with store := σ }.WellNested := hm.congr hstranded.handlers hstranded.depth
  obtain ⟨hframes, hregs, hrefs, ⟨m₁, cs, m₂, hput, hclosed⟩, hunclosed⟩ :=
    restored_backTo he hm₀ hstranded.frames hback
  exact ⟨f₀, m₀, hfails, hframes, hregs, hrefs,
    ⟨m₁, cs, m₂, ⟨hput.frames, hput.regs, hput.top, hput.loops⟩, hclosed⟩, hunclosed⟩

end Back

/-! ### Following -/

section Follows

variable {e₁ e₂ : Enter} (he : ∀ e, Obeys following (e₁ e) (e₂ e)) {f : Fault} {m m₀ m' : Machine} {cs : List Fault}

include he

theorem Restored.follows (h : Restored e₁ m m₀ m') : Restored e₂ m m₀ m' := by
  obtain ⟨m₁, cs, m₂, hput, hclosing, hstack⟩ := h.closed
  have hfollows := obeys_closingFaults (fun r => he (.close r)) (aboveBottom m.loops.length m₀.loops)
  exact ⟨h.frames, h.regs, h.refs, ⟨m₁, cs, m₂, hput, hfollows.ok_of_following hclosing, hstack⟩,
    h.unclosed⟩

theorem Passed.follows (h : Passed e₁ f m cs m') : Passed e₂ f m cs m' := by
  induction h with
  | none => exact .none
  | more _ hh hd hback hleaves ih =>
    have hfollows := obeys_backTo (fun r => he (.close r))
    exact .more ih hh hd ((hfollows _).ok_of_following hback) hleaves

theorem Asked.follows {h : Handler} {rest : List Handler} (ha : Asked e₁ f m cs h rest m') :
    Asked e₂ f m cs h rest m' := by
  obtain ⟨cs₁, cs₂, m₁, hpassed, hh, hback, hcs⟩ := ha.asked
  have hfollows := obeys_backTo (fun r => he (.close r)) h.snapshot
  exact ⟨ha.owned, cs₁, cs₂, m₁, hpassed.follows he, hh, hfollows.ok_of_following hback, hcs⟩

end Follows

theorem History.follows {x y : VM Unit} (H : History x ms k) (h : Obeys following x y) :
    History y ms k := by
  intro t ht
  obtain ⟨hhalted, hturn⟩ := H t ht
  refine ⟨hhalted, hturn.imp (fun hok => h.ok_of_following hok) fun ⟨hk, f, hfault⟩ => ?_⟩
  exact ⟨hk, f, h.fault_of_following hfault⟩

/-! ### What is guarded -/

/-- What the machine runs under guard, first as carried out when the discipline is kept. -/
inductive Body (fuel : Nat) : {α : Type} → VM α → VM α → Prop where
  /-- A script function, in a loop of its own. -/
  | script {e : Entry} (callee : ObjectId) (f : Closure) (this : Value) (args : List Value) (newTarget : Value) :
      e.runsProgram = false →
      Body fuel
        (runScript (watchedDispatch discipline outOfFuel (disciplined fuel) fuel e) callee f this args newTarget)
        (runScript (dispatch (turn (enter fuel) fuel) fuel) callee f this args newTarget)
  | native (name : Text) {b : Behaviour} :
      b.Propagates →
      Body fuel (behindNative name (runHost (disciplined fuel) fuel b))
        (behindNative name (runHost (enter fuel) fuel b))
  | program {e : Entry} (p : ProgramId) :
      e.runsProgram = true →
      Body fuel (runGlobally (watchedDispatch discipline outOfFuel (disciplined fuel) fuel e) p)
        (runGlobally (dispatch (turn (enter fuel) fuel) fuel) p)
  | close (i : IteratorId) : Body fuel (closeIterator (disciplined fuel) i) (closeIterator (enter fuel) i)
  /-- A call that a host function asks for and whose fault it gets. -/
  | call (callee this : Value) (args : List Value) :
      Body fuel (disciplined fuel (.call callee this args)) (enter fuel (.call callee this args))

theorem Body.balanced {x y : VM α} (h : Body fuel x y) : Heeds balanced x := by
  have he := nests_disciplined fuel
  cases h with
  | script _ _ _ _ _ hrun => exact balanced_runScript he fuel hrun _ _ _ _ _
  | native name hb => exact balanced_behindNative name (balanced_runHost he fuel hb)
  | program p hrun => exact balanced_runGlobally (steady_program he fuel hrun) p
  | close i => exact (obeys_closeIterator (fun e he' => (he.strict e he').when _) i).weaken
  | call => exact he.evaluate _

theorem Body.follows {x y : VM α} (h : Body fuel x y) : Obeys following x y := by
  have he : ∀ e, Obeys following (disciplined fuel e) (enter fuel e) := follows_watched discipline fuel
  cases h with
  | script =>
    exact Obeys.bind (follows_self _) fun _ =>
      (follows_watchedDispatch discipline he fuel _).bind fun _ => follows_self _
  | native name => exact (passes_behindNative name (obeys_runHost (fun e => (he e).when _) fuel _)).obeys
  | program p => exact (passes_runGlobally (follows_watchedDispatch discipline he fuel _) p).obeys
  | close i => exact obeys_closeIterator (fun e _ => (he e).when _) i
  | call => exact he _

/-! ### Where loops begin -/

/-- A state in which a dispatch loop is started for an entry. -/
inductive Begins : Entry → Machine → Prop where
  | function {e : Entry} {m s : Machine} {callee : ObjectId} {f : Closure} {this : Value} {args : List Value}
      {newTarget : Value} :
      e.runsProgram = false → m.WellNested → enterFromOutside callee f this args newTarget m = .ok () s → Begins e s
  | program {e : Entry} {s : Machine} : e.runsProgram = true → s.WellNested → Begins e s

theorem enterFromOutside_spec {callee : ObjectId} {f : Closure} {this : Value} {args : List Value} {newTarget : Value}
    (h : enterFromOutside callee f this args newTarget m = .ok () s) :
    s.handlers = m.handlers ∧ s.depth = m.depth ∧ ∃ a, a.isBoundary = true ∧ s.frames = a :: m.regs :: m.frames := by
  unfold enterFromOutside at h
  rcases pushFrame_spec m with hpush | ⟨hpush, _⟩
  · rw [bind_ok hpush] at h
    obtain ⟨_, m₁, h₁, h⟩ := bind_eq_ok.mp h
    cases h₁
    obtain ⟨_, m₂, h₂, h⟩ := bind_eq_ok.mp h
    cases h₂
    obtain ⟨base, m₃, h₃, h⟩ := bind_eq_ok.mp h
    cases h₃
    obtain ⟨_, m₄, h₄, h⟩ := bind_eq_ok.mp h
    cases h₄
    obtain ⟨_, m₅, h₅, h⟩ := bind_eq_ok.mp h
    cases h₅
    obtain ⟨_, m₆, h₆, h⟩ := bind_eq_ok.mp h
    cases h
    rcases pushFrame_spec _ with hpush | ⟨hpush, _⟩
    · cases hpush.symm.trans h₆
      exact ⟨rfl, rfl, _, rfl, rfl⟩
    · cases hpush.symm.trans h₆
  · rw [bind_error hpush] at h
    cases h

theorem Begins.wellNested (h : Begins e s) : s.WellNested := by
  cases h with
  | function _ hm henter =>
    obtain ⟨hhandlers, hdepth, _⟩ := enterFromOutside_spec henter
    exact hm.congr hhandlers hdepth
  | program _ hs => exact hs

theorem Begins.bounded (h : Begins e s) : Bounded e s := by
  intro hrun
  cases h with
  | function _ _ henter =>
    obtain ⟨_, _, a, hboundary, hframes⟩ := enterFromOutside_spec henter
    exact ⟨a, by rw [hframes]; rfl, hboundary⟩
  | program hrun' =>
    rw [hrun] at hrun'
    cases hrun'

/-! ### Sections -/

/-- In a turn from `m` to `m'` a section of a statement started in `m₀` is entered because of a fault. -/
inductive Entered (enter : Enter) (fuel : Nat) (m₀ m m' : Machine) (h : Handler) : Prop where
  /-- The catch section, with what was thrown on top of the operand stack. -/
  | catches {f g : Fault} {m₁ m₂ m₃ left : Machine} {cs : List Fault} {rest : List Handler} {e : Exception}
      {pc : Nat} :
      step enter fuel m = .error (.fault f) m₁ → settle f m₁ = .ok g m₂ → Asked enter g m₂ cs h rest m₃ →
      Restored enter m₀.advanced left m₃ → h.catchPc = some pc → after g cs = .thrown e →
      m' = { m₃ with
        handlers := { h with part := .catching } :: rest, regs := { m₃.regs with pc }
        stack := m₃.stack.push e.value } →
      Entered enter fuel m₀ m m' h
  | finishes {f g : Fault} {m₁ m₂ m₃ left : Machine} {cs : List Fault} {rest : List Handler} {pc : Nat} :
      step enter fuel m = .error (.fault f) m₁ → settle f m₁ = .ok g m₂ → Asked enter g m₂ cs h rest m₃ →
      Restored enter m₀.advanced left m₃ → h.finallyPc = some pc →
      m' = { m₃ with
        handlers := { h with part := .finishing, pending := some (after g cs) } :: rest
        regs := { m₃.regs with pc } } →
      Entered enter fuel m₀ m m' h

section Sections

variable {fuel k : Nat} {e : Entry} {s : Machine} {ms : Nat → Machine}
  (H : History (disciplinedTurn (disciplined fuel) fuel e s) ms k)

include H

theorem History.keeps (ht : t < k) : Keeps e s (ms t) := by
  rcases (H t ht).2 with hok | ⟨_, f, hfault⟩
  · exact (passed_of_check hok nofun).1
  · exact (passed_of_check hfault nofun).1

theorem History.untested : History (turn (disciplined fuel) fuel) ms k := H.follows (follows_check (follows_self _) _)

theorem History.unwatched : History (turn (enter fuel) fuel) ms k :=
  H.follows (follows_check (follows_turn (follows_watched discipline fuel) fuel) _)

variable (hs : s.WellNested) (hbound : Bounded e s) (h0 : ms 0 = nested s)

include hs hbound h0

theorem History.running (ht : t < k) : Running s (ms t) := by
  induction t with
  | zero =>
    rw [h0]
    exact running_nested hs
  | succ t ih =>
    have hstays := stays_disciplinedTurn (nests_disciplined fuel) fuel hs hbound (ih (by omega))
    rcases (H t (by omega)).2 with hok | ⟨hk, _⟩
    · rw [hok] at hstays
      rcases hstays with hrunning | hended
      · exact hrunning
      · have hhalted := (H (t + 1) ht).1
        rw [hended.halted] at hhalted
        cases hhalted
    · omega

/-- While a handler is alive, the frames are there that were saved when its statement was started. -/
theorem History.frames {p a : Nat} (hat : a ≤ t) (htk : t < k) (hnone : handlerAt (ms a) p = none)
    (hlive : Alive ms p (a + 1) t) : (ms a).frames <:+ (ms t).frames := by
  have he := nests_disciplined fuel
  have H' := H.untested
  have hwell : (ms 0).WellNested := h0 ▸ (running_nested hs).inside.wellNested hs
  induction hat with
  | refl => exact List.suffix_refl _
  | @step t hle ih =>
    have hat : a ≤ t := hle
    have hrunning := H.running hs hbound h0 (t := t) (by omega)
    have hnext := H.running hs hbound h0 htk
    have hturn : turn (disciplined fuel) fuel (ms t) = .ok () (ms (t + 1)) := by
      rcases (H' t (by omega)).2 with hok | ⟨hk, _⟩
      · exact hok
      · omega
    have hsuffix := ih (by omega) fun u h1 h2 => hlive u h1 (Nat.le_succ_of_le h2)
    refine hrunning.suffix he hs fuel (H.keeps (by omega)).host hsuffix hturn ?_
    -- the handler is anchored where its statement was started
    obtain ⟨x, hx⟩ := Option.isSome_iff_exists.mp (hlive (a + 1) (Nat.le_refl _) (Nat.succ_le_succ hat))
    obtain ⟨y, hy⟩ := Option.isSome_iff_exists.mp (hlive (t + 1) (Nat.succ_le_succ hat) (Nat.le_refl _))
    have hlater := H'.later he.isolates hwell (by omega) (Nat.succ_le_succ hat) hlive hx hy
    obtain ⟨c, f, _, rfl⟩ := (H'.turned he.isolates hwell (by omega)).opened hnone hx
    have hmem : y ∈ (ms (t + 1)).handlers := List.mem_reverse.mp (List.mem_of_getElem? hy)
    have hdepth : y.depth = (ms (t + 1)).depth := by
      have hstart := H.running hs hbound h0 (t := a) (by omega)
      rw [hlater.depth, hnext.inside.depth, ← hstart.inside.depth]
      rfl
    have hle := hnext.anchored.below y hmem hdepth
    rw [hlater.snapshot] at hle
    exact hle

theorem History.entered {p a b : Nat} {part : TryPart} {h : Handler} (hab : a < b) (hbk : b < k)
    (hnone : handlerAt (ms a) p = none) (hlive : Alive ms p (a + 1) (b + 1)) (hh : handlerAt (ms b) p = some h)
    (henters : Enters ms p part b) (hfails : ∃ f m₁, step (enter fuel) fuel (ms b) = .error (.fault f) m₁) :
    Entered (enter fuel) fuel (ms a) (ms b) (ms (b + 1)) h := by
  have he := nests_disciplined fuel
  have hfollows : ∀ e, Obeys following (disciplined fuel e) (enter fuel e) := follows_watched discipline fuel
  have H' := H.untested
  have hwell : (ms 0).WellNested := h0 ▸ (running_nested hs).inside.wellNested hs
  have hrunning := H.running hs hbound h0 hbk
  have hm : (ms b).WellNested := hrunning.inside.wellNested hs
  have hbefore : Alive ms p (a + 1) b := fun t h1 h2 => hlive t h1 (by omega)
  have hframes := H.frames hs hbound h0 (Nat.le_of_lt hab) hbk hnone hbefore
  -- the handler is that of the statement started in turn `a`
  obtain ⟨x, hx⟩ := Option.isSome_iff_exists.mp (hlive (a + 1) (Nat.le_refl _) (by omega))
  have hlater := H'.later he.isolates hwell (by omega) hab hbefore hx hh
  obtain ⟨c, f, _, rfl⟩ := (H'.turned he.isolates hwell (by omega)).opened hnone hx
  have hsnapshot : h.snapshot = (ms a).advanced.snapshot := hlater.snapshot
  have hrestored : ∀ {f g m₁ m₂ cs rest m₃}, step (disciplined fuel) fuel (ms b) = .error (.fault f) m₁ →
      settle f m₁ = .ok g m₂ → Asked (disciplined fuel) g m₂ cs h rest m₃ →
      ∃ left, Restored (enter fuel) (ms a).advanced left m₃ := by
    intro f g m₁ m₂ cs rest m₃ hstep hsettle hasked
    have hstepped := frames_step he fuel ⟨hm, (H.keeps hbk).host⟩
    rw [hstep] at hstepped
    obtain ⟨_, σ, _, hσ⟩ := settle_eq_ok f m₁
    cases hsettle.symm.trans hσ
    have hdropped : Dropped (next? (ms b)) (ms b).frames.length (ms b) { m₁ with store := σ } :=
      ((steps_step he.isolates fuel hm).2.2 f m₁ hstep).trans (.calm rfl rfl)
    have hanchored := hrunning.anchored_of_dropped hdropped hstepped.1
    obtain ⟨_, cs₂, left, hleft, hsuffix, hle, _, hback⟩ := hasked.passed he (hdropped.wellNested hm) hanchored
    rw [hsnapshot] at hle hback
    have hthere : (ms a).advanced.frames <:+ left.frames :=
      List.suffix_of_suffix_length_le (hframes.trans hstepped.1) hsuffix hle
    exact ⟨left, (restored_backTo he hleft hthere hback).follows hfollows⟩
  obtain ⟨h₁, h', hh₁, hh', hpart, hpart'⟩ := henters
  cases hh₁.symm.trans hh
  have hmoved := (H'.turned he.isolates hwell hbk).moved hh hh'
  have hstep := follows_step hfollows fuel
  cases hmoved with
  | stays => exact absurd hpart' hpart
  | catches hfails hsettle hasked hbody hcatch hthrown hm' =>
    obtain ⟨left, hback⟩ := hrestored hfails hsettle hasked
    exact .catches (hstep.fault_of_following hfails) hsettle (hasked.follows hfollows) hback hcatch hthrown hm'
  | completes hok =>
    obtain ⟨f, m₁, hfails⟩ := hfails
    cases (hstep.ok_of_following hok).symm.trans hfails
  | finishes hfails hsettle hasked hr hm' =>
    obtain ⟨left, hback⟩ := hrestored hfails hsettle hasked
    exact .finishes (hstep.fault_of_following hfails) hsettle (hasked.follows hfollows) hback
      (Reaction.of_eq_finishing hr).2 hm'

end Sections

/-- **Unwinding restores what is guarded**, in every run that keeps the discipline.  It does so but for the operand
stack and the open loops: these are the same before iterators are closed, and closing them may change them.

* If a guarded computation fails, it does so on the machine as it is, and the machine is back in the state in which it
  was called.
* Every run of a dispatch loop has a history, the turns of which are those of the machine as it is.  If a fault leads to
  a catch or a finally section of a statement, the machine is back in the state in which the statement was started, with
  the section next. -/
theorem unwinding_restores (fuel : Nat) :
    (∀ {α : Type} {x y : VM α}, Body fuel x y → ∀ m, m.WellNested → ∀ f m',
      guarded (disciplined fuel) x m = .error (.fault f) m' →
      guarded (enter fuel) y m = .error (.fault f) m' ∧
        ∃ f₀ m₀, y m = .error (.fault f₀) m₀ ∧ Restored (enter fuel) m m₀ m') ∧
    ∀ e s, Begins e s →
      (∀ n m', Ends (loop (disciplinedTurn (disciplined fuel) fuel e s) n) (nested s) m' →
        ∃ ms k, History (disciplinedTurn (disciplined fuel) fuel e s) ms k ∧ ms 0 = nested s ∧ ms k = m') ∧
      ∀ ms k, ms 0 = nested s → History (disciplinedTurn (disciplined fuel) fuel e s) ms k →
        History (turn (enter fuel) fuel) ms k ∧
        ∀ p a b part h, a < b → b < k → handlerAt (ms a) p = none → Alive ms p (a + 1) (b + 1) →
          handlerAt (ms b) p = some h → Enters ms p part b →
          (∃ f m₁, step (enter fuel) fuel (ms b) = .error (.fault f) m₁) →
          Entered (enter fuel) fuel (ms a) (ms b) (ms (b + 1)) h := by
  have hfollows : ∀ e, Obeys following (disciplined fuel e) (enter fuel e) := follows_watched discipline fuel
  constructor
  · intro α x y hbody m hm f m' hfails
    have hguarded : Obeys following (guarded (disciplined fuel) x) (guarded (enter fuel) y) :=
      (obeys_guarded (fun r => (hfollows (.close r)).strict) hbody.follows).weaken
    obtain ⟨f₀, m₀, hx, hrestored⟩ := restored_guarded (nests_disciplined fuel) hbody.balanced hm hfails
    exact ⟨hguarded.fault_of_following hfails, f₀, m₀, hbody.follows.fault_of_following hx, hrestored.follows hfollows⟩
  · refine fun e s hbegins => ⟨fun n m' hends => history_of_loop hends, fun ms k h0 H => ?_⟩
    refine ⟨H.unwatched, fun p a b part h hab hbk hnone hlive hh henters hfails => ?_⟩
    exact H.entered hbegins.wellNested hbegins.bounded h0 hab hbk hnone hlive hh henters hfails

/-! ### A run -/

/-- A machine without objects, about to start a try statement with a value on the stack.  In the body a loop is started,
and then something is thrown. -/
def leftInLoop : Machine :=
  let m := withCode #[.loadUndefined, .guard 6 0, .loadUndefined, .enumerate, .loadUndefined, .loadUndefined, .raise,
    .pop, .halt, .halt] #[]
  { m with store := { m.store with objects := #[] } }

theorem wellNested_leftInLoop : leftInLoop.WellNested := (wellNested_new .default).congr rfl rfl

noncomputable def leftRun : Nat → Machine := stateAfter (disciplined 9) 9 (nested leftInLoop)

theorem history_disciplined (hkeeps : ∀ t < k, Keeps e s (ms t))
    (H : History (turn (disciplined fuel) fuel) ms k) : History (disciplinedTurn (disciplined fuel) fuel e s) ms k := by
  intro t ht
  have hcheck : check (discipline.turn e s) outOfFuel (ms t) = .ok () (ms t) := check_of_true (hkeeps t ht)
  have hturn : disciplinedTurn (disciplined fuel) fuel e s (ms t) = turn (disciplined fuel) fuel (ms t) :=
    bind_ok hcheck
  rw [hturn]
  exact H t ht

theorem history_of_test (h : ∀ t < k, keepsBase? e s (stateAfter (disciplined fuel) fuel (nested s) t) = true ∧
      (stateAfter (disciplined fuel) fuel (nested s) t).halted = false ∧
      succeeds? (turn (disciplined fuel) fuel) (stateAfter (disciplined fuel) fuel (nested s) t) = some true) :
    History (disciplinedTurn (disciplined fuel) fuel e s) (stateAfter (disciplined fuel) fuel (nested s)) k :=
  history_disciplined (fun t ht => (keepsBase_of_test (h t ht).1).toKeeps)
    (history_stateAfter fun t ht => ⟨(h t ht).2.1, .inl (h t ht).2.2⟩)

/-- What is thrown out of the loop is caught, and the machine is back at the start of the statement. -/
theorem unwinding_restores_leftInLoop :
    History (disciplinedTurn (disciplined 9) 9 (.program ⟨0⟩) leftInLoop) leftRun 7 ∧
      Entered (enter 9) 9 (leftRun 1) (leftRun 6) (leftRun 7) ((leftRun 1).opened 6 0) := by
  have H : History (disciplinedTurn (disciplined 9) 9 (.program ⟨0⟩) leftInLoop) leftRun 7 :=
    history_of_test (by decide +kernel)
  have hsome : ∀ t < 8, 2 ≤ t → (handlerAt (leftRun t) 0).isSome := by decide +kernel
  have hlive : Alive leftRun 0 2 7 := fun t h2 h7 => hsome t (by omega) h2
  have hnone : handlerAt (leftRun 1) 0 = none := rfl
  have hopened : handlerAt (leftRun 6) 0 = some ((leftRun 1).opened 6 0) := rfl
  have henters : Enters leftRun 0 .catching 6 := ⟨_, _, hopened, rfl, nofun, rfl⟩
  have hfails : ∃ f m₁, step (enter 9) 9 (leftRun 6) = .error (.fault f) m₁ := ⟨_, _, rfl⟩
  have hbegins : Begins (.program ⟨0⟩) leftInLoop := .program rfl wellNested_leftInLoop
  have hrun := ((unwinding_restores 9).2 (.program ⟨0⟩) leftInLoop hbegins).2 leftRun 7 rfl H
  exact ⟨H, hrun.2 0 1 6 .catching _ (by decide) (by decide) hnone hlive hopened henters hfails⟩

end ScriptMachine.VM
