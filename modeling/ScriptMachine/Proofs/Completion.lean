import Mathlib.Data.List.Forall2
import ScriptMachine.Proofs.TryStatement

/-!
# Errors that pass finally sections

A fault that no catch section takes waits in the handlers of the finally sections it passes, and is raised again at the
end of each.  Each time it is settled anew, and iterators that are closed on its way may fail themselves.

* `SameError` — two faults are the same error, but for a trace that was not there yet.

Main result: `completion_preserved`.
-/

namespace ScriptMachine

variable {f g : Fault} {m m' : Machine}

/-! ### Errors -/

/-- Whether a fault is a thrown value or a condition. -/
def Fault.isSettled : Fault → Bool
  | .thrown _ | .uncatchable _ => true
  | _ => false

/-- The same error: the same value is thrown, or the condition is the same, and a trace stays as it is once there is
one. -/
inductive SameError : Fault → Fault → Prop where
  | thrown {v : Value} {t t' : Trace} : (t ≠ [] → t' = t) → SameError (.thrown ⟨v, t⟩) (.thrown ⟨v, t'⟩)
  | uncatchable {c : Condition} {t t' : Trace} :
      (t ≠ [] → t' = t) → SameError (.uncatchable ⟨c, t⟩) (.uncatchable ⟨c, t'⟩)

namespace SameError

theorem refl (hf : f.isSettled = true) : SameError f f := by
  cases f with
  | thrown e => exact .thrown fun _ => rfl
  | uncatchable u => exact .uncatchable fun _ => rfl
  | _ => cases hf

theorem trans {h : Fault} (hfg : SameError f g) (hgh : SameError g h) : SameError f h := by
  cases hfg with
  | @thrown v t t' ht =>
    cases hgh with
    | @thrown _ _ t'' ht' =>
      refine .thrown fun hne => ?_
      have heq := ht hne
      exact (ht' (heq ▸ hne)).trans heq
  | @uncatchable c t t' ht =>
    cases hgh with
    | @uncatchable _ _ t'' ht' =>
      refine .uncatchable fun hne => ?_
      have heq := ht hne
      exact (ht' (heq ▸ hne)).trans heq

theorem isUncatchable_eq (h : SameError f g) : f.isUncatchable = g.isUncatchable := by
  cases h <;> rfl

end SameError

theorem Fault.isSettled_of_isUncatchable (h : f.isUncatchable = true) : f.isSettled = true := by
  cases f with
  | uncatchable u => rfl
  | _ => cases h

namespace VM

/-! ### Settling and closing -/

theorem settle_isSettled (h : settle f m = .ok g m') : g.isSettled = true := by
  unfold settle at h
  split at h
  · split at h <;> cases h <;> rfl
  · split at h <;> cases h <;> rfl
  · cases h
    rfl

theorem settle_same (hf : f.isSettled = true) (h : settle f m = .ok g m') : SameError f g := by
  unfold settle at h
  split at h
  · case _ e =>
    split at h
    case isTrue hempty =>
      cases h
      exact .thrown fun hne => absurd (List.isEmpty_iff.mp hempty) hne
    case isFalse =>
      cases h
      exact .refl rfl
  · case _ u =>
    split at h
    case isTrue hempty =>
      cases h
      exact .uncatchable fun hne => absurd (List.isEmpty_iff.mp hempty) hne
    case isFalse =>
      cases h
      exact .refl rfl
  · case _ hthrown huncatchable =>
    cases f with
    | thrown e => exact absurd rfl (hthrown e)
    | uncatchable u => exact absurd rfl (huncatchable u)
    | _ => cases hf

/-- A fault that can be caught gives way to the first condition beyond catching among the faults of closing. -/
theorem after_eq (f : Fault) (cs : List Fault) :
    after f cs = if f.isUncatchable then f else (cs.find? Fault.isUncatchable).getD f := by
  induction cs generalizing f with
  | nil => simp [after]
  | cons c cs ih =>
    have hcons : after f (c :: cs) = after (f.afterClosing c) cs := rfl
    rw [hcons, ih, Fault.afterClosing]
    cases hf : f.isUncatchable <;> cases hc : c.isUncatchable <;> simp [hf, hc]

theorem after_isSettled (hf : f.isSettled = true) (cs : List Fault) : (after f cs).isSettled = true := by
  rw [after_eq]
  split
  · exact hf
  · cases hfind : cs.find? Fault.isUncatchable with
    | none => exact hf
    | some c => exact Fault.isSettled_of_isUncatchable (List.find?_some hfind)

theorem sameError_after (h : SameError f g) (cs : List Fault) : SameError (after f cs) (after g cs) := by
  rw [after_eq, after_eq, h.isUncatchable_eq]
  split
  · exact h
  · cases hfind : cs.find? Fault.isUncatchable with
    | none => exact h
    | some c => exact .refl (Fault.isSettled_of_isUncatchable (List.find?_some hfind))

/-! ### The end of a finally section -/

/-- In `m` the finally section of the innermost handler is about to end; `m₁` is the state after an interrupt has been
taken up. -/
structure Ending (m m₁ : Machine) (h : Handler) (rest : List Handler) : Prop where
  taken : takeInterrupt m = .ok () m₁
  halts : next? m = some .halt
  top : m.handlers = h :: rest
  owned : owns m h = true
  finishing : h.part = .finishing

theorem atEndOfFinally_iff : atEndOfFinally m = true ↔ next? m = some .endFinally := by
  unfold atEndOfFinally next?
  cases m.regs.program with
  | none => simp
  | some p =>
    cases hi : (m.store.program p).code[m.regs.pc]? with
    | none => simp [hi]
    | some i => cases i <;> simp [hi]

section Ending

variable {m m₁ : Machine} {h : Handler} {rest : List Handler} {f : Fault}

theorem Ending.step_eq (he : Ending m m₁ h rest) (enter : Enter) (fuel : Nat) :
    step enter fuel m = leaveFinally h { m₁.advanced with handlers := rest } := by
  have howned : owns m₁ h = true := by
    have hboth := owns_iff.mp he.owned
    exact owns_iff.mpr ⟨hboth.1.trans (taken_depth he.taken).symm, by rw [taken_frames he.taken, hboth.2]⟩
  have htop : m₁.handlers = h :: rest := (taken_handlers he.taken).trans he.top
  have hhalt : step enter fuel m = halt m₁ := VM.step_eq enter fuel he.taken he.halts
  rw [hhalt, halt_of_owned htop howned, endSection_of_finishing he.finishing]
  rfl

theorem Ending.next_eq (he : Ending m m₁ h rest) : next? { m₁.advanced with handlers := rest } = next? m.advanced := by
  rcases takeInterrupt_ok he.taken with rfl | ⟨lines, rfl⟩ <;> rfl

theorem leaveFinally_of_end (hend : next? m = some .endFinally) :
    leaveFinally h m = (match h.pending with
      | some f => raise f
      | none => pure () : VM Unit) { m with regs := { m.regs with pc := h.resume } } := by
  unfold leaveFinally
  rw [get_bind, if_pos (atEndOfFinally_iff.mpr hend)]
  rfl

theorem step_of_raising (he : Ending m m₁ h rest) (hend : next? m.advanced = some .endFinally)
    (hpending : h.pending = some f) (enter : Enter) (fuel : Nat) :
    step enter fuel m =
      .error (.fault f) { m₁ with handlers := rest, regs := { m₁.regs with pc := h.resume } } := by
  rw [he.step_eq, leaveFinally_of_end (he.next_eq.trans hend), hpending]
  rfl

theorem step_of_resuming (he : Ending m m₁ h rest) (hend : next? m.advanced = some .endFinally)
    (hpending : h.pending = none) (enter : Enter) (fuel : Nat) :
    step enter fuel m = .ok () { m₁ with handlers := rest, regs := { m₁.regs with pc := h.resume } } := by
  rw [he.step_eq, leaveFinally_of_end (he.next_eq.trans hend), hpending]
  rfl

theorem step_of_discarding (he : Ending m m₁ h rest) (hend : next? m.advanced ≠ some .endFinally) (enter : Enter)
    (fuel : Nat) : step enter fuel m = .ok () { m₁.advanced with handlers := rest } := by
  rw [he.step_eq]
  unfold leaveFinally
  rw [get_bind, if_neg fun hat => hend (he.next_eq.symm.trans (atEndOfFinally_iff.mp hat))]
  rfl

theorem turn_of_step {enter : Enter} {fuel : Nat} (hstep : step enter fuel m = .ok () m') :
    turn enter fuel m = .ok () m' := by
  unfold turn
  rw [bind_ok (attempt_ok hstep)]
  rfl

end Ending

/-! ### Journeys -/

/-- The faults of the iterators closed while the fault of a turn from `m` is unwound. -/
def Closings (enter : Enter) (fuel : Nat) (m : Machine) (cs : List Fault) : Prop :=
  ∃ f g m₁ m₂, step enter fuel m = .error (.fault f) m₁ ∧ settle f m₁ = .ok g m₂ ∧
    ((∃ m', Passed enter g m₂ cs m' ∧ ∀ h ∈ m'.handlers.head?, h.depth ≠ m'.depth) ∨
      ∃ h rest m', Asked enter g m₂ cs h rest m' ∧ Reaction.of h (after g cs) ≠ .leaving)

/-- The fault that is raised in turn `t` passes finally sections, each of which completes normally.  The turns given are
those in which it is raised again. -/
inductive Journey (ms : Nat → Machine) : Nat → List Nat → Prop where
  | last (t : Nat) : Journey ms t []
  | passes {t u p : Nat} {us : List Nat} {m₁ : Machine} {h : Handler} {rest : List Handler} :
      t < u → Enters ms p .finishing t → Alive ms p (t + 1) u → Ending (ms u) m₁ h rest → rest.length = p →
      next? (ms u).advanced = some .endFinally → Journey ms u us → Journey ms t (u :: us)

section Journey

variable {enter : Enter} (he : ∀ e, Heeds isolating (enter e)) {fuel k p t u : Nat} {ms : Nat → Machine}
  (h0 : (ms 0).WellNested)
  {f g out : Fault} {m₁ m₂ : Machine} {h : Handler} {rest : List Handler}

theorem Ending.handlerAt_eq (hend : Ending (ms u) m₁ h rest) (hp : rest.length = p) : handlerAt (ms u) p = some h := by
  rw [handlerAt_cons hend.top, if_pos hp.symm]

theorem Journey.le_last {us : List Nat} (hj : Journey ms t us) : t ≤ us.getLastD t := by
  induction hj with
  | last t => exact Nat.le_refl t
  | passes hlt _ _ _ _ _ _ ih =>
    rw [List.getLastD_cons]
    omega

theorem Moved.eq_of_finishing {h' : Handler} (hm : Moved enter fuel m m' h h') (hpart : h.part = .finishing) :
    h' = h := by
  cases hm with
  | stays => rfl
  | catches _ _ _ hbody => rw [hpart] at hbody; cases hbody
  | completes _ _ _ hnot => exact absurd hpart hnot
  | finishes _ _ _ hr => exact absurd hpart (Reaction.of_eq_finishing hr).1

include he h0

theorem History.eq_of_finishing (H : History (turn enter fuel) ms k) (hu : u ≤ k) (htu : t ≤ u) (hlive : Alive ms p t u)
    (hpart : h.part = .finishing) (ht : handlerAt (ms t) p = some h) : handlerAt (ms u) p = some h := by
  induction htu with
  | refl => exact ht
  | @step u htu ih =>
    have hearlier := ih (by omega) fun x h1 h2 => hlive x h1 (by omega)
    obtain ⟨h', hh'⟩ := Option.isSome_iff_exists.mp (hlive (u + 1) (Nat.le_succ_of_le htu) (Nat.le_refl _))
    have hmoved := (H.turned he h0 (by omega)).moved hearlier hh'
    rw [hh', hmoved.eq_of_finishing hpart]

theorem History.pending_of_enters (H : History (turn enter fuel) ms k) (ht : t < k)
    (hstep : step enter fuel (ms t) = .error (.fault f) m₁) (hsettle : settle f m₁ = .ok g m₂)
    (henters : Enters ms p .finishing t) :
    ∃ cs h, Closings enter fuel (ms t) cs ∧ handlerAt (ms (t + 1)) p = some h ∧ h.part = .finishing ∧
      h.pending = some (after g cs) := by
  obtain ⟨x, x', hx, hx', hnot, hfinishing⟩ := henters
  have hmoved := (H.turned he h0 ht).moved hx hx'
  cases hmoved with
  | stays => exact absurd hfinishing hnot
  | catches => cases hfinishing
  | completes hok => cases hstep.symm.trans hok
  | @finishes _ _ _ _ m₃ cs rest pc hstep' hsettle' hasked hr =>
    cases hstep.symm.trans hstep'
    cases hsettle.symm.trans hsettle'
    have hstays : Reaction.of x (after g cs) ≠ .leaving := by
      rw [hr]
      nofun
    exact ⟨_, _, ⟨f, g, m₁, m₂, hstep, hsettle, .inr ⟨_, _, _, hasked, hstays⟩⟩, hx', rfl, rfl⟩

theorem History.leaves (H : History (turn enter fuel) ms k) (ht : t < k)
    (hstep : step enter fuel (ms t) = .error (.fault f) m₁) (hsettle : settle f m₁ = .ok g m₂)
    (hturn : turn enter fuel (ms t) = .error (.fault out) (ms (t + 1))) :
    ∃ cs, Closings enter fuel (ms t) cs ∧ out = after g cs := by
  have htook := (took_turn he fuel (H.wellNested he h0 (Nat.le_of_lt ht))).2
  rw [hturn] at htook
  cases htook with
  | unwinds hstep' _ hsettle' hunwound =>
    cases hstep.symm.trans hstep'
    cases hsettle.symm.trans hsettle'
    cases hunwound with
    | goesOn hpassed hnone => exact ⟨_, ⟨f, g, m₁, m₂, hstep, hsettle, .inl ⟨_, hpassed, hnone⟩⟩, rfl⟩

/-- **A fault keeps its identity on a journey.** -/
theorem Journey.sameError (H : History (turn enter fuel) ms k) {us : List Nat} (hj : Journey ms t us)
    (hlast : us.getLastD t + 1 = k) (hturn : turn enter fuel (ms (us.getLastD t)) = .error (.fault out) (ms k))
    (hstep : step enter fuel (ms t) = .error (.fault f) m₁) (hsettle : settle f m₁ = .ok g m₂) :
    ∃ css, List.Forall₂ (fun u cs => Closings enter fuel (ms u) cs) (t :: us) css ∧
      SameError (after g css.flatten) out := by
  induction hj generalizing f g m₁ m₂ with
  | last t =>
    subst hlast
    obtain ⟨cs, hcs, rfl⟩ := H.leaves he h0 (Nat.lt_succ_self t) hstep hsettle hturn
    refine ⟨[cs], .cons hcs .nil, ?_⟩
    rw [List.flatten_singleton]
    exact .refl (after_isSettled (settle_isSettled hsettle) cs)
  | @passes t u p us m₃ h rest htu henters hlive hend hp hfinally hrest ih =>
    rw [List.getLastD_cons] at hlast hturn
    have huk : u < k := by
      have hle := hrest.le_last
      omega
    obtain ⟨cs, h', hcs, hh', hpart, hpending⟩ := H.pending_of_enters he h0 (by omega) hstep hsettle henters
    -- the handler is the same at the end of the section
    have hsame := H.eq_of_finishing he h0 (Nat.le_of_lt huk) htu hlive hpart hh'
    rw [hend.handlerAt_eq hp] at hsame
    cases hsame
    obtain ⟨g', σ, _, hsettle'⟩ := settle_eq_ok (after g cs)
      { m₃ with handlers := rest, regs := { m₃.regs with pc := h.resume } }
    obtain ⟨css, hcss, hout⟩ := ih hlast hturn (step_of_raising hend hfinally hpending enter fuel) hsettle'
    refine ⟨cs :: css, .cons hcs hcss, ?_⟩
    have hsettled := after_isSettled (settle_isSettled hsettle) cs
    have hagain := sameError_after (settle_same hsettled hsettle') css.flatten
    rw [List.flatten_cons, after_append]
    exact hagain.trans hout

end Journey

/-! ### Faults that wait -/

/-- No fault waits before the finally section. -/
def NoneWaits (m : Machine) : Prop := ∀ h ∈ m.handlers, h.depth = m.depth → h.part ≠ .finishing → h.pending = none

theorem Turned.noneWaits {enter : Enter} {fuel : Nat} (ht : Turned enter fuel m m') (hm : NoneWaits m) :
    NoneWaits m' := by
  intro x hx hdepth hpart
  cases ht with
  | opens _ hh hd =>
    rw [hh] at hx
    rcases List.mem_cons.mp hx with rfl | hx
    · rfl
    · exact hm x hx (hdepth.trans hd) hpart
  | drops hd =>
    obtain ⟨left, hleft, _⟩ := hd.handlers
    exact hm x (hleft ▸ List.mem_append_right _ hx) (hdepth.trans hd.depth) hpart
  | @enters m₁ h h' rest hd hh hdepth₁ hh' hdepth' hmoved =>
    obtain ⟨left, hleft, _⟩ := hd.handlers
    have hmem : ∀ y ∈ h :: rest, y ∈ m.handlers := fun y hy => hleft ▸ List.mem_append_right _ (hh ▸ hy)
    rw [hh'] at hx
    rcases List.mem_cons.mp hx with rfl | hx
    · cases hmoved with
      | stays => exact hm x (hmem x (.head _)) (hdepth₁.trans hd.depth) hpart
      | catches _ _ _ hbody =>
        exact hm h (hmem h (.head _)) (hdepth₁.trans hd.depth) (by rw [hbody]; nofun)
      | completes => exact absurd rfl hpart
      | finishes => exact absurd rfl hpart
    · exact hm x (hmem x (.tail _ hx)) (hdepth.trans (hdepth'.trans hd.depth)) hpart

section Waiting

variable {enter : Enter} (he : ∀ e, Heeds isolating (enter e)) {fuel k : Nat} {ms : Nat → Machine}
  (h0 : (ms 0).WellNested) (H : History (turn enter fuel) ms k) (hstart : NoneWaits (ms 0))

include he h0 H hstart

theorem History.noneWaits {t : Nat} (ht : t ≤ k) : NoneWaits (ms t) := by
  induction t with
  | zero => exact hstart
  | succ t ih => exact (H.turned he h0 ht).noneWaits (ih (by omega))

theorem History.resumes {a b p : Nat} (hab : a < b) (hb : b < k) (hstep : step enter fuel (ms a) = .ok () m')
    (henters : Enters ms p .finishing a) (hlive : Alive ms p (a + 1) b) {m₁ : Machine} {h : Handler}
    {rest : List Handler} (hend : Ending (ms b) m₁ h rest) (hp : rest.length = p) :
    h.pending = none ∧ h.resume = (ms a).regs.pc + 1 := by
  have hak : a < k := by omega
  obtain ⟨x, x', hx, hx', hnot, hfinishing⟩ := henters
  have hpart : x'.part = .finishing := hfinishing
  have hsame := H.eq_of_finishing he h0 (Nat.le_of_lt hb) hab hlive hpart hx'
  rw [hend.handlerAt_eq hp] at hsame
  cases hsame
  have hmem : x ∈ (ms a).handlers := List.mem_reverse.mp (List.mem_of_getElem? hx)
  have hwaits := noneWaits he h0 H hstart (Nat.le_of_lt hak) x hmem
  cases (H.turned he h0 hak).moved hx hx' with
  | stays => exact absurd hfinishing hnot
  | catches => cases hpart
  | completes _ _ howned => exact ⟨hwaits (owns_iff.mp howned).1 hnot, rfl⟩
  | finishes hfails => cases hstep.symm.trans hfails

end Waiting

theorem noneWaits_nested {s : Machine} (hs : s.WellNested) : NoneWaits (nested s) := by
  intro h hh hdepth _
  have hbelow := hs.below h hh
  have hdepth' : h.depth = s.depth + 1 := hdepth
  omega

/-! ### Completions -/

/-- **Completions are preserved.**  Along a history of a dispatch loop:

* if a fault is raised in a turn, is settled to `g`, passes finally sections each of which completes normally, and
  leaves the loop, then what leaves the loop is the same error as `g`, unless `g` can be caught and closing an iterator
  on the way fails with a condition beyond catching; in that case it is the same error as the first such condition;
* a finally section that ends otherwise drops the fault that waits, and the instruction after its end is next;
* a finally section that was entered because another section ended, and completes normally, goes on with the
  instruction after the end of that section. -/
theorem completion_preserved (fuel k : Nat) (ms : Nat → Machine) (h0 : (ms 0).WellNested)
    (H : History (turn (enter fuel) fuel) ms k) :
    (∀ t us f g m₁ m₂ out,
      step (enter fuel) fuel (ms t) = .error (.fault f) m₁ → settle f m₁ = .ok g m₂ → Journey ms t us →
      us.getLastD t + 1 = k → turn (enter fuel) fuel (ms (us.getLastD t)) = .error (.fault out) (ms k) →
      ∃ css, List.Forall₂ (fun u cs => Closings (enter fuel) fuel (ms u) cs) (t :: us) css ∧
        SameError (if g.isUncatchable then g else (css.flatten.find? Fault.isUncatchable).getD g) out) ∧
    (∀ t < k, ∀ m₁ h rest, Ending (ms t) m₁ h rest → next? (ms t).advanced ≠ some .endFinally →
      turn (enter fuel) fuel (ms t) = .ok () (ms (t + 1)) ∧ ms (t + 1) = { m₁.advanced with handlers := rest }) ∧
    ∀ s, s.WellNested → ms 0 = nested s → ∀ a b p m' m₁ h rest, a < b → b < k →
      step (enter fuel) fuel (ms a) = .ok () m' → Enters ms p .finishing a → Alive ms p (a + 1) b →
      Ending (ms b) m₁ h rest → rest.length = p → next? (ms b).advanced = some .endFinally →
      turn (enter fuel) fuel (ms b) = .ok () (ms (b + 1)) ∧
        ms (b + 1) = { m₁ with handlers := rest, regs := { m₁.regs with pc := (ms a).regs.pc + 1 } } := by
  have he := obeys_enter fuel
  have hnext : ∀ t < k, ∀ m', turn (enter fuel) fuel (ms t) = .ok () m' →
      turn (enter fuel) fuel (ms t) = .ok () (ms (t + 1)) ∧ ms (t + 1) = m' := by
    intro t ht m' hturn
    rcases (H t ht).2 with hok | ⟨_, f, hfault⟩
    · cases hturn.symm.trans hok
      exact ⟨hok, rfl⟩
    · cases hturn.symm.trans hfault
  refine ⟨?_, ?_, ?_⟩
  · intro t us f g m₁ m₂ out hstep hsettle hj hlast hturn
    obtain ⟨css, hcss, hsame⟩ := hj.sameError he h0 H hlast hturn hstep hsettle
    rw [after_eq] at hsame
    exact ⟨css, hcss, hsame⟩
  · intro t ht m₁ h rest hend hother
    exact hnext t ht _ (turn_of_step (step_of_discarding hend hother (enter fuel) fuel))
  · intro s hs hs0 a b p m' m₁ h rest hab hb hstep henters hlive hend hp hfinally
    have hstart : NoneWaits (ms 0) := hs0 ▸ noneWaits_nested hs
    obtain ⟨hpending, hresume⟩ := H.resumes he h0 hstart hab hb hstep henters hlive hend hp
    have hresumes := step_of_resuming hend hfinally hpending (enter fuel) fuel
    rw [hresume] at hresumes
    exact hnext b hb _ (turn_of_step hresumes)

/-- A try statement whose body throws, with a finally section from 3 on that completes. -/
def finished : Machine := withCode #[.guard 0 3, .loadUndefined, .raise, .halt, .endFinally] #[]

def finishedRun : Nat → Machine := stateAfter (enter 9) 9 finished

/-- What is thrown in turn 2 passes the finally section, and leaves the loop in turn 3. -/
theorem completion_preserved_finished :
    History (turn (enter 9) 9) finishedRun 4 ∧ Journey finishedRun 2 [3] ∧
      ∃ f m₁ g m₂ out, step (enter 9) 9 (finishedRun 2) = .error (.fault f) m₁ ∧ settle f m₁ = .ok g m₂ ∧
        turn (enter 9) 9 (finishedRun 3) = .error (.fault out) (finishedRun 4) ∧
        ∃ css, List.Forall₂ (fun u cs => Closings (enter 9) 9 (finishedRun u) cs) [2, 3] css ∧
          SameError (if g.isUncatchable then g else (css.flatten.find? Fault.isUncatchable).getD g) out := by
  have H : History (turn (enter 9) 9) finishedRun 4 := history_stateAfter (by decide +kernel)
  have hall : ∀ t < 4, 3 ≤ t → (handlerAt (finishedRun t) 0).isSome := by decide +kernel
  have hlive : Alive finishedRun 0 3 3 := fun t h3 h3' => hall t (by omega) h3
  have henters : Enters finishedRun 0 .finishing 2 := ⟨_, _, rfl, rfl, by decide +kernel, rfl⟩
  have hend : Ending (finishedRun 3) (finishedRun 3) _ [] := ⟨rfl, rfl, rfl, rfl, rfl⟩
  have hj : Journey finishedRun 2 [3] := .passes (by decide) henters hlive hend rfl rfl (.last 3)
  have hthrows : step (enter 9) 9 (finishedRun 2) = .error (.fault (.throwing .undefined)) _ := rfl
  refine ⟨H, hj, _, _, _, _, _, hthrows, rfl, rfl, ?_⟩
  exact (completion_preserved 9 4 finishedRun (wellNested_withCode _ _) H).1 2 [3] _ _ _ _ _ hthrows rfl hj rfl rfl

/-- A machine that captures no traces, and a try statement whose body throws.  Its finally section calls a host function
that lets traces be captured, and completes. -/
def untraced : Machine :=
  let m := withCode #[.guard 0 3, .loadUndefined, .raise, .loadUndefined, .loadConstant 0, .call 0, .halt, .endFinally]
    #[.object ⟨0⟩]
  let allow : NativeFunction :=
    { name := Text.ofString "allow", length := 0, construct := none
      call := fun _ => .ask (.setLimits .default) fun _ => .done (.ok .undefined) }
  { m with
    store := { m.store with objects := #[⟨.new none, .native allow⟩] }
    limits := { m.limits with traceLength := 0 } }

def untracedRun : Nat → Machine := stateAfter (enter 9) 9 untraced

/-- **A trace may be filled in on the way.**  What is thrown in turn 2 has no trace, passes a finally section that
completes normally, with no iterator to be closed, and leaves the loop with a trace of the place where the section
ends. -/
theorem trace_filled_in_late :
    (untracedRun 0).WellNested ∧ History (turn (enter 9) 9) untracedRun 7 ∧ Journey untracedRun 2 [6] ∧
      (untracedRun 2).loops.length = 0 ∧ (untracedRun 6).loops.length = 0 ∧
      ∃ m₁ m₂ frame,
        step (enter 9) 9 (untracedRun 2) = .error (.fault (.throwing .undefined)) m₁ ∧
        settle (.throwing .undefined) m₁ = .ok (.thrown ⟨.undefined, []⟩) m₂ ∧
        turn (enter 9) 9 (untracedRun 6) = .error (.fault (.thrown ⟨.undefined, [frame]⟩)) (untracedRun 7) := by
  have H : History (turn (enter 9) 9) untracedRun 7 := history_stateAfter (by decide +kernel)
  have hall : ∀ t < 7, 3 ≤ t → (handlerAt (untracedRun t) 0).isSome := by decide +kernel
  have hlive : Alive untracedRun 0 3 6 := fun t h3 h6 => hall t (by omega) h3
  have henters : Enters untracedRun 0 .finishing 2 := ⟨_, _, rfl, rfl, by decide +kernel, rfl⟩
  have hend : Ending (untracedRun 6) (untracedRun 6) _ [] := ⟨rfl, rfl, rfl, rfl, rfl⟩
  have h0 : (untracedRun 0).WellNested := (wellNested_new .default).congr rfl rfl
  exact ⟨h0, H, .passes (by decide) henters hlive hend rfl rfl (.last 6), rfl, rfl, _, _, _, rfl, rfl, rfl⟩

end VM

end ScriptMachine
