import ScriptMachine.Proofs.Turns
import ScriptMachine.Proofs.Watch

/-!
# Dispatch loops are isolated from each other

A handler belongs to a dispatch loop by a number only, the depth of that loop.  Still, no loop touches the handlers of
the loops around it, whatever the code does.

* `Inside s m` — in the state `m` runs a loop that was started from `s`: the handlers of `s` are still there, and those
  above them belong to the loop.

Main result: `dispatch_isolated`.
-/

namespace ScriptMachine.VM

/-- In `m` runs a loop that was started from `s`. -/
structure Inside (s m : Machine) : Prop where
  depth : m.depth = s.depth + 1
  handlers : ∃ own, m.handlers = own ++ s.handlers ∧ ∀ h ∈ own, h.depth = m.depth

namespace Inside

variable {s m : Machine} {h : Handler} {rest : List Handler} {i : Option Instruction} {m' : Machine} {enter : Enter}
  {r : EStateM.Result Abort Machine Unit}

theorem tail (hi : Inside s m) (hs : s.WellNested) (hh : m.handlers = h :: rest)
    (hd : h.depth = m.depth) : ∃ own, rest = own ++ s.handlers ∧ ∀ x ∈ own, x.depth = m.depth := by
  obtain ⟨own, hown, hall⟩ := hi.handlers
  rw [hh] at hown
  cases own with
  | nil =>
    have hmem : h ∈ s.handlers := by
      rw [List.nil_append] at hown
      exact hown ▸ .head _
    have hbelow := hs.below h hmem
    have hdepth := hi.depth
    omega
  | cons h' own =>
    simp only [List.cons_append, List.cons.injEq] at hown
    exact ⟨own, hown.2, fun x hx => hall x (.tail _ hx)⟩

theorem wellNested (hi : Inside s m) (hs : s.WellNested) : m.WellNested := by
  obtain ⟨own, hown, hall⟩ := hi.handlers
  have hdepth := hi.depth
  constructor
  · intro h hh
    rw [hown, List.mem_append] at hh
    rcases hh with hh | hh
    · exact Nat.le_of_eq (hall h hh)
    · have := hs.below h hh
      omega
  · rw [hown, List.pairwise_append]
    refine ⟨?_, hs.ordered, fun a ha b hb => ?_⟩
    · exact List.pairwise_of_forall_mem_list fun a ha b hb => Nat.le_of_eq ((hall b hb).trans (hall a ha).symm)
    · have := hall a ha
      have := hs.below b hb
      omega

theorem dropped {frames : Nat} (hi : Inside s m) (hs : s.WellNested)
    (h : Dropped i frames m m') : Inside s m' := by
  obtain ⟨own, hown, hall⟩ := hi.handlers
  obtain ⟨left, hleft, hdrop⟩ := h.handlers
  refine ⟨h.depth.trans hi.depth, ?_⟩
  rw [h.depth]
  rcases List.append_eq_append_iff.mp (hown.symm.trans hleft) with ⟨c, hc, hbelow⟩ | ⟨c, hc, hbelow⟩
  · -- a handler left belongs to the running loop, so it is not one of `s`
    cases c with
    | nil => exact ⟨[], by simpa using hbelow.symm, by simp⟩
    | cons x c =>
      have hx := (hdrop x (hc ▸ List.mem_append_right _ (.head _))).1
      have hx' := hs.below x (hbelow ▸ .head _)
      have hdepth := hi.depth
      omega
  · exact ⟨c, hbelow, fun x hx => hall x (hc ▸ List.mem_append_right _ hx)⟩

theorem replace (hi : Inside s m) (hs : s.WellNested) {h' : Handler}
    (hh : m.handlers = h :: rest) (hd : h.depth = m.depth) (hh' : m'.handlers = h' :: rest) (hd' : h'.depth = h.depth)
    (hdepth : m'.depth = m.depth) : Inside s m' := by
  obtain ⟨own, hown, hall⟩ := hi.tail hs hh hd
  refine ⟨hdepth.trans hi.depth, h' :: own, by rw [hh', hown, List.cons_append], ?_⟩
  rw [hdepth]
  exact List.forall_mem_cons.mpr ⟨hd'.trans hd, hall⟩

theorem stepped (hi : Inside s m) (hs : s.WellNested)
    (h : Stepped i m m') : Inside s m' := by
  cases h with
  | @opens c f =>
    obtain ⟨own, hown, hall⟩ := hi.handlers
    refine ⟨hi.depth, m.opened c f :: own, ?_, List.forall_mem_cons.mpr ⟨rfl, hall⟩⟩
    exact congrArg (List.cons (m.opened c f)) hown
  | drops h => exact hi.dropped hs h
  | completes _ hh ho => exact hi.replace hs hh (owns_iff.mp ho).1 rfl rfl rfl

theorem unwound (he : ∀ e, Heeds isolating (enter e)) (hi : Inside s m) (hs : s.WellNested)
    {f : Fault} (h : Unwound enter f m r) :
    (Law.keeping (Inside s)).Allows m r := by
  have hasked : ∀ {cs : List Fault} {x : Handler} {rest : List Handler} {m₁ : Machine},
      Asked enter f m cs x rest m₁ → Inside s m₁ ∧ m₁.handlers = x :: rest ∧ x.depth = m₁.depth := by
    intro cs x rest m₁ ha
    obtain ⟨hh, hdropped⟩ : m₁.handlers = x :: rest ∧ Dropped none 0 m m₁ := ha.dropped he (hi.wellNested hs)
    exact ⟨hi.dropped hs hdropped, hh, ha.owned.trans hdropped.depth.symm⟩
  cases h with
  | goesOn hpassed _ =>
    have hdropped : Dropped none 0 m _ := hpassed.dropped he (hi.wellNested hs)
    exact fun hi => hi.dropped hs hdropped
  | catches ha =>
    obtain ⟨hi', hh, hd⟩ := hasked ha
    exact fun _ => hi'.replace hs hh hd rfl rfl rfl
  | finishes ha =>
    obtain ⟨hi', hh, hd⟩ := hasked ha
    exact fun _ => hi'.replace hs hh hd rfl rfl rfl
  | outOfFuel => trivial

theorem took (he : ∀ e, Heeds isolating (enter e)) {fuel : Nat} (hi : Inside s m)
    (hs : s.WellNested) (h : Took enter fuel m r) :
    (Law.keeping (Inside s)).Allows m r := by
  cases h with
  | steps htake _ hstepped =>
    have hsame : Dropped none 0 m _ := .calm (taken_handlers htake) (taken_depth htake)
    exact fun hi => (hi.dropped hs hsame).stepped hs hstepped
  | unwinds _ hdropped hsettle hunwound =>
    have hsettled : Dropped none 0 _ _ := settle_dropped hsettle
    have hi' := (hi.dropped hs hdropped).dropped hs hsettled
    exact (hi'.unwound he hs hunwound).trans fun _ => hi'
  | outOfFuel => trivial

theorem left (hi : Inside s m) : isolating.rel s (leaveDispatch s.handlers.length m) := by
  obtain ⟨own, hown, _⟩ := hi.handlers
  constructor
  · show bottomOf s.handlers.length m.handlers = s.handlers
    rw [hown, bottomOf_append]
  · show m.depth - 1 = s.depth
    rw [hi.depth]
    rfl

end Inside

theorem inside_start {s m : Machine} (hh : m.handlers = s.handlers) (hd : m.depth = s.depth + 1) : Inside s m :=
  ⟨hd, [], hh, by simp⟩

/-! ### Nested entries -/

theorem obeys_turn {e₁ e₂ : Enter} (he : ∀ e, Obeys isolating (e₁ e) (e₂ e)) (fuel : Nat) {s : Machine}
    (hs : s.WellNested) : Obeys (.keeping (Inside s)) (turn e₁ fuel) (turn e₂ fuel) := by
  intro m hi
  obtain ⟨heq, htook⟩ := took_turn he fuel (hi.wellNested hs)
  exact ⟨.inl heq, hi.took (fun e => (he e).right) hs htook⟩

theorem obeys_dispatch {x y : Machine → VM Unit} (fuel : Nat)
    (h : ∀ s, s.WellNested → Obeys (.keeping (Inside s)) (x s) (y s)) :
    Obeys isolating (fun s => dispatch (x s) fuel s) (fun s => dispatch (y s) fuel s) := by
  intro s hs
  by_cases hdeep : s.limits.maxLoops < s.depth + 1
  · dsimp only
    rw [dispatch_of_deep _ _ hdeep, dispatch_of_deep _ _ hdeep]
    have hstart : Inside s { s with depth := s.depth + 1 } := inside_start rfl rfl
    exact ⟨.inl rfl, hstart.left⟩
  · have hstart : Inside s (nested s) := inside_start rfl rfl
    obtain ⟨heq, hallows⟩ := (obeys_loop (h s hs) fuel).exact hstart
    dsimp only
    rw [dispatch_of_not_deep _ _ hdeep, dispatch_of_not_deep _ _ hdeep, ← heq]
    refine ⟨.inl rfl, ?_⟩
    generalize loop (x s) fuel (nested s) = r at hallows ⊢
    rcases r with _ | ⟨_ | _, _⟩
    · exact (hallows hstart).left
    · exact (hallows hstart).left
    · trivial

/-- A watch that what is known of loops satisfies. -/
structure Watch.Holds (w : Watch) : Prop where
  entry : ∀ e m, m.WellNested → w.entry e m
  turn : ∀ e s m, s.WellNested → Inside s m → w.turn e s m

section Watched

variable {w : Watch} (hw : w.Holds) (alarm : VM Unit)

include hw

theorem obeys_watchedDispatch {e₁ e₂ : Enter} (he : ∀ e, Obeys isolating (e₁ e) (e₂ e)) (fuel : Nat) (e : Entry) :
    Obeys isolating (watchedDispatch w alarm e₁ fuel e) (dispatch (turn e₂ fuel) fuel) :=
  obeys_dispatch fuel fun s hs => (obeys_turn he fuel hs).check fun m hi => hw.turn e s m hs hi

/-- **Nested entries leave handlers alone, and all that is known of loops holds throughout.** -/
theorem obeys_watched (fuel : Nat) (e : Entry) : Obeys isolating (watched w alarm fuel e) (enter fuel e) := by
  induction fuel generalizing e with
  | zero => exact obeys_outOfFuel
  | succ fuel ih =>
    refine Obeys.check ?_ fun m hm => hw.entry e m hm
    exact (passes_start (fun e => (ih e).when _) (obeys_watchedDispatch hw alarm ih fuel e) fuel e).obeys

end Watched

/-- Handlers are well nested at all times, and every loop stays inside. -/
def isolation : Watch where
  entry _ m := m.WellNested
  turn _ s m := m.WellNested ∧ Inside s m

theorem isolation_holds : isolation.Holds := ⟨fun _ _ hm => hm, fun _ _ _ hs hi => ⟨hi.wellNested hs, hi⟩⟩

theorem obeys_enter (fuel : Nat) (e : Entry) : Heeds isolating (enter fuel e) :=
  (obeys_watched isolation_holds (pure ()) fuel e).right

/-! ### Dispatch loops -/

theorem wellNested_new (limits : Limits) : (Machine.new limits).WellNested := by
  have hh : (Machine.new limits).handlers = [] := by
    unfold Machine.new
    split
    rfl
  exact ⟨by simp [hh], by simp [hh]⟩

theorem halted_of_dispatch {x : VM Unit} {fuel : Nat} {s m : Machine} (h : Ends (dispatch x fuel) s m) :
    m.halted = false := by
  unfold Ends dispatch at h
  generalize loopWithin x fuel { s with depth := s.depth + 1 } = r at h
  rcases r with _ | ⟨_, _⟩ <;> rcases h with ⟨_, h⟩ | ⟨_, h⟩ <;> cases h <;> rfl

/-- **Dispatch loops are isolated from each other.**  Machines start with well nested handlers.  From well nested
handlers, a dispatch loop that ends, with success or a fault, leaves all handlers and the number of loops as they were,
and is not halted.  Throughout, in it and in all loops nested in it, handlers are well nested, and the handlers that
were there at the start of a loop are there unchanged while it runs, below those of its own. -/
theorem dispatch_isolated :
    (∀ limits, (Machine.new limits).WellNested) ∧
      ∀ (fuel : Nat) (s : Machine), s.WellNested →
        (∀ m, Ends (dispatch (turn (enter fuel) fuel) fuel) s m →
          m.handlers = s.handlers ∧ m.depth = s.depth ∧ m.halted = false) ∧
        ∀ (e : Entry) (alarm : VM Unit),
          watchedDispatch isolation alarm (watched isolation alarm fuel) fuel e s =
            dispatch (turn (enter fuel) fuel) fuel s := by
  refine ⟨wellNested_new, fun fuel s hs => ⟨fun m hends => ?_, fun e alarm => ?_⟩⟩
  · have hsame := (obeys_dispatch fuel fun s hs => obeys_turn (obeys_enter fuel) fuel hs).ends hs hends
    exact ⟨hsame.1, hsame.2, halted_of_dispatch hends⟩
  · exact ((obeys_watchedDispatch isolation_holds alarm (obeys_watched isolation_holds alarm fuel) fuel e).exact hs).1

/-- A machine in which a try statement is under way, and no code to run. -/
def withHandler : Machine :=
  let m := Machine.new .default
  { m with handlers := [⟨some 1, some 2, .body, 0, none, 0, m.snapshot⟩] }

/-- A loop nested in the body of that statement fails at once; the handler is not its own, and stays. -/
theorem dispatch_isolated_withHandler :
    ∃ m, Ends (dispatch (turn (enter 2) 2) 2) withHandler m ∧
      m.handlers = withHandler.handlers ∧ m.depth = 0 ∧ m.halted = false := by
  have hs : withHandler.WellNested := ⟨by simp [withHandler, Machine.new], by simp [withHandler, Machine.new]⟩
  have hends : Ends (dispatch (turn (enter 2) 2) 2) withHandler _ := .inr ⟨_, rfl⟩
  exact ⟨_, hends, (dispatch_isolated.2 2 withHandler hs).1 _ hends⟩

end ScriptMachine.VM
