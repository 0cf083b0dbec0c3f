import ScriptMachine.Proofs.Footprint.Instructions

/-!
# Watched runs

To say that something holds throughout a run, the run is compared with one that is watched: before every entry and
before every turn of every dispatch loop, however deeply nested, a condition is tested, and where it fails something
else is done instead.  If the two runs do not differ, whatever is done instead, then the condition never fails.
-/

namespace ScriptMachine.VM

variable {m : Machine} {e₁ e₂ : Enter} {p P : Machine → Prop} {alarm : VM Unit} {L : Law} {m' : Machine} {fuel : Nat}
  {e : Entry}

/-- Conditions to be tested during a run. -/
structure Watch where
  /-- Tested before an entry is carried out. -/
  entry : Entry → Machine → Prop
  /-- Tested before each turn of a dispatch loop: of the entry that the loop is run for, of the state in which the loop
  was started, and of the state now. -/
  turn : Entry → Machine → Machine → Prop

open Classical in
/-- Test a condition, and do something else where it fails. -/
noncomputable def check (p : Machine → Prop) (alarm : VM Unit) : VM Unit := do
  if p (← get) then return () else alarm

/-- A dispatch loop with a test before each turn. -/
noncomputable def watchedDispatch (w : Watch) (alarm : VM Unit) (enter : Enter) (fuel : Nat) (e : Entry) : VM Unit :=
  fun started => dispatch (do check (w.turn e started) alarm; turn enter fuel) fuel started

/-- Carry out an entry under a watch. -/
noncomputable def watched (w : Watch) (alarm : VM Unit) : Nat → Enter
  | 0, _ => outOfFuel
  | fuel + 1, e => do
    check (w.entry e) alarm
    start (watched w alarm fuel) fuel (watchedDispatch w alarm (watched w alarm fuel) fuel e) e

theorem check_of_true (h : p m) : check p alarm m = .ok () m := by
  unfold check
  rw [get_bind, if_pos h]
  rfl

theorem check_of_false (h : ¬ p m) : check p alarm m = alarm m := by
  unfold check
  rw [get_bind, if_neg h]

theorem passed_of_check {x : VM α} {r : EStateM.Result Abort Machine α} (h : (do check p outOfFuel; x) m = r)
    (hr : r ≠ .error .outOfFuel m) : p m ∧ x m = r := by
  by_cases hp : p m
  · exact ⟨hp, (bind_ok (check_of_true hp)).symm.trans h⟩
  · have hstop : check p outOfFuel m = .error .outOfFuel m := check_of_false hp
    exact absurd ((bind_error hstop).symm.trans h) (Ne.symm hr)

section Rules

variable {L : Law} {x y : VM Unit}

theorem Obeys.check {x y : VM α} {p : Machine → Prop} {alarm : VM Unit} (h : Obeys L x y) (hp : ∀ m, L.pre m → p m) :
    Obeys L (do VM.check p alarm; x) y := by
  intro m hm
  rw [bind_ok (check_of_true (hp m hm))]
  exact h m hm

/-- A computation that is stopped where a test fails, compared with one that is tested for something weaker. -/
theorem obeys_checks {d p q : Machine → Prop} {x y : VM α} {stop : VM Unit}
    (h : ObeysWhen L (fun m => d m ∧ p m) x y) (hq : ∀ m, L.pre m → p m → q m)
    (hstop : ∀ m, ∃ s, L.stops s.store ∧ stop m = .error .outOfFuel s) (alarm : VM Unit) :
    ObeysWhen L d (do VM.check p stop; x) (do VM.check q alarm; y) := by
  intro m hm hd
  by_cases hp : p m
  · rw [bind_ok (check_of_true hp), bind_ok (check_of_true (hq m hm hp))]
    exact h m hm ⟨hd, hp⟩
  · obtain ⟨s, hs, herror⟩ := hstop m
    rw [bind_error ((check_of_false hp).trans herror)]
    exact ⟨.inr ⟨s, hs, rfl⟩, trivial⟩

/-! ### Loops -/

theorem obeys_loop (h : Obeys L x y) (n : Nat) : Obeys L (loop x n) (loop y n) := by
  induction n with
  | zero => exact obeys_outOfFuel
  | succ n ih =>
    refine obeys_get.bind fun m => ?_
    split
    · exact obeys_pure _
    · exact h.bind fun _ => ih

theorem loop_of_halted (x : VM Unit) (n : Nat) (h : m.halted = true) : loop x (n + 1) m = .ok () m := by
  rw [loop, get_bind, if_pos h]
  rfl

theorem loop_of_running (x : VM Unit) (n : Nat) (h : m.halted = false) :
    loop x (n + 1) m = (x >>= fun _ => loop x n) m := by
  rw [loop, get_bind, if_neg (by simp [h])]

theorem halted_of_loop {n : Nat} {m' : Machine} (h : loop x n m = .ok () m') : m'.halted = true := by
  induction n generalizing m with
  | zero => cases h
  | succ n ih =>
    cases hhalted : m.halted with
    | true =>
      cases (loop_of_halted x n hhalted).symm.trans h
      exact hhalted
    | false =>
      obtain ⟨_, m₁, _, hrest⟩ := bind_eq_ok.mp ((loop_of_running x n hhalted).symm.trans h)
      exact ih hrest

/-! ### Dispatch -/

/-- The state in which the turns of a dispatch loop start that is started from a state. -/
def nested (m : Machine) : Machine := { m with depth := m.depth + 1, halted := false }

/-- What a dispatch loop started from `m` makes of the result of its turns. -/
def leavingLoop (m : Machine) : EStateM.Result Abort Machine Unit → EStateM.Result Abort Machine Unit
  | .ok a m' => .ok a (leaveDispatch m.handlers.length m')
  | .error e m' => .error e (leaveDispatch m.handlers.length m')

theorem dispatch_eq (x : VM Unit) (fuel : Nat) (m : Machine) :
    dispatch x fuel m = leavingLoop m (loopWithin x fuel { m with depth := m.depth + 1 }) := rfl

theorem dispatch_of_deep (x : VM Unit) (fuel : Nat) (h : m.limits.maxLoops < m.depth + 1) :
    dispatch x fuel m =
      .error (.fault .loopDepth) (leaveDispatch m.handlers.length { m with depth := m.depth + 1 }) := by
  have hloop : loopWithin x fuel { m with depth := m.depth + 1 }
      = .error (.fault .loopDepth) { m with depth := m.depth + 1 } := by
    unfold loopWithin
    exact congrFun (if_pos h) _
  rw [dispatch_eq, hloop]
  rfl

theorem dispatch_of_not_deep (x : VM Unit) (fuel : Nat) (h : ¬ m.limits.maxLoops < m.depth + 1) :
    dispatch x fuel m = leavingLoop m (loop x fuel (nested m)) := by
  have hloop : loopWithin x fuel { m with depth := m.depth + 1 } = loop x fuel (nested m) := by
    unfold loopWithin
    exact congrFun (if_neg h) _
  rw [dispatch_eq, hloop]

theorem dispatch_eq_ok {s : Machine} (h : dispatch x fuel s = .ok () m') :
    ∃ m, loop x fuel (nested s) = .ok () m ∧ m' = leaveDispatch s.handlers.length m := by
  by_cases hdeep : s.limits.maxLoops < s.depth + 1
  · cases (dispatch_of_deep x fuel hdeep).symm.trans h
  · rw [dispatch_of_not_deep _ _ hdeep] at h
    cases hloop : loop x fuel (nested s) with
    | ok _ m =>
      rw [hloop] at h
      cases h
      exact ⟨m, rfl, rfl⟩
    | error =>
      rw [hloop] at h
      cases h

/-- What the turns of a dispatch loop obey, the dispatch obeys, if it may be counted and left. -/
theorem dispatch_of_turns [L.Strict] (hcount : ∀ s depth halted, L.rel s { s with depth, halted })
    (hleave : ∀ m n, L.rel m (leaveDispatch n m)) {x y : Machine → VM Unit} (h : ∀ s, Obeys L (x s) (y s))
    (fuel : Nat) : Obeys L (fun s => dispatch (x s) fuel s) (fun s => dispatch (y s) fuel s) := by
  intro s hs
  dsimp only
  by_cases hdeep : s.limits.maxLoops < s.depth + 1
  · rw [dispatch_of_deep _ _ hdeep, dispatch_of_deep _ _ hdeep]
    exact ⟨.inl rfl, L.weaken (L.trans (hcount s _ _) (hleave _ _))⟩
  · have hstart : L.rel s (nested s) := hcount s _ _
    obtain ⟨hmatches, hallows⟩ := obeys_loop (h s) fuel (nested s) (L.keeps hs hstart)
    rw [dispatch_of_not_deep _ _ hdeep, dispatch_of_not_deep _ _ hdeep]
    constructor
    · rcases hmatches with heq | ⟨m', hstops, hstop⟩
      · rw [heq]
        exact .inl rfl
      · rw [hstop]
        exact .inr ⟨leaveDispatch s.handlers.length m', hstops, rfl⟩
    · generalize loop (x s) fuel (nested s) = r at hallows ⊢
      rcases r with ⟨_, m'⟩ | ⟨_ | _, m'⟩
      · exact L.trans (L.trans hstart hallows) (hleave _ _)
      · exact L.weaken (L.trans (L.trans hstart (Law.Strict.strict hallows)) (hleave _ _))
      · trivial

end Rules

/-! ### Transfers that push no frame -/

theorem lax_settle [L.Store] (f : Fault) : Heeds L (settle f) := by
  refine obeys_self fun m _ => ?_
  obtain ⟨g, σ, hσ, h⟩ := settle_eq_ok f m
  rw [h]
  exact Law.Store.store m hσ

section Easing

variable {L : Law} [L.Easing] [L.Quiet]

theorem lax_startTry (catchOffset finallyOffset : Int) : Heeds L (startTry catchOffset finallyOffset) := by
  refine obeys_regs.bind fun _ => obeys_advance.bind fun _ => obeys_modify fun _ => ?_
  exact Law.Easing.eases rfl rfl rfl rfl (Nat.le_refl _)
    (.of_handlers (List.forall_mem_cons.mpr ⟨.current, fun _ => .handler⟩) .current)

omit [L.Easing] [L.Quiet] in
theorem sees_of_handlers {h : Handler} {rest : List Handler} (hm : m.handlers = h :: rest) :
    ∀ h' ∈ h :: rest, m.Sees h'.snapshot.regs.scope := fun _ hh => .handler (hm ▸ hh)

omit [L.Quiet] in
/-- The innermost handler may go on with another section, or be dropped. -/
theorem rel_of_section {h : Handler} {rest hs : List Handler} {regs : Activation} {stack : OperandStack}
    (hm : m.handlers = h :: rest) (hhs : hs = rest ∨ ∃ h', hs = h' :: rest ∧ h'.snapshot = h.snapshot)
    (hscope : regs.scope = m.regs.scope) : L.rel m { m with handlers := hs, regs, stack } := by
  have hsees := List.forall_mem_cons.mp (sees_of_handlers hm)
  refine Law.Easing.eases rfl rfl rfl rfl (Nat.le_refl _) (.of_handlers ?_ (hscope ▸ .current))
  rcases hhs with rfl | ⟨h', rfl, hsnapshot⟩
  · exact hsees.2
  · exact List.forall_mem_cons.mpr ⟨hsnapshot ▸ hsees.1, hsees.2⟩

theorem lax_halt : Heeds L halt := by
  refine obeys_advance.bind fun _ => obeys_reading fun m => ?_
  split
  case h_1 h rest hm =>
    refine LandsWhen.imp (p := fun m => m.handlers = h :: rest) ?_ fun _ heq => heq ▸ hm
    split
    · unfold endSection
      split
      · exact (modifies_when fun _ hm => rel_of_section hm (.inl rfl) rfl).bind fun _ => obeys_leaveFinally _
      · exact modifies_when fun _ hm => rel_of_section hm (.inr ⟨_, rfl, rfl⟩) rfl
      · exact modifies_when fun _ hm => rel_of_section hm (.inl rfl) rfl
    · exact obeys_endLoop.when _
  · exact obeys_endLoop.when _

theorem lax_ret : Heeds L ret := by
  refine obeys_handBack.bind fun _ => obeys_get.bind fun m => ?_
  refine Obeys.bind (obeys_modify fun _ => ?_) fun _ => obeys_popFrame.bind fun _ => ?_
  · exact Law.Easing.eases rfl rfl rfl rfl (Nat.le_refl _)
      (.of_handlers (fun _ hh => .handler ((List.dropWhile_sublist _).subset hh)) .current)
  · split
    · exact obeys_endLoop
    · exact obeys_pure _

omit [L.Quiet] in
theorem lax_react (h : Handler) (rest : List Handler) (f : Fault) :
    ObeysWhen L (fun m => m.handlers = h :: rest) (react h rest f) (react h rest f) := by
  unfold react
  split <;> refine ObeysWhen.bind (modifies_when fun _ hm => rel_of_section hm ?_ rfl) fun _ => obeys_pure _
  · exact .inr ⟨_, rfl, rfl⟩
  · exact .inr ⟨_, rfl, rfl⟩
  · exact .inl rfl

section Nested

variable [L.Guard] {e₁ e₂ : Enter} (he : ∀ e, ObeysWhen L e.Due (e₁ e) (e₂ e))

include he

omit [L.Quiet] in
theorem lax_rollBack (s : Snapshot) (f : Fault) :
    ObeysWhen L (fun m => m.Sees s.regs.scope) (rollBack e₁ s f) (rollBack e₂ s f) := by
  refine ObeysWhen.bind (modifies_when fun m hs => ?_) fun _ =>
    obeys_dropOpened (fun i => (he (.close i)).now.strict) s f
  refine Law.Easing.eases rfl rfl rfl rfl ?_ (Machine.Looks.advances
    { current := hs, frames := fun _ hr => .frame (List.mem_of_mem_drop hr) })
  show (m.frames.drop _).length ≤ m.frames.length
  rw [List.length_drop]
  exact Nat.sub_le _ _

omit [L.Quiet] in
theorem lax_unwindWithin (n : Nat) (f : Fault) : Obeys L (unwindWithin e₁ n f) (unwindWithin e₂ n f) := by
  induction n generalizing f with
  | zero => exact obeys_raise _
  | succ n ih =>
    refine obeys_reading fun m => ?_
    split
    · exact (obeys_raise _).when _
    case h_2 h rest hm =>
      split
      · refine LandsWhen.imp (p := fun m => m.Sees h.snapshot.regs.scope) ?_ fun _ heq => heq ▸ sees_of_handlers hm h List.mem_cons_self
        refine (lax_rollBack he _ f).bind fun f => obeys_reading fun m => ?_
        split
        · exact (obeys_raise _).when _
        case h_2 h rest hm =>
          refine LandsWhen.imp (p := fun m => m.handlers = h :: rest) ?_ fun _ heq => heq ▸ hm
          refine (lax_react _ _ f).bind fun done => ?_
          split
          · exact obeys_pure _
          · exact ih f
      · exact (obeys_raise _).when _

end Nested

end Easing

/-! ### Laws about loops and iterators only -/

section Lax

variable {L : Law} [L.Lax]

section Nested

variable [L.Guard] {e₁ e₂ : Enter} (he : ∀ e, ObeysWhen L e.Due (e₁ e) (e₂ e))

include he

variable {Q : Machine → Prop} [L.Iterators] [L.Looping] [L.Declaring Q] (fuel : Nat)

theorem lax_execute {m₀ : Machine} (hQ : Q m₀) (i : Instruction) :
    ObeysWhen L (fun m => next? m = some i ∧ takeInterrupt m₀ = .ok () m) (execute e₁ fuel i) (execute e₂ fuel i) := by
  cases hi : i.isTransfer with
  | false => exact obeys_executeNext (fun e _ => he e) hQ fuel hi
  | true =>
    refine Obeys.when ?_ _
    rcases Instruction.transfer_cases hi with rfl | ⟨catchOffset, finallyOffset, rfl⟩ | rfl | hcall
    · exact lax_halt
    · exact lax_startTry _ _
    · exact lax_ret
    · exact (passes_execute he fuel hcall).obeys

theorem lax_step : ObeysWhen L Q (step e₁ fuel) (step e₂ fuel) := by
  intro m₀ hm₀ hQ
  refine (obeys_takeInterrupt.when (m₀ = ·)).seq (q := fun _ m => takeInterrupt m₀ = .ok () m)
    (fun hm h => hm ▸ h) (fun _ m hm ht => ?_) m₀ hm₀ rfl
  rcases fetch_eq m with ⟨i, hi, h⟩ | ⟨f, _, h⟩
  · rw [bind_ok h, bind_ok h]
    exact lax_execute he fuel hQ i m hm ⟨hi, ht⟩
  · rw [bind_error h, bind_error h]
    exact ⟨.inl rfl, L.weaken (L.refl m)⟩

theorem lax_turn : ObeysWhen L Q (turn e₁ fuel) (turn e₂ fuel) := by
  refine (lax_step he fuel).attempt.bind fun r => ?_
  split
  · exact obeys_pure _
  · exact (lax_settle _).bind fun f => obeys_get.bind fun m => lax_unwindWithin he _ f

end Nested

theorem lax_dispatch {x y : Machine → VM Unit} (h : ∀ s, Obeys L (x s) (y s)) (fuel : Nat) :
    Obeys L (fun s => dispatch (x s) fuel s) (fun s => dispatch (y s) fuel s) :=
  dispatch_of_turns (fun _ _ _ => Law.Lax.lax rfl rfl rfl (.of_handlers (fun _ => .handler) .current))
    (fun _ _ => Law.Lax.lax rfl rfl rfl
      (.of_handlers (fun _ hh => .handler (List.mem_of_mem_drop hh)) .current)) h fuel

end Lax

/-! ### Two watches -/

/-- The watch that tests nothing. -/
def Watch.idle : Watch where
  entry _ _ := True
  turn _ _ _ := True

theorem check_idle (alarm : VM Unit) (x : VM α) : (do check (fun _ => True) alarm; x) = x :=
  funext fun _ => bind_ok (check_of_true trivial)

theorem watched_idle (alarm : VM Unit) (fuel : Nat) : watched .idle alarm fuel = enter fuel := by
  induction fuel with
  | zero => rfl
  | succ fuel ih =>
    funext e
    have hdispatch : watchedDispatch .idle alarm (enter fuel) fuel e = dispatch (turn (enter fuel) fuel) fuel :=
      funext fun s => congrArg (fun x => dispatch x fuel s) (check_idle alarm _)
    unfold watched enter
    rw [ih, hdispatch]
    exact check_idle alarm _

/-- Under a law, the tests of one watch make no other difference than those of another one, and let turns start only
where a condition is met. -/
structure Watch.Agrees (L : Law) (Q : Machine → Prop) (w : Watch) (alarm : VM Unit) (w' : Watch) (alarm' : VM Unit) :
    Prop where
  entry : ∀ e {x y : VM Value}, ObeysWhen L e.Due x y →
    ObeysWhen L e.Due (do check (w.entry e) alarm; x) (do check (w'.entry e) alarm'; y)
  turn : ∀ e s {x y : VM Unit}, ObeysWhen L Q x y →
    Obeys L (do check (w.turn e s) alarm; x) (do check (w'.turn e s) alarm'; y)

section Watched

variable {L : Law} {Q : Machine → Prop} [L.Lax] [L.Guard] [L.Iterators] [L.Looping] [L.Declaring Q] {w w' : Watch}
  {alarm alarm' : VM Unit} (h : w.Agrees L Q alarm w' alarm')

include h

theorem lax_watchedDispatch (he : ∀ e, ObeysWhen L e.Due (e₁ e) (e₂ e)) (fuel : Nat) (e : Entry) :
    Obeys L (watchedDispatch w alarm e₁ fuel e) (watchedDispatch w' alarm' e₂ fuel e) :=
  lax_dispatch (fun s => h.turn e s (lax_turn he fuel)) fuel

/-- **Laws about loops and iterators only are obeyed by every run**, if instructions about loops obey them. -/
theorem lax_watched (fuel : Nat) (e : Entry) :
    ObeysWhen L e.Due (watched w alarm fuel e) (watched w' alarm' fuel e) := by
  induction fuel generalizing e with
  | zero => exact obeys_outOfFuel.when _
  | succ fuel ih =>
    refine h.entry e (Obeys.when ?_ _)
    exact (passes_start ih (lax_watchedDispatch h ih fuel e) fuel e).obeys

end Watched

theorem lax_enter [L.Lax] [L.Guard] [L.Iterators] [L.Looping] [L.Declaring fun _ => True] (fuel : Nat) (e : Entry) :
    ObeysWhen L e.Due (enter fuel e) (enter fuel e) := by
  have hagrees : Watch.idle.Agrees L (fun _ => True) (pure ()) .idle (pure ()) := by
    refine ⟨fun e x y h => ?_, fun e s x y h => ?_⟩
    · exact (check_idle (pure ()) x).symm ▸ (check_idle (pure ()) y).symm ▸ h
    · exact (check_idle (pure ()) x).symm ▸ (check_idle (pure ()) y).symm ▸ h.now
  rw [← watched_idle (pure ()) fuel]
  exact lax_watched hagrees fuel e

/-! ### Stopping -/

/-- The law that allows everything, and the first of two computations to be stopped. -/
def following : Law where
  pre _ := True
  rel _ _ := True
  fail _ _ := True
  stops _ := True
  refl _ := trivial
  trans _ _ := trivial
  keeps _ _ := trivial
  weaken _ := trivial
  trans_fail _ _ := trivial

instance : following.Lax where
  strict _ := trivial
  lax _ _ _ _ := trivial

instance : following.Calm where
  strict _ := trivial
  calm _ _ _ := trivial

theorem Obeys.eq_of_following {x y : VM α} (h : Obeys following x y) {r : EStateM.Result Abort Machine α} (hx : x m = r)
    (hr : ∀ m', r ≠ .error .outOfFuel m') : y m = r := by
  rcases (h m trivial).1 with heq | ⟨m', _, hstop⟩
  · exact heq.symm.trans hx
  · exact absurd (hx.symm.trans hstop) (hr m')

theorem Obeys.ok_of_following {x y : VM α} (h : Obeys following x y) {a : α} (hx : x m = .ok a m') :
    y m = .ok a m' := h.eq_of_following hx fun _ hstop => nomatch hstop

theorem Obeys.fault_of_following {x y : VM α} (h : Obeys following x y) {f : Fault}
    (hx : x m = .error (.fault f) m') : y m = .error (.fault f) m' := h.eq_of_following hx fun _ hstop => nomatch hstop

theorem follows_self (x : VM α) : Heeds following x := by
  refine obeys_self fun m _ => ?_
  rcases x m with _ | ⟨_ | _, _⟩ <;> trivial

theorem follows_checks {d : Machine → Prop} {x y : VM α} (h : ObeysWhen following d x y) {q : Machine → Prop}
    (hpq : ∀ m, p m → q m) (alarm : VM Unit) :
    ObeysWhen following d (do VM.check p outOfFuel; x) (do VM.check q alarm; y) :=
  obeys_checks (h.imp fun _ hm => hm.1) (fun m _ => hpq m) (fun m => ⟨m, trivial, rfl⟩) alarm

theorem follows_check {x y : VM α} (h : Obeys following x y) (p : Machine → Prop) :
    Obeys following (do VM.check p outOfFuel; x) y := by
  have hchecks := (follows_checks (h.when fun _ => True) (p := p) (fun _ _ => trivial) outOfFuel).now
  rwa [check_idle] at hchecks

theorem follows_step (he : ∀ e, Obeys following (e₁ e) (e₂ e)) (fuel : Nat) :
    Obeys following (step e₁ fuel) (step e₂ fuel) := (lax_step (fun e => (he e).when _) fuel).now

theorem follows_turn (he : ∀ e, Obeys following (e₁ e) (e₂ e)) (fuel : Nat) :
    Obeys following (turn e₁ fuel) (turn e₂ fuel) := (lax_turn (fun e => (he e).when _) fuel).now

section Weaker

variable {w w' : Watch} (hentry : ∀ e m, w.entry e m → w'.entry e m) (hturn : ∀ e s m, w.turn e s m → w'.turn e s m)
  (alarm : VM Unit)

include hentry hturn

theorem Watch.agrees_of_weaker : w.Agrees following (fun _ => True) outOfFuel w' alarm where
  entry e _ _ h := follows_checks h (hentry e) alarm
  turn e s _ _ h := (follows_checks h (hturn e s) alarm).now

theorem follows_weaker (fuel : Nat) (e : Entry) :
    Obeys following (watched w outOfFuel fuel e) (watched w' alarm fuel e) := by
  have hagrees := Watch.agrees_of_weaker hentry hturn alarm
  cases fuel with
  | zero => exact obeys_outOfFuel
  | succ fuel =>
    have hentries := lax_watched hagrees fuel
    have hstart := (passes_start hentries (lax_watchedDispatch hagrees hentries fuel e) fuel e).obeys
    exact (follows_checks (hstart.when fun _ => True) (hentry e) alarm).now

end Weaker

theorem follows_watchedDispatch (w : Watch) (he : ∀ e, Obeys following (e₁ e) (e₂ e)) (fuel : Nat) (e : Entry) :
    Obeys following (watchedDispatch w outOfFuel e₁ fuel e) (dispatch (turn e₂ fuel) fuel) :=
  lax_dispatch (fun s => follows_check (follows_turn he fuel) (w.turn e s)) fuel

/-- **A run that is stopped where a test fails follows the run that is not watched.** -/
theorem follows_watched (w : Watch) (fuel : Nat) (e : Entry) :
    Obeys following (watched w outOfFuel fuel e) (enter fuel e) := by
  rw [← watched_idle outOfFuel]
  exact follows_weaker (fun _ _ _ => trivial) (fun _ _ _ _ => trivial) outOfFuel fuel e

/-! ### Tests that can be run -/

/-- Conditions to be computed during a run. -/
structure Test where
  entry : Entry → Machine → Bool
  turn : Entry → Machine → Machine → Bool

def Test.watch (t : Test) : Watch where
  entry e m := t.entry e m = true
  turn e s m := t.turn e s m = true

/-- Go on if a test succeeds. -/
def ensure (p : Machine → Bool) : VM Unit := do
  if p (← get) then return () else outOfFuel

/-- Carry out an entry, and stop where a test fails. -/
def tested (t : Test) : Nat → Enter
  | 0, _ => outOfFuel
  | fuel + 1, e => do
    ensure (t.entry e)
    start (tested t fuel) fuel (fun s => dispatch (do ensure (t.turn e s); turn (tested t fuel) fuel) fuel s) e

theorem check_eq_ensure (p : Machine → Bool) : check (fun m => p m = true) outOfFuel = ensure p := by
  funext m
  have hensure : ensure p m = (if p m then return () else outOfFuel) m := rfl
  by_cases hp : p m = true
  · rw [check_of_true hp, hensure, if_pos hp]
    rfl
  · rw [check_of_false hp, hensure, if_neg hp]

theorem watched_test (t : Test) (fuel : Nat) : watched t.watch outOfFuel fuel = tested t fuel := by
  induction fuel with
  | zero => rfl
  | succ fuel ih =>
    funext e
    have hdispatch : watchedDispatch t.watch outOfFuel (tested t fuel) fuel e =
        fun s => dispatch (do ensure (t.turn e s); turn (tested t fuel) fuel) fuel s :=
      funext fun s => congrArg (fun c => dispatch (do c; turn (tested t fuel) fuel) fuel s) (check_eq_ensure _)
    have hentry : check (t.watch.entry e) outOfFuel = ensure (t.entry e) := check_eq_ensure _
    unfold watched tested
    rw [ih, hdispatch, hentry]

theorem follows_tested {t : Test} {w : Watch} (hentry : ∀ e m, t.entry e m = true → w.entry e m)
    (hturn : ∀ e s m, t.turn e s m = true → w.turn e s m) (fuel : Nat) (e : Entry) :
    Obeys following (tested t fuel e) (watched w outOfFuel fuel e) := by
  rw [← watched_test]
  exact follows_weaker hentry hturn outOfFuel fuel e

/-- Whether a computation ended with a value, in a state that passes a test. -/
def passes (p : Machine → Bool) : EStateM.Result Abort Machine α → Bool
  | .ok _ m => p m
  | .error _ _ => false

theorem exists_of_passes {p : Machine → Bool} {r : EStateM.Result Abort Machine α} (h : passes p r = true) :
    ∃ a m, r = .ok a m ∧ p m = true := by
  cases r with
  | ok a m => exact ⟨a, m, rfl, h⟩
  | error e m => cases h

/-- Whether a computation has ended, with a value or a fault. -/
def ended? : EStateM.Result Abort Machine α → Bool
  | .error .outOfFuel _ => false
  | _ => true

theorem exists_of_ended {x : VM α} (h : ended? (x m) = true) : ∃ m', Ends x m m' := by
  rcases hx : x m with ⟨a, m'⟩ | ⟨f | _, m'⟩
  · exact ⟨m', .inl ⟨a, hx⟩⟩
  · exact ⟨m', .inr ⟨f, hx⟩⟩
  · rw [hx] at h
    cases h

theorem Obeys.eq_of_ended {x y : VM α} (hx : Obeys following x y) (h : ended? (x m) = true) : y m = x m := by
  refine hx.eq_of_following rfl fun m' hstop => ?_
  rw [hstop] at h
  cases h

/-! ### Conditions that hold throughout -/

/-- The watch that tests one condition everywhere. -/
def Watch.always (P : Machine → Prop) : Watch where
  entry _ m := P m
  turn _ _ m := P m

/-- Tests succeed before every entry and every turn of a run, those of nested entries included: whatever were done where
one fails, the run would be the same. -/
def Silent (w : Watch) (fuel : Nat) (e : Entry) (m : Machine) : Prop :=
  ∀ alarm, watched w alarm fuel e m = enter fuel e m

/-- A condition holds before every entry and every turn of a run, those of nested entries included: whatever were done
where it fails, the run would be the same. -/
def Throughout (P : Machine → Prop) (fuel : Nat) (e : Entry) (m : Machine) : Prop :=
  ∀ alarm, watched (.always P) alarm fuel e m = enter fuel e m

theorem silent_of_tested {t : Test} {w : Watch} (hentry : ∀ e m, t.entry e m = true → w.entry e m)
    (hturn : ∀ e s m, t.turn e s m = true → w.turn e s m) (h : ended? (tested t fuel e m) = true) :
    Silent w fuel e m := by
  intro alarm
  rw [← watched_test] at h
  rw [(follows_weaker hentry hturn alarm fuel e).eq_of_ended h, (follows_watched t.watch fuel e).eq_of_ended h]

/-- A run that passes a test before every entry and every turn, and ends. -/
theorem throughout_of_tested {p : Machine → Bool} (hp : ∀ m, p m = true → P m)
    (h : ended? (tested ⟨fun _ => p, fun _ _ => p⟩ fuel e m) = true) :
    Throughout P fuel e m := silent_of_tested (w := .always P) (fun _ => hp) (fun _ _ => hp) h

/-- Tests that a law lets succeed make no difference. -/
theorem agrees_idle {w : Watch} (hentry : ∀ e m, L.pre m → e.Due m → w.entry e m)
    (hturn : ∀ e s m, L.pre m → w.turn e s m) (alarm : VM Unit) : w.Agrees L (fun _ => True) alarm .idle alarm where
  entry e x y h := by
    intro m hm hdue
    have hidle : check (Watch.idle.entry e) alarm m = .ok () m := check_of_true trivial
    rw [bind_ok (check_of_true (hentry e m hm hdue)), bind_ok hidle]
    exact h m hm hdue
  turn e s x y h := by
    have hidle : (do check (Watch.idle.turn e s) alarm; y) = y := check_idle alarm y
    rw [hidle]
    exact h.now.check (hturn e s)

theorem throughout_of_law [L.Lax] [L.Guard] [L.Iterators] [L.Looping] [L.Declaring fun _ => True] [L.Exact]
    (hP : ∀ m, L.pre m → P m) (hm : L.pre m) (hdue : e.Due m) :
    Throughout P fuel e m := by
  intro alarm
  obtain ⟨heq | ⟨_, hstops, _⟩, _⟩ := lax_watched (agrees_idle (w := .always P) (fun _ m hm _ => hP m hm)
    (fun _ _ => hP) alarm) fuel e m hm hdue
  · rw [heq, watched_idle]
  · exact absurd hstops (Law.Exact.exact _)

/-! ### Conditions that follow from others -/

/-- Give up in a given state. -/
def stopAt (s : Machine) : VM Unit := fun _ => .error .outOfFuel s

theorem log_ne (σ : Store) : σ ≠ σ.log [""] := by
  intro h
  have hsize : σ.journal.size = (σ.journal ++ #[""]).size := congrArg (fun τ : Store => τ.journal.size) h
  simp at hsize

theorem exists_other_store (r : EStateM.Result Abort Machine α) :
    ∃ s : Machine, ∀ m, r = .error .outOfFuel m → m.store ≠ s.store := by
  cases r with
  | ok a m => exact ⟨m, fun m' h => by cases h⟩
  | error e m =>
    refine ⟨{ m with store := m.store.log [""] }, fun m' h => ?_⟩
    cases h
    exact log_ne m.store

/-- If a run that is stopped where one watch finds a failure goes the same way as one under another watch, wherever it is
stopped, then the second watch finds none if the first does not. -/
theorem silent_of_stopped {L : Law} {w v : Watch}
    (h : ∀ (stops : Store → Prop) (s : Machine), stops s.store → ∀ alarm, ObeysWhen { L with stops } p
      (watched w (stopAt s) fuel e) (watched v alarm fuel e))
    (hm : L.pre m) (hp : p m) (hw : Silent w fuel e m) : Silent v fuel e m ∧ L.Allows m (enter fuel e m) := by
  obtain ⟨s, hs⟩ := exists_other_store (enter fuel e m)
  have hrun := fun alarm => h (· = s.store) s rfl alarm m hm hp
  constructor
  · intro alarm
    rcases (hrun alarm).1 with heq | ⟨m', hstore, hstop⟩
    · exact heq.symm.trans (hw _)
    · exact absurd hstore (hs m' ((hw _).symm.trans hstop))
  · have hallows := (hrun (pure ())).2
    rwa [hw] at hallows

end ScriptMachine.VM
