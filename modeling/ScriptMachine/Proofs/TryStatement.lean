import Mathlib.Logic.ExistsUnique
import ScriptMachine.Proofs.Isolation

/-!
# A try statement as a state machine

A try statement under way is known by the position of its handler on the stack, counted from the bottom.  Its section
changes from body to catch section, from body to finally section and from catch section to finally section only.

Main result: `try_sections`.
-/

namespace ScriptMachine

variable {t : Nat} {m m' : Machine} {h h' : Handler}

def TryPart.rank : TryPart → Nat
  | .body => 0
  | .catching => 1
  | .finishing => 2

theorem TryPart.rank_injective {a b : TryPart} (h : a.rank = b.rank) : a = b := by
  cases a <;> cases b <;> first | rfl | cases h

namespace VM

/-! ### Positions -/

/-- The handler at a position, counted from the bottom. -/
def handlerAt (m : Machine) (p : Nat) : Option Handler := m.handlers.reverse[p]?

section Positions

variable {m m' : Machine} {left rest : List Handler} {h : Handler} {p : Nat}

theorem handlerAt_eq_none : handlerAt m p = none ↔ m.handlers.length ≤ p := by
  simp [handlerAt]

theorem lt_of_handlerAt (hp : handlerAt m p = some h) : p < m.handlers.length := by
  have hlt := (List.getElem?_eq_some_iff.mp hp).1
  simpa using hlt

theorem handlerAt_of_lt (hh : m.handlers = left ++ m'.handlers) (hp : p < m'.handlers.length) :
    handlerAt m p = handlerAt m' p := by
  unfold handlerAt
  rw [hh, List.reverse_append, List.getElem?_append_left (by simpa using hp)]

theorem mem_of_handlerAt (hh : m.handlers = left ++ rest) (hp : handlerAt m p = some h) (hlt : rest.length ≤ p) :
    h ∈ left := by
  unfold handlerAt at hp
  rw [hh, List.reverse_append, List.getElem?_append_right (by simpa using hlt)] at hp
  exact List.mem_reverse.mp (List.mem_of_getElem? hp)

theorem handlerAt_cons (hh : m.handlers = h :: rest) (p : Nat) :
    handlerAt m p = if p = rest.length then some h else rest.reverse[p]? := by
  unfold handlerAt
  rw [hh, List.reverse_cons]
  split
  case isTrue hp => simp [hp]
  case isFalse hp =>
    rcases Nat.lt_or_gt_of_ne hp with hlt | hgt
    · rw [List.getElem?_append_left (by simpa using hlt)]
    · have hlen : rest.reverse.length < p := by simpa using hgt
      rw [List.getElem?_eq_none (by simp only [List.length_append, List.length_singleton]; omega),
        List.getElem?_eq_none (Nat.le_of_lt hlen)]

end Positions

/-! ### One turn -/

/-- What may become of a handler in a turn from `m` to `m'`. -/
inductive Moved (enter : Enter) (fuel : Nat) (m m' : Machine) (h : Handler) : Handler → Prop where
  | stays : Moved enter fuel m m' h h
  /-- From the body to the catch section: the turn has failed, and going back to the start of the body, with all
  iterators closed that were opened since, has left a thrown value.  The catch section gets this value. -/
  | catches {f g : Fault} {m₁ m₂ m₃ : Machine} {cs : List Fault} {rest : List Handler} {e : Exception} {pc : Nat} :
      step enter fuel m = .error (.fault f) m₁ → settle f m₁ = .ok g m₂ → Asked enter g m₂ cs h rest m₃ →
      h.part = .body → h.catchPc = some pc → after g cs = .thrown e →
      m' = { m₃ with
        handlers := { h with part := .catching } :: rest, regs := { m₃.regs with pc }
        stack := m₃.stack.push e.value } →
      Moved enter fuel m m' h { h with part := .catching }
  /-- From the body or the catch section to the finally section, because the section has ended. -/
  | completes {pc : Nat} :
      step enter fuel m = .ok () m' → next? m = some .halt → owns m h = true → h.part ≠ .finishing →
      h.finallyPc = some pc → m'.regs = { m.regs with pc } →
      Moved enter fuel m m' h { h with part := .finishing, resume := m.regs.pc + 1 }
  /-- From the body or the catch section to the finally section, because of a fault that is not caught.  It waits for
  the end of the section. -/
  | finishes {f g : Fault} {m₁ m₂ m₃ : Machine} {cs : List Fault} {rest : List Handler} {pc : Nat} :
      step enter fuel m = .error (.fault f) m₁ → settle f m₁ = .ok g m₂ → Asked enter g m₂ cs h rest m₃ →
      Reaction.of h (after g cs) = .finishing pc →
      m' = { m₃ with
        handlers := { h with part := .finishing, pending := some (after g cs) } :: rest
        regs := { m₃.regs with pc } } →
      Moved enter fuel m m' h { h with part := .finishing, pending := some (after g cs) }

/-- What a turn that succeeds or fails with a fault does to the stack of handlers. -/
inductive Turned (enter : Enter) (fuel : Nat) (m m' : Machine) : Prop where
  | opens {catchOffset finallyOffset : Int} :
      next? m = some (.guard catchOffset finallyOffset) →
      m'.handlers = m.opened catchOffset finallyOffset :: m.handlers → m'.depth = m.depth → Turned enter fuel m m'
  | drops : Dropped (next? m) m.frames.length m m' → Turned enter fuel m m'
  /-- A section of the innermost statement that is not left is started. -/
  | enters {m₁ : Machine} {h h' : Handler} {rest : List Handler} :
      Dropped (next? m) m.frames.length m m₁ → m₁.handlers = h :: rest → h.depth = m₁.depth →
      m'.handlers = h' :: rest → m'.depth = m₁.depth → Moved enter fuel m m' h h' → Turned enter fuel m m'

/-- What a turn may end with. -/
def Turns (enter : Enter) (fuel : Nat) (m : Machine) : EStateM.Result Abort Machine Unit → Prop
  | .ok _ m' | .error (.fault _) m' => Turned enter fuel m m'
  | .error .outOfFuel _ => True

section Turn

variable {enter : Enter} {fuel : Nat} {i : Option Instruction} {frames : Nat} {m m' : Machine} {p : Nat}
  {h h' : Handler}

theorem Moved.depth_eq (hm : Moved enter fuel m m' h h') : h'.depth = h.depth := by
  cases hm <;> rfl

theorem Turned.wellNested (ht : Turned enter fuel m m') (hm : m.WellNested) : m'.WellNested := by
  cases ht with
  | opens _ hh hd => exact hm.cons hh hd rfl
  | drops hd => exact hd.wellNested hm
  | enters hdropped hh hdepth hh' hd hmoved =>
    exact (hdropped.wellNested hm).replace hh hh' hd (hmoved.depth_eq.trans hdepth)

theorem Took.turned (he : ∀ e, Heeds isolating (enter e)) (hm : m.WellNested)
    {r : EStateM.Result Abort Machine Unit} (ht : Took enter fuel m r) : Turns enter fuel m r := by
  cases ht with
  | @steps m₁ m' htake hstep hstepped =>
    have htaken : Dropped (next? m) m.frames.length m m₁ := .calm (taken_handlers htake) (taken_depth htake)
    cases hstepped with
    | @opens c f hi =>
      rcases takeInterrupt_ok htake with rfl | ⟨lines, rfl⟩ <;> exact .opens hi rfl rfl
    | drops hd => exact .drops (htaken.trans (taken_frames htake ▸ hd))
    | completes hi hh ho hpart hfin =>
      have hregs := taken_regs htake
      have howned := owns_iff.mp ho
      rw [taken_depth htake, taken_frames htake] at howned
      refine .enters htaken hh (owns_iff.mp ho).1 rfl rfl ?_
      rw [hregs]
      exact .completes (by rw [hstep, hregs]) hi (owns_iff.mpr howned) hpart hfin rfl
  | @unwinds f g m₁ m₂ _ hstep hdropped hsettle hunwound =>
    have hd : Dropped (next? m) m.frames.length m m₂ := hdropped.trans (settle_dropped hsettle)
    have hm₂ : m₂.WellNested := hd.wellNested hm
    cases hunwound with
    | goesOn hpassed _ => exact .drops (hd.trans (hpassed.dropped he hm₂))
    | catches ha hr =>
      obtain ⟨hh, hd'⟩ := ha.dropped he hm₂
      obtain ⟨hpart, hcatch, e, hthrown, rfl⟩ := Reaction.of_eq_catching hr
      exact .enters (hd.trans hd') hh (ha.owned.trans hd'.depth.symm) rfl rfl
        (.catches hstep hsettle ha hpart hcatch hthrown rfl)
    | finishes ha hr =>
      obtain ⟨hh, hd'⟩ := ha.dropped he hm₂
      exact .enters (hd.trans hd') hh (ha.owned.trans hd'.depth.symm) rfl rfl (.finishes hstep hsettle ha hr rfl)
    | outOfFuel => trivial
  | outOfFuel => trivial

theorem Dropped.handlerAt_eq (hd : Dropped i frames m m') (hp : handlerAt m' p = some h) : handlerAt m p = some h := by
  obtain ⟨left, hleft, _⟩ := hd.handlers
  rw [handlerAt_of_lt hleft (lt_of_handlerAt hp), hp]

theorem Dropped.leaves (hd : Dropped i frames m m') (hp : handlerAt m p = some h) (hp' : handlerAt m' p = none) :
    h.depth = m.depth ∧ Leavable i frames h := by
  obtain ⟨left, hleft, hall⟩ := hd.handlers
  exact hall h (mem_of_handlerAt hleft hp (handlerAt_eq_none.mp hp'))

theorem Turned.moved (ht : Turned enter fuel m m') (hp : handlerAt m p = some h) (hp' : handlerAt m' p = some h') :
    Moved enter fuel m m' h h' := by
  cases ht with
  | @opens c f _ hh =>
    have hlt := lt_of_handlerAt hp
    rw [handlerAt_of_lt (show m'.handlers = [m.opened c f] ++ m.handlers from hh) hlt, hp] at hp'
    cases hp'
    exact .stays
  | drops hd =>
    rw [hd.handlerAt_eq hp'] at hp
    cases hp
    exact .stays
  | @enters m₁ x x' rest hd hh _ hh' _ hmoved =>
    rw [handlerAt_cons hh'] at hp'
    split at hp'
    case isTrue hlast =>
      have hx : handlerAt m₁ p = some x := by rw [handlerAt_cons hh, if_pos hlast]
      rw [hd.handlerAt_eq hx] at hp
      cases hp
      cases hp'
      exact hmoved
    case isFalse hlast =>
      have hx : handlerAt m₁ p = some h' := by rw [handlerAt_cons hh, if_neg hlast, hp']
      rw [hd.handlerAt_eq hx] at hp
      cases hp
      exact .stays

theorem Turned.leaves (ht : Turned enter fuel m m') (hp : handlerAt m p = some h) (hp' : handlerAt m' p = none) :
    h.depth = m.depth ∧ Leavable (next? m) m.frames.length h := by
  cases ht with
  | opens _ hh =>
    have hlt := lt_of_handlerAt hp
    have hle := handlerAt_eq_none.mp hp'
    rw [hh, List.length_cons] at hle
    omega
  | drops hd => exact hd.leaves hp hp'
  | @enters m₁ x x' rest hd hh _ hh' =>
    have hle := handlerAt_eq_none.mp hp'
    have hnone : handlerAt m₁ p = none := by
      rw [handlerAt_eq_none, hh]
      rwa [hh'] at hle
    exact hd.leaves hp hnone

theorem Turned.opened (ht : Turned enter fuel m m') (hp : handlerAt m p = none) (hp' : handlerAt m' p = some h') :
    ∃ catchOffset finallyOffset, next? m = some (.guard catchOffset finallyOffset) ∧
      h' = m.opened catchOffset finallyOffset := by
  have hle := handlerAt_eq_none.mp hp
  have hlt := lt_of_handlerAt hp'
  cases ht with
  | @opens c f hi hh =>
    rw [handlerAt_cons hh] at hp'
    split at hp'
    · cases hp'
      exact ⟨c, f, hi, rfl⟩
    · rw [List.getElem?_eq_none (by simpa using hle)] at hp'
      cases hp'
  | drops hd =>
    rw [hd.handlerAt_eq hp'] at hp
    cases hp
  | @enters m₁ x x' rest hd hh _ hh' =>
    obtain ⟨left, hleft, _⟩ := hd.handlers
    rw [hleft, List.length_append, hh, List.length_cons] at hle
    rw [hh', List.length_cons] at hlt
    omega

end Turn

/-! ### Histories -/

/-- The states between the first `k` turns of a dispatch loop.  The last turn may have failed. -/
def History (x : VM Unit) (ms : Nat → Machine) (k : Nat) : Prop :=
  ∀ t < k, (ms t).halted = false ∧
    (x (ms t) = .ok () (ms (t + 1)) ∨ t + 1 = k ∧ ∃ f, x (ms t) = .error (.fault f) (ms (t + 1)))

section History

variable {x : VM Unit} {k : Nat} {ms : Nat → Machine}

theorem History.ends (H : History x ms k) (ht : t < k) : Ends x (ms t) (ms (t + 1)) :=
  (H t ht).2.imp (fun h => ⟨(), h⟩) And.right

theorem History.cons (H : History x ms k) (hhalted : m.halted = false) (hturn : x m = .ok () (ms 0)) :
    History x (fun t => if t = 0 then m else ms (t - 1)) (k + 1) := by
  intro t ht
  cases t with
  | zero => exact ⟨hhalted, .inl hturn⟩
  | succ t =>
    obtain ⟨hhalted, hnext⟩ := H t (by omega)
    exact ⟨hhalted, hnext.imp id fun ⟨hk, hf⟩ => ⟨by omega, hf⟩⟩

theorem history_of_loop {n : Nat} (h : Ends (loop x n) m m') : ∃ ms k, History x ms k ∧ ms 0 = m ∧ ms k = m' := by
  induction n generalizing m with
  | zero => rcases h with ⟨_, h⟩ | ⟨_, h⟩ <;> cases h
  | succ n ih =>
    cases hhalted : m.halted with
    | true =>
      refine ⟨fun _ => m, 0, fun t ht => absurd ht (Nat.not_lt_zero t), rfl, ?_⟩
      rcases h with ⟨_, h⟩ | ⟨_, h⟩ <;> cases (loop_of_halted x n hhalted).symm.trans h
      rfl
    | false =>
      have hloop := loop_of_running x n hhalted
      rcases hturn : x m with ⟨⟨⟩, m₁⟩ | ⟨e, m₁⟩
      · rw [bind_ok hturn] at hloop
        have hrest : Ends (loop x n) m₁ m' := by
          rcases h with ⟨a, h⟩ | ⟨f, h⟩
          · exact .inl ⟨a, hloop.symm.trans h⟩
          · exact .inr ⟨f, hloop.symm.trans h⟩
        obtain ⟨ms, k, H, h0, hk⟩ := ih hrest
        exact ⟨_, k + 1, H.cons hhalted (h0 ▸ hturn), rfl, hk⟩
      · rw [bind_error hturn] at hloop
        rcases h with ⟨_, h⟩ | ⟨f, h⟩ <;> cases hloop.symm.trans h
        refine ⟨fun t => if t = 0 then m else m', 1, fun t ht => ?_, rfl, rfl⟩
        obtain rfl : t = 0 := by omega
        exact ⟨hhalted, .inr ⟨rfl, f, hturn⟩⟩

end History

section Turns

variable {enter : Enter} (he : ∀ e, Heeds isolating (enter e)) {fuel k : Nat} {ms : Nat → Machine}
  (h0 : (ms 0).WellNested)

include he

theorem turned_of_turn (hm : m.WellNested) (h : Ends (turn enter fuel) m m') : Turned enter fuel m m' := by
  have hturns := (took_turn he fuel hm).2.turned he hm
  rcases h with ⟨_, h⟩ | ⟨f, h⟩ <;> rw [h] at hturns <;> exact hturns

include h0

theorem History.wellNested (H : History (turn enter fuel) ms k) (ht : t ≤ k) : (ms t).WellNested := by
  induction t with
  | zero => exact h0
  | succ t ih =>
    have hm := ih (by omega)
    exact (turned_of_turn he hm (H.ends ht)).wellNested hm

theorem History.turned (H : History (turn enter fuel) ms k) (ht : t < k) : Turned enter fuel (ms t) (ms (t + 1)) :=
  turned_of_turn he (H.wellNested he h0 (Nat.le_of_lt ht)) (H.ends ht)

end Turns

/-! ### Lives -/

/-- What a handler keeps for life, and how far it has come. -/
structure Later (h h' : Handler) : Prop where
  catchPc : h'.catchPc = h.catchPc
  finallyPc : h'.finallyPc = h.finallyPc
  depth : h'.depth = h.depth
  snapshot : h'.snapshot = h.snapshot
  part : h.part.rank ≤ h'.part.rank

theorem Later.refl (h : Handler) : Later h h := ⟨rfl, rfl, rfl, rfl, Nat.le_refl _⟩

theorem Later.trans {a b c : Handler} (h : Later a b) (h' : Later b c) : Later a c :=
  ⟨h'.catchPc.trans h.catchPc, h'.finallyPc.trans h.finallyPc, h'.depth.trans h.depth, h'.snapshot.trans h.snapshot,
    Nat.le_trans h.part h'.part⟩

theorem Moved.later {enter : Enter} {fuel : Nat} (hm : Moved enter fuel m m' h h') : Later h h' := by
  cases hm with
  | stays => exact .refl h
  | catches _ _ _ hpart => exact ⟨rfl, rfl, rfl, rfl, by simp [hpart, TryPart.rank]⟩
  | completes | finishes => exact ⟨rfl, rfl, rfl, rfl, by cases h.part <;> simp [TryPart.rank]⟩

/-- There is a handler at position `p` at all times from `a` to `b`. -/
def Alive (ms : Nat → Machine) (p a b : Nat) : Prop := ∀ t, a ≤ t → t ≤ b → (handlerAt (ms t) p).isSome

/-- The handler at position `p` enters a section in turn `t`. -/
def Enters (ms : Nat → Machine) (p : Nat) (part : TryPart) (t : Nat) : Prop :=
  ∃ h h', handlerAt (ms t) p = some h ∧ handlerAt (ms (t + 1)) p = some h' ∧ h.part ≠ part ∧ h'.part = part

section Lives

variable {enter : Enter} {fuel k p a b : Nat} {ms : Nat → Machine}

/-- While a handler is alive it stays the same statement, and goes forward only. -/
theorem History.later (he : ∀ e, Heeds isolating (enter e)) (h0 : (ms 0).WellNested)
    (H : History (turn enter fuel) ms k) (hb : b ≤ k) (hab : a ≤ b) (hlive : Alive ms p a b)
    (ha : handlerAt (ms a) p = some h) (hb' : handlerAt (ms b) p = some h') : Later h h' := by
  induction hab generalizing h' with
  | refl =>
    cases ha.symm.trans hb'
    exact .refl h
  | @step b hab ih =>
    obtain ⟨x, hx⟩ := Option.isSome_iff_exists.mp (hlive b hab (Nat.le_succ b))
    have hearlier := ih (by omega) (fun t h1 h2 => hlive t h1 (by omega)) hx
    exact hearlier.trans ((H.turned he h0 (by omega)).moved hx hb').later

theorem History.enters_once (he : ∀ e, Heeds isolating (enter e)) (h0 : (ms 0).WellNested)
    (H : History (turn enter fuel) ms k) (hb : b ≤ k) (hlive : Alive ms p a b) {part : TryPart} {u : Nat} (hat : a ≤ t)
    (htu : t < u) (hub : u < b) (ht : Enters ms p part t) (hu : Enters ms p part u) : False := by
  obtain ⟨_, h₁, _, ht₁, _, hpart₁⟩ := ht
  obtain ⟨h₂, h₃, hu₂, hu₃, hpart₂, hpart₃⟩ := hu
  have hbetween : Alive ms p (t + 1) u := fun x h1 h2 => hlive x (by omega) (by omega)
  have h12 := (H.later he h0 (by omega) htu hbetween ht₁ hu₂).part
  have h23 := ((H.turned he h0 (by omega)).moved hu₂ hu₃).later.part
  rw [hpart₁] at h12
  rw [hpart₃] at h23
  exact hpart₂ (TryPart.rank_injective (by omega))

theorem exists_change {P : Nat → Prop} (hab : a ≤ b) (ha : ¬ P a) (hb : P b) :
    ∃ t, a ≤ t ∧ t < b ∧ ¬ P t ∧ P (t + 1) := by
  induction hab with
  | refl => exact absurd hb ha
  | @step b hab ih =>
    by_cases hP : P b
    · obtain ⟨t, h1, h2, h3⟩ := ih hP
      exact ⟨t, h1, by omega, h3⟩
    · exact ⟨b, hab, by omega, hP, hb⟩

theorem Alive.enters_finishing (hlive : Alive ms p a b) (hab : a ≤ b) (ha : handlerAt (ms a) p = some h)
    (hb : handlerAt (ms b) p = some h') (hpart : h.part ≠ .finishing) (hpart' : h'.part = .finishing) :
    ∃ t, a ≤ t ∧ t < b ∧ Enters ms p .finishing t := by
  have hnot : ¬ ∃ x, handlerAt (ms a) p = some x ∧ x.part = .finishing := by
    rintro ⟨x, hx, hfin⟩
    cases ha.symm.trans hx
    exact hpart hfin
  obtain ⟨t, hat, htb, hnot, hyes⟩ :=
    exists_change (P := fun t => ∃ x, handlerAt (ms t) p = some x ∧ x.part = .finishing) hab hnot ⟨h', hb, hpart'⟩
  obtain ⟨x, hx⟩ := Option.isSome_iff_exists.mp (hlive t hat (by omega))
  obtain ⟨x', hx', hfin⟩ := hyes
  exact ⟨t, hat, htb, x, x', hx, hx', fun hfin => hnot ⟨x, hx, hfin⟩, hfin⟩

end Lives

/-- **A try statement is a state machine.**  Every run of a dispatch loop has a history.  Along a history, in each turn:

* a handler that stays moves as `Moved` says: from the body to the catch section, if it has one and what is in hand
  after the iterators of the body are closed is a thrown value; from body or catch section to the finally section;
* a handler that goes belongs to the loop and has no finally section to run, or is in it, or a `ret` is executed at the
  depth of its frame or below;
* a handler that comes is that of a try statement in its body.

While a handler is alive, each section is entered at most once.  If it has a finally section and is left otherwise than
by a return, the finally section is entered exactly once. -/
theorem try_sections (fuel : Nat) :
    (∀ n m m', Ends (loop (turn (enter fuel) fuel) n) m m' →
      ∃ ms k, History (turn (enter fuel) fuel) ms k ∧ ms 0 = m ∧ ms k = m') ∧
    ∀ ms k, (ms 0).WellNested → History (turn (enter fuel) fuel) ms k → ∀ p,
      (∀ t < k, ∀ h h', handlerAt (ms t) p = some h → handlerAt (ms (t + 1)) p = some h' →
        Moved (enter fuel) fuel (ms t) (ms (t + 1)) h h') ∧
      (∀ t < k, ∀ h, handlerAt (ms t) p = some h → handlerAt (ms (t + 1)) p = none →
        h.depth = (ms t).depth ∧ Leavable (next? (ms t)) (ms t).frames.length h) ∧
      (∀ t < k, ∀ h, handlerAt (ms t) p = none → handlerAt (ms (t + 1)) p = some h →
        ∃ catchOffset finallyOffset, next? (ms t) = some (.guard catchOffset finallyOffset) ∧
          h = (ms t).opened catchOffset finallyOffset) ∧
      ∀ a b, a ≤ b → b ≤ k → Alive ms p a b →
        (∀ part t u, a ≤ t → t < b → a ≤ u → u < b → Enters ms p part t → Enters ms p part u → t = u) ∧
        ∀ h, handlerAt (ms a) p = some h → h.part ≠ .finishing → h.finallyPc ≠ none →
          b < k → handlerAt (ms (b + 1)) p = none →
          ¬ (next? (ms b) = some .ret ∧ (ms b).frames.length ≤ h.snapshot.frames) →
          ∃! t, (a ≤ t ∧ t < b) ∧ Enters ms p .finishing t := by
  have he := obeys_enter fuel
  refine ⟨fun n m m' hends => history_of_loop hends, fun ms k h0 H p => ⟨?_, ?_, ?_, ?_⟩⟩
  · exact fun t ht h h' hp hp' => (H.turned he h0 ht).moved hp hp'
  · exact fun t ht h hp hp' => (H.turned he h0 ht).leaves hp hp'
  · exact fun t ht h hp hp' => (H.turned he h0 ht).opened hp hp'
  · intro a b hab hb hlive
    have honce : ∀ part t u, a ≤ t → t < b → a ≤ u → u < b → Enters ms p part t → Enters ms p part u → t = u := by
      intro part t u hat htb hau hub ht hu
      rcases Nat.lt_trichotomy t u with hlt | heq | hgt
      · exact (H.enters_once he h0 hb hlive hat hlt hub ht hu).elim
      · exact heq
      · exact (H.enters_once he h0 hb hlive hau hgt htb hu ht).elim
    refine ⟨honce, fun h ha hpart hfin hbk hgone hret => ?_⟩
    obtain ⟨h', hb'⟩ := Option.isSome_iff_exists.mp (hlive b hab (Nat.le_refl b))
    have hlater := H.later he h0 hb hab hlive ha hb'
    -- of the reasons to leave, only the finally section remains
    have hpart' : h'.part = .finishing := by
      rcases ((H.turned he h0 hbk).leaves hb' hgone).2 with hnone | hdone | hreturns
      · exact absurd (hlater.finallyPc.symm.trans hnone) hfin
      · exact hdone
      · exact absurd (hlater.snapshot ▸ hreturns) hret
    obtain ⟨t, hat, htb, ht⟩ := hlive.enters_finishing hab ha hb' hpart hpart'
    exact ⟨t, ⟨⟨hat, htb⟩, ht⟩, fun u ⟨⟨hau, hub⟩, hu⟩ => honce _ u t hau hub hat htb hu ht⟩

/-! ### A run -/

def stateAfter (enter : Enter) (fuel : Nat) (m : Machine) : Nat → Machine
  | 0 => m
  | t + 1 =>
    match turn enter fuel (stateAfter enter fuel m t) with
    | .ok _ m' | .error _ m' => m'

/-- Whether a computation succeeds or fails with a fault. -/
def succeeds? (x : VM α) (m : Machine) : Option Bool :=
  match x m with
  | .ok _ _ => some true
  | .error (.fault _) _ => some false
  | .error .outOfFuel _ => none

theorem history_stateAfter {enter : Enter} {fuel k : Nat}
    (h : ∀ t < k, (stateAfter enter fuel m t).halted = false ∧ (succeeds? (turn enter fuel) (stateAfter enter fuel m t) = some true ∨ t + 1 = k ∧ succeeds? (turn enter fuel) (stateAfter enter fuel m t) = some false)) :
    History (turn enter fuel) (stateAfter enter fuel m) k := by
  refine fun t ht => ⟨(h t ht).1, ?_⟩
  rw [stateAfter]
  have hturn := (h t ht).2
  unfold succeeds? at hturn
  generalize turn enter fuel (stateAfter enter fuel m t) = r at hturn ⊢
  rcases r with ⟨⟨⟩, m'⟩ | ⟨f | _, m'⟩
  · exact .inl rfl
  · exact .inr ⟨by simpa using hturn, f, rfl⟩
  · simp at hturn

def withCode (code : Array Instruction) (constants : Array Value) : Machine :=
  let m := Machine.new .default
  let p : Program := { code, constants, name := Text.ofString "f", source := none, marks := [] }
  { m with store := { m.store with programs := #[p] }, regs := { m.regs with program := some ⟨0⟩ } }

theorem wellNested_withCode (code : Array Instruction) (constants : Array Value) :
    (withCode code constants).WellNested :=
  (wellNested_new .default).congr rfl rfl

/-- A try statement whose body throws, with a catch section from 3 on and a finally section from 6 on. -/
def caught : Machine := withCode #[.guard 3 6, .loadUndefined, .raise, .pop, .halt, .halt, .halt, .endFinally] #[]

def caughtRun : Nat → Machine := stateAfter (enter 9) 9 caught

/-- The statement goes from the body to the catch section and from there to the finally section, once. -/
theorem try_sections_caught :
    History (turn (enter 9) 9) caughtRun 7 ∧ ∃! t, (1 ≤ t ∧ t < 5) ∧ Enters caughtRun 0 .finishing t := by
  have h0 : (caughtRun 0).WellNested := wellNested_withCode _ _
  have H : History (turn (enter 9) 9) caughtRun 7 := history_stateAfter (by decide +kernel)
  have hall : ∀ t < 6, 1 ≤ t → (handlerAt (caughtRun t) 0).isSome := by decide +kernel
  have hlive : Alive caughtRun 0 1 5 := fun t h1 h5 => hall t (by omega) h1
  have hopened : handlerAt (caughtRun 1) 0 = some ((caughtRun 0).opened 3 6) := rfl
  have hleft : handlerAt (caughtRun 6) 0 = none := rfl
  have hlast : next? (caughtRun 5) = some .halt := rfl
  have hret : ¬ (next? (caughtRun 5) = some .ret ∧
      (caughtRun 5).frames.length ≤ ((caughtRun 0).opened 3 6).snapshot.frames) :=
    fun h => nomatch hlast.symm.trans h.1
  have hsections := ((try_sections 9).2 caughtRun 7 h0 H 0).2.2.2 1 5 (by decide) (by decide) hlive
  exact ⟨H, hsections.2 _ hopened nofun nofun (by decide) hleft hret⟩

end VM

end ScriptMachine
