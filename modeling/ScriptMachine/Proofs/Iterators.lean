import ScriptMachine.Proofs.Watch

/-!
# The life of an iterator

An iterator is active until it is closed or its `next` method reports the end, fails or yields something other than an
object.  The loops that go through iterators name them, and so do host functions; what they share is the table of the
machine, in which an iterator never goes back to an earlier status.

* `Proceeds` — what every run does to iterators; `iterating` is the law that it does no more.
* `iterating_watched` — throughout a run iterators are asked for items only while they are active, and their `return`
  method is called only while they are being closed.
-/

namespace ScriptMachine

variable {m m₁ : Machine} {i : IteratorId} {rest : List OpenLoop}

/-- How far an iterator has come, as a number. -/
def IteratorStatus.rank : IteratorStatus → Nat
  | .active => 0
  | .closing => 1
  | .ended => 2

theorem IteratorStatus.rank_le_ended (s : IteratorStatus) : s.rank ≤ IteratorStatus.ended.rank := by
  cases s <;> decide

theorem IteratorStatus.eq_ended {s : IteratorStatus} (h : IteratorStatus.ended.rank ≤ s.rank) : s = .ended := by
  cases s
  · exact absurd h (by decide)
  · exact absurd h (by decide)
  · rfl

theorem IteratorStatus.ne_active {s t : IteratorStatus} (h : s.rank ≤ t.rank) (hs : s ≠ .active) : t ≠ .active := by
  rintro rfl
  cases s
  · exact hs rfl
  · exact absurd h (by decide)
  · exact absurd h (by decide)

/-! ### Iterators of loops -/

/-- The iterator that a loop goes through, if it goes through items. -/
def OpenLoop.iterator? (l : OpenLoop) : Option IteratorId :=
  match l.source with
  | .keys _ => none
  | .items i => some i

def iteratorsOf (loops : List OpenLoop) : List IteratorId := loops.filterMap OpenLoop.iterator?

@[simp] theorem iteratorsOf_nil : iteratorsOf [] = [] := rfl

@[simp] theorem iteratorsOf_keys (v : Value) (c : KeyCursor) (l : List OpenLoop) :
    iteratorsOf (⟨v, .keys c⟩ :: l) = iteratorsOf l := rfl

@[simp] theorem iteratorsOf_items (v : Value) (i : IteratorId) (l : List OpenLoop) :
    iteratorsOf (⟨v, .items i⟩ :: l) = i :: iteratorsOf l := rfl

theorem iteratorsOf_append (a b : List OpenLoop) : iteratorsOf (a ++ b) = iteratorsOf a ++ iteratorsOf b :=
  List.filterMap_append

theorem iteratorsOf_sublist {a b : List OpenLoop} (h : a.Sublist b) : (iteratorsOf a).Sublist (iteratorsOf b) :=
  h.filterMap _

theorem aboveBottom_append_bottomOf (n : Nat) (l : List α) : aboveBottom n l ++ bottomOf n l = l :=
  List.take_append_drop _ _

/-- Loops go through iterators that have been opened, and no two through the same one.  Iterators are objects. -/
structure Machine.Linked (m : Machine) : Prop where
  opened : ∀ i ∈ iteratorsOf m.loops, i.index < m.iterators.size
  distinct : (iteratorsOf m.loops).Nodup
  objects : ∀ i : IteratorId, i.index < m.iterators.size → (m.iterator i).iterator.isObject = true

theorem Machine.Linked.dropped (hm : m.Linked) (n : Nat) :
    (iteratorsOf (aboveBottom n m.loops)).Nodup ∧ ∀ i ∈ iteratorsOf (aboveBottom n m.loops),
      i.index < m.iterators.size ∧ i ∉ iteratorsOf (bottomOf n m.loops) := by
  have hsplit : iteratorsOf (aboveBottom n m.loops) ++ iteratorsOf (bottomOf n m.loops) = iteratorsOf m.loops := by
    rw [← iteratorsOf_append, aboveBottom_append_bottomOf]
  have hdistinct := hm.distinct
  rw [← hsplit] at hdistinct
  obtain ⟨habove, _, hdisjoint⟩ := List.nodup_append.mp hdistinct
  refine ⟨habove, fun i hi => ⟨hm.opened i ?_, fun hbelow => hdisjoint i hi i hbelow rfl⟩⟩
  rw [← hsplit]
  exact List.mem_append_left _ hi

namespace VM

/-! ### The law -/

/-- What runs do to iterators: more of them are opened, and none goes back to an earlier status or to a loop once it has
left the loops. -/
structure Proceeds (m m' : Machine) : Prop where
  size : m.iterators.size ≤ m'.iterators.size
  iterator : ∀ i, i.index < m.iterators.size → (m'.iterator i).iterator = (m.iterator i).iterator
  next : ∀ i, i.index < m.iterators.size → (m'.iterator i).next = (m.iterator i).next
  status : ∀ i, i.index < m.iterators.size → (m.iterator i).status.rank ≤ (m'.iterator i).status.rank
  loops : ∀ i ∈ iteratorsOf m'.loops, i ∈ iteratorsOf m.loops ∨ m.iterators.size ≤ i.index
  linked : m.Linked → m'.Linked

namespace Proceeds

variable {m m₁ m₂ : Machine}

theorem of_sublist (hi : m₁.iterators = m.iterators) (hl : (iteratorsOf m₁.loops).Sublist (iteratorsOf m.loops)) :
    Proceeds m m₁ := by
  have hiterator : ∀ i, m₁.iterator i = m.iterator i := fun i => by rw [Machine.iterator, hi]; rfl
  refine ⟨Nat.le_of_eq (hi ▸ rfl), ?_, ?_, ?_, fun i h => .inl (hl.subset h), fun hm => ⟨?_, ?_, ?_⟩⟩
  · intro i _
    rw [hiterator]
  · intro i _
    rw [hiterator]
  · intro i _
    exact Nat.le_of_eq (hiterator i ▸ rfl)
  · intro i h
    rw [hi]
    exact hm.opened i (hl.subset h)
  · exact hm.distinct.sublist hl
  · intro i h
    rw [hi] at h
    rw [hiterator]
    exact hm.objects i h

theorem of_same (hl : m₁.loops = m.loops) (hi : m₁.iterators = m.iterators) : Proceeds m m₁ :=
  of_sublist hi (hl ▸ List.Sublist.refl _)

theorem trans (h : Proceeds m m₁) (h' : Proceeds m₁ m₂) : Proceeds m m₂ := by
  have hlt : ∀ i : IteratorId, i.index < m.iterators.size → i.index < m₁.iterators.size :=
    fun i hi => Nat.lt_of_lt_of_le hi h.size
  refine ⟨Nat.le_trans h.size h'.size, ?_, ?_, ?_, fun i hi => ?_, h'.linked ∘ h.linked⟩
  · exact fun i hi => (h'.iterator i (hlt i hi)).trans (h.iterator i hi)
  · exact fun i hi => (h'.next i (hlt i hi)).trans (h.next i hi)
  · exact fun i hi => Nat.le_trans (h.status i hi) (h'.status i (hlt i hi))
  · rcases h'.loops i hi with hi | hi
    · exact h.loops i hi
    · exact .inr (Nat.le_trans h.size hi)

theorem not_mem (h : Proceeds m m₁) (hlt : i.index < m.iterators.size) (hi : i ∉ iteratorsOf m.loops) :
    i ∉ iteratorsOf m₁.loops := by
  intro hmem
  rcases h.loops i hmem with hold | hnew
  · exact hi hold
  · omega

theorem ended (h : Proceeds m m₁) (hlt : i.index < m.iterators.size) (hi : (m.iterator i).status = .ended) :
    (m₁.iterator i).status = .ended :=
  IteratorStatus.eq_ended (hi ▸ h.status i hlt)

theorem opens {r : IteratorRecord} (hr : r.iterator.isObject = true) :
    Proceeds m { m with iterators := m.iterators.push r } := by
  have hiterator : ∀ i : IteratorId, i.index < m.iterators.size →
      { m with iterators := m.iterators.push r }.iterator i = m.iterator i := by
    intro i hi
    simp only [Machine.iterator]
    rw [Array.getElem?_push_lt hi, Array.getElem?_eq_getElem hi]
  refine ⟨by simp, ?_, ?_, ?_, fun i h => .inl h, fun hm => ⟨fun i h => ?_, hm.distinct, fun i h => ?_⟩⟩
  · intro i hi
    rw [hiterator i hi]
  · intro i hi
    rw [hiterator i hi]
  · intro i hi
    exact Nat.le_of_eq (hiterator i hi ▸ rfl)
  · have hlt := hm.opened i h
    simp only [Array.size_push]
    omega
  · by_cases hi : i.index < m.iterators.size
    · rw [hiterator i hi]
      exact hm.objects i hi
    · have hlast : i.index = m.iterators.size := by
        simp only [Array.size_push] at h
        omega
      simpa [Machine.iterator, hlast] using hr

theorem moves {status : IteratorStatus} (hs : (m.iterator i).status.rank ≤ status.rank) :
    Proceeds m (m.setStatus i status) := by
  have hiterator : ∀ j : IteratorId, j.index < m.iterators.size →
      ∃ s, (m.setStatus i status).iterator j = { m.iterator j with status := s } ∧
        (m.iterator j).status.rank ≤ s.rank := by
    intro j hj
    by_cases hji : j = i
    · subst hji
      exact ⟨status, Machine.iterator_setStatus_self hj status, hs⟩
    · exact ⟨(m.iterator j).status, Machine.iterator_setStatus_of_ne hji status, Nat.le_refl _⟩
  have hsize : (m.setStatus i status).iterators.size = m.iterators.size := by simp [Machine.setStatus]
  refine ⟨Nat.le_of_eq hsize.symm, ?_, ?_, ?_, fun j h => .inl h, fun hm => ⟨fun j h => ?_, hm.distinct, ?_⟩⟩
  · intro j hj
    obtain ⟨s, heq, _⟩ := hiterator j hj
    rw [heq]
  · intro j hj
    obtain ⟨s, heq, _⟩ := hiterator j hj
    rw [heq]
  · intro j hj
    obtain ⟨s, heq, hle⟩ := hiterator j hj
    rw [heq]
    exact hle
  · rw [hsize]
    exact hm.opened j h
  · intro j hj
    rw [hsize] at hj
    obtain ⟨s, heq, _⟩ := hiterator j hj
    rw [heq]
    exact hm.objects j hj

end Proceeds

def iterating : Law := .ofRel Machine.Linked Proceeds (fun _ => .of_same rfl rfl) .trans (fun hm h => h.linked hm)

theorem Obeys.proceeds {x y : VM α} (h : Obeys iterating x y) {m' : Machine} {a : α} (hm : m.Linked)
    (hx : x m = .ok a m') : Proceeds m m' := h.rel_of_ok hm hx

instance : iterating.Exact := ⟨fun _ => id⟩

instance : iterating.Lax where
  strict := id
  lax hl hi _ _ := .of_same hl hi

instance : iterating.Declares := ⟨fun _ _ _ _ _ _ => .of_same rfl rfl⟩

instance : iterating.Guard where
  drops _ _ := .of_sublist rfl (iteratorsOf_sublist (List.drop_sublist _ _))
  restore _ h := h.trans (.of_same rfl rfl)
  refs _ _ := .of_same rfl rfl

instance : iterating.Iterators where
  opens _ _ hr _ := .opens hr
  closes m i h := .moves (by rw [h]; decide)
  ends m i := .moves (IteratorStatus.rank_le_ended _)

/-! ### Instructions about loops -/

/-- After a computation from `m` to `m₁` a loop may be opened that goes through an iterator: it is new or was one of a
loop, and no loop goes through it now. -/
structure Free (m : Machine) (i : IteratorId) (m₁ : Machine) : Prop where
  known : i ∈ iteratorsOf m.loops ∨ m.iterators.size ≤ i.index
  opened : i.index < m₁.iterators.size
  free : i ∉ iteratorsOf m₁.loops

theorem Proceeds.push (h : Proceeds m m₁) (hf : Free m i m₁) (v : Value) :
    Proceeds m { m₁ with loops := ⟨v, .items i⟩ :: m₁.loops } := by
  refine ⟨h.size, h.iterator, h.next, h.status, fun j hj => ?_, fun hm => ?_⟩
  · rcases List.mem_cons.mp hj with rfl | hj
    · exact hf.known
    · exact h.loops j hj
  · have hm₁ := h.linked hm
    refine ⟨fun j hj => ?_, List.nodup_cons.mpr ⟨hf.free, hm₁.distinct⟩, hm₁.objects⟩
    rcases List.mem_cons.mp hj with rfl | hj
    · exact hf.opened
    · exact hm₁.opened j hj

theorem iterating_pushLoop {x y : VM β} (hx : Obeys iterating x y) {i : β → IteratorId}
    (hfree : ∀ {m b m₁}, m.Linked → x m = .ok b m₁ → Free m (i b) m₁) (v : β → Value) {k k' : β → VM Unit}
    (hk : ∀ b, Obeys iterating (k b) (k' b)) :
    Obeys iterating (do let b ← x; pushLoop ⟨v b, .items (i b)⟩; k b)
      (do let b ← y; pushLoop ⟨v b, .items (i b)⟩; k' b) := by
  intro m hm
  obtain ⟨heq, hallows⟩ := hx.exact hm
  cases h : x m with
  | ok b m₁ =>
    rw [h] at heq hallows
    have hpush : pushLoop ⟨v b, .items (i b)⟩ m₁ = .ok () { m₁ with loops := ⟨v b, .items (i b)⟩ :: m₁.loops } := rfl
    have hproceeds := hallows.push (hfree hm h) (v b)
    rw [bind_ok h, bind_ok heq.symm]
    obtain ⟨hmatches, hallows⟩ := hk b _ (hproceeds.linked hm)
    exact ⟨hmatches, hallows.trans hproceeds⟩
  | error e m₁ =>
    rw [h] at heq hallows
    rw [bind_error h, bind_error heq.symm]
    cases e with
    | fault f => exact ⟨.inl rfl, hallows⟩
    | outOfFuel => exact ⟨.inl rfl, trivial⟩

theorem iterating_enumerate : Heeds iterating enumerate := by
  refine obeys_pop.bind fun v => (obeys_openCursor v).bind fun cursor => ?_
  exact Obeys.bind (obeys_modify fun _ => .of_sublist rfl (List.Sublist.refl _)) fun _ => obeys_advance

theorem iterating_nextKey (offset : Int) : Heeds iterating (nextKey offset) := by
  refine obeys_reading fun s => ?_
  cases hl : s.loops with
  | nil => exact (obeys_raise _).when _
  | cons l rest =>
    obtain ⟨value, source⟩ := l
    cases source with
    | items i => exact (obeys_raise _).when _
    | keys cursor =>
      -- the loop on top is still there when it is changed
      have hset : ∀ v c, ObeysWhen iterating (fun m => m.loops = s.loops)
          (modify fun m => { m with loops := ⟨v, .keys c⟩ :: rest }) _ := fun v c m _ hloops =>
        ⟨.inl rfl, .of_sublist rfl (by rw [hloops, hl]; exact List.Sublist.refl _)⟩
      refine ((obeys_onStore _).when _).seq (q := fun _ m => m.loops = s.loops) ?_ fun found => ?_
      · intro m a m' hm hok
        cases hok
        rw [hm]
      · split
        · exact (hset _ _).bind fun _ => obeys_advance
        · exact (hset _ _).bind fun _ => (lands_jump _).obeys

theorem popLoop_of_cons {l : OpenLoop} (hl : m.loops = l :: rest) : popLoop m = .ok l { m with loops := rest } := by
  unfold popLoop
  rw [get_bind, hl]
  rfl

theorem stepLoop_of_items {enter : Enter} {value : Value} (hl : m.loops = ⟨value, .items i⟩ :: rest) :
    stepLoop enter m =
      (do return (value, ← ofOutcome (← stepIterator enter i), i) : VM (Value × Option Value × IteratorId))
        { m with loops := rest } := by
  unfold stepLoop
  rw [bind_ok (popLoop_of_cons hl)]

section Nested

variable {e₁ e₂ : Enter} (he : ∀ e, e.evaluates = false → ObeysWhen iterating e.Due (e₁ e) (e₂ e))

include he

theorem openIterator_spec {v : Value} (hm : m.Linked) (h : openIterator e₁ v m = .ok i m₁) :
    m.iterators.size ≤ i.index ∧ (m₁.iterator i).status = .active ∧ Free m i m₁ := by
  obtain ⟨method, ma, ha, h⟩ := bind_eq_ok.mp h
  have hpa : Proceeds m ma := (obeys_iteratorMethod v).proceeds hm ha
  obtain ⟨callable, mb, hb, h⟩ := bind_eq_ok.mp h
  have hpb : Proceeds ma mb := (obeys_memberCallable method).proceeds (hpa.linked hm) hb
  have hmb : mb.Linked := hpb.linked (hpa.linked hm)
  split at h
  case isFalse =>
    cases h
  case isTrue =>
    obtain ⟨iterator, mc, hc, h⟩ := bind_eq_ok.mp h
    have hpc : Proceeds mb mc := (he (.call _ _ _) rfl).now.proceeds hmb hc
    split at h
    case isFalse => cases h
    case isTrue =>
      obtain ⟨next, md, hd, h⟩ := bind_eq_ok.mp h
      have hpd : Proceeds mc md := (obeys_getProperty _ _).proceeds (hpc.linked hmb) hd
      have hproceeds : Proceeds m md := ((hpa.trans hpb).trans hpc).trans hpd
      cases h
      refine ⟨hproceeds.size, by simp [Machine.iterator], .inr hproceeds.size, by simp, fun hmem => ?_⟩
      have hlt := (hproceeds.linked hm).opened _ hmem
      exact Nat.lt_irrefl _ hlt

theorem iterating_iterate (popped : Bool) : Obeys iterating (iterate e₁ popped) (iterate e₂ popped) := by
  have hsplit : ∀ e : Enter, iterate e popped = (do
      let i ← (do openIterator e (← takeTop popped))
      pushLoop ⟨.undefined, .items i⟩
      advance) := fun e => by simp [iterate]
  rw [hsplit, hsplit]
  have hopen : Obeys iterating (do openIterator e₁ (← takeTop popped)) (do openIterator e₂ (← takeTop popped)) :=
    (obeys_takeTop popped).bind fun v => obeys_openIterator he v
  refine iterating_pushLoop hopen (fun {m i m₁} hm h => ?_) (fun _ => .undefined) fun _ => obeys_advance
  obtain ⟨v, m₀, htake, hopened⟩ := bind_eq_ok.mp h
  have hproceeds : Proceeds m m₀ := (obeys_takeTop popped).proceeds hm htake
  obtain ⟨hsize, _, hfree⟩ := openIterator_spec he (hproceeds.linked hm) hopened
  exact ⟨.inr (Nat.le_trans hproceeds.size hsize), hfree.opened, hfree.free⟩

theorem stepIterator_free {value : Value} (hm : m.Linked) (hl : m.loops = ⟨value, .items i⟩ :: rest)
    {item : Outcome (Option Value)} (h : stepIterator e₁ i { m with loops := rest } = .ok item m₁) : Free m i m₁ := by
  have hmem : i ∈ iteratorsOf m.loops := by simp [hl]
  have hlt := hm.opened i hmem
  have hoff : i ∉ iteratorsOf rest := by
    have hdistinct := hm.distinct
    rw [hl] at hdistinct
    exact (List.nodup_cons.mp hdistinct).1
  have hpop : Proceeds m { m with loops := rest } :=
    .of_sublist rfl (by rw [hl]; exact iteratorsOf_sublist (List.sublist_cons_self _ _))
  have hproceeds := (obeys_stepIterator he i).proceeds (hpop.linked hm) h
  exact ⟨.inl hmem, Nat.lt_of_lt_of_le hlt hproceeds.size, hproceeds.not_mem hlt hoff⟩

theorem stepLoop_free {b : Value × Option Value × IteratorId} (hm : m.Linked) (h : stepLoop e₁ m = .ok b m₁) :
    Free m b.2.2 m₁ := by
  cases hl : m.loops with
  | nil =>
    have hpop : popLoop m = .error (.fault (.internal .loopUnderflow)) m := by
      unfold popLoop
      rw [get_bind, hl]
      rfl
    unfold stepLoop at h
    rw [bind_error hpop] at h
    cases h
  | cons l rest =>
    obtain ⟨value, source⟩ := l
    cases source with
    | keys cursor =>
      unfold stepLoop at h
      rw [bind_ok (popLoop_of_cons hl)] at h
      cases h
    | items i =>
      rw [stepLoop_of_items hl] at h
      obtain ⟨outcome, m₂, hstep, h⟩ := bind_eq_ok.mp h
      cases outcome with
      | error f => cases h
      | ok item =>
        cases h
        exact stepIterator_free he hm hl hstep

theorem iterating_nextItem (offset : Int) : Obeys iterating (nextItem e₁ offset) (nextItem e₂ offset) := by
  have hsplit : ∀ e : Enter, nextItem e offset = (do
      let b ← stepLoop e
      pushLoop ⟨b.2.1.getD b.1, .items b.2.2⟩
      if b.2.1.isSome then advance else jump offset) := by
    intro e
    refine bind_congr fun b => ?_
    obtain ⟨value, item, i⟩ := b
    cases item <;> rfl
  rw [hsplit, hsplit]
  refine iterating_pushLoop (obeys_stepLoop he) (fun hm h => stepLoop_free he hm h) _ fun b => ?_
  split
  · exact obeys_advance
  · exact (lands_jump offset).obeys

theorem iterating_nextItemOrUndefined : Obeys iterating (nextItemOrUndefined e₁) (nextItemOrUndefined e₂) :=
  iterating_pushLoop (obeys_stepLoop he) (fun hm h => stepLoop_free he hm h) (fun b => b.1)
    fun _ => obeys_pushNext _

end Nested

instance : iterating.Looping where
  looping he fuel i hi := by
    cases i with
    | enumerate => exact iterating_enumerate
    | nextKey offset => exact iterating_nextKey offset
    | leaveLoop => exact lands_leaveLoop.obeys
    | closeLoop => exact (lands_closeLoop he).obeys
    | iterate popped => exact iterating_iterate he popped
    | nextItem offset => exact iterating_nextItem he offset
    | nextItemOrUndefined => exact iterating_nextItemOrUndefined he
    | restArray => exact (lands_restArray he fuel).obeys
    | _ => cases hi

/-! ### Runs -/

/-- What is tested of iterators during a run: an iterator is asked for items only while it is active, and its `return`
method is called only while it is being closed. -/
def iteration : Watch where
  entry e m := m.Linked ∧ e.Due m
  turn _ _ m := m.Linked

/-- **Throughout a run iterators are used as they should be**, and the run does no more to them than proceed. -/
theorem iterating_watched (alarm : VM Unit) (fuel : Nat) (e : Entry) :
    ObeysWhen iterating e.Due (watched iteration alarm fuel e) (enter fuel e) := by
  rw [← watched_idle alarm fuel]
  exact lax_watched (agrees_idle (w := iteration) (fun _ _ hm hdue => ⟨hm, hdue⟩) (fun _ _ _ hm => hm) alarm) fuel e

theorem iterating_enter (fuel : Nat) (e : Entry) : ObeysWhen iterating e.Due (enter fuel e) (enter fuel e) :=
  lax_enter fuel e

theorem iterating_plain (fuel : Nat) (e : Entry) (_ : e.evaluates = false) :
    ObeysWhen iterating e.Due (enter fuel e) (enter fuel e) := iterating_enter fuel e

end VM

end ScriptMachine
