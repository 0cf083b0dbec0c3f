import ScriptMachine.Proofs.Iterators
import ScriptMachine.Proofs.Unwinding

/-!
# Closing iterators

How iterators come to their end: by themselves, by being closed, or because of a fault.

* `stepIterator_ends`, `finish_ends`, `closeIterator_ends` — after that an iterator has ended.
* `closeAll` — how a fault that unwinds past open loops closes their iterators (`rollBack_eq_closeAll`); `rollBack_done`
  says that they are neither on loops nor active after that.

Main result: `iterators_closed_once`.
-/

namespace ScriptMachine.VM

/-! ### How iterators end -/

section Ends

variable {m m' : Machine} {i : IteratorId}

theorem stepIterator_of_not_active (enter : Enter) (h : (m.iterator i).status ≠ .active) :
    stepIterator enter i m = .ok (.ok none) m := by
  unfold stepIterator
  rw [iterator_bind, if_neg h]
  rfl

theorem stepIterator_of_active (enter : Enter) (h : (m.iterator i).status = .active) :
    stepIterator enter i m = (do
      let item ← itemOf (← attempt (enter (.next i)))
      match item with
      | .ok (some _) => return item
      | _ =>
        setStatus i .ended
        return item : VM (Outcome (Option Value))) m := by
  unfold stepIterator
  exact congrFun (if_pos h) m

theorem closeIterator_of_not_active (enter : Enter) (h : (m.iterator i).status ≠ .active) :
    closeIterator enter i m = .ok () m := by
  unfold closeIterator
  rw [iterator_bind, if_neg h]
  rfl

theorem closeIterator_of_active (enter : Enter) (hm : m.Linked) (h : (m.iterator i).status = .active) :
    ∃ method σ, closeIterator enter i m = (if method.isNullish then setStatus i .ended else do
      let v ← enter (.finish i method)
      if v.isObject then return () else raise (.type (.iteratorResult (← display v))) : VM Unit)
        { m.setStatus i .closing with store := σ } := by
  have hlt : i.index < m.iterators.size := Machine.index_lt_of_not_ended (by rw [h]; nofun)
  have hset : setStatus i .closing m = .ok () (m.setStatus i .closing) := rfl
  obtain ⟨o, ho⟩ : ∃ o, (m.iterator i).iterator = .object o := by
    have hobject := hm.objects i hlt
    cases hv : (m.iterator i).iterator with
    | object o => exact ⟨o, rfl⟩
    | _ =>
      rw [hv] at hobject
      cases hobject
  unfold closeIterator
  rw [iterator_bind, if_pos h, bind_ok hset, ho]
  exact ⟨_, _, rfl⟩

theorem iterator_ended (hlt : i.index < m.iterators.size) : ((m.setStatus i .ended).iterator i).status = .ended := by
  rw [Machine.iterator_setStatus_self hlt]

theorem size_setStatus (m : Machine) (i : IteratorId) (status : IteratorStatus) :
    (m.setStatus i status).iterators.size = m.iterators.size := by
  simp [Machine.setStatus]

theorem stepIterator_ends (fuel : Nat) (hm : m.Linked) (h : (m.iterator i).status = .active)
    {item : Outcome (Option Value)} (hs : stepIterator (enter fuel) i m = .ok item m') (hi : ∀ v, item ≠ .ok (some v)) :
    (m'.iterator i).status = .ended := by
  have hlt : i.index < m.iterators.size := Machine.index_lt_of_not_ended (by rw [h]; nofun)
  rw [stepIterator_of_active _ h] at hs
  obtain ⟨answer, m₁, hnext, hs⟩ := bind_eq_ok.mp hs
  obtain ⟨item', m₂, hitem, hs⟩ := bind_eq_ok.mp hs
  have hnext : Proceeds m m₁ := by
    have hallows := ((iterating_enter fuel (.next i)).attempt m hm h).2
    rw [hnext] at hallows
    exact hallows
  have hitem : Proceeds m₁ m₂ := (obeys_itemOf answer).proceeds (hnext.linked hm) hitem
  have hlt₂ : i.index < m₂.iterators.size := Nat.lt_of_lt_of_le hlt (hnext.trans hitem).size
  cases item' with
  | error f =>
    cases hs
    exact iterator_ended hlt₂
  | ok found =>
    cases found with
    | none =>
      cases hs
      exact iterator_ended hlt₂
    | some v =>
      cases hs
      exact absurd rfl (hi v)

theorem finish_ends (fuel : Nat) {method : Value} (hm : m.Linked) (h : (m.iterator i).status = .closing)
    (he : Ends (enter fuel (.finish i method)) m m') : (m'.iterator i).status = .ended := by
  have hlt : i.index < m.iterators.size := Machine.index_lt_of_not_ended (by rw [h]; nofun)
  cases fuel with
  | zero => rcases he with ⟨_, he⟩ | ⟨_, he⟩ <;> cases he
  | succ fuel =>
    have hset : Proceeds m (m.setStatus i .ended) := .moves (IteratorStatus.rank_le_ended _)
    have hrun : Heeds iterating (dispatch (turn (enter fuel) fuel) fuel) :=
      lax_dispatch (fun _ => (lax_turn (iterating_enter fuel) fuel).now) fuel
    have hcall := (passes_callValue (iterating_enter fuel) hrun fuel method
      ((m.setStatus i .ended).iterator i).iterator []).obeys
    have hends : Ends (callValue (enter fuel) fuel (dispatch (turn (enter fuel) fuel) fuel) method
        ((m.setStatus i .ended).iterator i).iterator []) (m.setStatus i .ended) m' := he
    have hproceeds : Proceeds (m.setStatus i .ended) m' := hcall.ends (hset.linked hm) hends
    exact hproceeds.ended (size_setStatus m i _ ▸ hlt) (iterator_ended hlt)

theorem closeIterator_ends (fuel : Nat) (hm : m.Linked) (h : (m.iterator i).status = .active)
    (he : Ends (closeIterator (enter fuel) i) m m') : (m'.iterator i).status = .ended := by
  have hlt : i.index < m.iterators.size := Machine.index_lt_of_not_ended (by rw [h]; nofun)
  obtain ⟨method, σ, heq⟩ := closeIterator_of_active (enter fuel) hm h
  have hset : Proceeds m { m.setStatus i .closing with store := σ } :=
    .trans (.moves (by rw [h]; decide)) (.of_same rfl rfl)
  have hclosing : ({ m.setStatus i .closing with store := σ }.iterator i).status = .closing := by
    have hself := Machine.iterator_setStatus_self hlt .closing
    exact congrArg IteratorRecord.status hself
  unfold Ends at he
  rw [heq] at he
  split at he
  · rcases he with ⟨_, he⟩ | ⟨_, he⟩
    · cases he
      exact iterator_ended (size_setStatus m i _ ▸ hlt)
    · cases he
  · have hfinish : Ends (enter fuel (.finish i method)) { m.setStatus i .closing with store := σ } m' := by
      rcases he with ⟨_, he⟩ | ⟨f, he⟩
      · obtain ⟨v, m₁, hv, he⟩ := bind_eq_ok.mp he
        split at he
        · cases he
          exact .inl ⟨v, hv⟩
        · cases he
      · rcases bind_eq_error.mp he with he | ⟨v, m₁, hv, he⟩
        · exact .inr ⟨f, he⟩
        · split at he
          · cases he
          · cases he
            exact .inl ⟨v, hv⟩
    exact finish_ends fuel (hset.linked hm) hclosing hfinish

end Ends

/-! ### Faults -/

def closeAll (enter : Enter) (is : List IteratorId) : VM (List Fault) := do
  let outcomes ← is.mapM fun i => attempt (enter (.close i))
  return outcomes.filterMap fun
    | .error f => some f
    | .ok _ => none

theorem closingFaults_eq (enter : Enter) (opened : List OpenLoop) :
    closingFaults enter opened = closeAll enter (iteratorsOf opened) := by
  induction opened with
  | nil => rfl
  | cons l rest ih =>
    obtain ⟨value, source⟩ := l
    cases source with
    | keys cursor => exact ih
    | items i =>
      unfold closingFaults
      rw [ih, iteratorsOf_items]
      simp only [closeAll, List.mapM_cons, bind_assoc, pure_bind]
      refine bind_congr fun outcome => ?_
      cases outcome with
      | ok _ => rfl
      | error f => simp

theorem rollBack_eq_closeAll (enter : Enter) (s : Snapshot) (f : Fault) (m : Machine) :
    rollBack enter s f m = (do
      let closing ← closeAll enter (iteratorsOf (aboveBottom s.loops m.loops))
      modify fun m => { m with refs := bottomOf s.refs m.refs }
      return after f closing : VM Fault) { m.restore s with loops := bottomOf s.loops m.loops } := by
  rw [rollBack_eq, ← closingFaults_eq]
  unfold backTo
  simp only [bind_assoc, pure_bind]
  rfl

section Closing

variable (fuel : Nat) {m m' : Machine}

theorem close_done {i : IteratorId} (hm : m.Linked) (hi : i.index < m.iterators.size)
    (he : Ends (enter fuel (.close i)) m m') : (m'.iterator i).status ≠ .active := by
  cases fuel with
  | zero => rcases he with ⟨_, he⟩ | ⟨_, he⟩ <;> cases he
  | succ fuel =>
    have hguarded : Ends (guarded (enter fuel) (closeIterator (enter fuel) i)) m m' := by
      rcases he with ⟨v, he⟩ | ⟨f, he⟩
      · obtain ⟨_, _, hok, he⟩ := bind_eq_ok.mp he
        cases he
        exact .inl ⟨_, hok⟩
      · rcases bind_eq_error.mp he with he | ⟨_, _, _, he⟩
        · exact .inr ⟨f, he⟩
        · cases he
    have hbody : ∀ {m₁}, Ends (closeIterator (enter fuel) i) m m₁ → (m₁.iterator i).status ≠ .active := by
      intro m₁ hends
      by_cases ha : (m.iterator i).status = .active
      · rw [closeIterator_ends fuel hm ha hends]
        nofun
      · unfold Ends at hends
        rw [closeIterator_of_not_active _ ha] at hends
        rcases hends with ⟨_, hends⟩ | ⟨_, hends⟩
        · cases hends
          exact ha
        · cases hends
    rcases hc : closeIterator (enter fuel) i m with ⟨⟨⟩, m₁⟩ | ⟨f | _, m₁⟩
    · unfold Ends at hguarded
      rw [guarded_of_ok _ hc] at hguarded
      rcases hguarded with ⟨_, hguarded⟩ | ⟨_, hguarded⟩
      · cases hguarded
        exact hbody (.inl ⟨_, hc⟩)
      · cases hguarded
    · -- what is done because of the fault does not make the iterator active again
      have hclose := obeys_closeIterator (iterating_plain fuel) i
      have hproceeds : Proceeds m m₁ := hclose.ends hm (.inr ⟨f, hc⟩)
      have hundo : Heeds iterating (do raise (← rollBack (enter fuel) m.snapshot (← settle f)) : VM Unit) :=
        (lax_settle f).bind fun g => Obeys.bind (Obeys.bind (obeys_modify fun _ => .of_same rfl rfl) fun _ =>
          obeys_dropOpened (fun i => (iterating_enter fuel (.close i)).now.strict) _ g) fun g => obeys_raise g
      unfold Ends at hguarded
      rw [guarded_of_fault _ hc] at hguarded
      have hafter : Proceeds m₁ m' := hundo.ends (hproceeds.linked hm) hguarded
      have hlt : i.index < m₁.iterators.size := Nat.lt_of_lt_of_le hi hproceeds.size
      exact IteratorStatus.ne_active (hafter.status i hlt) (hbody (.inr ⟨f, hc⟩))
    · unfold Ends at hguarded
      rw [guarded_of_outOfFuel _ hc] at hguarded
      rcases hguarded with ⟨_, hguarded⟩ | ⟨_, hguarded⟩ <;> cases hguarded

theorem closeAll_done {is : List IteratorId} {cs : List Fault} (hm : m.Linked)
    (hi : ∀ i ∈ is, i.index < m.iterators.size ∧ i ∉ iteratorsOf m.loops) (h : closeAll (enter fuel) is m = .ok cs m') :
    Proceeds m m' ∧ ∀ i ∈ is, i ∉ iteratorsOf m'.loops ∧ (m'.iterator i).status ≠ .active := by
  obtain ⟨outcomes, m'', hmap, hreturn⟩ := bind_eq_ok.mp h
  cases hreturn
  clear h
  induction is generalizing m outcomes with
  | nil =>
    cases hmap
    exact ⟨.of_same rfl rfl, by simp⟩
  | cons i rest ih =>
    rw [List.mapM_cons] at hmap
    obtain ⟨outcome, m₁, hclose, hmap⟩ := bind_eq_ok.mp hmap
    obtain ⟨outcomes', m₂, hrest, hreturn⟩ := bind_eq_ok.mp hmap
    cases hreturn
    obtain ⟨⟨hlt, hoff⟩, hi⟩ := List.forall_mem_cons.mp hi
    have hproceeds : Proceeds m m₁ := (iterating_enter fuel (.close i)).now.attempt.proceeds hm hclose
    have hends : Ends (enter fuel (.close i)) m m₁ := by
      unfold attempt at hclose
      split at hclose
      · cases hclose
        exact .inl ⟨_, ‹_›⟩
      · cases hclose
        exact .inr ⟨_, ‹_›⟩
      · cases hclose
    have hdone := close_done fuel hm hlt hends
    obtain ⟨hproceeds', hall⟩ := ih (hproceeds.linked hm)
      (fun j hj => ⟨Nat.lt_of_lt_of_le (hi j hj).1 hproceeds.size, hproceeds.not_mem (hi j hj).1 (hi j hj).2⟩) _ hrest
    have hlt₁ : i.index < m₁.iterators.size := Nat.lt_of_lt_of_le hlt hproceeds.size
    refine ⟨hproceeds.trans hproceeds', List.forall_mem_cons.mpr ⟨⟨?_, ?_⟩, hall⟩⟩
    · exact hproceeds'.not_mem hlt₁ (hproceeds.not_mem hlt hoff)
    · exact IteratorStatus.ne_active (hproceeds'.status i hlt₁) hdone

theorem rollBack_done {s : Snapshot} {f g : Fault} (hm : m.Linked) (h : rollBack (enter fuel) s f m = .ok g m') :
    ∀ i ∈ iteratorsOf (aboveBottom s.loops m.loops), i ∉ iteratorsOf m'.loops ∧ (m'.iterator i).status ≠ .active := by
  rw [rollBack_eq_closeAll] at h
  obtain ⟨cs, m₁, hclose, h⟩ := bind_eq_ok.mp h
  cases h
  have hback : Proceeds m { m.restore s with loops := bottomOf s.loops m.loops } :=
    .of_sublist rfl (iteratorsOf_sublist (List.drop_sublist _ _))
  exact (closeAll_done fuel (hback.linked hm) (hm.dropped s.loops).2 hclose).2

end Closing

/-- The innermost handler reacts to a fault, which goes on to the next ones if none of its sections runs. -/
def letReact (enter : Enter) (n : Nat) (f : Fault) : VM Unit := do
  match (← get).handlers with
  | [] => raise f
  | h :: rest => if ← react h rest f then return () else unwindWithin enter n f

section Feed

variable {enter : Enter} {σ : Type} {f : σ → Value → VM σ} {n : Nat} {i : IteratorId} {s : σ} {m m₁ m₂ : Machine}

theorem feed_of_step_fault {e : Fault} (h : stepIterator enter i m = .ok (.error e) m₁) :
    feed enter f (n + 1) i s m = .ok (s, .error e) m₁ := by
  exact bind_ok h

def closeAfter (enter : Enter) (i : IteratorId) (e : Fault) : VM Fault := do
  match ← attempt (closeIterator enter i) with
  | .ok _ => return e
  | .error closing => return e.afterClosing closing

theorem feed_of_fault {v : Value} {e : Fault} (h : stepIterator enter i m = .ok (.ok (some v)) m₁)
    (hf : f s v m₁ = .error (.fault e) m₂) :
    feed enter f (n + 1) i s m = (do return (s, .error (← closeAfter enter i e)) : VM (σ × Outcome Unit)) m₂ := by
  rw [closeAfter, bind_assoc, feed, bind_ok h]
  dsimp only
  rw [bind_ok (attempt_fault hf)]
  refine congrFun (bind_congr fun closed => ?_) m₂
  cases closed <;> rfl

end Feed

/-! ### The main result -/

theorem linked_new (limits : Limits) : (Machine.new limits).Linked := by
  have hl : (Machine.new limits).loops = [] := by
    unfold Machine.new
    split
    rfl
  have hi : (Machine.new limits).iterators = #[] := by
    unfold Machine.new
    split
    rfl
  exact ⟨by simp [hl], by simp [hl], by simp [hi]⟩

/-- **Iterators are closed exactly when they must be, and never twice.**  All machines are linked, also after all
activations were dropped.  From a linked machine:

* throughout every run an iterator is asked for items only while it is active, and its `return` method is called only
  while it is being closed; its status never goes back, and once it has left the loops it is never on one again;
* iterators are active when they are opened, and are not on a loop then;
* one that is not active any more is neither asked for items nor closed;
* an iterator has ended once it reports so, fails or yields something other than an object, once its `return` method is
  called, and once it is closed, whether or not this fails;
* a fault that leaves a guarded computation or is handed to a handler rolls the machine back, and this closes the
  iterators of all loops that are dropped, each once and innermost first; then they are not active, nor on a loop;
* an item that cannot be dealt with lets its iterator be closed, once, and a step that fails does not;
* an iterator of a loop whose step fails is off the loops, and has ended. -/
theorem iterators_closed_once :
    (∀ limits, (Machine.new limits).Linked) ∧ (∀ m : Machine, Proceeds m m.reset) ∧
      ∀ (fuel : Nat) (m : Machine), m.Linked →
        (∀ e : Entry, e.Due m →
          (∀ alarm, watched iteration alarm fuel e m = enter fuel e m) ∧
            ∀ m', Ends (enter fuel e) m m' → Proceeds m m') ∧
        (∀ v i m', openIterator (enter fuel) v m = .ok i m' →
          (m'.iterator i).status = .active ∧ m.iterators.size ≤ i.index ∧ i ∉ iteratorsOf m'.loops) ∧
        (∀ i, (m.iterator i).status ≠ .active →
          stepIterator (enter fuel) i m = .ok (.ok none) m ∧ closeIterator (enter fuel) i m = .ok () m) ∧
        (∀ i, (m.iterator i).status = .active →
          (∀ item m', stepIterator (enter fuel) i m = .ok item m' → (∀ v, item ≠ .ok (some v)) →
            (m'.iterator i).status = .ended) ∧
          ∀ m', Ends (closeIterator (enter fuel) i) m m' → (m'.iterator i).status = .ended) ∧
        (∀ i method m', (m.iterator i).status = .closing → Ends (enter fuel (.finish i method)) m m' →
          (m'.iterator i).status = .ended) ∧
        (∀ (α : Type) (x : VM α) f m₁, x m = .error (.fault f) m₁ →
          guarded (enter fuel) x m = (do raise (← rollBack (enter fuel) m.snapshot (← settle f)) : VM α) m₁) ∧
        (∀ n f h rest, m.handlers = h :: rest → h.depth = m.depth →
          unwindWithin (enter fuel) (n + 1) f m = (do
            letReact (enter fuel) n (← rollBack (enter fuel) h.snapshot f) : VM Unit) m) ∧
        (∀ s f, ∃ dropped, dropped = iteratorsOf (aboveBottom s.loops m.loops) ∧ dropped.Nodup ∧
          rollBack (enter fuel) s f m = (do
            let closing ← closeAll (enter fuel) dropped
            modify fun m => { m with refs := bottomOf s.refs m.refs }
            return after f closing : VM Fault) { m.restore s with loops := bottomOf s.loops m.loops } ∧
          ∀ g m', rollBack (enter fuel) s f m = .ok g m' →
            ∀ i ∈ dropped, i ∉ iteratorsOf m'.loops ∧ (m'.iterator i).status ≠ .active) ∧
        (∀ (σ : Type) (f : σ → Value → VM σ) n i s item m₁, stepIterator (enter fuel) i m = .ok item m₁ →
          (∀ e, item = .error e → feed (enter fuel) f (n + 1) i s m = .ok (s, .error e) m₁) ∧
          ∀ v e m₂, item = .ok (some v) → f s v m₁ = .error (.fault e) m₂ →
            feed (enter fuel) f (n + 1) i s m =
              (do return (s, .error (← closeAfter (enter fuel) i e)) : VM (σ × Outcome Unit)) m₂) ∧
        ∀ value i rest f m', m.loops = ⟨value, .items i⟩ :: rest → (m.iterator i).status = .active →
          stepIterator (enter fuel) i { m with loops := rest } = .ok (.error f) m' →
          (∀ offset, nextItem (enter fuel) offset m = .error (.fault f) m') ∧
            nextItemOrUndefined (enter fuel) m = .error (.fault f) m' ∧
            i ∉ iteratorsOf m'.loops ∧ (m'.iterator i).status = .ended := by
  refine ⟨linked_new, fun m => .of_sublist rfl (List.nil_sublist _), fun fuel m hm => ?_⟩
  refine ⟨?_, ?_, ?_, ?_, ?_, ?_, ?_, ?_, ?_, ?_⟩
  · intro e hdue
    refine ⟨fun alarm => ?_, fun m' hends => ?_⟩
    · rcases (iterating_watched alarm fuel e m hm hdue).1 with heq | ⟨_, hstops, _⟩
      · exact heq
      · exact hstops.elim
    · have hallows := (iterating_enter fuel e m hm hdue).2
      rcases hends with ⟨_, h⟩ | ⟨_, h⟩ <;> rw [h] at hallows <;> exact hallows
  · intro v i m' h
    obtain ⟨hnew, hactive, hfree⟩ := openIterator_spec (iterating_plain fuel) hm h
    exact ⟨hactive, hnew, hfree.free⟩
  · exact fun i h => ⟨stepIterator_of_not_active _ h, closeIterator_of_not_active _ h⟩
  · exact fun i h => ⟨fun item m' => stepIterator_ends fuel hm h, fun m' => closeIterator_ends fuel hm h⟩
  · exact fun i method m' => finish_ends fuel hm
  · exact fun α x f m₁ => guarded_of_fault _
  · intro n f h rest hh hd
    rw [unwindWithin, get_bind, hh]
    exact congrFun (if_pos hd) m
  · intro s f
    refine ⟨_, rfl, (hm.dropped s.loops).1, rollBack_eq_closeAll _ s f m, fun g m' => rollBack_done fuel hm⟩
  · rintro σ f n i s item m₁ h
    refine ⟨?_, ?_⟩
    · rintro e rfl
      exact feed_of_step_fault h
    · rintro v e m₂ rfl hf
      exact feed_of_fault h hf
  · intro value i rest f m' hl hactive hstep
    have hpop : Proceeds m { m with loops := rest } :=
      .of_sublist rfl (by rw [hl]; exact iteratorsOf_sublist (List.sublist_cons_self _ _))
    have hfault : stepLoop (enter fuel) m = .error (.fault f) m' := by
      rw [stepLoop_of_items hl, bind_ok hstep]
      rfl
    refine ⟨fun offset => bind_error hfault, bind_error hfault, ?_, ?_⟩
    · exact (stepIterator_free (iterating_plain fuel) hm hl hstep).free
    · exact stepIterator_ends fuel (hpop.linked hm) hactive hstep fun v h => by cases h

def failingReturn (r : Realm) : Store.Op ObjectId := do
  let method ← r.newNative ⟨Text.ofString "return", 0, fun _ => .done (.ok .undefined), none⟩
  let o ← Store.newObject (.ofKind none .ordinary)
  let _ ← Store.put o (.ofString "return") (.object method)
  return o

/-- A machine inside two loops over items, one in the other.  The inner iterator cannot be closed without a fault. -/
def inLoops : Machine :=
  let m := Machine.new .default
  let (o, store) := (failingReturn m.realm).run m.store
  { m with
    store
    loops := [⟨.undefined, .items ⟨1⟩⟩, ⟨.undefined, .items ⟨0⟩⟩]
    iterators := #[⟨.object m.realm.global, .undefined, .active⟩, ⟨.object o, .undefined, .active⟩] }

theorem linked_inLoops : inLoops.Linked := by
  refine ⟨by decide, by decide, fun i hi => ?_⟩
  have hsize : inLoops.iterators.size = 2 := rfl
  obtain ⟨n⟩ := i
  rw [hsize] at hi
  rcases n with _ | _ | n
  · rfl
  · rfl
  · exact absurd hi (by simp)

/-- A fault that unwinds past both loops closes both iterators. -/
theorem iterators_closed_once_inLoops :
    ∃ g m', rollBack (enter 3) (Machine.new .default).snapshot .loopDepth inLoops = .ok g m' ∧
      m'.loops.isEmpty = true ∧ (m'.iterator ⟨1⟩).status ≠ .active ∧ (m'.iterator ⟨0⟩).status ≠ .active := by
  obtain ⟨g, m', hback, hloops⟩ := exists_of_passes (p := fun m => m.loops.isEmpty)
    (r := rollBack (enter 3) (Machine.new .default).snapshot .loopDepth inLoops) (by decide +kernel)
  have hloop : iteratorsOf (aboveBottom (Machine.new .default).snapshot.loops inLoops.loops) = [⟨1⟩, ⟨0⟩] := rfl
  obtain ⟨_, _, _, _, _, _, _, hunwinds, _⟩ := iterators_closed_once.2.2 3 inLoops linked_inLoops
  obtain ⟨dropped, hdropped, _, _, hdone⟩ := hunwinds (Machine.new .default).snapshot .loopDepth
  rw [hloop] at hdropped
  refine ⟨g, m', hback, hloops, (hdone g m' hback ⟨1⟩ ?_).2, (hdone g m' hback ⟨0⟩ ?_).2⟩ <;> simp [hdropped]

end ScriptMachine.VM
