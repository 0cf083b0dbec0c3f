import ScriptMachine.Iteration.Keys
import ScriptMachine.Store.Property

/-!
# Reading objects that are made at their first use

To read a property may mean to make lazy objects, so a reading changes the store.  That is all it
does, and carried out once more it gives the same answer, whichever objects have been made before (`Reads.answer`).
-/

namespace ScriptMachine

variable {σ σ' : Store} {o : ObjectId}

/-! ### Making one object -/

theorem ObjectKind.isLazy_settle (shell : Shell) (kind : ObjectKind) : (kind.settle shell).1.kind.isLazy = false := by
  induction kind generalizing shell with
  | lazy line inner kind ih => exact ih inner
  | _ => rfl

theorem ObjectKind.settle_of_not_isLazy (shell : Shell) {kind : ObjectKind} (h : kind.isLazy = false) :
    kind.settle shell = (⟨shell, kind⟩, []) := by
  cases kind <;> first | rfl | cases h

/-- The object after it has been made. -/
def Object.settled (x : Object) : Object := (x.kind.settle x.toShell).1

theorem Object.settled_of_not_isLazy {x : Object} (h : x.kind.isLazy = false) : x.settled = x := by
  simp [settled, ObjectKind.settle_of_not_isLazy _ h]

theorem Object.settled_settled (x : Object) : x.settled.settled = x.settled :=
  settled_of_not_isLazy (ObjectKind.isLazy_settle _ _)

namespace Store

/-! ### Stores that differ in the objects made -/

/-- Some lazy objects have been made, and lines were written to the journal. -/
structure Makes (σ σ' : Store) : Prop where
  scopes : σ'.scopes = σ.scopes
  programs : σ'.programs = σ.programs
  cells : σ'.cells = σ.cells
  size : σ'.objects.size = σ.objects.size
  objects : ∀ o, σ'.object o = σ.object o ∨ σ'.object o = (σ.object o).settled

namespace Makes

theorem refl (σ : Store) : Makes σ σ := ⟨rfl, rfl, rfl, rfl, fun _ => .inl rfl⟩

theorem trans {a b c : Store} (h : Makes a b) (h' : Makes b c) : Makes a c where
  scopes := h'.scopes.trans h.scopes
  programs := h'.programs.trans h.programs
  cells := h'.cells.trans h.cells
  size := h'.size.trans h.size
  objects o := by
    rcases h.objects o with hb | hb <;> rcases h'.objects o with hc | hc <;> rw [hc, hb]
    · exact .inl rfl
    · exact .inr rfl
    · exact .inr rfl
    · exact .inr (Object.settled_settled _)

theorem scope (h : Makes σ σ') (s : ScopeId) : σ'.scope s = σ.scope s := by
  simp [Store.scope, h.scopes]

theorem object_eq (h : Makes σ σ') (ho : (σ.object o).settled = σ.object o) : σ'.object o = σ.object o := by
  rcases h.objects o with h' | h'
  · exact h'
  · exact h'.trans ho

end Makes

def allMade (σ : Store) : Store := { σ with objects := σ.objects.map Object.settled }

theorem object_allMade (σ : Store) (o : ObjectId) : σ.allMade.object o = (σ.object o).settled := by
  unfold object allMade
  rw [Array.getElem?_map]
  cases σ.objects[o.index]? <;> rfl

theorem Makes.allMade (h : Makes σ σ') : Makes σ' σ.allMade where
  scopes := h.scopes.symm
  programs := h.programs.symm
  cells := h.cells.symm
  size := by simp [Store.allMade, h.size]
  objects o := by
    rw [object_allMade]
    rcases h.objects o with ho | ho <;> rw [ho]
    · exact .inr rfl
    · exact .inl rfl

/-! ### Readings -/

theorem run_bind (x : Op α) (f : α → Op β) (σ : Store) : (x >>= f).run σ = (f (x.run σ).1).run (x.run σ).2 := rfl

theorem run_get_bind (f : Store → Op α) (σ : Store) : (get >>= f).run σ = (f σ).run σ := rfl

/-- The operation only makes objects, and repeated later it gives the same answer and changes nothing. -/
def Reads (x : Op α) : Prop := ∀ σ, Makes σ (x.run σ).2 ∧ ∀ σ', Makes (x.run σ).2 σ' → x.run σ' = ((x.run σ).1, σ')

namespace Reads

theorem pure (a : α) : Reads (Pure.pure a : Op α) := fun σ => ⟨.refl σ, fun _ _ => rfl⟩

theorem bind {x : Op α} {f : α → Op β} (hx : Reads x) (hf : ∀ a, Reads (f a)) : Reads (x >>= f) := by
  intro σ
  obtain ⟨h₁, again₁⟩ := hx σ
  obtain ⟨h₂, again₂⟩ := hf (x.run σ).1 (x.run σ).2
  refine ⟨h₁.trans h₂, fun σ' h' => ?_⟩
  show (f (x.run σ').1).run (x.run σ').2 = _
  rw [again₁ σ' (h₂.trans h'), again₂ σ' h']
  rfl

theorem ofStore {f : Store → Op α} (hf : ∀ σ, Reads (f σ)) (hsame : ∀ σ σ', Makes σ σ' → f σ' = f σ) :
    Reads (get >>= f) := by
  intro σ
  obtain ⟨h, again⟩ := hf σ σ
  refine ⟨h, fun σ' h' => ?_⟩
  show (f σ').run σ' = _
  rw [hsame σ σ' (h.trans h')]
  exact again σ' h'

theorem answer {x : Op α} (hx : Reads x) (h : Makes σ σ') : (x.run σ').1 = (x.run σ).1 := by
  -- Both stores lead to the one in which all objects are made.
  have h₁ := (hx σ).2 _ (hx σ).1.allMade
  have h₂ := (hx σ').2 _ (h.trans (hx σ').1).allMade
  rw [h₁] at h₂
  exact (congrArg Prod.fst h₂).symm

theorem again {x : Op α} (hx : Reads x) (σ : Store) : x.run (x.run σ).2 = x.run σ := (hx σ).2 _ (.refl _)

end Reads

/-! ### Properties -/

theorem lt_size_of_isLazy (h : (σ.object o).kind.isLazy = true) : o.index < σ.objects.size := by
  rcases Nat.lt_or_ge o.index σ.objects.size with hlt | hge
  · exact hlt
  · rw [object, Array.getElem?_eq_none hge] at h
    cases h

theorem object_setObject (h : o.index < σ.objects.size) (x : Object) (p : ObjectId) :
    (σ.setObject o x).object p = if p = o then x else σ.object p := by
  obtain ⟨i⟩ := o
  obtain ⟨j⟩ := p
  simp only [object, setObject, ObjectId.mk.injEq, Array.getElem?_setIfInBounds]
  grind

theorem run_materialize (o : ObjectId) (σ : Store) :
    Makes σ ((materialize o).run σ).2 ∧ ((materialize o).run σ).2.object o = (σ.object o).settled := by
  show Makes σ (if _ then _ else _) ∧ Store.object (if _ then _ else _) o = _
  split
  · rename_i hlazy
    have hobject := object_setObject (lt_size_of_isLazy hlazy) (σ.object o).settled
    refine ⟨⟨rfl, rfl, rfl, Array.size_setIfInBounds, fun p => ?_⟩, (hobject o).trans (if_pos rfl)⟩
    by_cases hp : p = o
    · subst hp
      exact .inr ((hobject p).trans (if_pos rfl))
    · exact .inl ((hobject p).trans (if_neg hp))
  · rename_i hlazy
    exact ⟨.refl σ, (Object.settled_of_not_isLazy (by simpa using hlazy)).symm⟩

theorem run_made (o : ObjectId) (σ : Store) : ((made o).run σ).1 = (σ.object o).settled := (run_materialize o σ).2

theorem run_materialize_of_settled (h : (σ.object o).settled = σ.object o) : (materialize o).run σ = ((), σ) := by
  have hlazy : (σ.object o).kind.isLazy = false := by
    rw [← h]
    exact ObjectKind.isLazy_settle _ _
  show (_, if _ then _ else _) = _
  rw [hlazy]
  rfl

theorem reads_made (o : ObjectId) : Reads (made o) := by
  intro σ
  obtain ⟨h, hobject⟩ := run_materialize o σ
  refine ⟨h, fun σ' h' => ?_⟩
  have hstill : σ'.object o = (σ.object o).settled :=
    (h'.object_eq ((congrArg _ hobject).trans ((Object.settled_settled _).trans hobject.symm))).trans hobject
  have hrun := run_materialize_of_settled (by rw [hstill, Object.settled_settled])
  show (((materialize o).run σ').2.object o, ((materialize o).run σ').2) = _
  rw [hrun, run_made, hstill]

theorem reads_prototype (o : ObjectId) : Reads (prototype? o) := (reads_made o).bind fun _ => .pure _

theorem reads_ownKeys (o : ObjectId) : Reads (ownKeys o) := (reads_made o).bind fun _ => .pure _

theorem reads_ownProperty (o : ObjectId) (key : PropertyKey) : Reads (ownProperty? o key) :=
  (reads_made o).bind fun _ => .ofStore (fun _ => .pure _) fun _ _ h => by simp only [h.scopes]

theorem reads_findWithin (key : PropertyKey) (n : Nat) (o : ObjectId) : Reads (findWithin key n o) := by
  induction n generalizing o with
  | zero => exact .pure none
  | succ n ih =>
    refine (reads_made o).bind fun x => .ofStore (fun σ => ?_) fun σ σ' h => by simp only [h.scopes]
    split
    · exact .pure _
    · exact ih _
    · exact .pure none

theorem reads_find (o : ObjectId) (key : PropertyKey) : Reads (find? o key) :=
  .ofStore (fun σ => reads_findWithin key σ.objects.size o) fun σ σ' h => by rw [h.size]

theorem reads_get (o : ObjectId) (key : PropertyKey) : Reads (get? o key) :=
  (reads_find o key).bind fun p => .pure (p.map (·.value))

theorem reads_has (o : ObjectId) (key : PropertyKey) : Reads (has o key) :=
  (reads_find o key).bind fun p => .pure p.isSome

theorem reads_provides (o : ObjectId) (name : Text) : Reads (provides o name) := by
  refine (reads_has o _).bind fun known => ?_
  split
  · exact .pure false
  · refine (reads_get o _).bind fun hidden => ?_
    split
    · refine (reads_get _ _).bind fun flag => ?_
      split <;> exact .pure _
    · exact .pure true

end Store

namespace KeyCursor

open Store

/-! ### Keys -/

theorem reads_hides (screen : Option ObjectId) (key : PropertyKey) : Reads (hides screen key) := by
  unfold hides
  split
  · exact .pure false
  · refine (reads_get _ _).bind fun v => ?_
    split
    · exact (reads_get _ _).bind fun _ => .pure _
    · exact .pure false

theorem reads_scan (screen : Option ObjectId) (o : ObjectId) (visited keys : List PropertyKey) :
    Reads (scan screen o visited keys) := by
  induction keys generalizing visited with
  | nil => exact .pure _
  | cons key rest ih =>
    unfold scan
    split
    · exact ih _
    · refine (reads_ownProperty o key).bind fun property => ?_
      dsimp only
      split
      · refine (reads_hides screen key).bind fun hidden => ?_
        split
        · exact ih _
        · exact .pure _
      · exact ih _

theorem reads_nextWithin (n : Nat) (c : KeyCursor) : Reads (nextWithin n c) := by
  induction n generalizing c with
  | zero => exact .pure _
  | succ n ih =>
    unfold nextWithin
    split
    · exact .pure _
    · refine (reads_scan _ _ _ _).bind fun r => ?_
      split
      · exact .pure _
      · refine (reads_prototype _).bind fun current => ?_
        cases current with
        | none => exact ih _
        | some p => exact (reads_ownKeys p).bind fun _ => ih _

theorem reads_next (c : KeyCursor) : Reads c.next :=
  .ofStore (fun σ => reads_nextWithin (σ.objects.size + 1) c) fun σ σ' h => by rw [h.size]

end KeyCursor

end ScriptMachine
