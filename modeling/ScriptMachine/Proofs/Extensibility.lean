import ScriptMachine.Proofs.OwnProperties

/-!
# Objects that are not extensible

An object that is not extensible stays so and keeps its prototype, and is not to gain keys.  Two operations do not ask
whether it is extensible: an assignment to a hole of an array, and appending to an array.

Main result: `Store.closed_for_good`.
-/

namespace ScriptMachine

namespace Object

/-! ### Keys that an object gains -/

/-- The key spells the index of a hole of an array. -/
def Hole (x : Object) (key : PropertyKey) : Prop :=
  ∃ elements i, x.kind = .array elements ∧ key.index? = some i ∧ i < elements.size ∧ Store.elementAt? elements i = none

section Gains

variable {x y : Object} {key k : PropertyKey} {v : Value} {p : Property} {scopes : Array Scope}

theorem Assigned.shell (h : x.Assigned key v y) : y.extensible = x.extensible ∧ y.prototype = x.prototype := by
  cases h <;> exact ⟨rfl, rfl⟩

theorem Defined.shell (h : x.Defined key p y) : y.extensible = x.extensible ∧ y.prototype = x.prototype := by
  cases h <;> exact ⟨rfl, rfl⟩

theorem Deleted.shell (h : x.Deleted key y) : y.extensible = x.extensible ∧ y.prototype = x.prototype := by
  cases h <;> exact ⟨rfl, rfl⟩

theorem hidesKey_of_absent (htable : x.InTable key) (hcurrent : x.properties.find? key = some p)
    (habsent : x.ownProperty? scopes key = none) : x.HidesKey key := by
  by_cases hbeyond : x.Beyond key
  · exact ⟨hbeyond, by rw [hcurrent]; rfl⟩
  · rw [ownProperty?_of_inTable htable hbeyond, hcurrent] at habsent
    cases habsent

/-- An assignment to an object that is not extensible succeeds, where there is no own property, for holes and for
hidden keys only. -/
theorem Assigned.hole_or_hidden (h : x.Assigned key v y) (hclosed : x.extensible = false)
    (habsent : x.ownProperty? scopes key = none) : x.Hole key ∨ x.HidesKey key := by
  cases h with
  | @element elements i kind index room =>
    have hlt : i < elements.size := by simpa [hclosed] using room
    rw [ownProperty?_element kind index, Option.map_eq_none_iff] at habsent
    exact .inl ⟨elements, i, kind, index, hlt, habsent⟩
  | length kind isLength => exact absurd isLength (ne_length_of_absent kind habsent)
  | written inTable current => exact .inr (hidesKey_of_absent inTable current habsent)
  | added _ _ extensible =>
    rw [hclosed] at extensible
    cases extensible

theorem Assigned.gains (h : x.Assigned key v y) (hclosed : x.extensible = false)
    (habsent : x.ownProperty? scopes k = none) (hpresent : (y.ownProperty? scopes k).isSome = true) :
    k = key ∧ x.Hole key := by
  by_cases hk : k = key
  · subst hk
    rcases h.hole_or_hidden hclosed habsent with hhole | ⟨hbeyond, -⟩
    · exact ⟨rfl, hhole⟩
    · rw [ownProperty?_of_beyond (h.beyond hbeyond)] at hpresent
      cases hpresent
  · rcases h.others scopes hk with hsame | ⟨elements, i, kind, -, -, rfl, -⟩ | ⟨_, _, _, -, -, -, -, -, hnone⟩
    · rw [hsame, habsent] at hpresent
      cases hpresent
    · rw [ownProperty?_arrayLength kind] at habsent
      cases habsent
    · rw [hnone] at hpresent
      cases hpresent

theorem Defined.absent (h : x.Defined key p y) (hk : k ≠ key) (habsent : x.ownProperty? scopes k = none) :
    y.ownProperty? scopes k = none := by
  cases h with
  | @element elements i kind index =>
    have hlength := ne_length_of_absent kind habsent
    rw [ownProperty?_of_elements kind hlength, habsent]
    intro j hj
    rw [Store.elementAt?_setElement, if_neg]
    rintro rfl
    exact hk (PropertyKey.eq_of_index? hj index)
  | @length elements n kind isLength valid =>
    cases hj : k.index? with
    | none => rw [ownProperty?_of_elements kind (isLength ▸ hk) (fun j h => by rw [hj] at h; cases h), habsent]
    | some j =>
      rw [ownProperty?_element kind hj, Option.map_eq_none_iff] at habsent
      rw [ownProperty?_element rfl hj, Store.elementAt?_resize, habsent]
      split <;> rfl
  | unmapped kind index => rw [ownProperty?_of_unmapped kind index hk (by simp [hk]), habsent]
  | stored =>
    rw [← habsent]
    exact ownProperty?_congr rfl (by simp [hk])

theorem Deleted.absent (h : x.Deleted key y) (habsent : x.ownProperty? scopes k = none) :
    y.ownProperty? scopes k = none := by
  cases h with
  | @element elements i kind index =>
    have hlength := ne_length_of_absent kind habsent
    cases hj : k.index? with
    | none => rw [ownProperty?_of_elements kind hlength (fun j h => by rw [hj] at h; cases h), habsent]
    | some j =>
      rw [ownProperty?_element kind hj, Option.map_eq_none_iff] at habsent
      rw [ownProperty?_element rfl hj, Store.elementAt?_setIfInBounds, habsent]
      split <;> rfl
  | unmapped kind index =>
    have hk : k ≠ key := by
      rintro rfl
      rw [ownProperty?_mapped kind index] at habsent
      cases habsent
    rw [ownProperty?_of_unmapped kind index hk rfl, habsent]
  | erased inTable current =>
    by_cases hk : k = key
    · subst hk
      by_cases hbeyond : x.Beyond k
      · exact ownProperty?_of_beyond hbeyond
      · rw [ownProperty?_of_inTable inTable hbeyond, current] at habsent
        cases habsent
    · rw [← habsent]
      exact ownProperty?_congr rfl (by simp [hk])
  | missing => exact habsent

theorem absent_of_push {elements : Array Value} (hkind : x.kind = .array elements) (v : Value)
    (hindex : k.index? ≠ some elements.size) (habsent : x.ownProperty? scopes k = none) :
    ({ x with kind := .array (elements.push v) } : Object).ownProperty? scopes k = none := by
  have hlength := ne_length_of_absent hkind habsent
  rw [ownProperty?_of_elements hkind hlength, habsent]
  intro j hj
  rw [Store.elementAt?_push, if_neg]
  rintro rfl
  exact hindex hj

end Gains

end Object

namespace Store

/-! ### Operations -/

/-- The operations that can add a key to an object though it is not extensible. -/
inductive Slips (σ : Store) (o : ObjectId) (key : PropertyKey) : Operation → Prop where
  | hole {v : Value} {strict : Bool} (hole : (σ.settled o).Hole key) : Slips σ o key (.assign o key v strict)
  | push {v : Value} {elements : Array Value} (kind : (σ.settled o).kind = .array elements)
      (index : key.index? = some elements.size) : Slips σ o key (.pushItem o v)

/-- The operation gives the answer and changes nothing, though lazy objects may be made. -/
def Refuses (σ : Store) (x : Op α) (answer : α) : Prop := (x.run σ).1 = answer ∧ Makes σ (x.run σ).2

/-- What an operation leaves of an object that is not extensible. -/
structure Closed (σ : Store) (o : ObjectId) (op : Operation) (σ' : Store) : Prop where
  extensible : (σ'.settled o).extensible = false
  prototype : (σ'.settled o).prototype = (σ.settled o).prototype
  gains : ∀ key, σ.own o key = none → (σ'.own o key).isSome = true → Slips σ o key op

section Steps

variable {σ σ' : Store} {o : ObjectId} {op : Operation}

theorem closed_of_same (hclosed : (σ.settled o).extensible = false) (hsame : σ'.settled o = σ.settled o) :
    Closed σ o op σ' where
  extensible := by rw [hsame, hclosed]
  prototype := by rw [hsame]
  gains key habsent hpresent := by
    rw [own_eq, hsame, Object.isSome_ownProperty? _ _ σ.scopes, ← own_eq, habsent] at hpresent
    cases hpresent

theorem closed_of_updates {q : ObjectId} {x : Object} (hclosed : (σ.settled o).extensible = false)
    (hupdates : Updates σ q x σ') (hshell : o = q → x.extensible = false ∧ x.prototype = (σ.settled o).prototype)
    (hgains : o = q → ∀ key, σ.own o key = none → (x.ownProperty? σ.scopes key).isSome = true → Slips σ o key op) :
    Closed σ o op σ' := by
  have hobject := hupdates.objects o
  split at hobject
  case isTrue h =>
    obtain ⟨hextensible, hprototype⟩ := hshell h.1
    refine ⟨by rw [hobject, hextensible], by rw [hobject, hprototype], fun key habsent hpresent => ?_⟩
    rw [own_eq, hobject, hupdates.scopes] at hpresent
    exact hgains h.1 key habsent hpresent
  case isFalse => exact closed_of_same hclosed hobject

theorem closed_of_shell {q : ObjectId} {x : Object} (hclosed : (σ.settled o).extensible = false)
    (hupdates : Updates σ q x σ')
    (hshell : x.extensible = (σ.settled q).extensible ∧ x.prototype = (σ.settled q).prototype)
    (hgains : o = q → ∀ key, σ.own o key = none → (x.ownProperty? σ.scopes key).isSome = true → Slips σ o key op) :
    Closed σ o op σ' := by
  refine closed_of_updates hclosed hupdates ?_ hgains
  rintro rfl
  rw [hshell.1, hshell.2]
  exact ⟨hclosed, rfl⟩

theorem Effect.closed_step (h : Effect σ op σ') (hclosed : (σ.settled o).extensible = false) : Closed σ o op σ' := by
  cases h with
  | assigned assigned updates =>
    refine closed_of_shell hclosed updates assigned.shell ?_
    rintro rfl key habsent hpresent
    rw [own_eq] at habsent
    obtain ⟨rfl, hhole⟩ := assigned.gains hclosed habsent hpresent
    exact .hole hhole
  | @defined _ q key p x _ _ allowed defined updates =>
    refine closed_of_shell hclosed updates defined.shell ?_
    rintro rfl k habsent hpresent
    -- A definition is allowed only where there is an own property.
    have hk : k ≠ key := by
      rintro rfl
      rw [habsent, hclosed] at allowed
      cases allowed
    rw [own_eq] at habsent
    rw [defined.absent hk habsent] at hpresent
    cases hpresent
  | deleted deleted updates =>
    refine closed_of_shell hclosed updates deleted.shell ?_
    rintro rfl key habsent hpresent
    rw [own_eq] at habsent
    rw [deleted.absent habsent] at hpresent
    cases hpresent
  | @pushed q v elements _ kind room updates =>
    refine closed_of_shell hclosed updates ⟨rfl, rfl⟩ ?_
    rintro rfl key habsent hpresent
    by_cases hindex : key.index? = some elements.size
    · exact .push kind hindex
    · rw [own_eq] at habsent
      rw [Object.absent_of_push kind v hindex habsent] at hpresent
      cases hpresent
  | inherits extensible _ updates =>
    refine closed_of_updates hclosed updates ?_ ?_ <;>
    · rintro rfl
      rw [hclosed] at extensible
      cases extensible
  | closed updates =>
    refine closed_of_updates hclosed updates ?_ ?_
    · rintro rfl
      exact ⟨rfl, rfl⟩
    · rintro rfl key habsent hpresent
      obtain ⟨p, hp⟩ := Option.isSome_iff_exists.mp hpresent
      rw [own_eq] at habsent
      cases hp.symm.trans habsent
  | written _ made | kept made => exact closed_of_same hclosed (made.settled_eq o)

theorem closed_performAll (hclosed : (σ.settled o).extensible = false) (ops : List Operation) :
    ((σ.performAll ops).settled o).extensible = false ∧
      ((σ.performAll ops).settled o).prototype = (σ.settled o).prototype ∧
      ∀ key, σ.own o key = none → ((σ.performAll ops).own o key).isSome = true →
        ∃ before op after, ops = before ++ op :: after ∧ Slips (σ.performAll before) o key op := by
  induction ops generalizing σ with
  | nil =>
    refine ⟨hclosed, rfl, fun key habsent hpresent => ?_⟩
    rw [show σ.performAll [] = σ from rfl, habsent] at hpresent
    cases hpresent
  | cons op ops ih =>
    have hstep := (effect σ op).closed_step hclosed
    obtain ⟨hextensible, hprototype, hgains⟩ := ih hstep.extensible
    refine ⟨hextensible, hprototype.trans hstep.prototype, fun key habsent hpresent => ?_⟩
    cases hnow : (σ.perform op).own o key with
    | some p => exact ⟨[], op, ops, rfl, hstep.gains key habsent (by rw [hnow]; rfl)⟩
    | none =>
      obtain ⟨before, slip, after, rfl, hslips⟩ := hgains key hnow hpresent
      exact ⟨op :: before, slip, after, rfl, hslips⟩

end Steps

/-! ### Refusals -/

section Refusals

variable {σ : Store} {o : ObjectId} {key : PropertyKey}

theorem refuses_assign (hclosed : (σ.settled o).extensible = false) (habsent : σ.own o key = none)
    (hhole : ¬ (σ.settled o).Hole key) (hhidden : ¬ (σ.settled o).HidesKey key) (v : Value) (strict : Bool) :
    σ.Refuses (assign o key v strict) (granted false strict (.readOnly key.display)) := by
  have hassigning := assigning σ o key v strict
  rw [own_eq] at habsent
  unfold Refuses
  generalize (assign o key v strict).run σ = r at hassigning ⊢
  cases hassigning with
  | done assigned _ =>
    rcases assigned.hole_or_hidden hclosed habsent with h | h
    · exact absurd h hhole
    · exact absurd h hhidden
  | parameter kind index _ =>
    rw [Object.ownProperty?_mapped kind index] at habsent
    cases habsent
  | refused made => exact ⟨rfl, made⟩
  | invalid kind isLength _ _ => exact absurd isLength (Object.ne_length_of_absent kind habsent)

theorem refuses_define (hclosed : (σ.settled o).extensible = false) (habsent : σ.own o key = none) (p : Property)
    (strict : Bool) : σ.Refuses (define o key p strict) (granted false strict (.redefinition key.display)) := by
  have hdefining := defining σ o key p strict
  unfold Refuses
  generalize (define o key p strict).run σ = r at hdefining ⊢
  cases hdefining with
  | done allowed _ _ =>
    rw [habsent, hclosed] at allowed
    cases allowed
  | refused _ made => exact ⟨rfl, made⟩
  | invalid kind isLength _ _ =>
    rw [isLength, own_eq, Object.ownProperty?_arrayLength kind] at habsent
    cases habsent

theorem refuses_put (hclosed : (σ.settled o).extensible = false) (habsent : σ.own o key = none) (v : Value) :
    σ.Refuses (put o key v) false := by
  obtain ⟨hanswer, hmade⟩ := refuses_define hclosed habsent (.plain v) false
  refine ⟨?_, hmade⟩
  show Option.getD (Except.toOption ((define o key (.plain v) false).run σ).1) false = false
  rw [hanswer]
  rfl

theorem refuses_setPrototype (hclosed : (σ.settled o).extensible = false) {prototype : Option ObjectId}
    (hother : prototype ≠ (σ.settled o).prototype) : σ.Refuses (setPrototype o prototype) false := by
  rcases setPrototype_cases σ o prototype with ⟨hextensible, -⟩ | ⟨hmade, hsame⟩
  · rw [hclosed] at hextensible
    cases hextensible
  · exact ⟨Bool.eq_false_iff.mpr fun h => hother (hsame h).symm, hmade⟩

end Refusals

/-- **Objects that are not extensible**: after any operations, an object that was not extensible still is not and has the
same prototype.  A key that it has gained was added to a hole of an array or appended to an array.  Otherwise operations
that would add a key or change the prototype are refused and change nothing. -/
theorem closed_for_good {σ : Store} {o : ObjectId} (hclosed : (σ.settled o).extensible = false)
    (ops : List Operation) :
    (((σ.performAll ops).settled o).extensible = false ∧
      ((σ.performAll ops).settled o).prototype = (σ.settled o).prototype ∧
      ∀ key, σ.own o key = none → ((σ.performAll ops).own o key).isSome = true →
        ∃ before op after, ops = before ++ op :: after ∧ Slips (σ.performAll before) o key op) ∧
    (∀ key, (σ.performAll ops).own o key = none →
      (∀ v strict, ¬ ((σ.performAll ops).settled o).Hole key → ¬ ((σ.performAll ops).settled o).HidesKey key →
        (σ.performAll ops).Refuses (assign o key v strict) (granted false strict (.readOnly key.display))) ∧
      (∀ p strict, (σ.performAll ops).Refuses (define o key p strict)
        (granted false strict (.redefinition key.display))) ∧
      ∀ v, (σ.performAll ops).Refuses (put o key v) false) ∧
    ∀ prototype, prototype ≠ ((σ.performAll ops).settled o).prototype →
      (σ.performAll ops).Refuses (setPrototype o prototype) false := by
  have hrun := closed_performAll hclosed ops
  refine ⟨hrun, fun key habsent => ⟨?_, ?_, ?_⟩, fun prototype hother => refuses_setPrototype hrun.1 hother⟩
  · exact fun v strict hhole hhidden => refuses_assign hrun.1 habsent hhole hhidden v strict
  · exact fun p strict => refuses_define hrun.1 habsent p strict
  · exact fun v => refuses_put hrun.1 habsent v

def closedArray : Store := { Store.empty with objects := #[⟨⟨none, .empty, false⟩, .array #[.empty, .int 1]⟩] }

/-- The hole is filled by an assignment, and an index after the last is not. -/
theorem closed_for_good_hole :
    let τ := closedArray.performAll [.assign ⟨0⟩ (.ofNat 0) (.int 7) true]
    (closedArray.settled ⟨0⟩).extensible = false ∧ closedArray.own ⟨0⟩ (.ofNat 0) = none ∧
      (τ.own ⟨0⟩ (.ofNat 0)).isSome = true ∧
      (∃ before op after, [.assign ⟨0⟩ (.ofNat 0) (.int 7) true] = before ++ op :: after ∧
        Slips (closedArray.performAll before) ⟨0⟩ (.ofNat 0) op) ∧
      τ.Refuses (assign ⟨0⟩ (.ofNat 5) (.int 7) true) (.error (.type (.readOnly (PropertyKey.ofNat 5).display))) := by
  have h := closed_for_good (σ := closedArray) (o := ⟨0⟩) rfl [.assign ⟨0⟩ (.ofNat 0) (.int 7) true]
  refine ⟨rfl, rfl, rfl, h.1.2.2 _ rfl rfl, (h.2.1 (.ofNat 5) rfl).1 _ true ?_ ?_⟩
  · rintro ⟨elements, i, hkind, hindex, hlt, -⟩
    cases hkind
    cases hindex
    exact absurd hlt (by decide)
  · rintro ⟨⟨t, i, hkind, -⟩, -⟩
    cases hkind

end Store

end ScriptMachine
