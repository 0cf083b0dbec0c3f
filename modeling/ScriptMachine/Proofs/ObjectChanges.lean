import ScriptMachine.Proofs.IndexKeys
import ScriptMachine.Proofs.LazyObjects

/-!
# What operations do to objects

An operation on an object makes the object first, if it is lazy, and then replaces it by another one, or leaves it as it
is and reports a refusal.  On the way it may make other objects.

* `Object.Assigned`, `Object.Defined`, `Object.Deleted` — what can become of an object, with the conditions under which
  this happens.
* `Store.assigning`, `Store.defining`, `Store.deleting` — answer and effect of the operations.
* `Store.effect` — the effect of any of the operations.
-/

namespace ScriptMachine

namespace Object

variable {x : Object} {key : PropertyKey}

/-! ### What becomes of an object -/

/-- The kind of the object leaves assignments to the key to the property table. -/
def InTable (x : Object) (key : PropertyKey) : Prop :=
  match x.kind with
  | .array _ => key.index? = none ∧ key ≠ .length
  | .primitive (.text t) => Store.isTextKey t key = false
  | .arguments _ mapped => mappedIndex? mapped key = none
  | _ => True

instance (x : Object) (key : PropertyKey) : Decidable (x.InTable key) := by
  unfold InTable
  split <;> infer_instance

theorem inTable_of_array {elements : Array Value} (h : x.InTable key) (hkind : x.kind = .array elements) :
    key.index? = none ∧ key ≠ .length := by
  simpa only [InTable, hkind] using h

theorem inTable_of_text {t : Text} (h : x.InTable key) (hkind : x.kind = .primitive (.text t)) :
    Store.isTextKey t key = false := by
  simpa only [InTable, hkind] using h

theorem inTable_of_arguments {scope : ScopeId} {mapped : List Bool} (h : x.InTable key)
    (hkind : x.kind = .arguments scope mapped) : mappedIndex? mapped key = none := by
  simpa only [InTable, hkind] using h

theorem not_inTable (h : ¬ x.InTable key) :
    (∃ elements i, x.kind = .array elements ∧ key.index? = some i) ∨
      (∃ elements, x.kind = .array elements ∧ key = .length) ∨
      (∃ t, x.kind = .primitive (.text t) ∧ Store.isTextKey t key = true) ∨
      ∃ scope mapped i, x.kind = .arguments scope mapped ∧ mappedIndex? mapped key = some i := by
  unfold InTable at h
  split at h
  case h_1 elements hkind =>
    cases hindex : key.index? with
    | some i => exact .inl ⟨elements, i, hkind, rfl⟩
    | none =>
      by_cases hlength : key = .length
      · exact .inr (.inl ⟨elements, hkind, hlength⟩)
      · exact absurd ⟨hindex, hlength⟩ h
  case h_2 t hkind => exact .inr (.inr (.inl ⟨t, hkind, by simpa using h⟩))
  case h_3 scope mapped hkind =>
    obtain ⟨i, hindex⟩ := Option.ne_none_iff_exists'.mp h
    exact .inr (.inr (.inr ⟨scope, mapped, i, hkind, hindex⟩))
  case h_4 => exact absurd trivial h

/-- The object after an assignment. -/
inductive Assigned (x : Object) (key : PropertyKey) (v : Value) : Object → Prop where
  | element {elements : Array Value} {i : Nat} (kind : x.kind = .array elements) (index : key.index? = some i)
      (room : i < elements.size ∨ x.extensible = true) :
      Assigned x key v { x with kind := .array (Store.setElement elements i v) }
  | length {elements : Array Value} {n : Nat} (kind : x.kind = .array elements) (isLength : key = .length)
      (valid : Store.arrayLength? v = some n) : Assigned x key v { x with kind := .array (Store.resize elements n) }
  | written {p : Property} (inTable : x.InTable key) (current : x.properties.find? key = some p)
      (writable : p.writable = true) :
      Assigned x key v { x with properties := x.properties.insert key { p with value := v } }
  | added (inTable : x.InTable key) (new : x.properties.find? key = none) (extensible : x.extensible = true) :
      Assigned x key v { x with properties := x.properties.insert key (.plain v) }

/-- The object after a definition. -/
inductive Defined (x : Object) (key : PropertyKey) (p : Property) : Object → Prop where
  | element {elements : Array Value} {i : Nat} (kind : x.kind = .array elements) (index : key.index? = some i) :
      Defined x key p { x with kind := .array (Store.setElement elements i p.value) }
  | length {elements : Array Value} {n : Nat} (kind : x.kind = .array elements) (isLength : key = .length)
      (valid : Store.arrayLength? p.value = some n) :
      Defined x key p { x with kind := .array (Store.resize elements n) }
  | unmapped {scope : ScopeId} {mapped : List Bool} {i : Nat} (kind : x.kind = .arguments scope mapped)
      (index : mappedIndex? mapped key = some i) :
      Defined x key p
        { x with kind := .arguments scope (mapped.set i false), properties := x.properties.insert key p }
  | stored (noItem : ∀ elements, x.kind = .array elements → key.index? = none ∧ key ≠ .length)
      (unmapped : ∀ scope mapped, x.kind = .arguments scope mapped → mappedIndex? mapped key = none) :
      Defined x key p { x with properties := x.properties.insert key p }

/-- The object after a deletion. -/
inductive Deleted (x : Object) (key : PropertyKey) : Object → Prop where
  | element {elements : Array Value} {i : Nat} (kind : x.kind = .array elements) (index : key.index? = some i) :
      Deleted x key { x with kind := .array (elements.setIfInBounds i .empty) }
  | unmapped {scope : ScopeId} {mapped : List Bool} {i : Nat} (kind : x.kind = .arguments scope mapped)
      (index : mappedIndex? mapped key = some i) :
      Deleted x key { x with kind := .arguments scope (mapped.set i false) }
  | erased {p : Property} (inTable : x.InTable key) (current : x.properties.find? key = some p)
      (configurable : p.configurable = true) : Deleted x key { x with properties := x.properties.erase key }
  | missing (inTable : x.InTable key) (absent : x.properties.find? key = none) : Deleted x key x

section Lazy

variable {x y : Object} {key : PropertyKey} {v : Value} {p : Property}

theorem Defined.isLazy (h : x.Defined key p y) (hx : x.kind.isLazy = false) : y.kind.isLazy = false := by
  cases h with
  | element | length | unmapped => rfl
  | stored => exact hx

theorem Deleted.isLazy (h : x.Deleted key y) (hx : x.kind.isLazy = false) : y.kind.isLazy = false := by
  cases h with
  | element | unmapped => rfl
  | erased | missing => exact hx

theorem isLazy_settled (x : Object) : x.settled.kind.isLazy = false := ObjectKind.isLazy_settle _ _

end Lazy

end Object

namespace Store

/-! ### Objects as they are once made -/

/-- An object, made if it is lazy. -/
def settled (σ : Store) (o : ObjectId) : Object := (σ.object o).settled

def own (σ : Store) (o : ObjectId) (key : PropertyKey) : Option Property := ((ownProperty? o key).run σ).1

section Settled

variable {σ σ' : Store} {o : ObjectId} {x : Object}

theorem settled_of_size_le (h : σ.objects.size ≤ o.index) : σ.settled o = default := by
  rw [settled, object, Array.getElem?_eq_none h]
  rfl

theorem settled_push (σ : Store) (x : Object) (o : ObjectId) :
    ({ σ with objects := σ.objects.push x } : Store).settled o =
      if o = ⟨σ.objects.size⟩ then x.settled else σ.settled o := by
  obtain ⟨i⟩ := o
  simp only [settled, object, Array.getElem?_push, ObjectId.mk.injEq]
  split <;> rfl

theorem Makes.settled_eq (h : Makes σ σ') (o : ObjectId) : σ'.settled o = σ.settled o := by
  rcases h.objects o with h' | h' <;> rw [settled, h']
  · rfl
  · exact Object.settled_settled _

theorem Makes.unmade (h : Makes σ σ') (hlazy : (σ'.object o).kind.isLazy = true) : σ'.object o = σ.object o := by
  rcases h.objects o with ho | ho
  · exact ho
  · rw [ho, Object.isLazy_settled] at hlazy
    cases hlazy

theorem own_eq (σ : Store) (o : ObjectId) (key : PropertyKey) :
    σ.own o key = (σ.settled o).ownProperty? σ.scopes key := by
  obtain ⟨hmade, hobject⟩ := run_materialize o σ
  show (((materialize o).run σ).2.object o).ownProperty? ((materialize o).run σ).2.scopes key = _
  rw [hobject, hmade.scopes]
  rfl

theorem modifyObject_eq (σ : Store) (o : ObjectId) (f : Object → Object) :
    σ.modifyObject o f = σ.setObject o (f (σ.object o)) := by
  unfold modifyObject setObject object
  congr 1
  apply Array.ext_getElem?
  intro i
  rw [Array.getElem?_modify, Array.getElem?_setIfInBounds]
  split
  case isTrue h =>
    subst h
    rcases Nat.lt_or_ge o.index σ.objects.size with hlt | hge
    · simp [hlt]
    · simp [hge]
  case isFalse => rfl

theorem setObject_self (σ : Store) (o : ObjectId) : σ.setObject o (σ.object o) = σ := by
  have hsame : σ.objects.setIfInBounds o.index (σ.object o) = σ.objects := by
    apply Array.ext_getElem?
    intro i
    rw [Array.getElem?_setIfInBounds]
    split
    case isTrue h =>
      subst h
      split
      case isTrue hlt => simp [object, hlt]
      case isFalse hge => simp [hge]
    case isFalse => rfl
  rw [setObject, hsame]

theorem setObject_of_size_le (h : σ.objects.size ≤ o.index) (x : Object) : σ.setObject o x = σ := by
  unfold setObject
  rw [Array.setIfInBounds_eq_of_size_le h]

end Settled

/-- An object is replaced, if it is one of the store; all else stays as it is, but for objects that are made. -/
structure Updates (σ : Store) (o : ObjectId) (x : Object) (σ' : Store) : Prop where
  size : σ'.objects.size = σ.objects.size
  scopes : σ'.scopes = σ.scopes
  programs : σ'.programs = σ.programs
  objects : ∀ p, σ'.settled p = if p = o ∧ o.index < σ.objects.size then x else σ.settled p
  unmade : ∀ p, (σ'.object p).kind.isLazy = true → σ'.object p = σ.object p

namespace Updates

variable {σ σ' : Store} {o p : ObjectId} {x : Object}

theorem self (h : Updates σ o x σ') (ho : o.index < σ.objects.size) : σ'.settled o = x :=
  (h.objects o).trans (if_pos ⟨rfl, ho⟩)

theorem of_setObject (hmade : Makes σ σ') (hx : x.kind.isLazy = false) : Updates σ o x (σ'.setObject o x) := by
  have hobject : ∀ p, (σ'.setObject o x).object p = if p = o ∧ o.index < σ.objects.size then x else σ'.object p := by
    intro p
    rcases Nat.lt_or_ge o.index σ.objects.size with hlt | hge
    · rw [object_setObject (by rw [hmade.size]; exact hlt)]
      simp only [hlt, and_true]
    · rw [setObject_of_size_le (by rw [hmade.size]; exact hge), if_neg fun h => by omega]
  refine ⟨Array.size_setIfInBounds.trans hmade.size, hmade.scopes, hmade.programs, fun p => ?_, fun p hlazy => ?_⟩
  · rw [settled, hobject]
    split
    · exact Object.settled_of_not_isLazy hx
    · exact hmade.settled_eq p
  · rw [hobject] at hlazy ⊢
    split at hlazy
    · rw [hx] at hlazy
      cases hlazy
    · rw [if_neg ‹_›]
      exact hmade.unmade hlazy

end Updates

/-! ### Assigning -/

/-- What an assignment answers and does. -/
inductive Assigning (σ : Store) (o : ObjectId) (key : PropertyKey) (v : Value) (strict : Bool) :
    Outcome Bool × Store → Prop where
  | done {x : Object} {σ' : Store} (assigned : (σ.settled o).Assigned key v x) (updates : Updates σ o x σ') :
      Assigning σ o key v strict (.ok true, σ')
  /-- The slot of the parameter is written instead, if the record has one. -/
  | parameter {scope : ScopeId} {mapped : List Bool} {i : Nat} {σ' : Store}
      (kind : (σ.settled o).kind = .arguments scope mapped) (index : Object.mappedIndex? mapped key = some i)
      (made : Makes (σ.modifyScope scope fun s => { s with slots := s.slots.setIfInBounds i v }) σ') :
      Assigning σ o key v strict (.ok true, σ')
  | refused {σ' : Store} (made : Makes σ σ') :
      Assigning σ o key v strict (granted false strict (.readOnly key.display), σ')
  | invalid {elements : Array Value} {σ' : Store} (kind : (σ.settled o).kind = .array elements)
      (isLength : key = .length) (invalid : arrayLength? v = none) (made : Makes σ σ') :
      Assigning σ o key v strict (.error (.range .arrayLength), σ')

section Assign

variable {σ σ₁ : Store} {o : ObjectId} {key : PropertyKey} {v : Value} {strict : Bool}

theorem assignByKind_of_inTable (h : (σ.object o).InTable key) : assignByKind σ o key v = .ok (none, σ) := by
  cases hkind : (σ.object o).kind with
  | array elements =>
    obtain ⟨hindex, hlength⟩ := Object.inTable_of_array h hkind
    simp only [assignByKind, hkind, hindex, if_neg hlength]
  | «arguments» scope mapped => simp only [assignByKind, hkind, Object.inTable_of_arguments h hkind]
  | primitive w =>
    cases w with
    | text t => simp [assignByKind, hkind, Object.inTable_of_text h hkind]
    | _ => simp only [assignByKind, hkind]
  | _ => simp only [assignByKind, hkind]

theorem makes_modifyScope (h : Makes σ σ₁) (s : ScopeId) (f : Scope → Scope) :
    Makes (σ.modifyScope s f) (σ₁.modifyScope s f) where
  scopes := by simp only [modifyScope, h.scopes]
  programs := h.programs
  cells := h.cells
  size := h.size
  objects := h.objects

theorem run_assignInTable_of_some {p : Property} (h : (σ.object o).properties.find? key = some p) :
    (assignInTable o key v).run σ =
      if p.writable then
        (true, σ.setObject o { σ.object o with
          properties := (σ.object o).properties.insert key { p with value := v } })
      else (false, σ) := by
  unfold assignInTable
  rw [run_get_bind]
  dsimp only
  rw [h]
  cases hw : p.writable <;> simp only [hw] <;> rfl

theorem run_assignInTable_of_none (h : (σ.object o).properties.find? key = none) :
    ∃ σ', Makes σ σ' ∧ ((assignInTable o key v).run σ = (false, σ') ∨
      (σ.object o).extensible = true ∧ (assignInTable o key v).run σ =
        (true, σ'.modifyObject o fun x => { x with properties := x.properties.insert key (.plain v) })) := by
  obtain ⟨inherited, hreads, hrun⟩ : ∃ inherited : Op (Option Property), Reads inherited ∧
      (assignInTable o key v).run σ =
        if (((inherited.run σ).1.any fun p => !p.writable) || !(σ.object o).extensible) = true then
          (false, (inherited.run σ).2)
        else (true, (inherited.run σ).2.modifyObject o fun x =>
          { x with properties := x.properties.insert key (.plain v) }) := by
    unfold assignInTable
    rw [run_get_bind]
    dsimp only
    rw [h]
    cases (σ.object o).prototype with
    | some p =>
      refine ⟨find? p key, reads_find p key, ?_⟩
      rw [run_bind]
      split <;> rfl
    | none =>
      refine ⟨Pure.pure none, .pure none, ?_⟩
      rw [run_bind]
      split <;> rfl
  refine ⟨_, (hreads σ).1, ?_⟩
  rw [hrun]
  split
  case isTrue => exact .inl rfl
  case isFalse hfree =>
    rw [Bool.or_eq_true, not_or] at hfree
    exact .inr ⟨by simpa using hfree.2, rfl⟩

theorem assigning_inTable (hmade : Makes σ σ₁) (hobject : σ₁.object o = σ.settled o)
    (htable : (σ.settled o).InTable key) :
    Assigning σ o key v strict
      (granted ((assignInTable o key v).run σ₁).1 strict (.readOnly key.display),
        ((assignInTable o key v).run σ₁).2) := by
  have hlazy := Object.isLazy_settled (σ.object o)
  cases hcurrent : (σ.settled o).properties.find? key with
  | some p =>
    rw [run_assignInTable_of_some (by rw [hobject]; exact hcurrent), hobject]
    split
    case isTrue hw => exact .done (.written htable hcurrent hw) (.of_setObject hmade hlazy)
    case isFalse => exact .refused hmade
  | none =>
    obtain ⟨σ₂, hmade₂, hrun | ⟨hextensible, hrun⟩⟩ :=
      run_assignInTable_of_none (show (σ₁.object o).properties.find? key = none by rw [hobject]; exact hcurrent)
      <;> rw [hrun]
    · exact .refused (hmade.trans hmade₂)
    · have hobject₂ : σ₂.object o = σ.settled o :=
        (hmade₂.object_eq (by rw [hobject]; exact Object.settled_settled _)).trans hobject
      rw [modifyObject_eq, hobject₂]
      rw [hobject] at hextensible
      exact .done (.added htable hcurrent hextensible) (.of_setObject (hmade.trans hmade₂) hlazy)

theorem run_assign (σ : Store) (o : ObjectId) (key : PropertyKey) (v : Value) (strict : Bool) :
    (assign o key v strict).run σ =
      match assignByKind ((materialize o).run σ).2 o key v with
      | .error f => (.error f, ((materialize o).run σ).2)
      | .ok (some ok, σ') => (granted ok strict (.readOnly key.display), σ')
      | .ok (none, _) =>
        (granted ((assignInTable o key v).run ((materialize o).run σ).2).1 strict (.readOnly key.display),
          ((assignInTable o key v).run ((materialize o).run σ).2).2) := by
  unfold assign
  rw [run_bind, run_get_bind]
  generalize assignByKind _ o key v = r
  rcases r with f | ⟨_ | ok, σ'⟩ <;> rfl

theorem assigning (σ : Store) (o : ObjectId) (key : PropertyKey) (v : Value) (strict : Bool) :
    Assigning σ o key v strict ((assign o key v strict).run σ) := by
  obtain ⟨hmade, hobject⟩ := run_materialize o σ
  rw [run_assign]
  generalize ((materialize o).run σ).2 = σ₁ at hmade hobject ⊢
  change σ₁.object o = σ.settled o at hobject
  by_cases htable : (σ.settled o).InTable key
  · rw [assignByKind_of_inTable (by rw [hobject]; exact htable)]
    exact assigning_inTable hmade hobject htable
  rcases Object.not_inTable htable with ⟨elements, i, hkind, hindex⟩ | ⟨elements, hkind, rfl⟩ | ⟨t, hkind, htext⟩ |
    ⟨scope, mapped, i, hkind, hindex⟩
  · have hby : assignByKind σ₁ o key v =
        if elements.size ≤ i ∧ !(σ.settled o).extensible then .ok (some false, σ₁)
        else .ok (some true, σ₁.setObject o { σ.settled o with kind := .array (setElement elements i v) }) := by
      simp only [assignByKind, hobject, hkind, hindex]
    rw [hby]
    by_cases hfull : elements.size ≤ i ∧ !(σ.settled o).extensible
    · rw [if_pos hfull]
      exact .refused hmade
    · rw [if_neg hfull]
      refine .done (.element hkind hindex ?_) (.of_setObject hmade rfl)
      cases hextensible : (σ.settled o).extensible with
      | true => exact .inr rfl
      | false => exact .inl (by simpa [hextensible] using hfull)
  · cases hvalid : arrayLength? v with
    | some n =>
      have hby : assignByKind σ₁ o .length v =
          .ok (some true, σ₁.setObject o { σ.settled o with kind := .array (resize elements n) }) := by
        simp only [assignByKind, hobject, hkind, PropertyKey.index?_length, if_true, hvalid]
      rw [hby]
      exact .done (.length hkind rfl hvalid) (.of_setObject hmade rfl)
    | none =>
      have hby : assignByKind σ₁ o .length v = .error (.range .arrayLength) := by
        simp only [assignByKind, hobject, hkind, PropertyKey.index?_length, if_true, hvalid]
      rw [hby]
      exact .invalid hkind rfl hvalid hmade
  · have hby : assignByKind σ₁ o key v = .ok (some false, σ₁) := by
      simp only [assignByKind, hobject, hkind, if_pos htext]
    rw [hby]
    exact .refused hmade
  · have hby : assignByKind σ₁ o key v =
        .ok (some true, σ₁.modifyScope scope fun s => { s with slots := s.slots.setIfInBounds i v }) := by
      simp only [assignByKind, hobject, hkind, hindex]
    rw [hby]
    exact .parameter hkind hindex (makes_modifyScope hmade _ _)

end Assign

/-! ### Defining -/

/-- What a definition answers and does. -/
inductive Defining (σ : Store) (o : ObjectId) (key : PropertyKey) (p : Property) (strict : Bool) :
    Outcome Bool × Store → Prop where
  | done {x : Object} {σ' : Store} (allowed : mayDefine (σ.settled o).extensible (σ.own o key) p = true)
      (defined : (σ.settled o).Defined key p x) (updates : Updates σ o x σ') :
      Defining σ o key p strict (.ok true, σ')
  | refused {σ' : Store} (forbidden : mayDefine (σ.settled o).extensible (σ.own o key) p = false) (made : Makes σ σ') :
      Defining σ o key p strict (granted false strict (.redefinition key.display), σ')
  | invalid {elements : Array Value} {σ' : Store} (kind : (σ.settled o).kind = .array elements)
      (isLength : key = .length) (invalid : arrayLength? p.value = none) (made : Makes σ σ') :
      Defining σ o key p strict (.error (.range .arrayLength), σ')

theorem defineAllowed_cases (σ : Store) (o : ObjectId) (key : PropertyKey) (p : Property) :
    (∃ x, (σ.object o).Defined key p x ∧ defineAllowed σ o key p = .ok (σ.setObject o x)) ∨
      ∃ elements, (σ.object o).kind = .array elements ∧ key = .length ∧ arrayLength? p.value = none ∧
        defineAllowed σ o key p = .error (.range .arrayLength) := by
  cases hkind : (σ.object o).kind with
  | array elements =>
    cases hindex : key.index? with
    | some i =>
      refine .inl ⟨_, .element hkind hindex, ?_⟩
      simp only [defineAllowed, hkind, hindex]
    | none =>
      by_cases hlength : key = .length
      · cases hvalid : arrayLength? p.value with
        | some n =>
          refine .inl ⟨_, .length hkind hlength hvalid, ?_⟩
          simp only [defineAllowed, hkind, hindex, if_pos hlength, hvalid]
        | none =>
          refine .inr ⟨elements, rfl, hlength, rfl, ?_⟩
          simp only [defineAllowed, hkind, hindex, if_pos hlength, hvalid]
      · refine .inl ⟨_, .stored (fun _ _ => ⟨hindex, hlength⟩) (fun _ _ h => ?_), ?_⟩
        · rw [hkind] at h
          cases h
        · simp only [defineAllowed, hkind, hindex, if_neg hlength]
  | «arguments» scope mapped =>
    cases hindex : Object.mappedIndex? mapped key with
    | some i =>
      refine .inl ⟨_, .unmapped hkind hindex, ?_⟩
      simp only [defineAllowed, hkind, hindex]
    | none =>
      refine .inl ⟨_, .stored (fun _ h => ?_) (fun _ _ h => ?_), ?_⟩
      · rw [hkind] at h
        cases h
      · rw [hkind] at h
        cases h
        exact hindex
      · simp only [defineAllowed, hkind, hindex]
  | _ =>
    refine .inl ⟨_, .stored (fun _ h => ?_) (fun _ _ h => ?_), ?_⟩
    · rw [hkind] at h
      cases h
    · rw [hkind] at h
      cases h
    · simp only [defineAllowed, hkind]

theorem run_define (σ : Store) (o : ObjectId) (key : PropertyKey) (p : Property) (strict : Bool) :
    (define o key p strict).run σ =
      if mayDefine (((materialize o).run σ).2.object o).extensible (σ.own o key) p then
        match defineAllowed ((materialize o).run σ).2 o key p with
        | .ok σ' => (.ok true, σ')
        | .error f => (.error f, ((materialize o).run σ).2)
      else (granted false strict (.redefinition key.display), ((materialize o).run σ).2) := by
  unfold define
  rw [run_bind, run_get_bind]
  have hstore : ((ownProperty? o key).run σ).2 = ((materialize o).run σ).2 := rfl
  rw [hstore]
  change StateT.run (if mayDefine _ (σ.own o key) p then _ else _) _ = _
  split
  case isTrue =>
    generalize defineAllowed _ o key p = r
    cases r <;> rfl
  case isFalse => rfl

theorem defining (σ : Store) (o : ObjectId) (key : PropertyKey) (p : Property) (strict : Bool) :
    Defining σ o key p strict ((define o key p strict).run σ) := by
  obtain ⟨hmade, hobject⟩ := run_materialize o σ
  rw [run_define]
  generalize ((materialize o).run σ).2 = σ₁ at hmade hobject ⊢
  change σ₁.object o = σ.settled o at hobject
  have hlazy : (σ.settled o).kind.isLazy = false := Object.isLazy_settled _
  rw [hobject]
  cases hallowed : mayDefine (σ.settled o).extensible (σ.own o key) p with
  | false => exact .refused hallowed hmade
  | true =>
    have hcases := defineAllowed_cases σ₁ o key p
    rw [hobject] at hcases
    rcases hcases with ⟨x, hdefined, heq⟩ | ⟨elements, hkind, hlength, hinvalid, heq⟩
    · rw [heq]
      exact .done hallowed hdefined (.of_setObject hmade (hdefined.isLazy hlazy))
    · rw [heq]
      exact .invalid hkind hlength hinvalid hmade

/-! ### Deleting -/

/-- What a deletion answers and does. -/
inductive Deleting (σ : Store) (o : ObjectId) (key : PropertyKey) (strict : Bool) : Outcome Bool × Store → Prop where
  | done {x : Object} {σ' : Store} (deleted : (σ.settled o).Deleted key x) (updates : Updates σ o x σ') :
      Deleting σ o key strict (.ok true, σ')
  | refused {σ' : Store} (made : Makes σ σ') :
      Deleting σ o key strict (granted false strict (.undeletable key.display), σ')

def deletion (x : Object) (key : PropertyKey) : Bool × Object :=
  match deleteByKind x key with
  | some r => r
  | none => match x.properties.find? key with
    | some p => if p.configurable then (true, { x with properties := x.properties.erase key }) else (false, x)
    | none => (true, x)

theorem run_delete (σ : Store) (o : ObjectId) (key : PropertyKey) (strict : Bool) :
    (delete o key strict).run σ =
      (granted (deletion (((materialize o).run σ).2.object o) key).1 strict (.undeletable key.display),
        ((materialize o).run σ).2.setObject o (deletion (((materialize o).run σ).2.object o) key).2) := rfl

theorem deleteByKind_of_inTable (h : x.InTable key) : deleteByKind x key = none := by
  cases hkind : x.kind with
  | array elements =>
    obtain ⟨hindex, hlength⟩ := Object.inTable_of_array h hkind
    simp only [deleteByKind, hkind, hindex, if_neg hlength]
  | «arguments» scope mapped => simp only [deleteByKind, hkind, Object.inTable_of_arguments h hkind, Option.map_none]
  | primitive w =>
    cases w with
    | text t => simp [deleteByKind, hkind, Object.inTable_of_text h hkind]
    | _ => simp only [deleteByKind, hkind]
  | _ => simp only [deleteByKind, hkind]

theorem deletion_cases (x : Object) (key : PropertyKey) :
    (∃ y, x.Deleted key y ∧ deletion x key = (true, y)) ∨ deletion x key = (false, x) := by
  by_cases htable : x.InTable key
  · unfold deletion
    rw [deleteByKind_of_inTable htable]
    cases hcurrent : x.properties.find? key with
    | none => exact .inl ⟨x, .missing htable hcurrent, rfl⟩
    | some p =>
      cases hconfigurable : p.configurable with
      | true => exact .inl ⟨_, .erased htable hcurrent hconfigurable, by simp [hconfigurable]⟩
      | false => exact .inr (by simp [hconfigurable])
  rcases Object.not_inTable htable with ⟨elements, i, hkind, hindex⟩ | ⟨elements, hkind, rfl⟩ | ⟨t, hkind, htext⟩ |
    ⟨scope, mapped, i, hkind, hindex⟩
  · exact .inl ⟨_, .element hkind hindex, by simp only [deletion, deleteByKind, hkind, hindex]⟩
  · exact .inr (by simp only [deletion, deleteByKind, hkind, PropertyKey.index?_length, if_true])
  · exact .inr (by simp only [deletion, deleteByKind, hkind, if_pos htext])
  · exact .inl ⟨_, .unmapped hkind hindex, by simp only [deletion, deleteByKind, hkind, hindex, Option.map_some]⟩

theorem deleting (σ : Store) (o : ObjectId) (key : PropertyKey) (strict : Bool) :
    Deleting σ o key strict ((delete o key strict).run σ) := by
  obtain ⟨hmade, hobject⟩ := run_materialize o σ
  rw [run_delete]
  generalize ((materialize o).run σ).2 = σ₁ at hmade hobject ⊢
  change σ₁.object o = σ.settled o at hobject
  rw [hobject]
  rcases deletion_cases (σ.settled o) key with ⟨y, hdeleted, heq⟩ | heq <;> rw [heq]
  · exact .done hdeleted (.of_setObject hmade (hdeleted.isLazy (Object.isLazy_settled _)))
  · rw [← hobject, setObject_self]
    exact .refused hmade

/-! ### Any of the operations -/

/-- Operations that change objects, and writing to a slot, which arguments objects may stand for. -/
inductive Operation where
  | assign (o : ObjectId) (key : PropertyKey) (v : Value) (strict : Bool)
  | define (o : ObjectId) (key : PropertyKey) (p : Property) (strict : Bool)
  | put (o : ObjectId) (key : PropertyKey) (v : Value)
  | delete (o : ObjectId) (key : PropertyKey) (strict : Bool)
  | pushItem (o : ObjectId) (v : Value)
  | setPrototype (o : ObjectId) (prototype : Option ObjectId)
  | preventExtensions (o : ObjectId)
  | materialize (o : ObjectId)
  | writeSlot (s : ScopeId) (i : Nat) (v : Value)

def perform (σ : Store) : Operation → Store
  | .assign o key v strict => ((assign o key v strict).run σ).2
  | .define o key p strict => ((define o key p strict).run σ).2
  | .put o key v => ((put o key v).run σ).2
  | .delete o key strict => ((delete o key strict).run σ).2
  | .pushItem o v => ((pushItem o v).run σ).2
  | .setPrototype o prototype => ((setPrototype o prototype).run σ).2
  | .preventExtensions o => ((preventExtensions o).run σ).2
  | .materialize o => ((materialize o).run σ).2
  | .writeSlot s i v => σ.modifyScope s fun x => { x with slots := x.slots.setIfInBounds i v }

def performAll (σ : Store) (ops : List Operation) : Store := ops.foldl perform σ

/-- What an operation does to objects. -/
inductive Effect (σ : Store) : Operation → Store → Prop where
  | assigned {o : ObjectId} {key : PropertyKey} {v : Value} {strict : Bool} {x : Object} {σ' : Store}
      (assigned : (σ.settled o).Assigned key v x) (updates : Updates σ o x σ') :
      Effect σ (.assign o key v strict) σ'
  | defined {op : Operation} {o : ObjectId} {key : PropertyKey} {p : Property} {x : Object} {σ' : Store}
      (asked : (∃ strict, op = .define o key p strict) ∨ op = .put o key p.value)
      (allowed : mayDefine (σ.settled o).extensible (σ.own o key) p = true)
      (defined : (σ.settled o).Defined key p x) (updates : Updates σ o x σ') : Effect σ op σ'
  | deleted {o : ObjectId} {key : PropertyKey} {strict : Bool} {x : Object} {σ' : Store}
      (deleted : (σ.settled o).Deleted key x) (updates : Updates σ o x σ') : Effect σ (.delete o key strict) σ'
  | pushed {o : ObjectId} {v : Value} {elements : Array Value} {σ' : Store}
      (kind : (σ.settled o).kind = .array elements) (room : elements.size < Text.indexBound)
      (updates : Updates σ o { σ.settled o with kind := .array (elements.push v) } σ') :
      Effect σ (.pushItem o v) σ'
  | inherits {o : ObjectId} {prototype : Option ObjectId} {σ' : Store} (extensible : (σ.settled o).extensible = true)
      (apart : ((reachesWithin o σ.objects.size prototype).run σ).1 = false)
      (updates : Updates σ o { σ.settled o with prototype } σ') : Effect σ (.setPrototype o prototype) σ'
  | closed {o : ObjectId} {σ' : Store} (updates : Updates σ o { σ.settled o with extensible := false } σ') :
      Effect σ (.preventExtensions o) σ'
  /-- A slot is written, for an index of an arguments object or by itself. -/
  | written {op : Operation} {s : ScopeId} {i : Nat} {v : Value} {σ' : Store}
      (asked : (∃ o key strict, op = .assign o key v strict) ∨ op = .writeSlot s i v)
      (made : Makes (σ.modifyScope s fun x => { x with slots := x.slots.setIfInBounds i v }) σ') : Effect σ op σ'
  | kept {op : Operation} {σ' : Store} (made : Makes σ σ') : Effect σ op σ'

section Effect

variable {σ σ' : Store} {o : ObjectId} {strict : Bool} {r : Outcome Bool × Store}

theorem reads_reachesWithin (o : ObjectId) (n : Nat) (start : Option ObjectId) : Reads (reachesWithin o n start) := by
  induction n generalizing start with
  | zero => cases start <;> exact .pure _
  | succ n ih =>
    cases start with
    | none => exact .pure _
    | some p =>
      unfold reachesWithin
      split
      · exact .pure true
      · exact ((reads_made p).bind fun x => .pure x.prototype).bind ih

theorem run_setPrototype (σ : Store) (o : ObjectId) (prototype : Option ObjectId) :
    (setPrototype o prototype).run σ =
      let σ₁ := ((materialize o).run σ).2
      let r := (reachesWithin o σ₁.objects.size prototype).run σ₁
      if r.1 then (false, r.2)
      else if (r.2.object o).extensible then (true, r.2.modifyObject o fun x => { x with prototype })
      else (decide ((r.2.object o).prototype = prototype), r.2) := by
  unfold setPrototype
  rw [run_bind, run_get_bind, run_bind]
  dsimp only
  split
  · rfl
  · rw [run_get_bind]
    split <;> rfl

/-- The prototype is set only if the object is extensible; otherwise success says that it is the one there is. -/
theorem setPrototype_cases (σ : Store) (o : ObjectId) (prototype : Option ObjectId) :
    ((σ.settled o).extensible = true ∧ ((reachesWithin o σ.objects.size prototype).run σ).1 = false ∧
      Updates σ o { σ.settled o with prototype } ((setPrototype o prototype).run σ).2) ∨
    Makes σ ((setPrototype o prototype).run σ).2 ∧
      (((setPrototype o prototype).run σ).1 = true → (σ.settled o).prototype = prototype) := by
  obtain ⟨hmade, hobject⟩ := run_materialize o σ
  rw [run_setPrototype]
  dsimp only
  generalize ((materialize o).run σ).2 = σ₁ at hmade hobject ⊢
  have hmade₂ := (reads_reachesWithin o σ₁.objects.size prototype σ₁).1
  have hanswer := (reads_reachesWithin o σ₁.objects.size prototype).answer hmade
  rw [← hmade.size, ← hanswer]
  generalize (reachesWithin o σ₁.objects.size prototype).run σ₁ = r at hmade₂ ⊢
  obtain ⟨reached, σ₂⟩ := r
  have hobject₂ : σ₂.object o = σ.settled o :=
    (hmade₂.object_eq (by rw [hobject]; exact Object.settled_settled _)).trans hobject
  rw [hobject₂]
  cases reached with
  | true => exact .inr ⟨hmade.trans hmade₂, fun h => by cases h⟩
  | false =>
    by_cases hextensible : (σ.settled o).extensible = true
    · refine .inl ⟨hextensible, rfl, ?_⟩
      rw [if_pos hextensible, modifyObject_eq, hobject₂]
      exact .of_setObject (hmade.trans hmade₂) (Object.isLazy_settled (σ.object o))
    · rw [if_neg hextensible]
      exact .inr ⟨hmade.trans hmade₂, fun h => of_decide_eq_true h⟩

theorem Assigning.effect {v : Value}
    (h : Assigning σ o key v strict r) : Effect σ (.assign o key v strict) r.2 := by
  cases h with
  | done assigned updates => exact .assigned assigned updates
  | parameter kind index made => exact .written (.inl ⟨_, _, _, rfl⟩) made
  | refused made | invalid _ _ _ made => exact .kept made

theorem Defining.effect {p : Property} {op : Operation} (h : Defining σ o key p strict r)
    (hop : (∃ strict, op = .define o key p strict) ∨ op = .put o key p.value) : Effect σ op r.2 := by
  cases h with
  | done allowed defined updates => exact .defined hop allowed defined updates
  | refused _ made | invalid _ _ _ made => exact .kept made

theorem Deleting.effect (h : Deleting σ o key strict r) :
    Effect σ (.delete o key strict) r.2 := by
  cases h with
  | done deleted updates => exact .deleted deleted updates
  | refused made => exact .kept made

theorem pushItem_cases (σ : Store) (o : ObjectId) (v : Value) :
    Makes σ ((pushItem o v).run σ).2 ∨ ∃ elements, (σ.settled o).kind = .array elements ∧ elements.size < Text.indexBound ∧
      Updates σ o { σ.settled o with kind := .array (elements.push v) } ((pushItem o v).run σ).2 := by
  unfold pushItem
  rw [run_get_bind]
  split
  case h_1 elements hkind =>
    have hsettled : σ.settled o = σ.object o := Object.settled_of_not_isLazy (by rw [hkind]; rfl)
    split
    case isTrue => exact .inl (.refl σ)
    case isFalse hroom =>
      refine .inr ⟨elements, hsettled ▸ hkind, Nat.not_le.mp hroom, ?_⟩
      change Updates σ o _ (σ.modifyObject o _)
      rw [modifyObject_eq, hsettled]
      exact .of_setObject (.refl σ) rfl
  case h_2 => exact .inl (.refl σ)

theorem updates_preventExtensions (σ : Store) (o : ObjectId) :
    Updates σ o { σ.settled o with extensible := false } ((preventExtensions o).run σ).2 := by
  obtain ⟨hmade, hobject⟩ := run_materialize o σ
  change Updates σ o _ (((materialize o).run σ).2.modifyObject o _)
  rw [modifyObject_eq, hobject]
  exact .of_setObject hmade (Object.isLazy_settled _)

theorem effect (σ : Store) (op : Operation) : Effect σ op (σ.perform op) := by
  cases op with
  | assign o key v strict => exact (assigning σ o key v strict).effect
  | define o key p strict => exact (defining σ o key p strict).effect (.inl ⟨strict, rfl⟩)
  | put o key v => exact (defining σ o key (.plain v) false).effect (.inr rfl)
  | delete o key strict => exact (deleting σ o key strict).effect
  | pushItem o v =>
    rcases pushItem_cases σ o v with hmade | ⟨elements, hkind, hroom, hupdates⟩
    · exact .kept hmade
    · exact .pushed hkind hroom hupdates
  | setPrototype o prototype =>
    rcases setPrototype_cases σ o prototype with ⟨hextensible, hreach, hupdates⟩ | ⟨hmade, -⟩
    · exact .inherits hextensible hreach hupdates
    · exact .kept hmade
  | preventExtensions o => exact .closed (updates_preventExtensions σ o)
  | materialize o => exact .kept (run_materialize o σ).1
  | writeSlot s i v => exact .written (.inr rfl) (.refl _)

end Effect

end Store

end ScriptMachine
