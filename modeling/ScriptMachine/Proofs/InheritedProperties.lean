import ScriptMachine.Proofs.KeyLoops
import ScriptMachine.Proofs.ReadBack

/-!
# Inherited properties that are read only

An assignment to a key without an own property is meant to be refused if the property that the object inherits is read
only.  Two kinds of assignments never look at the prototypes.

* `Store.Nearest σ key start path p` — from `start` on, `p` is the first property with the key.  It is found by the
  search along the chain, which has a bound (`Store.Nearest.answer_find`).

Main result: `Store.inherited_readOnly_forbids`.
-/

namespace ScriptMachine

namespace Store

/-! ### The nearest property -/

/-- The first property with a key from a start along the prototypes, with the objects up to the one that has it. -/
inductive Nearest (σ : Store) (key : PropertyKey) : Option ObjectId → List ObjectId → Property → Prop where
  | own {o : ObjectId} {p : Property} (found : σ.own o key = some p) : Nearest σ key (some o) [o] p
  | inherited {o : ObjectId} {path : List ObjectId} {p : Property} (absent : σ.own o key = none)
      (rest : Nearest σ key (σ.settled o).prototype path p) : Nearest σ key (some o) (o :: path) p

section Nearest

variable {σ : Store} {key : PropertyKey} {start : Option ObjectId} {o q : ObjectId} {path : List ObjectId} {p : Property}

theorem Nearest.route (h : Nearest σ key start path p) (hstart : start = some o) :
    Route (fun o => if (σ.own o key).isSome then none else (σ.settled o).prototype) o path := by
  induction h generalizing o with
  | own found =>
    cases hstart
    exact .last (by simp [found])
  | @inherited q _ _ absent rest ih =>
    cases hstart
    cases hprototype : (σ.settled q).prototype with
    | none =>
      rw [hprototype] at rest
      cases rest
    | some r => exact .step (by simp [absent, hprototype]) (ih hprototype)

theorem own_of_size_le (h : σ.objects.size ≤ o.index) (key : PropertyKey) : σ.own o key = none := by
  rw [own_eq, settled_of_size_le h]
  rfl

/-- What is not in the store has neither properties nor a prototype. -/
theorem Nearest.known (h : Nearest σ key start path p) : ∀ q ∈ path, q.index < σ.objects.size := by
  induction h with
  | @own o _ found =>
    intro q hq
    obtain rfl := List.mem_singleton.mp hq
    by_contra hge
    rw [own_of_size_le (Nat.le_of_not_lt hge)] at found
    cases found
  | @inherited o _ _ _ rest ih =>
    intro q hq
    rcases List.mem_cons.mp hq with rfl | hmem
    · by_contra hge
      rw [settled_of_size_le (Nat.le_of_not_lt hge)] at rest
      cases rest
    · exact ih q hmem

/-- The way to the nearest property is no longer than there are objects, whether or not the chain ends. -/
theorem Nearest.length_le (h : Nearest σ key start path p) : path.length ≤ σ.objects.size := by
  obtain ⟨o, rfl⟩ : ∃ o, start = some o := by cases h <;> exact ⟨_, rfl⟩
  exact length_le_of_nodup ObjectId.index_injective (h.route rfl).nodup h.known

theorem Nearest.answer_findWithin (h : Nearest σ key (some o) path p) {n : Nat} (hn : path.length ≤ n) :
    ((findWithin key n o).run σ).1 = some p := by
  induction n generalizing o path with
  | zero => cases h <;> cases hn
  | succ n ih =>
    rw [Store.answer_findWithin]
    cases h with
    | own found => rw [found]
    | inherited absent rest =>
      rw [absent]
      cases hprototype : (σ.settled o).prototype with
      | none =>
        rw [hprototype] at rest
        cases rest
      | some q =>
        rw [hprototype] at rest
        exact ih rest (Nat.le_of_succ_le_succ hn)

theorem Nearest.answer_find (h : Nearest σ key (some o) path p) : ((find? o key).run σ).1 = some p :=
  h.answer_findWithin h.length_le

end Nearest

/-! ### Assignments that look at the prototypes -/

section Guarded

variable {σ : Store} {o q : ObjectId} {key : PropertyKey} {v : Value} {strict : Bool} {p : Property}

theorem run_assignInTable_of_inherited (hnew : (σ.object o).properties.find? key = none)
    (hprototype : (σ.object o).prototype = some q) (hfind : ((find? q key).run σ).1 = some p)
    (hreadOnly : p.writable = false) : ((assignInTable o key v).run σ).1 = false := by
  unfold assignInTable
  rw [run_get_bind]
  dsimp only
  rw [hnew, hprototype]
  rw [run_bind, hfind]
  simp only [Option.any_some, hreadOnly]
  rfl

theorem answer_assign_of_inherited {path : List ObjectId} (htable : (σ.settled o).InTable key)
    (hnew : (σ.settled o).properties.find? key = none) (hnearest : Nearest σ key (σ.settled o).prototype path p)
    (hreadOnly : p.writable = false) :
    ((assign o key v strict).run σ).1 = granted false strict (.readOnly key.display) := by
  obtain ⟨hmade, hobject⟩ := run_materialize o σ
  cases hprototype : (σ.settled o).prototype with
  | none =>
    rw [hprototype] at hnearest
    cases hnearest
  | some q =>
    rw [hprototype] at hnearest
    have hfind := ((reads_find q key).answer hmade).trans hnearest.answer_find
    rw [run_assign]
    generalize ((materialize o).run σ).2 = σ₁ at hobject hfind ⊢
    rw [assignByKind_of_inTable (by rw [hobject]; exact htable)]
    rw [run_assignInTable_of_inherited (by rw [hobject]; exact hnew) (by rw [hobject]; exact hprototype) hfind hreadOnly]

end Guarded

end Store

/-! ### Assignments that do not -/

namespace Object

/-- The key has no own property and is assigned to without a look at the prototypes: an index of an array that has room for
it, or one beyond the end of a wrapped text for which the property table has an entry that is not read only. -/
inductive Unguarded (x : Object) (key : PropertyKey) : Prop where
  | element {elements : Array Value} {i : Nat} (kind : x.kind = .array elements) (index : key.index? = some i)
      (room : i < elements.size ∨ x.extensible = true)
  | hidden {p : Property} (beyond : x.Beyond key) (current : x.properties.find? key = some p)
      (writable : p.writable = true)

theorem inTable_of_beyond {x : Object} {key : PropertyKey} (h : x.Beyond key) : x.InTable key := by
  obtain ⟨t, i, hkind, hindex, hge⟩ := h
  have hlength : key ≠ .length := by
    rintro rfl
    cases hindex
  simp [InTable, hkind, Store.isTextKey, hindex, hlength, hge]

end Object

namespace Store

section Unguarded

variable {σ : Store} {o : ObjectId} {key : PropertyKey} {v : Value} {strict : Bool}

theorem run_assign_element {elements : Array Value} {i : Nat} (hkind : (σ.settled o).kind = .array elements)
    (hindex : key.index? = some i) (hroom : i < elements.size ∨ (σ.settled o).extensible = true) (v : Value)
    (strict : Bool) :
    ∃ σ', (assign o key v strict).run σ = (.ok true, σ') ∧
      Updates σ o { σ.settled o with kind := .array (setElement elements i v) } σ' := by
  obtain ⟨hmade, hobject⟩ := run_materialize o σ
  rw [run_assign]
  generalize ((materialize o).run σ).2 = σ₁ at hmade hobject ⊢
  change σ₁.object o = σ.settled o at hobject
  have hfree : ¬ (elements.size ≤ i ∧ !(σ.settled o).extensible) := by
    rintro ⟨hle, hclosed⟩
    rcases hroom with hlt | hextensible
    · omega
    · rw [hextensible] at hclosed
      cases hclosed
  simp only [assignByKind, hobject, hkind, hindex, if_neg hfree]
  exact ⟨_, rfl, .of_setObject hmade rfl⟩

theorem answer_assign_hidden {p : Property} (hbeyond : (σ.settled o).Beyond key)
    (hcurrent : (σ.settled o).properties.find? key = some p) (hwritable : p.writable = true) (v : Value)
    (strict : Bool) : ((assign o key v strict).run σ).1 = .ok true := by
  obtain ⟨-, hobject⟩ := run_materialize o σ
  rw [run_assign]
  generalize ((materialize o).run σ).2 = σ₁ at hobject ⊢
  rw [assignByKind_of_inTable (by rw [hobject]; exact Object.inTable_of_beyond hbeyond)]
  rw [run_assignInTable_of_some (by rw [hobject]; exact hcurrent), if_pos hwritable]
  rfl

theorem answer_assign_of_unguarded (h : (σ.settled o).Unguarded key) (v : Value) (strict : Bool) :
    ((assign o key v strict).run σ).1 = .ok true := by
  cases h with
  | element kind index room =>
    obtain ⟨σ', hrun, -⟩ := run_assign_element kind index room v strict
    rw [hrun]
  | hidden beyond current writable => exact answer_assign_hidden beyond current writable v strict

theorem own_assign_of_unguarded (h : (σ.settled o).Unguarded key) (hseen : ¬ (σ.settled o).Beyond key)
    (hv : v.isEmpty = false) : ((assign o key v strict).run σ).2.own o key = some (.plain v) := by
  cases h with
  | hidden beyond => exact absurd beyond hseen
  | @element elements i kind index room =>
    obtain ⟨σ', hrun, hupdates⟩ := run_assign_element kind index room v strict
    have hknown : o.index < σ.objects.size := by
      by_contra hge
      rw [settled_of_size_le (Nat.le_of_not_lt hge)] at kind
      cases kind
    rw [hrun, own_of_updates hupdates hknown, Object.ownProperty?_element rfl index, elementAt?_setElement, if_pos rfl,
      Option.filter_some, if_pos (by simp [hv])]
    rfl

theorem refuses_of_inherited {path : List ObjectId} {p : Property} (habsent : σ.own o key = none)
    (hnearest : Nearest σ key (σ.settled o).prototype path p) (hreadOnly : p.writable = false)
    (hguarded : ¬ (σ.settled o).Unguarded key) (v : Value) (strict : Bool) :
    σ.Refuses (assign o key v strict) (granted false strict (.readOnly key.display)) := by
  have hinherited : (σ.settled o).InTable key → (σ.settled o).properties.find? key = none →
      ((assign o key v strict).run σ).1 = granted false strict (.readOnly key.display) :=
    fun htable hnew => answer_assign_of_inherited htable hnew hnearest hreadOnly
  have hassigning := assigning σ o key v strict
  rw [own_eq] at habsent
  unfold Refuses
  generalize (assign o key v strict).run σ = r at hassigning hinherited ⊢
  cases hassigning with
  | done assigned _ =>
    cases assigned with
    | element kind index room => exact absurd (.element kind index room) hguarded
    | length kind isLength => exact absurd isLength (Object.ne_length_of_absent kind habsent)
    | written inTable current writable =>
      exact absurd (.hidden (Object.hidesKey_of_absent inTable current habsent).1 current writable) hguarded
    | added inTable new => exact absurd (hinherited inTable new).symm (granted_false_ne _ _)
  | parameter kind index _ =>
    rw [Object.ownProperty?_mapped kind index] at habsent
    cases habsent
  | refused made => exact ⟨rfl, made⟩
  | invalid kind isLength _ _ => exact absurd isLength (Object.ne_length_of_absent kind habsent)

theorem makes_of_answer (h : ((assign o key v strict).run σ).1 ≠ .ok true) :
    Makes σ ((assign o key v strict).run σ).2 := by
  have hassigning := assigning σ o key v strict
  generalize (assign o key v strict).run σ = r at hassigning h ⊢
  cases hassigning with
  | done | parameter => exact absurd rfl h
  | refused made => exact made
  | invalid _ _ _ made => exact made

end Unguarded

/-- What an object shows is the same in both stores. -/
structure Keeps (σ : Store) (o : ObjectId) (σ' : Store) : Prop where
  own : ∀ key, σ'.own o key = σ.own o key
  prototype : (σ'.settled o).prototype = (σ.settled o).prototype
  extensible : (σ'.settled o).extensible = (σ.settled o).extensible

theorem Makes.keeps {σ σ' : Store} (h : Makes σ σ') (o : ObjectId) : σ.Keeps o σ' where
  own key := h.own_eq o key
  prototype := by rw [h.settled_eq]
  extensible := by rw [h.settled_eq]

/-- **Inherited properties that are read only**: an assignment to a key without an own property is refused and changes
nothing if the nearest inherited property is read only, unless the key is one that is assigned to without a look at the
prototypes; then the assignment succeeds, and a new element is seen.  No assignment that fails changes what any object
shows. -/
theorem inherited_readOnly_forbids {σ : Store} {o : ObjectId} {key : PropertyKey} {path : List ObjectId} {p : Property}
    (habsent : σ.own o key = none) (hnearest : σ.Nearest key (σ.settled o).prototype path p)
    (hreadOnly : p.writable = false) (v : Value) (strict : Bool) :
    (¬ (σ.settled o).Unguarded key →
      σ.Refuses (assign o key v strict) (if strict then .error (.type (.readOnly key.display)) else .ok false)) ∧
    ((σ.settled o).Unguarded key → ((assign o key v strict).run σ).1 = .ok true ∧
      (¬ (σ.settled o).Beyond key → v.isEmpty = false →
        ((assign o key v strict).run σ).2.own o key = some (.plain v))) ∧
    ∀ (τ : Store) q k w s, ((assign q k w s).run τ).1 ≠ .ok true → ∀ r, τ.Keeps r ((assign q k w s).run τ).2 := by
  refine ⟨fun hguarded => ?_, fun hunguarded => ?_, fun τ q k w s hfails r => (makes_of_answer hfails).keeps r⟩
  · have hrefuses := refuses_of_inherited habsent hnearest hreadOnly hguarded v strict
    cases strict <;> exact hrefuses
  · exact ⟨answer_assign_of_unguarded hunguarded v strict, own_assign_of_unguarded hunguarded⟩

/-- A prototype with a read-only property, and an array and a plain object that inherit from it. -/
def readOnlyPrototype : Store :=
  { Store.empty with
    objects := #[⟨⟨none, PropertyTable.insert .empty (.ofNat 0) ⟨.int 1, false, true, true⟩, true⟩, .ordinary⟩,
      .ofKind (some ⟨0⟩) (.array #[]), .ofKind (some ⟨0⟩) .ordinary] }

/-- The plain object respects what it inherits, and the array does not. -/
theorem inherited_readOnly_forbids_plainOnly :
    readOnlyPrototype.Refuses (assign ⟨2⟩ (.ofNat 0) (.int 7) true)
        (.error (.type (.readOnly (PropertyKey.ofNat 0).display))) ∧
      ((assign ⟨1⟩ (.ofNat 0) (.int 7) true).run readOnlyPrototype).1 = .ok true ∧
      ((assign ⟨1⟩ (.ofNat 0) (.int 7) true).run readOnlyPrototype).2.own ⟨1⟩ (.ofNat 0) = some (.plain (.int 7)) := by
  have hnearest : readOnlyPrototype.Nearest (.ofNat 0) (some ⟨0⟩) [⟨0⟩] ⟨.int 1, false, true, true⟩ := .own rfl
  have hplain := inherited_readOnly_forbids (o := ⟨2⟩) rfl hnearest rfl (.int 7) true
  have harray := inherited_readOnly_forbids (o := ⟨1⟩) rfl hnearest rfl (.int 7) true
  refine ⟨hplain.1 ?_, ?_⟩
  · rintro (⟨hkind, -⟩ | ⟨⟨t, i, hkind, -⟩, -⟩) <;> cases hkind
  · have hfree : (readOnlyPrototype.settled ⟨1⟩).Unguarded (.ofNat 0) :=
      .element rfl (PropertyKey.index?_ofNat (by decide)) (.inr rfl)
    have hassigned := harray.2.1 hfree
    exact ⟨hassigned.1, hassigned.2 (Object.not_beyond_of_array rfl) rfl⟩


end Store

end ScriptMachine
