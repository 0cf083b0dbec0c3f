import ScriptMachine.Proofs.OwnProperties
import ScriptMachine.Realm.Builtins

/-!
# Own keys

The own keys of an object are listed in the order of scripts: indices in ascending order, other texts, symbols.  They are
the keys of its own properties, with two exceptions, both of wrapped texts, whose property table may hold keys that the
text answers for.

* `Object.Tidy` — the table holds no key twice and none that an array answers for, and the indices that the kind of the
  object adds are array indices.  Operations keep this (`Store.tidy_performAll`), and the objects of a new realm start
  with it (`Realm.tidy_create`).
* `Object.HidesKey` — the table holds an index beyond the text, which is listed and not found.

Main result: `Store.own_keys_listed`.
-/

namespace ScriptMachine

/-! ### Sorting without repetitions -/

theorem mem_eraseReps_loop (x a : Nat) (l acc : List Nat) :
    x ∈ List.eraseRepsBy.loop (· == ·) a l acc ↔ x ∈ acc ∨ x = a ∨ x ∈ l := by
  induction l generalizing a acc with
  | nil => simp [List.eraseRepsBy.loop, or_comm]
  | cons b l ih =>
    rw [List.eraseRepsBy.loop]
    split
    case h_1 heq =>
      obtain rfl : a = b := by simpa using heq
      rw [ih]
      simp
    case h_2 =>
      grind

/-- From an ascending list, and smaller numbers collected in descending order, comes a list that ascends strictly. -/
theorem pairwise_eraseReps_loop (a : Nat) (l acc : List Nat) (hl : (a :: l).Pairwise (· ≤ ·))
    (hacc : (a :: acc).Pairwise (· > ·)) : (List.eraseRepsBy.loop (· == ·) a l acc).Pairwise (· < ·) := by
  induction l generalizing a acc with
  | nil =>
    rw [List.eraseRepsBy.loop, List.pairwise_reverse]
    exact hacc
  | cons b l ih =>
    obtain ⟨hle, hrest⟩ := List.pairwise_cons.mp hl
    rw [List.eraseRepsBy.loop]
    split
    case h_1 heq =>
      obtain rfl : a = b := by simpa using heq
      exact ih a acc hrest hacc
    case h_2 hne =>
      have hlt : a < b := Nat.lt_of_le_of_ne (hle b (by simp)) (by simpa using hne)
      refine ih b (a :: acc) hrest (List.pairwise_cons.mpr ⟨?_, hacc⟩)
      intro c hc
      rcases List.mem_cons.mp hc with rfl | hc
      · exact hlt
      · exact Nat.lt_trans ((List.pairwise_cons.mp hacc).1 c hc) hlt

theorem mem_sorted (x : Nat) (l : List Nat) : x ∈ l.mergeSort.eraseReps ↔ x ∈ l := by
  rw [← (List.mergeSort_perm l fun a b => decide (a ≤ b)).mem_iff]
  cases l.mergeSort with
  | nil => rfl
  | cons a rest => exact (mem_eraseReps_loop x a rest []).trans (by simp)

theorem pairwise_sorted (l : List Nat) : l.mergeSort.eraseReps.Pairwise (· < ·) := by
  have hsorted : l.mergeSort.Pairwise fun a b => decide (a ≤ b) = true :=
    List.pairwise_mergeSort (by intro a b c; simpa using Nat.le_trans) (by intro a b; simpa using Nat.le_total a b) l
  cases h : l.mergeSort with
  | nil => exact List.Pairwise.nil
  | cons a rest =>
    rw [h] at hsorted
    exact pairwise_eraseReps_loop a rest [] (by simpa using hsorted) (by simp)

/-! ### Tidy objects -/

/-- The table leaves to an array what it answers for, and the indices that the kind adds are array indices. -/
def ObjectKind.Fits (keys : List PropertyKey) : ObjectKind → Prop
  | .array elements => elements.size ≤ Text.indexBound ∧ ∀ key ∈ keys, key.index? = none ∧ key ≠ .length
  | .primitive (.text t) => t.length ≤ Text.indexBound
  | .arguments _ mapped => mapped.length ≤ Text.indexBound
  | _ => True

namespace Object

/-- The table holds no key twice, and fits the kind. -/
structure Tidy (x : Object) : Prop where
  nodup : x.properties.keys.Nodup
  fits : x.kind.Fits x.properties.keys

/-- The table holds a length next to that of the text. -/
def RepeatsLength (x : Object) : Prop :=
  (∃ t, x.kind = .primitive (.text t)) ∧ (x.properties.find? .length).isSome = true

section Tidy

variable {x y : Object} {key : PropertyKey} {v : Value} {p : Property} {elements : Array Value}

theorem Tidy.keys_of_array (h : x.Tidy) (hkind : x.kind = .array elements) {k : PropertyKey}
    (hk : k ∈ x.properties.keys) : k.index? = none ∧ k ≠ .length := by
  have hfits := h.fits
  rw [hkind] at hfits
  exact hfits.2 k hk

theorem Tidy.size_le (h : x.Tidy) (hkind : x.kind = .array elements) : elements.size ≤ Text.indexBound := by
  have hfits := h.fits
  rw [hkind] at hfits
  exact hfits.1

theorem Tidy.withElements {elements' : Array Value} (h : x.Tidy) (hkind : x.kind = .array elements)
    (hsize : elements'.size ≤ Text.indexBound) : ({ x with kind := .array elements' } : Object).Tidy :=
  ⟨h.nodup, hsize, fun _ hk => h.keys_of_array hkind hk⟩

theorem Tidy.withTable {properties : PropertyTable} (h : x.Tidy) (hnodup : properties.keys.Nodup)
    (hkeys : ∀ elements, x.kind = .array elements →
      ∀ k ∈ properties.keys, k ∈ x.properties.keys ∨ k.index? = none ∧ k ≠ .length) :
    ({ x with properties } : Object).Tidy := by
  refine ⟨hnodup, ?_⟩
  have hfits := h.fits
  cases hkind : x.kind with
  | array elements =>
    refine ⟨h.size_le hkind, fun k hk => ?_⟩
    rcases hkeys elements hkind k hk with hold | hnew
    · exact h.keys_of_array hkind hold
    · exact hnew
  | primitive w =>
    rw [hkind] at hfits
    cases w <;> exact hfits
  | _ =>
    rw [hkind] at hfits
    exact hfits

theorem Tidy.insert (h : x.Tidy) (p : Property)
    (hkey : ∀ elements, x.kind = .array elements → key.index? = none ∧ key ≠ .length) :
    ({ x with properties := x.properties.insert key p } : Object).Tidy := by
  refine h.withTable (PropertyTable.nodup_keys_insert h.nodup key p) fun elements hkind k hk => ?_
  rw [PropertyTable.keys_insert] at hk
  split at hk
  case isTrue => exact .inl hk
  case isFalse =>
    rcases List.mem_append.mp hk with hold | hnew
    · exact .inl hold
    · obtain rfl := List.mem_singleton.mp hnew
      exact .inr (hkey elements hkind)

theorem Tidy.erase (h : x.Tidy) (key : PropertyKey) :
    ({ x with properties := x.properties.erase key } : Object).Tidy := by
  have hkeys := PropertyTable.keys_erase x.properties key
  refine h.withTable (hkeys ▸ h.nodup.filter _) fun elements hkind k hk => .inl ?_
  rw [hkeys] at hk
  exact (List.mem_filter.mp hk).1

theorem Tidy.unmap {scope : ScopeId} {mapped : List Bool} (h : x.Tidy) (hkind : x.kind = .arguments scope mapped)
    (i : Nat) : ({ x with kind := .arguments scope (mapped.set i false) } : Object).Tidy := by
  have hfits := h.fits
  rw [hkind] at hfits
  exact ⟨h.nodup, Nat.le_trans (Nat.le_of_eq List.length_set) hfits⟩

theorem size_setElement_le {i : Nat} (hindex : key.index? = some i) (hsize : elements.size ≤ Text.indexBound)
    (v : Value) : (Store.setElement elements i v).size ≤ Text.indexBound := by
  have hlt := (PropertyKey.index?_eq_some.mp hindex).1
  rw [Store.size_setElement]
  omega

theorem size_resize_le {n : Nat} (hvalid : Store.arrayLength? v = some n) (elements : Array Value) :
    (Store.resize elements n).size ≤ Text.indexBound := by
  have hlt := (Store.wholeNumber?_of_arrayLength? hvalid).2
  rw [Store.size_resize]
  exact Nat.le_of_lt_succ hlt

theorem Assigned.tidy (h : x.Assigned key v y) (hx : x.Tidy) : y.Tidy := by
  cases h with
  | element kind index room => exact hx.withElements kind (size_setElement_le index (hx.size_le kind) v)
  | length kind isLength valid => exact hx.withElements kind (size_resize_le valid _)
  | written inTable | added inTable => exact hx.insert _ fun _ hkind => inTable_of_array inTable hkind

theorem Defined.tidy (h : x.Defined key p y) (hx : x.Tidy) : y.Tidy := by
  cases h with
  | element kind index => exact hx.withElements kind (size_setElement_le index (hx.size_le kind) p.value)
  | length kind isLength valid => exact hx.withElements kind (size_resize_le valid _)
  | unmapped kind index => exact (hx.unmap kind _).insert p nofun
  | stored noItem unmapped => exact hx.insert p noItem

theorem Deleted.tidy (h : x.Deleted key y) (hx : x.Tidy) : y.Tidy := by
  cases h with
  | element kind index => exact hx.withElements kind (by rw [Array.size_setIfInBounds]; exact hx.size_le kind)
  | unmapped kind index => exact hx.unmap kind _
  | erased => exact hx.erase key
  | missing => exact hx

end Tidy

end Object

namespace Store

/-- All objects are tidy once made. -/
def Tidy (σ : Store) : Prop := ∀ o, (σ.settled o).Tidy

section Tidy

variable {σ σ' : Store} {op : Operation}

theorem Updates.tidy {o : ObjectId} {x : Object} (h : Updates σ o x σ') (hσ : σ.Tidy) (hx : x.Tidy) : σ'.Tidy := by
  intro p
  rw [h.objects p]
  split
  · exact hx
  · exact hσ p

theorem Effect.tidy (h : Effect σ op σ') (hσ : σ.Tidy) : σ'.Tidy := by
  cases h with
  | assigned assigned updates => exact updates.tidy hσ (assigned.tidy (hσ _))
  | defined _ _ defined updates => exact updates.tidy hσ (defined.tidy (hσ _))
  | deleted deleted updates => exact updates.tidy hσ (deleted.tidy (hσ _))
  | pushed kind room updates =>
    exact updates.tidy hσ ((hσ _).withElements kind (by rw [Array.size_push]; exact room))
  | inherits _ _ updates | closed updates => exact updates.tidy hσ ⟨(hσ _).nodup, (hσ _).fits⟩
  | written _ made | kept made =>
    intro p
    rw [made.settled_eq p]
    exact hσ p

theorem tidy_performAll (hσ : σ.Tidy) (ops : List Operation) : (σ.performAll ops).Tidy := by
  induction ops generalizing σ with
  | nil => exact hσ
  | cons op ops ih => exact ih ((effect σ op).tidy hσ)

end Tidy

end Store

/-! ### Keys and properties -/

namespace Object

section Keys

variable {x : Object} {key : PropertyKey} {i : Nat} {scopes : Array Scope}

def indices (x : Object) : List Nat := (x.addedIndices ++ x.properties.keys.filterMap PropertyKey.index?).mergeSort.eraseReps

/-- The listed texts that are no indices. -/
def names (x : Object) : List PropertyKey :=
  x.addedKeys ++ x.properties.keys.filter fun k => k.index?.isNone && !k.isSymbol

def symbols (x : Object) : List PropertyKey := x.properties.keys.filter fun k => k.isSymbol

theorem ownKeys_eq (x : Object) : x.ownKeys = x.indices.map .ofNat ++ x.names ++ x.symbols := rfl

theorem mem_addedIndices_array {elements : Array Value} (hkind : x.kind = .array elements) :
    i ∈ x.addedIndices ↔ (Store.elementAt? elements i).isSome = true := by
  simp only [addedIndices, hkind, Store.elementAt?, List.mem_map, List.mem_filter, Prod.exists,
    List.mk_mem_zipIdx_iff_getElem?, Array.getElem?_toList, exists_eq_right]
  cases elements[i]? with
  | none => simp
  | some v => simp [Option.filter_some, Option.isSome_ite]

theorem mem_addedIndices_arguments {scope : ScopeId} {mapped : List Bool} (hkind : x.kind = .arguments scope mapped) :
    i ∈ x.addedIndices ↔ mapped[i]? = some true := by
  simp [addedIndices, hkind, List.mk_mem_zipIdx_iff_getElem?]

theorem mem_addedIndices_text {t : Text} (hkind : x.kind = .primitive (.text t)) :
    i ∈ x.addedIndices ↔ i < t.length := by
  simp [addedIndices, hkind]

theorem lt_indexBound_of_mem_addedIndices (hx : x.Tidy) (h : i ∈ x.addedIndices) : i < Text.indexBound := by
  have hfits := hx.fits
  cases hkind : x.kind with
  | array elements =>
    rw [mem_addedIndices_array hkind] at h
    have hsize := hx.size_le hkind
    refine Nat.lt_of_not_le fun hge => ?_
    rw [Store.elementAt?_of_size_le (Nat.le_trans hsize hge)] at h
    cases h
  | «arguments» scope mapped =>
    rw [mem_addedIndices_arguments hkind] at h
    rw [hkind] at hfits
    exact Nat.lt_of_lt_of_le (List.getElem?_eq_some_iff.mp h).1 hfits
  | primitive w =>
    cases w with
    | text t =>
      rw [mem_addedIndices_text hkind] at h
      rw [hkind] at hfits
      exact Nat.lt_of_lt_of_le h hfits
    | _ => simp [addedIndices, hkind] at h
  | _ => simp [addedIndices, hkind] at h

theorem lt_indexBound_of_mem_indices (hx : x.Tidy) (h : i ∈ x.indices) : i < Text.indexBound := by
  rw [indices, mem_sorted] at h
  rcases List.mem_append.mp h with hadded | hstored
  · exact lt_indexBound_of_mem_addedIndices hx hadded
  · obtain ⟨k, -, hk⟩ := List.mem_filterMap.mp hstored
    exact (PropertyKey.index?_eq_some.mp hk).1

theorem mem_names : key ∈ x.names ↔
    key ∈ x.addedKeys ∨ key ∈ x.properties.keys ∧ key.index? = none ∧ key.isSymbol = false := by
  simp [names]

theorem mem_symbols : key ∈ x.symbols ↔ key ∈ x.properties.keys ∧ key.isSymbol = true := by simp [symbols]

theorem index?_of_isSymbol (h : key.isSymbol = true) : key.index? = none := by
  cases key with
  | text t => cases h
  | symbol s => rfl

theorem eq_length_of_mem_addedKeys (h : key ∈ x.addedKeys) : key = .length := by
  unfold addedKeys at h
  split at h
  · exact List.mem_singleton.mp h
  · exact List.mem_singleton.mp h
  · cases h

theorem mem_ownKeys_of_index (hx : x.Tidy) (hindex : key.index? = some i) :
    key ∈ x.ownKeys ↔ i ∈ x.addedIndices ∨ key ∈ x.properties.keys := by
  have hname : key ∉ x.names := by
    rw [mem_names]
    rintro (hadded | ⟨-, hnone, -⟩)
    · rw [eq_length_of_mem_addedKeys hadded] at hindex
      cases hindex
    · rw [hnone] at hindex
      cases hindex
  have hsymbol : key ∉ x.symbols := fun h => by
    rw [index?_of_isSymbol (mem_symbols.mp h).2] at hindex
    cases hindex
  have hlisted : key ∈ x.indices.map .ofNat ↔ i ∈ x.indices := by
    rw [List.mem_map]
    constructor
    · rintro ⟨j, hj, rfl⟩
      rw [PropertyKey.index?_ofNat (lt_indexBound_of_mem_indices hx hj)] at hindex
      exact Option.some.inj hindex ▸ hj
    · intro hi
      exact ⟨i, hi, (PropertyKey.index?_eq_some.mp hindex).2.symm⟩
  have hstored : i ∈ x.properties.keys.filterMap PropertyKey.index? ↔ key ∈ x.properties.keys := by
    rw [List.mem_filterMap]
    constructor
    · rintro ⟨k, hk, hi⟩
      exact PropertyKey.eq_of_index? hi hindex ▸ hk
    · intro hk
      exact ⟨key, hk, hindex⟩
  rw [ownKeys_eq, List.mem_append, List.mem_append, hlisted, indices, mem_sorted, List.mem_append, hstored]
  simp only [hname, hsymbol, or_false]

theorem mem_ownKeys_of_not_index (hx : x.Tidy) (hindex : key.index? = none) :
    key ∈ x.ownKeys ↔ key ∈ x.addedKeys ∨ key ∈ x.properties.keys := by
  have hlisted : key ∉ x.indices.map .ofNat := fun h => by
    obtain ⟨j, hj, rfl⟩ := List.mem_map.mp h
    rw [PropertyKey.index?_ofNat (lt_indexBound_of_mem_indices hx hj)] at hindex
    cases hindex
  rw [ownKeys_eq, List.mem_append, List.mem_append, mem_names, mem_symbols]
  simp only [hlisted, hindex, true_and, false_or]
  cases key.isSymbol <;> simp

theorem not_mem_addedIndices (h : x.InTable key) (hindex : key.index? = some i) : i ∉ x.addedIndices := by
  intro hadded
  cases hkind : x.kind with
  | array elements =>
    rw [(inTable_of_array h hkind).1] at hindex
    cases hindex
  | «arguments» scope mapped =>
    rw [mem_addedIndices_arguments hkind] at hadded
    cases (inTable_of_arguments h hkind).symm.trans (mappedIndex?_eq_some.mpr ⟨hindex, hadded⟩)
  | primitive w =>
    cases w with
    | text t =>
      rw [mem_addedIndices_text hkind] at hadded
      cases (inTable_of_text h hkind).symm.trans (isTextKey_iff.mpr (.inr ⟨i, hindex, hadded⟩))
    | _ => simp [addedIndices, hkind] at hadded
  | _ => simp [addedIndices, hkind] at hadded

theorem not_mem_addedKeys (h : x.InTable key) : key ∉ x.addedKeys := by
  intro hadded
  have hlength := eq_length_of_mem_addedKeys hadded
  unfold addedKeys at hadded
  split at hadded
  case h_1 elements hkind => exact (inTable_of_array h hkind).2 hlength
  case h_2 t hkind => cases (inTable_of_text h hkind).symm.trans (isTextKey_iff.mpr (.inl hlength))
  case h_3 => cases hadded

theorem isSome_ownProperty?_of_index (hx : x.Tidy) (hindex : key.index? = some i) :
    (x.ownProperty? scopes key).isSome = true ∨ x.HidesKey key ↔ i ∈ x.addedIndices ∨ key ∈ x.properties.keys := by
  by_cases htable : x.InTable key
  · have hadded := not_mem_addedIndices htable hindex
    rw [HidesKey, PropertyTable.isSome_find?]
    by_cases hbeyond : x.Beyond key
    · simp [ownProperty?_of_beyond hbeyond, hbeyond, hadded]
    · simp only [ownProperty?_of_inTable htable hbeyond, PropertyTable.isSome_find?, hbeyond, hadded, false_and, or_false,
        false_or]
  rcases not_inTable htable with ⟨elements, j, hkind, hj⟩ | ⟨elements, -, rfl⟩ | ⟨t, hkind, htext⟩ |
    ⟨scope, mapped, j, hkind, hj⟩
  · have hstored : key ∉ x.properties.keys := fun hk => by
      rw [(hx.keys_of_array hkind hk).1] at hindex
      cases hindex
    have hhidden : ¬ x.HidesKey key := fun h => hstored ((PropertyTable.isSome_find? _ _).mp h.2)
    rw [ownProperty?_element hkind hindex, Option.isSome_map, mem_addedIndices_array hkind]
    simp only [hstored, hhidden, or_false]
  · cases hindex
  · have hlt : i < t.length := by
      rcases isTextKey_iff.mp htext with rfl | ⟨j, hj, hlt⟩
      · cases hindex
      · exact Option.some.inj (hj.symm.trans hindex) ▸ hlt
    simp only [isSome_ownProperty?_text hkind htext, mem_addedIndices_text hkind, hlt, true_or]
  · obtain ⟨hji, hmapped⟩ := mappedIndex?_eq_some.mp hj
    obtain rfl := Option.some.inj (hji.symm.trans hindex)
    simp only [ownProperty?_mapped hkind hj, mem_addedIndices_arguments hkind, hmapped, Option.isSome_some, true_or]

theorem isSome_ownProperty?_of_not_index (hindex : key.index? = none) :
    (x.ownProperty? scopes key).isSome = true ↔ key ∈ x.addedKeys ∨ key ∈ x.properties.keys := by
  by_cases htable : x.InTable key
  · have hbeyond : ¬ x.Beyond key := by
      rintro ⟨t, i, -, hi, -⟩
      rw [hindex] at hi
      cases hi
    rw [ownProperty?_of_inTable htable hbeyond, PropertyTable.isSome_find?]
    simp only [not_mem_addedKeys htable, false_or]
  rcases not_inTable htable with ⟨elements, j, -, hj⟩ | ⟨elements, hkind, rfl⟩ | ⟨t, hkind, htext⟩ |
    ⟨scope, mapped, j, -, hj⟩
  · rw [hindex] at hj
    cases hj
  · simp [ownProperty?_arrayLength hkind, addedKeys, hkind]
  · have hlength : key = .length := by
      rcases isTextKey_iff.mp htext with heq | ⟨j, hj, -⟩
      · exact heq
      · rw [hindex] at hj
        cases hj
    have hadded : key ∈ x.addedKeys := by simp [addedKeys, hkind, hlength]
    simp only [isSome_ownProperty?_text hkind htext, hadded, true_or]
  · rw [(mappedIndex?_eq_some.mp hj).1] at hindex
    cases hindex

/-- The keys that are listed are those of the own properties, and those that are hidden. -/
theorem mem_ownKeys (hx : x.Tidy) (scopes : Array Scope) (key : PropertyKey) :
    key ∈ x.ownKeys ↔ (x.ownProperty? scopes key).isSome = true ∨ x.HidesKey key := by
  cases hindex : key.index? with
  | some i => rw [mem_ownKeys_of_index hx hindex, isSome_ownProperty?_of_index hx hindex]
  | none =>
    have hhidden : ¬ x.HidesKey key := by
      rintro ⟨⟨t, i, -, hi, -⟩, -⟩
      rw [hindex] at hi
      cases hi
    rw [mem_ownKeys_of_not_index hx hindex, isSome_ownProperty?_of_not_index hindex]
    simp only [hhidden, or_false]

/-! ### Order and repetitions -/

/-- Index keys in ascending order, then other texts, then symbols. -/
def Ordered (keys : List PropertyKey) : Prop :=
  ∃ (indices : List Nat) (names symbols : List PropertyKey), keys = indices.map .ofNat ++ names ++ symbols ∧
    indices.Pairwise (· < ·) ∧ (∀ i ∈ indices, i < Text.indexBound) ∧
    (∀ k ∈ names, k.index? = none ∧ k.isSymbol = false) ∧ ∀ k ∈ symbols, k.isSymbol = true

theorem names_spec {k : PropertyKey} (h : k ∈ x.names) : k.index? = none ∧ k.isSymbol = false := by
  rcases mem_names.mp h with hadded | hstored
  · rw [eq_length_of_mem_addedKeys hadded]
    exact ⟨PropertyKey.index?_length, rfl⟩
  · exact hstored.2

theorem ordered_ownKeys (hx : x.Tidy) : Ordered x.ownKeys :=
  ⟨x.indices, x.names, x.symbols, ownKeys_eq x, pairwise_sorted _, fun _ hi => lt_indexBound_of_mem_indices hx hi,
    fun _ hk => names_spec hk, fun _ hk => (mem_symbols.mp hk).2⟩

theorem nodup_indices (hx : x.Tidy) : (x.indices.map PropertyKey.ofNat).Nodup := by
  have hascending : x.indices.Pairwise (· < ·) := pairwise_sorted _
  rw [List.Nodup, List.pairwise_map]
  refine hascending.imp_of_mem fun {i j} hi hj hlt heq => ?_
  have hkey := PropertyKey.index?_ofNat (lt_indexBound_of_mem_indices hx hi)
  rw [heq, PropertyKey.index?_ofNat (lt_indexBound_of_mem_indices hx hj)] at hkey
  have := Option.some.inj hkey
  omega

theorem nodup_names (hx : x.Tidy) : x.names.Nodup ↔ ¬ x.RepeatsLength := by
  have hstored : (x.properties.keys.filter fun k => k.index?.isNone && !k.isSymbol).Nodup := hx.nodup.filter _
  have hlength : x.addedKeys = [.length] → (x.names.Nodup ↔ PropertyKey.length ∉ x.properties.keys) := by
    intro hadded
    rw [names, hadded, List.singleton_append, List.nodup_cons, List.mem_filter]
    have hname : (PropertyKey.length.index?.isNone && !PropertyKey.length.isSymbol) = true := by
      rfl
    simp only [hname, and_true, hstored]
  have hnone : x.addedKeys = [] → x.names.Nodup := by
    intro hadded
    rw [names, hadded]
    exact hstored
  rw [RepeatsLength, PropertyTable.isSome_find?]
  cases hkind : x.kind with
  | array elements =>
    rw [hlength (by simp [addedKeys, hkind])]
    exact iff_of_true (fun hk => (hx.keys_of_array hkind hk).2 rfl) (by simp)
  | primitive w =>
    cases w with
    | text t =>
      rw [hlength (by simp [addedKeys, hkind])]
      simp
    | _ => exact iff_of_true (hnone (by simp [addedKeys, hkind])) (by simp)
  | _ => exact iff_of_true (hnone (by simp [addedKeys, hkind])) (by simp)

theorem nodup_ownKeys (hx : x.Tidy) : x.ownKeys.Nodup ↔ ¬ x.RepeatsLength := by
  rw [← nodup_names hx, ownKeys_eq, List.append_assoc, List.nodup_append, List.nodup_append]
  have hsymbols : x.symbols.Nodup := hx.nodup.filter _
  refine ⟨fun h => h.2.1.1, fun h => ⟨nodup_indices hx, ⟨h, hsymbols, ?_⟩, ?_⟩⟩
  · rintro a ha b hb rfl
    have hname := (names_spec ha).2
    rw [(mem_symbols.mp hb).2] at hname
    cases hname
  · rintro a ha b hb rfl
    obtain ⟨i, hi, rfl⟩ := List.mem_map.mp ha
    have hindex := PropertyKey.index?_ofNat (lt_indexBound_of_mem_indices hx hi)
    have hnone : (PropertyKey.ofNat i).index? = none := by
      rcases List.mem_append.mp hb with hname | hsymbol
      · exact (names_spec hname).1
      · exact index?_of_isSymbol (mem_symbols.mp hsymbol).2
    rw [hnone] at hindex
    cases hindex

end Keys

end Object

/-! ### Deciding tidiness -/

instance (keys : List PropertyKey) : (kind : ObjectKind) → Decidable (kind.Fits keys)
  | .array elements =>
    inferInstanceAs (Decidable (elements.size ≤ _ ∧ ∀ key ∈ keys, key.index? = none ∧ key ≠ .length))
  | .primitive (.text t) => inferInstanceAs (Decidable (t.length ≤ _))
  | .arguments _ mapped => inferInstanceAs (Decidable (mapped.length ≤ _))
  | .primitive .undefined | .primitive .null | .primitive (.bool _) | .primitive (.int _) | .primitive (.int64 _)
  | .primitive (.float _) | .primitive (.symbol _) | .primitive (.object _) | .primitive .empty
  | .primitive (.unresolved ..) | .ordinary | .error .. | .function _ | .native _ | .bound _ | .proxy .. | .lazy .. =>
    .isTrue trivial

instance (x : Object) : Decidable x.Tidy :=
  decidable_of_iff (x.properties.keys.Nodup ∧ x.kind.Fits x.properties.keys) ⟨fun h => ⟨h.1, h.2⟩, fun h => ⟨h.1, h.2⟩⟩

theorem Store.tidy_of_objects {σ : Store} (h : ∀ x ∈ σ.objects, x.settled.Tidy) : σ.Tidy := by
  intro o
  show ((σ.objects[o.index]?).getD default).settled.Tidy
  cases ho : σ.objects[o.index]? with
  | none => exact ⟨List.nodup_nil, trivial⟩
  | some x => exact h x (Array.mem_of_getElem? ho)

theorem Realm.tidy_create : (create.run Store.empty).2.Tidy := Store.tidy_of_objects (by decide +kernel)

/-! ### After operations -/

namespace Store

theorem run_ownKeys (σ : Store) (o : ObjectId) : ((ownKeys o).run σ).1 = (σ.settled o).ownKeys :=
  congrArg Object.ownKeys (run_made o σ)

/-- **Own keys**: after any operations, the own keys of an object are in order; no key is listed twice, unless a wrapped
text has a second length in its table; and the keys listed are those of the own properties, and those that are hidden
beyond a wrapped text. -/
theorem own_keys_listed {σ : Store} (hσ : σ.Tidy) (ops : List Operation) (o : ObjectId) :
    Object.Ordered ((ownKeys o).run (σ.performAll ops)).1 ∧
      (((ownKeys o).run (σ.performAll ops)).1.Nodup ↔ ¬ ((σ.performAll ops).settled o).RepeatsLength) ∧
      ∀ key, key ∈ ((ownKeys o).run (σ.performAll ops)).1 ↔
        ((σ.performAll ops).own o key).isSome = true ∨ ((σ.performAll ops).settled o).HidesKey key := by
  have hx := tidy_performAll hσ ops o
  rw [run_ownKeys]
  refine ⟨Object.ordered_ownKeys hx, Object.nodup_ownKeys hx, fun key => ?_⟩
  rw [own_eq, Object.mem_ownKeys hx]

def wrappedText : Store := ((newObject (.ofKind none (.primitive (.text (Text.ofString "ab"))))).run empty).2

/-- In a new realm the keys of the global object stay in order.  A wrapped text that is given a property beyond its end
lists it, once, though there is no own property. -/
theorem own_keys_listed_wrappedText :
    let realm := (Realm.create.run empty).2
    let τ := wrappedText.performAll [.assign ⟨0⟩ (.ofNat 5) (.int 7) true, .preventExtensions ⟨0⟩]
    (realm.Tidy ∧ Object.Ordered ((ownKeys ⟨8⟩).run (realm.performAll [.put ⟨8⟩ (.ofNat 1) .null])).1) ∧
      wrappedText.Tidy ∧ ((ownKeys ⟨0⟩).run τ).1.Nodup ∧ .ofNat 5 ∈ ((ownKeys ⟨0⟩).run τ).1 ∧
        τ.own ⟨0⟩ (.ofNat 5) = none := by
  intro realm τ
  refine ⟨⟨Realm.tidy_create, (own_keys_listed Realm.tidy_create _ _).1⟩, ?_⟩
  have htidy : wrappedText.Tidy := tidy_of_objects (by decide +kernel)
  have hbeyond : (τ.settled ⟨0⟩).Beyond (.ofNat 5) :=
    ⟨_, 5, rfl, PropertyKey.index?_ofNat (by decide), show 2 ≤ 5 by decide⟩
  obtain ⟨-, hnodup, hlisted⟩ := own_keys_listed htidy
    [.assign ⟨0⟩ (.ofNat 5) (.int 7) true, .preventExtensions ⟨0⟩] ⟨0⟩
  refine ⟨htidy, hnodup.mpr fun h => ?_, (hlisted _).mpr (.inr ⟨hbeyond, rfl⟩), ?_⟩
  · cases show false = true from h.2
  · rw [own_eq, Object.ownProperty?_of_beyond hbeyond]

end Store

/-! ### Indices -/

namespace PropertyKey

/-- **Indices and their keys correspond one to one.**  A text spells an index exactly if the index is below the bound and
the text is its decimal representation.  So each index has a key of its own, from which it is read back, and own keys that
are made from the indices of stored keys are the stored keys. -/
theorem index_keys_one_to_one :
    (∀ (t : Text) (n : Nat), t.arrayIndex? = some n ↔ n < 0xFFFFFFFF ∧ t = .ofString (toString n)) ∧
    (∀ n < 0xFFFFFFFF, (ofNat n).index? = some n) ∧ (∀ i j, ofNat i = ofNat j → i = j) ∧
    ∀ x : Object, (x.properties.keys.filterMap index?).map ofNat = x.properties.keys.filter (·.index?.isSome) ∧
      ∀ key ∈ x.properties.keys, ∀ n, key.index? = some n → ofNat n = key ∧ key ∈ x.ownKeys := by
  refine ⟨fun t n => ?_, fun n hn => index?_ofNat hn, fun i j => ofNat_injective, fun x => ⟨?_, ?_⟩⟩
  · rw [Text.arrayIndex?_eq_some, Text.ofNat_eq_ofString]
    rfl
  · exact map_ofNat_filterMap_index? _
  · intro key hkey n hn
    have hindex : n ∈ x.indices := by
      rw [Object.indices, mem_sorted]
      exact List.mem_append_right _ (List.mem_filterMap.mpr ⟨key, hkey, hn⟩)
    have hsame := (index?_eq_some.mp hn).2
    rw [Object.ownKeys_eq, List.append_assoc]
    exact ⟨hsame.symm, List.mem_append_left _ (List.mem_map.mpr ⟨n, hindex, hsame.symm⟩)⟩

end PropertyKey

end ScriptMachine
