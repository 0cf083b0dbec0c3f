import ScriptMachine.Proofs.ObjectChanges

/-!
# Own properties

The own properties of an object, for each of the ways in which its kind answers for a key, and what is left of them when
elements or the property table change.
-/

namespace ScriptMachine

namespace Store

/-! ### Elements -/

def elementAt? (elements : Array Value) (i : Nat) : Option Value := (elements[i]?).filter fun v => !v.isEmpty

section Elements

variable (elements : Array Value) (i j n : Nat) (v : Value)

theorem size_resize : (resize elements n).size = n := by
  unfold resize
  split
  case isTrue h => simp [h]
  case isFalse h =>
    simp only [Array.size_append, Array.size_replicate]
    omega

theorem size_setElement : (setElement elements i v).size = max elements.size (i + 1) := by
  unfold setElement
  rw [Array.size_setIfInBounds]
  split
  case isTrue h => omega
  case isFalse h =>
    rw [size_resize]
    omega

theorem wholeNumber?_of_arrayLength? {v : Value} {n : Nat} (h : arrayLength? v = some n) :
    v.wholeNumber? = some (n : Int) ∧ n < UInt32.size := by
  obtain ⟨m, hm, hrange⟩ := Option.bind_eq_some_iff.mp h
  split at hrange
  case isTrue hbounds =>
    obtain rfl := Option.some.inj hrange
    obtain ⟨hzero, hlt⟩ := hbounds
    refine ⟨?_, by omega⟩
    rw [hm, Int.toNat_of_nonneg hzero]
  case isFalse => cases hrange

theorem elementAt?_of_size_le {elements : Array Value} {i : Nat} (h : elements.size ≤ i) : elementAt? elements i = none := by
  rw [elementAt?, Array.getElem?_eq_none h]
  rfl

theorem elementAt?_resize : elementAt? (resize elements n) i = if i < n then elementAt? elements i else none := by
  split
  case isFalse h => exact elementAt?_of_size_le (by rw [size_resize]; omega)
  case isTrue h =>
    unfold resize
    split
    case isTrue hle =>
      unfold elementAt?
      rw [Array.getElem?_extract, if_pos (by omega), Nat.zero_add]
    case isFalse hgt =>
      unfold elementAt?
      rw [Array.getElem?_append]
      split
      case isTrue => rfl
      case isFalse hge =>
        have hfill : i - elements.size < n - elements.size := by omega
        rw [Array.getElem?_replicate, if_pos hfill, Array.getElem?_eq_none (by omega)]
        rfl

theorem elementAt?_setIfInBounds :
    elementAt? (elements.setIfInBounds i v) j =
      if j = i ∧ i < elements.size then (some v).filter fun v => !v.isEmpty else elementAt? elements j := by
  unfold elementAt?
  rw [Array.getElem?_setIfInBounds]
  by_cases hj : i = j
  · subst hj
    by_cases hlt : i < elements.size
    · simp [hlt]
    · simp [hlt]
  · rw [if_neg hj, if_neg (fun h => hj h.1.symm)]

theorem elementAt?_setElement :
    elementAt? (setElement elements i v) j =
      if j = i then (some v).filter fun v => !v.isEmpty else elementAt? elements j := by
  unfold setElement
  rw [elementAt?_setIfInBounds]
  by_cases hj : j = i
  · rw [if_pos hj, if_pos]
    refine ⟨hj, ?_⟩
    split
    case isTrue h => exact h
    case isFalse => rw [size_resize]; omega
  · rw [if_neg (fun h => hj h.1)]
    split
    case isTrue => rfl
    case isFalse h =>
      rw [elementAt?_resize]
      split
      case isTrue => rfl
      case isFalse hge => exact (elementAt?_of_size_le (by omega)).symm

theorem elementAt?_push :
    elementAt? (elements.push v) j =
      if j = elements.size then (some v).filter fun v => !v.isEmpty else elementAt? elements j := by
  unfold elementAt?
  rw [Array.getElem?_push]
  split <;> rfl

end Elements

end Store

namespace Object

/-! ### Own properties by kind -/

/-- The key spells an index at or beyond the end of a wrapped text. -/
def Beyond (x : Object) (key : PropertyKey) : Prop :=
  ∃ t i, x.kind = .primitive (.text t) ∧ key.index? = some i ∧ t.length ≤ i

/-- The table holds an index that lies beyond the text. -/
def HidesKey (x : Object) (key : PropertyKey) : Prop := x.Beyond key ∧ (x.properties.find? key).isSome = true

section Kinds

variable {x : Object} {key : PropertyKey} {elements : Array Value} {i : Nat} {scopes : Array Scope} {scope : ScopeId}
  {mapped : List Bool} {t : Text} {y : Object} {k : PropertyKey}

theorem ownProperty?_element (hkind : x.kind = .array elements) (hindex : key.index? = some i) :
    x.ownProperty? scopes key = (Store.elementAt? elements i).map .plain := by
  simp only [ownProperty?, hkind, hindex, Store.elementAt?]

theorem ownProperty?_arrayLength (hkind : x.kind = .array elements) :
    x.ownProperty? scopes .length = some ⟨.ofNat elements.size, true, false, false⟩ := by
  simp only [ownProperty?, hkind, PropertyKey.index?_length, if_true]

theorem ne_length_of_absent (hkind : x.kind = .array elements) (habsent : x.ownProperty? scopes key = none) :
    key ≠ .length := by
  rintro rfl
  rw [ownProperty?_arrayLength hkind] at habsent
  cases habsent

theorem ownProperty?_mapped (hkind : x.kind = .arguments scope mapped)
    (hindex : mappedIndex? mapped key = some i) :
    x.ownProperty? scopes key = some (.plain (mappedValue scopes scope i)) := by
  simp only [ownProperty?, hkind, hindex]

theorem isTextKey_iff :
    Store.isTextKey t key = true ↔ key = .length ∨ ∃ i, key.index? = some i ∧ i < t.length := by
  simp [Store.isTextKey, Option.any_eq_true]

theorem isSome_ownProperty?_text (hkind : x.kind = .primitive (.text t))
    (htext : Store.isTextKey t key = true) : (x.ownProperty? scopes key).isSome = true := by
  rcases isTextKey_iff.mp htext with rfl | ⟨i, hindex, hlt⟩
  · simp only [ownProperty?, hkind, PropertyKey.index?_length, if_true, Option.isSome_some]
  · simp only [ownProperty?, hkind, hindex, Text.unitAt?_eq]
    rw [Text.length_eq] at hlt
    simp [hlt]

theorem ownProperty?_of_isTextKey (hx : x.kind = .primitive (.text t)) (hy : y.kind = .primitive (.text t))
    (htext : Store.isTextKey t key = true) (scopes scopes' : Array Scope) :
    y.ownProperty? scopes' key = x.ownProperty? scopes key := by
  rcases isTextKey_iff.mp htext with rfl | ⟨i, hindex, -⟩
  · simp only [ownProperty?, hx, hy, PropertyKey.index?_length, if_true]
  · simp only [ownProperty?, hx, hy, hindex]

theorem ownProperty?_of_beyond (h : x.Beyond key) : x.ownProperty? scopes key = none := by
  obtain ⟨t, i, hkind, hindex, hge⟩ := h
  rw [Text.length_eq] at hge
  simp only [ownProperty?, hkind, hindex, Text.unitAt?_eq]
  rw [List.getElem?_eq_none hge]
  rfl

/-- What is left to the table is found there, unless it lies beyond a text. -/
theorem ownProperty?_of_inTable (h : x.InTable key) (hseen : ¬ x.Beyond key) :
    x.ownProperty? scopes key = x.properties.find? key := by
  cases hkind : x.kind with
  | array elements =>
    obtain ⟨hindex, hlength⟩ := inTable_of_array h hkind
    simp only [ownProperty?, hkind, hindex, if_neg hlength]
  | «arguments» scope mapped => simp only [ownProperty?, hkind, inTable_of_arguments h hkind]
  | primitive w =>
    cases w with
    | text t =>
      have htext := inTable_of_text h hkind
      cases hindex : key.index? with
      | some i =>
        refine absurd ⟨t, i, hkind, hindex, Nat.le_of_not_lt fun hlt => ?_⟩ hseen
        rw [isTextKey_iff.mpr (.inr ⟨i, hindex, hlt⟩)] at htext
        cases htext
      | none =>
        have hlength : key ≠ .length := fun heq => by
          rw [isTextKey_iff.mpr (.inl heq)] at htext
          cases htext
        simp only [ownProperty?, hkind, hindex, if_neg hlength]
    | _ => simp only [ownProperty?, hkind]
  | _ => simp only [ownProperty?, hkind]

theorem isSome_ownProperty? (x : Object) (key : PropertyKey) (scopes scopes' : Array Scope) :
    (x.ownProperty? scopes' key).isSome = (x.ownProperty? scopes key).isSome := by
  unfold ownProperty?
  split
  case h_3 => split <;> rfl
  all_goals rfl

/-! ### What a change leaves -/

theorem ownProperty?_congr (hkind : y.kind = x.kind)
    (hfind : y.properties.find? key = x.properties.find? key) : y.ownProperty? scopes key = x.ownProperty? scopes key := by
  unfold ownProperty?
  rw [hkind, hfind]

theorem ownProperty?_of_elements {elements' : Array Value} (hkind : x.kind = .array elements) (hlength : key ≠ .length)
    (h : ∀ i, key.index? = some i → Store.elementAt? elements' i = Store.elementAt? elements i) :
    ({ x with kind := .array elements' } : Object).ownProperty? scopes key = x.ownProperty? scopes key := by
  cases hindex : key.index? with
  | some i => rw [ownProperty?_element hkind hindex, ownProperty?_element rfl hindex, h i hindex]
  | none => simp only [ownProperty?, hkind, hindex, if_neg hlength]

theorem mappedIndex?_eq_some :
    mappedIndex? mapped key = some i ↔ key.index? = some i ∧ mapped[i]? = some true := by
  simp [mappedIndex?, Option.filter_eq_some_iff]

theorem mappedIndex?_set (hindex : key.index? = some i) (hk : k ≠ key) :
    mappedIndex? (mapped.set i false) k = mappedIndex? mapped k := by
  unfold mappedIndex?
  cases hj : k.index? with
  | none => rfl
  | some j =>
    have hij : i ≠ j := by
      rintro rfl
      exact hk (PropertyKey.eq_of_index? hj hindex)
    rw [Option.filter_some, Option.filter_some, List.getElem?_set_ne hij]

theorem ownProperty?_of_unmapped {properties : PropertyTable}
    (hkind : x.kind = .arguments scope mapped) (hindex : mappedIndex? mapped key = some i) (hk : k ≠ key)
    (hfind : properties.find? k = x.properties.find? k) :
    ({ x with kind := .arguments scope (mapped.set i false), properties } : Object).ownProperty? scopes k =
      x.ownProperty? scopes k := by
  simp only [ownProperty?, hkind, mappedIndex?_set (mappedIndex?_eq_some.mp hindex).1 hk, hfind]

end Kinds

/-! ### What operations leave -/

section Others

variable {x y : Object} {key k : PropertyKey} {v : Value} {p : Property}

theorem not_beyond_of_array {elements : Array Value} (hkind : x.kind = .array elements) : ¬ x.Beyond key := by
  rintro ⟨t, i, htext, -⟩
  rw [hkind] at htext
  cases htext

theorem Assigned.beyond (h : x.Assigned key v y) (hbeyond : x.Beyond k) : y.Beyond k := by
  cases h with
  | element kind | length kind => exact absurd hbeyond (not_beyond_of_array kind)
  | written | added => exact hbeyond

/-- An assignment leaves other keys alone, but for the length and the elements of arrays. -/
theorem Assigned.others (h : x.Assigned key v y) (scopes : Array Scope) (hk : k ≠ key) :
    y.ownProperty? scopes k = x.ownProperty? scopes k ∨
    (∃ elements i, x.kind = .array elements ∧ key.index? = some i ∧ elements.size ≤ i ∧ k = .length ∧
      y.ownProperty? scopes k = some ⟨.ofNat (i + 1), true, false, false⟩) ∨
    ∃ elements n j, x.kind = .array elements ∧ key = .length ∧ Store.arrayLength? v = some n ∧ k.index? = some j ∧
      n ≤ j ∧ y.ownProperty? scopes k = none := by
  cases h with
  | @element elements i kind index room =>
    by_cases hlength : k = .length
    · subst hlength
      have hnew : { x with kind := .array (Store.setElement elements i v) }.ownProperty? scopes .length =
          some ⟨.ofNat (max elements.size (i + 1)), true, false, false⟩ := by
        rw [ownProperty?_arrayLength rfl, Store.size_setElement]
      rcases Nat.lt_or_ge i elements.size with hlt | hge
      · left
        rw [hnew, ownProperty?_arrayLength kind, Nat.max_eq_left hlt]
      · refine .inr (.inl ⟨elements, i, kind, index, hge, rfl, ?_⟩)
        rw [hnew, Nat.max_eq_right (by omega)]
    · left
      refine ownProperty?_of_elements kind hlength fun j hj => ?_
      rw [Store.elementAt?_setElement, if_neg]
      rintro rfl
      exact hk (PropertyKey.eq_of_index? hj index)
  | @length elements n kind isLength valid =>
    have hlength : k ≠ .length := isLength ▸ hk
    by_cases hcut : ∃ j, k.index? = some j ∧ n ≤ j
    · obtain ⟨j, hj, hle⟩ := hcut
      refine .inr (.inr ⟨elements, n, j, kind, isLength, valid, hj, hle, ?_⟩)
      rw [ownProperty?_element rfl hj, Store.elementAt?_resize, if_neg (by omega)]
      rfl
    · left
      refine ownProperty?_of_elements kind hlength fun j hj => ?_
      rw [Store.elementAt?_resize, if_pos]
      exact Nat.lt_of_not_le fun hle => hcut ⟨j, hj, hle⟩
  | written inTable current writable => exact .inl (ownProperty?_congr rfl (by simp [hk]))
  | added inTable new extensible => exact .inl (ownProperty?_congr rfl (by simp [hk]))

end Others

end Object

end ScriptMachine
