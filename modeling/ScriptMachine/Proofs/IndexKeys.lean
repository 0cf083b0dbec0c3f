import ScriptMachine.Property

/-!
# Index keys

The keys of array elements are the decimal texts of the numbers below `Text.indexBound`, without superfluous zeros.  So
a number has one such key, and a key spells at most one number.
-/

namespace ScriptMachine

namespace Text

def digitUnit (d : Nat) : UInt16 := (Nat.digitChar d).toNat.toUInt16

variable {d n : Nat}

theorem toNat_digitUnit (h : d < 10) : (digitUnit d).toNat = 48 + d := by
  rw [digitUnit, Nat.toNat_digitChar_of_lt_ten h, UInt16.toNat_ofNat_of_lt' (by simp only [UInt16.size]; omega)]

theorem digit?_eq_some {u : UInt16} : digit? u = some d ↔ d < 10 ∧ u = digitUnit d := by
  have hvalue : (48 ≤ u ∧ u ≤ 57) ↔ 48 ≤ u.toNat ∧ u.toNat ≤ 57 := by
    rfl
  unfold digit?
  constructor
  · intro h
    split at h
    case isTrue hrange =>
      rw [hvalue] at hrange
      obtain rfl := Option.some.inj h
      have hlt : u.toNat - 48 < 10 := by omega
      refine ⟨hlt, UInt16.toNat_inj.mp ?_⟩
      rw [toNat_digitUnit hlt]
      omega
    case isFalse => cases h
  · rintro ⟨hlt, rfl⟩
    have hunit := toNat_digitUnit hlt
    rw [if_pos (hvalue.mpr (by omega)), hunit]
    simp

theorem units_ofNat_of_lt (h : d < 10) : (ofNat d).units = [digitUnit d] := by
  rw [ofNat, units_ofUnits, Nat.toDigits_of_lt_base h]
  rfl

theorem units_ofNat_append (hn : 0 < n) (hd : d < 10) :
    (ofNat n).units ++ [digitUnit d] = (ofNat (10 * n + d)).units := by
  rw [← units_ofNat_of_lt hd]
  simp only [ofNat, units_ofUnits]
  rw [← List.map_append, Nat.toDigits_append_toDigits (by decide) hn hd]

theorem digitsValue?_append (units : List UInt16) (u : UInt16) (acc : Nat) :
    digitsValue? (units ++ [u]) acc = (digitsValue? units acc).bind fun n => (digit? u).map fun d => 10 * n + d := by
  induction units generalizing acc with
  | nil => cases h : digit? u <;> simp [digitsValue?, h]
  | cons v rest ih => cases h : digit? v <;> simp [digitsValue?, h, ih]

/-- The decimal text of a number does not start with a zero, unless it is that of zero. -/
theorem head_ofNat (hn : 0 < n) : ∃ u rest, (ofNat n).units = u :: rest ∧ u ≠ 48 := by
  induction n using Nat.strongRecOn with
  | ind n ih =>
    rcases Nat.lt_or_ge n 10 with hlt | hge
    · refine ⟨digitUnit n, [], units_ofNat_of_lt hlt, fun h => ?_⟩
      have hunit := toNat_digitUnit hlt
      rw [h, show (48 : UInt16).toNat = 48 from rfl] at hunit
      omega
    · obtain ⟨u, rest, hunits, hu⟩ := ih (n / 10) (by omega) (by omega)
      have happend := units_ofNat_append (n := n / 10) (d := n % 10) (by omega) (by omega)
      rw [Nat.div_add_mod, hunits] at happend
      exact ⟨u, rest ++ [digitUnit (n % 10)], happend.symm, hu⟩

theorem digitsValue?_ofNat (n : Nat) : digitsValue? (ofNat n).units 0 = some n := by
  induction n using Nat.strongRecOn with
  | ind n ih =>
    rcases Nat.lt_or_ge n 10 with hlt | hge
    · rw [units_ofNat_of_lt hlt, digitsValue?, digit?_eq_some.mpr ⟨hlt, rfl⟩]
      simp [digitsValue?]
    · have happend := units_ofNat_append (n := n / 10) (d := n % 10) (by omega) (by omega)
      rw [Nat.div_add_mod] at happend
      rw [← happend, digitsValue?_append, ih (n / 10) (by omega), digit?_eq_some.mpr ⟨by omega, rfl⟩]
      simp [Nat.div_add_mod]

theorem units_of_digitsValue? {units : List UInt16} {acc : Nat} (hacc : 0 < acc)
    (h : digitsValue? units acc = some n) : (ofNat acc).units ++ units = (ofNat n).units := by
  induction units generalizing acc with
  | nil =>
    obtain rfl := Option.some.inj h
    simp
  | cons u rest ih =>
    obtain ⟨d, hd, hrest⟩ := Option.bind_eq_some_iff.mp h
    obtain ⟨hlt, rfl⟩ := digit?_eq_some.mp hd
    rw [← ih (by omega) hrest, ← units_ofNat_append hacc hlt, List.append_assoc, List.singleton_append]

/-- **Index texts**: a text spells an array index exactly if it is the decimal text of a number below the bound. -/
theorem arrayIndex?_eq_some {t : Text} : t.arrayIndex? = some n ↔ n < indexBound ∧ t = ofNat n := by
  constructor
  · intro h
    unfold arrayIndex? at h
    split at h
    · cases h
    rename_i u rest hunits
    split at h
    · cases h
    rename_i hzero
    obtain ⟨k, hk, hbound⟩ := Option.bind_eq_some_iff.mp h
    obtain ⟨hlt, rfl⟩ : k < indexBound ∧ k = n := by
      split at hbound
      · exact ⟨by assumption, Option.some.inj hbound⟩
      · cases hbound
    refine ⟨hlt, ext ?_⟩
    obtain ⟨d, hd, hrest⟩ := Option.bind_eq_some_iff.mp hk
    obtain ⟨hd10, rfl⟩ := digit?_eq_some.mp hd
    rw [Nat.zero_add] at hrest
    rcases Nat.eq_zero_or_pos d with rfl | hpos
    · -- A zero stands alone.
      cases rest with
      | cons v rest => exact absurd ⟨by decide, List.cons_ne_nil v rest⟩ hzero
      | nil =>
        obtain rfl := Option.some.inj hrest
        rw [hunits, units_ofNat_of_lt hd10]
    · rw [hunits, ← units_of_digitsValue? hpos hrest, units_ofNat_of_lt hd10, List.singleton_append]
  · rintro ⟨hlt, rfl⟩
    obtain ⟨u, rest, hunits, hzero⟩ : ∃ u rest, (ofNat n).units = u :: rest ∧ ¬ (u = 48 ∧ rest ≠ []) := by
      rcases Nat.eq_zero_or_pos n with rfl | hpos
      · exact ⟨digitUnit 0, [], units_ofNat_of_lt (by decide), fun h => h.2 rfl⟩
      · obtain ⟨u, rest, hunits, hu⟩ := head_ofNat hpos
        exact ⟨u, rest, hunits, fun h => hu h.1⟩
    have hvalue := digitsValue?_ofNat n
    rw [hunits] at hvalue
    simp only [arrayIndex?, hunits]
    rw [if_neg hzero, hvalue, Option.bind_some, if_pos hlt]

theorem ofNat_eq_ofString (n : Nat) : ofNat n = ofString (toString n) := by
  have hchar : ∀ c ∈ Nat.toDigits 10 n, encodeChar c = [c.toNat.toUInt16] := by
    intro c hc
    have hdigit := Nat.isDigit_of_mem_toDigits (by decide) (by decide) hc
    have hle : c.toNat ≤ 57 := (Char.isDigit_iff_toNat.mp hdigit).2
    exact if_pos (by omega)
  have hlist : (toString n).toList = Nat.toDigits 10 n := by simp [Nat.repr]
  rw [eq_iff_units, ofNat, units_ofUnits, units_ofString, unitsOf, hlist, List.flatMap_def, List.map_congr_left hchar,
    ← List.flatMap_def, ← List.map_eq_flatMap]

end Text

namespace PropertyKey

/-- **Index keys**: a key spells an array index exactly if it is the key of a number below the bound. -/
theorem index?_eq_some {key : PropertyKey} {n : Nat} : key.index? = some n ↔ n < Text.indexBound ∧ key = .ofNat n := by
  cases key with
  | text t =>
    rw [index?, Text.arrayIndex?_eq_some, ofNat]
    simp
  | symbol s => simp [index?, ofNat]

theorem index?_ofNat {n : Nat} (h : n < Text.indexBound) : (ofNat n).index? = some n := index?_eq_some.mpr ⟨h, rfl⟩

theorem eq_of_index? {key key' : PropertyKey} {n : Nat} (h : key.index? = some n) (h' : key'.index? = some n) :
    key = key' :=
  (index?_eq_some.mp h).2.trans (index?_eq_some.mp h').2.symm

theorem ofNat_injective {i j : Nat} (h : ofNat i = ofNat j) : i = j := by
  have htext : Text.ofNat i = Text.ofNat j := PropertyKey.text.inj h
  have hvalue := Text.digitsValue?_ofNat i
  rw [htext, Text.digitsValue?_ofNat] at hvalue
  exact (Option.some.inj hvalue).symm

/-- The keys that are made from the indices of keys are these keys. -/
theorem map_ofNat_filterMap_index? (keys : List PropertyKey) :
    (keys.filterMap index?).map ofNat = keys.filter (·.index?.isSome) := by
  induction keys with
  | nil => rfl
  | cons key rest ih =>
    cases h : key.index? with
    | none => simpa [h] using ih
    | some n => simpa [h, (index?_eq_some.mp h).2.symm] using ih

theorem index?_length : length.index? = none := by decide

end PropertyKey

end ScriptMachine
