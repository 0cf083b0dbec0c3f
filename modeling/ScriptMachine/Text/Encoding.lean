/-!
# Stored code units

Code units are stored narrow, one byte each, or wide, two bytes each.  What is made here from characters or units is
stored narrow exactly if every unit lies in the 7-bit range (`Canonical`).  The operations have a path of their own for
each form.
-/

namespace ScriptMachine

/-! ### Characters as bytes and as units -/

namespace Text

def encodeChar (c : Char) : List UInt16 :=
  let n := c.toNat
  if n < 0x10000 then [n.toUInt16]
  else [(0xD800 + (n - 0x10000) / 0x400).toUInt16, (0xDC00 + (n - 0x10000) % 0x400).toUInt16]

def unitsOf (s : String) : List UInt16 := s.toList.flatMap encodeChar

def bytesOf (s : String) : List UInt8 := s.toByteArray.data.toList

theorem bytesOf_eq (s : String) : bytesOf s = s.toList.flatMap String.utf8EncodeChar := by
  rw [bytesOf, ← String.utf8Encode_toList, List.utf8Encode, List.toList_data_toByteArray]

theorem utf8EncodeChar_small {c : Char} : (∀ b ∈ String.utf8EncodeChar c, b < 0x80) ↔ c.toNat < 0x80 := by
  have hval : c.val.toNat = c.toNat := rfl
  fun_cases String.utf8EncodeChar c <;> simp [UInt8.lt_iff_toNat_lt] <;> omega

theorem encodeChar_small {c : Char} : (∀ u ∈ encodeChar c, u < 0x80) ↔ c.toNat < 0x80 := by
  fun_cases encodeChar c <;> simp [UInt16.lt_iff_toNat_lt, Nat.toUInt16] <;> omega

theorem encodeChar_eq_map {c : Char} (h : c.toNat < 0x80) :
    encodeChar c = (String.utf8EncodeChar c).map UInt8.toUInt16 := by
  have hval : c.val.toNat = c.toNat := rfl
  unfold encodeChar String.utf8EncodeChar
  rw [if_pos (by omega), if_pos (by omega)]
  congr 1
  apply UInt16.toNat_inj.mp
  simp [Nat.toUInt16]
  omega

theorem unitsOf_small (s : String) : (∀ u ∈ unitsOf s, u < 0x80) ↔ ∀ b ∈ bytesOf s, b < 0x80 := by
  simp only [unitsOf, bytesOf_eq, List.mem_flatMap, forall_exists_index, and_imp]
  have hchar : ∀ c : Char, (∀ u ∈ encodeChar c, u < 0x80) ↔ ∀ b ∈ String.utf8EncodeChar c, b < 0x80 := fun c =>
    encodeChar_small.trans utf8EncodeChar_small.symm
  exact ⟨fun h b c hc => (hchar c).mp (fun u => h u c hc) b, fun h u c hc => (hchar c).mpr (fun b => h b c hc) u⟩

theorem unitsOf_eq_map {s : String} (h : ∀ b ∈ bytesOf s, b < 0x80) : unitsOf s = (bytesOf s).map UInt8.toUInt16 := by
  rw [bytesOf_eq] at h ⊢
  have hchar : ∀ c ∈ s.toList, encodeChar c = (String.utf8EncodeChar c).map UInt8.toUInt16 := fun c hc =>
    encodeChar_eq_map (utf8EncodeChar_small.mp fun b hb => h b (List.mem_flatMap.mpr ⟨c, hc, hb⟩))
  rw [unitsOf, List.map_flatMap, List.flatMap_def, List.flatMap_def, List.map_congr_left hchar]

end Text

/-! ### Both forms -/

inductive Encoding where
  | narrow (bytes : List UInt8)
  | wide (units : List UInt16)

namespace Encoding

def units : Encoding → List UInt16
  | narrow bytes => bytes.map UInt8.toUInt16
  | wide units => units

def isWide : Encoding → Bool
  | narrow _ => false
  | wide _ => true

/-- The form is the one that goes with the units. -/
def Canonical (e : Encoding) : Prop := e.isWide = false ↔ ∀ u ∈ e.units, u < 0x80

def ofUnits (units : List UInt16) : Encoding :=
  if units.all (· < 0x80) then narrow (units.map UInt16.toUInt8) else wide units

/-- Store characters; a sequence of ASCII characters is stored as its bytes. -/
def ofString (s : String) : Encoding :=
  if (Text.bytesOf s).all (· < 0x80) then narrow (Text.bytesOf s) else wide (Text.unitsOf s)

def length : Encoding → Nat
  | narrow bytes => bytes.length
  | wide units => units.length

def unitAt? (i : Nat) : Encoding → Option UInt16
  | narrow bytes => bytes[i]?.map UInt8.toUInt16
  | wide units => units[i]?

def byteSize : Encoding → Nat
  | narrow bytes => bytes.length
  | wide units => 2 * units.length

def append (a b : Encoding) : Encoding :=
  if b.length = 0 then a
  else if a.length = 0 then b
  else match a, b with
    | narrow x, narrow y => narrow (x ++ y)
    | a, b => wide (a.units ++ b.units)

def same : Encoding → Encoding → Bool
  | narrow x, narrow y => x == y
  | wide x, wide y => x == y
  | a, b => a.length == b.length && a.units == b.units

/-- Whether these are the units of a character sequence. -/
def sameAsString (s : String) : Encoding → Bool
  | narrow bytes => bytes == Text.bytesOf s
  | wide units => units == Text.unitsOf s

def compare : Encoding → Encoding → Ordering
  | narrow x, narrow y => List.compareLex Ord.compare x y
  | a, b => List.compareLex Ord.compare a.units b.units

def hashInput (e : Encoding) : Nat × List UInt16 := (e.length, e.units)

/-! ### Units decide -/

theorem length_eq (e : Encoding) : e.length = e.units.length := by
  cases e with
  | narrow bytes => exact (List.length_map _).symm
  | wide units => rfl

theorem unitAt?_eq (e : Encoding) (i : Nat) : e.unitAt? i = e.units[i]? := by
  cases e with
  | narrow bytes => exact List.getElem?_map.symm
  | wide units => rfl

theorem map_toUInt16_inj {x y : List UInt8} : x.map UInt8.toUInt16 = y.map UInt8.toUInt16 ↔ x = y :=
  List.map_inj_right fun _ _ => UInt8.toUInt16_inj.mp

theorem same_iff {a b : Encoding} : a.same b = true ↔ a.units = b.units := by
  have hmixed : (a.length == b.length && a.units == b.units) = true ↔ a.units = b.units := by
    rw [Bool.and_eq_true, beq_iff_eq, beq_iff_eq, length_eq, length_eq]
    exact ⟨And.right, fun h => ⟨congrArg List.length h, h⟩⟩
  cases a with
  | narrow x =>
    cases b with
    | narrow y => exact beq_iff_eq.trans map_toUInt16_inj.symm
    | wide _ => exact hmixed
  | wide x =>
    cases b with
    | narrow _ => exact hmixed
    | wide y => exact beq_iff_eq

/-- In the canonical form the same units are stored in the same way. -/
theorem Canonical.eq {a b : Encoding} (ha : a.Canonical) (hb : b.Canonical) (h : a.units = b.units) : a = b := by
  have hwide : a.isWide = false ↔ b.isWide = false := by
    unfold Canonical at ha hb
    rw [ha, hb, h]
  cases a with
  | narrow x =>
    cases b with
    | narrow y => exact congrArg narrow (map_toUInt16_inj.mp h)
    | wide y => cases hwide.mp rfl
  | wide x =>
    cases b with
    | narrow y => cases hwide.mpr rfl
    | wide y => exact congrArg wide h

theorem canonical_narrow {bytes : List UInt8} : (narrow bytes).Canonical ↔ ∀ b ∈ bytes, b < 0x80 := by
  simp [Canonical, isWide, units, UInt8.lt_iff_toNat_lt, UInt16.lt_iff_toNat_lt]

theorem canonical_wide {us : List UInt16} : (wide us).Canonical ↔ ∃ u ∈ us, 0x80 ≤ u := by
  simp [Canonical, isWide, units]

/-! ### What is built -/

theorem units_ofUnits (us : List UInt16) : (ofUnits us).units = us := by
  unfold ofUnits
  split
  case isTrue h =>
    simp only [List.all_eq_true, decide_eq_true_eq, UInt16.lt_iff_toNat_lt] at h
    have hunit : ∀ u ∈ us, (UInt8.toUInt16 ∘ UInt16.toUInt8) u = id u := by
      intro u hu
      have hlt := h u hu
      apply UInt16.toNat_inj.mp
      simp at hlt ⊢
      omega
    rw [units, List.map_map, List.map_congr_left hunit, List.map_id]
  case isFalse => rfl

theorem canonical_ofUnits (us : List UInt16) : (ofUnits us).Canonical := by
  have hunits := units_ofUnits us
  unfold Canonical
  rw [hunits, ofUnits]
  split
  case isTrue h => simpa [isWide] using h
  case isFalse h => simpa [isWide] using h

theorem units_append (a b : Encoding) : (a.append b).units = a.units ++ b.units := by
  unfold append
  split
  case isTrue h =>
    rw [length_eq, List.length_eq_zero_iff] at h
    rw [h, List.append_nil]
  case isFalse =>
    split
    case isTrue h =>
      rw [length_eq, List.length_eq_zero_iff] at h
      rw [h, List.nil_append]
    case isFalse =>
      split
      · exact List.map_append
      · rfl

/-- A byte sequence spells the characters whose units it stands for. -/
theorem units_ofString (s : String) : (ofString s).units = Text.unitsOf s := by
  unfold ofString
  split
  case isTrue h => exact (Text.unitsOf_eq_map (by simpa using h)).symm
  case isFalse => rfl

theorem canonical_ofString (s : String) : (ofString s).Canonical := by
  have hunits := units_ofString s
  unfold Canonical
  rw [hunits, Text.unitsOf_small, ofString]
  split
  case isTrue h => simpa [isWide] using h
  case isFalse h => simpa [isWide] using h

theorem Canonical.append {a b : Encoding} (ha : a.Canonical) (hb : b.Canonical) : (a.append b).Canonical := by
  unfold Encoding.append
  split
  · exact ha
  · split
    · exact hb
    · split
      case h_1 x y =>
        rw [canonical_narrow] at ha hb ⊢
        exact fun c hc => (List.mem_append.mp hc).elim (ha c) (hb c)
      case h_2 hmixed =>
        -- one of them is wide, and so has a unit that is not small
        rw [canonical_wide]
        cases a with
        | wide x =>
          obtain ⟨u, hu, hge⟩ := canonical_wide.mp ha
          exact ⟨u, List.mem_append_left _ hu, hge⟩
        | narrow x =>
          cases b with
          | wide y =>
            obtain ⟨u, hu, hge⟩ := canonical_wide.mp hb
            exact ⟨u, List.mem_append_right _ hu, hge⟩
          | narrow y => exact (hmixed x y rfl rfl).elim

end Encoding

end ScriptMachine
