import ScriptMachine.Text.Encoding

/-!
# Script strings

A script string is a sequence of 16-bit code units.  Units that form a surrogate pair stand for one
character; a surrogate without its partner is kept as it is and shown as the replacement character.

A text stores its units in the form that goes with them, so the form is never visible through equality, order, length
or concatenation.
-/

namespace ScriptMachine

structure Text where
  encoding : Encoding
  canonical : encoding.Canonical

namespace Text

def units (t : Text) : List UInt16 := t.encoding.units

def wide (t : Text) : Bool := t.encoding.isWide

theorem ext {a b : Text} (h : a.units = b.units) : a = b := by
  obtain ⟨x, hx⟩ := a
  obtain ⟨y, hy⟩ := b
  cases hx.eq hy h
  rfl

theorem eq_iff_units {a b : Text} : a = b ↔ a.units = b.units := ⟨fun h => h ▸ rfl, ext⟩

instance : DecidableEq Text := fun a b =>
  decidable_of_iff (a.encoding.same b.encoding = true) (Encoding.same_iff.trans eq_iff_units.symm)

/-! ### Building texts -/

def ofUnits (units : List UInt16) : Text := ⟨.ofUnits units, Encoding.canonical_ofUnits units⟩

@[simp] theorem units_ofUnits (us : List UInt16) : (ofUnits us).units = us := Encoding.units_ofUnits us

def empty : Text := ofUnits []

instance : Inhabited Text := ⟨empty⟩

def ofString (s : String) : Text := ⟨.ofString s, Encoding.canonical_ofString s⟩

theorem units_ofString (s : String) : (ofString s).units = unitsOf s := Encoding.units_ofString s

def ofNat (n : Nat) : Text := ofUnits ((Nat.toDigits 10 n).map (fun c => c.toNat.toUInt16))

/-! ### Measures and parts -/

def length (t : Text) : Nat := t.encoding.length

theorem length_eq (t : Text) : t.length = t.units.length := t.encoding.length_eq

def isEmpty (t : Text) : Bool := t.length == 0

def unitAt? (t : Text) (i : Nat) : Option UInt16 := t.encoding.unitAt? i

theorem unitAt?_eq (t : Text) (i : Nat) : t.unitAt? i = t.units[i]? := t.encoding.unitAt?_eq i

def byteSize (t : Text) : Nat := t.encoding.byteSize

def append (a b : Text) : Text := ⟨a.encoding.append b.encoding, a.canonical.append b.canonical⟩

instance : Append Text := ⟨append⟩

@[simp] theorem units_append (a b : Text) : (a ++ b).units = a.units ++ b.units :=
  Encoding.units_append a.encoding b.encoding

def sameAsString (t : Text) (s : String) : Bool := t.encoding.sameAsString s

def compare (a b : Text) : Ordering := a.encoding.compare b.encoding

/-! ### Reading texts as characters -/

def isHighSurrogate (u : UInt16) : Bool := 0xD800 ≤ u && u < 0xDC00

def isLowSurrogate (u : UInt16) : Bool := 0xDC00 ≤ u && u < 0xE000

/-- The character of one unit by itself; a lone surrogate gives the replacement character. -/
def singleChar (u : UInt16) : Char :=
  if isHighSurrogate u || isLowSurrogate u then Char.ofNat 0xFFFD else Char.ofNat u.toNat

def pairChar (high low : UInt16) : Char := Char.ofNat (0x10000 + (high.toNat - 0xD800) * 0x400 + (low.toNat - 0xDC00))

def decode : List UInt16 → List Char
  | [] => []
  | [u] => [singleChar u]
  | u :: v :: rest =>
    if isHighSurrogate u && isLowSurrogate v then pairChar u v :: decode rest
    else singleChar u :: decode (v :: rest)

/-- Whether some surrogate stands without its partner. -/
def loneSurrogate : List UInt16 → Bool
  | [] => false
  | [u] => isHighSurrogate u || isLowSurrogate u
  | u :: v :: rest =>
    if isHighSurrogate u && isLowSurrogate v then loneSurrogate rest
    else isHighSurrogate u || isLowSurrogate u || loneSurrogate (v :: rest)

def display (t : Text) : String := String.ofList (decode t.units)

theorem isHighSurrogate_iff (u : UInt16) : isHighSurrogate u = true ↔ 0xD800 ≤ u.toNat ∧ u.toNat < 0xDC00 := by
  simp [isHighSurrogate, UInt16.le_iff_toNat_le, UInt16.lt_iff_toNat_lt]

theorem isLowSurrogate_iff (u : UInt16) : isLowSurrogate u = true ↔ 0xDC00 ≤ u.toNat ∧ u.toNat < 0xE000 := by
  simp [isLowSurrogate, UInt16.le_iff_toNat_le, UInt16.lt_iff_toNat_lt]

theorem decode_cons {u : UInt16} (h : isHighSurrogate u = false) (units : List UInt16) :
    decode (u :: units) = singleChar u :: decode units := by
  cases units with
  | nil => rfl
  | cons v rest => simp [decode, h]

theorem decode_encodeChar (c : Char) (units : List UInt16) : decode (encodeChar c ++ units) = c :: decode units := by
  have hvalid : c.toNat < 0xD800 ∨ 0xDFFF < c.toNat ∧ c.toNat < 0x110000 := c.valid
  unfold encodeChar
  dsimp only
  split
  case isTrue hsmall =>
    generalize hu : c.toNat.toUInt16 = u
    have hval : u.toNat = c.toNat := by rw [← hu, UInt16.toNat_ofNat_of_lt' hsmall]
    have hhigh : isHighSurrogate u = false := by
      rw [Bool.eq_false_iff, Ne, isHighSurrogate_iff]
      omega
    have hlow : isLowSurrogate u = false := by
      rw [Bool.eq_false_iff, Ne, isLowSurrogate_iff]
      omega
    rw [List.singleton_append, decode_cons hhigh, singleChar, hhigh, hlow, hval]
    simp
  case isFalse hlarge =>
    generalize hh : (0xD800 + (c.toNat - 0x10000) / 0x400).toUInt16 = high
    generalize hl : (0xDC00 + (c.toNat - 0x10000) % 0x400).toUInt16 = low
    have hhigh : high.toNat = 0xD800 + (c.toNat - 0x10000) / 0x400 := by
      rw [← hh, UInt16.toNat_ofNat_of_lt' (by simp only [UInt16.size]; omega)]
    have hlow : low.toNat = 0xDC00 + (c.toNat - 0x10000) % 0x400 := by
      rw [← hl, UInt16.toNat_ofNat_of_lt' (by simp only [UInt16.size]; omega)]
    have hpair : pairChar high low = c := by
      have hval : 0x10000 + (high.toNat - 0xD800) * 0x400 + (low.toNat - 0xDC00) = c.toNat := by omega
      rw [pairChar, hval, Char.ofNat_toNat]
    have h₁ : isHighSurrogate high = true := (isHighSurrogate_iff high).mpr (by omega)
    have h₂ : isLowSurrogate low = true := (isLowSurrogate_iff low).mpr (by omega)
    simp [decode, h₁, h₂, hpair]

/-- A text made of characters is shown as these characters. -/
theorem display_ofString (s : String) : (ofString s).display = s := by
  have hdecode : ∀ cs : List Char, decode (cs.flatMap encodeChar) = cs := by
    intro cs
    induction cs with
    | nil => rfl
    | cons c rest ih => rw [List.flatMap_cons, decode_encodeChar, ih]
  rw [display, units_ofString, unitsOf, hdecode, String.ofList_toList]

def quoted (t : Text) : String := "\"" ++ t.display ++ "\""

/-! ### Array indices -/

def digit? (u : UInt16) : Option Nat := if 48 ≤ u ∧ u ≤ 57 then some (u.toNat - 48) else none

/-- The number written by decimal digits, continuing from `acc`. -/
def digitsValue? : List UInt16 → Nat → Option Nat
  | [], acc => some acc
  | u :: rest, acc => (digit? u).bind fun d => digitsValue? rest (10 * acc + d)

/-- Array indices lie below this bound. -/
def indexBound : Nat := 0xFFFFFFFF

/-- The array index a text spells: decimal digits without a superfluous leading zero, below `indexBound`. -/
def arrayIndex? (t : Text) : Option Nat :=
  match t.units with
  | [] => none
  | u :: rest =>
    if u = 48 ∧ rest ≠ [] then none
    else (digitsValue? (u :: rest) 0).bind fun n => if n < indexBound then some n else none

end Text

end ScriptMachine
