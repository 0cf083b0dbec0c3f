import Mathlib.Data.Int.Order.Basic
import ScriptMachine.Value.Arithmetic
import ScriptMachine.Value.Convert

/-!
# Arithmetic on integers

Numbers have two integer forms, and sums of safe integers are formed without a test for overflow.  This is sound because
no operation ever yields an integer of the safe form that lies outside the safe range.

Main result: `Value.integers_closed`.
-/

namespace ScriptMachine.Value

variable {n : Int} {i : Int64}

/-! ### Ranges -/

def Safe (n : Int) : Prop := -maxSafe ≤ n ∧ n ≤ maxSafe

def Fits64 (n : Int) : Prop := Int64.minValue.toInt ≤ n ∧ n ≤ Int64.maxValue.toInt

instance (n : Int) : Decidable (Safe n) := inferInstanceAs (Decidable (_ ∧ _))

instance (n : Int) : Decidable (Fits64 n) := inferInstanceAs (Decidable (_ ∧ _))

theorem safe_iff : Safe n ↔ -9007199254740991 ≤ n ∧ n ≤ 9007199254740991 := Iff.rfl

theorem fits64_iff : Fits64 n ↔ -9223372036854775808 ≤ n ∧ n ≤ 9223372036854775807 := Iff.rfl

theorem isSafe_iff : isSafe i = true ↔ Safe i.toInt := by
  simp [isSafe, Safe]

theorem fits64_toInt (i : Int64) : Fits64 i.toInt := ⟨Int64.minValue_le_toInt i, Int64.toInt_le i⟩

theorem toInt_ofInt_of_fits (h : Fits64 n) : (Int64.ofInt n).toInt = n := by
  rw [fits64_iff] at h
  exact Int64.toInt_ofInt_of_le (by omega) (by omega)

theorem bmod_of_fits (h : Fits64 n) : n.bmod Int64.size = n := by
  have hsize : Int64.size = 18446744073709551616 := rfl
  rw [fits64_iff] at h
  exact Int.bmod_eq_of_le (by omega) (by omega)

theorem fit64_of_fits (h : Fits64 n) : fit64? n = some (Int64.ofInt n) := if_pos h

theorem fit64_of_not_fits (h : ¬ Fits64 n) : fit64? n = none := if_neg h

theorem fit64_eq_some (h : i.toInt = n) : fit64? n = some i := by
  subst h
  rw [fit64_of_fits (fits64_toInt i), Int64.ofInt_toInt]

/-! ### Canonical values -/

/-- The value is no integer of the safe form outside the safe range. -/
def Canonical : Value → Prop
  | .int i => Safe i.toInt
  | _ => True

instance : DecidablePred Canonical
  | .int i => inferInstanceAs (Decidable (Safe i.toInt))
  | .undefined | .null | .bool _ | .int64 _ | .float _ | .text _ | .symbol _ | .object _ | .empty | .unresolved _ _ =>
    isTrue trivial

/-- The value is a number and canonical. -/
structure CanonicalNumber (v : Value) : Prop where
  number : v.isNumber = true
  canonical : v.Canonical

theorem canonicalNumber_float (f : Float) : (Value.float f).CanonicalNumber := ⟨rfl, trivial⟩

theorem canonicalNumber_ofInt (i : Int64) : (ofInt i).CanonicalNumber := by
  unfold ofInt
  split
  case isTrue h => exact ⟨rfl, isSafe_iff.mp h⟩
  case isFalse => exact canonicalNumber_float _

theorem canonicalNumber_ofInt32 (i : Int32) : (ofInt32 i).CanonicalNumber := by
  refine ⟨rfl, ?_⟩
  have hlow := Int32.le_toInt i
  have hhigh := Int32.toInt_lt i
  show Safe i.toInt64.toInt
  rw [Int32.toInt_toInt64, safe_iff]
  omega

theorem canonicalNumber_ofUInt32 (u : UInt32) : (ofUInt32 u).CanonicalNumber := by
  refine ⟨rfl, ?_⟩
  have hhigh := UInt32.toNat_lt u
  have hvalue : u.toUInt64.toInt64.toInt = u.toNat := by
    show u.toUInt64.toBitVec.toInt = _
    rw [BitVec.toInt_eq_toNat_of_lt]
    · simp
    · simp
      omega
  show Safe u.toUInt64.toInt64.toInt
  rw [safe_iff]
  omega

/-! ### Exact results -/

/-- How the exact result `n` of an operation on integers is held, one of which is of the 64-bit form if `wide`.  What the
operation yields on doubles is `doubles`. -/
inductive Held (wide : Bool) (n : Int) (doubles : Float) : Value → Prop where
  | safe {i : Int64} (range : Safe n) (exact : i.toInt = n) : Held wide n doubles (.int i)
  | wide {i : Int64} (outside : ¬ Safe n) (isWide : wide = true) (exact : i.toInt = n) : Held wide n doubles (.int64 i)
  | rounded {i : Int64} (outside : ¬ Safe n) (isNarrow : wide = false) (exact : i.toInt = n) :
      Held wide n doubles (.float (Binary64.ofInt64 i))
  | beyond (outside : ¬ Fits64 n) (isWide : wide = true) : Held wide n doubles (.float doubles)

theorem Held.canonicalNumber {wide : Bool} {doubles : Float} {v : Value} (h : Held wide n doubles v) :
    v.CanonicalNumber := by
  cases h with
  | safe range exact =>
    refine ⟨rfl, ?_⟩
    show Safe _
    rwa [exact]
  | wide => exact ⟨rfl, trivial⟩
  | rounded | beyond => exact canonicalNumber_float _

theorem held_ofInt (h : i.toInt = n) (doubles : Float) : Held false n doubles (ofInt i) := by
  unfold ofInt
  split
  case isTrue hsafe => exact .safe (h ▸ isSafe_iff.mp hsafe) h
  case isFalse hunsafe => exact .rounded (fun hsafe => hunsafe (isSafe_iff.mpr (h ▸ hsafe))) rfl h

theorem held_ofInt64 (h : i.toInt = n) (doubles : Float) : Held true n doubles (ofInt64 i) := by
  unfold ofInt64
  split
  case isTrue hsafe => exact .safe (h ▸ isSafe_iff.mp hsafe) h
  case isFalse hunsafe => exact .wide (fun hsafe => hunsafe (isSafe_iff.mpr (h ▸ hsafe))) rfl h

theorem held_fit64 (n : Int) (doubles : Float) :
    Held true n doubles (match fit64? n with
      | some i => ofInt64 i
      | none => .float doubles) := by
  by_cases h : Fits64 n
  · rw [fit64_of_fits h]
    exact held_ofInt64 (toInt_ofInt_of_fits h) doubles
  · rw [fit64_of_not_fits h]
    exact .beyond h rfl

/-! ### Operations without a test -/

section Unchecked

variable {a b : Int64}

theorem toInt_add_of_safe (ha : Safe a.toInt) (hb : Safe b.toInt) : (a + b).toInt = a.toInt + b.toInt := by
  rw [safe_iff] at ha hb
  rw [Int64.toInt_add]
  exact bmod_of_fits (fits64_iff.mpr (by omega))

theorem toInt_sub_of_safe (ha : Safe a.toInt) (hb : Safe b.toInt) : (a - b).toInt = a.toInt - b.toInt := by
  rw [safe_iff] at ha hb
  rw [Int64.toInt_sub]
  exact bmod_of_fits (fits64_iff.mpr (by omega))

theorem toInt_neg_of_safe (ha : Safe a.toInt) : (-a).toInt = -a.toInt := by
  rw [safe_iff] at ha
  rw [Int64.toInt_neg]
  exact bmod_of_fits (fits64_iff.mpr (by omega))

theorem safe_one : Safe (1 : Int64).toInt := by decide

end Unchecked

/-- Addition, where a sum formed without a test has to fit 64 bits. -/
def add? (l r : Value) : Option Value :=
  match l, r with
  | .int a, .int b => (fit64? (a.toInt + b.toInt)).map ofInt
  | _, _ => some (add l r)

/-- Subtraction, where a difference formed without a test has to fit 64 bits. -/
def sub? (l r : Value) : Option Value :=
  match l, r with
  | .int a, .int b => (fit64? (a.toInt - b.toInt)).map ofInt
  | _, _ => some (sub l r)

/-- Negation, where what is negated without a test has to fit 64 bits. -/
def neg? : Value → Option Value
  | .int i => if i = 0 then some negativeZero else (fit64? (-i.toInt)).map .int
  | v => some (neg v)

/-- The successor, where a sum formed without a test has to fit 64 bits. -/
def inc? : Value → Option Value
  | .int i => (fit64? (i.toInt + 1)).map ofInt
  | v => some (inc v)

/-- The predecessor, where a difference formed without a test has to fit 64 bits. -/
def dec? : Value → Option Value
  | .int i => (fit64? (i.toInt - 1)).map ofInt
  | v => some (dec v)

section Operators

variable {l r v : Value} {a b : Int64}

theorem add?_eq (hl : l.Canonical) (hr : r.Canonical) : add? l r = some (add l r) := by
  unfold add?
  split
  case h_1 a b =>
    rw [fit64_eq_some (toInt_add_of_safe hl hr)]
    rfl
  case h_2 => rfl

theorem sub?_eq (hl : l.Canonical) (hr : r.Canonical) : sub? l r = some (sub l r) := by
  unfold sub?
  split
  case h_1 a b =>
    rw [fit64_eq_some (toInt_sub_of_safe hl hr)]
    rfl
  case h_2 => rfl

theorem neg?_eq (hv : v.Canonical) : neg? v = some (neg v) := by
  cases v with
  | int i =>
    rw [neg?, neg, fit64_eq_some (toInt_neg_of_safe hv)]
    split <;> rfl
  | _ => rfl

theorem inc?_eq (hv : v.Canonical) : inc? v = some (inc v) := by
  cases v with
  | int i =>
    have hnext := fit64_eq_some (toInt_add_of_safe hv safe_one)
    rw [Int64.toInt_one] at hnext
    rw [inc?, hnext]
    rfl
  | _ => rfl

theorem dec?_eq (hv : v.Canonical) : dec? v = some (dec v) := by
  cases v with
  | int i =>
    have hnext := fit64_eq_some (toInt_sub_of_safe hv safe_one)
    rw [Int64.toInt_one] at hnext
    rw [dec?, hnext]
    rfl
  | _ => rfl

/-! ### Operators on integers -/

/-- The integer is of the 64-bit form. -/
def isInt64 : Value → Bool
  | .int64 _ => true
  | _ => false

theorem eq_of_wholeValue (h : v.wholeValue? = some a) : v = .int a ∨ v = .int64 a := by
  cases v with
  | int | int64 =>
    cases h
    simp
  | _ => cases h

theorem held_add_sub (hl : l.Canonical) (hr : r.Canonical) (ha : l.wholeValue? = some a) (hb : r.wholeValue? = some b) :
    Held (l.isInt64 || r.isInt64) (a.toInt + b.toInt) (Binary64.ofInt64 a + Binary64.ofInt64 b) (add l r) ∧
      Held (l.isInt64 || r.isInt64) (a.toInt - b.toInt) (Binary64.ofInt64 a - Binary64.ofInt64 b) (sub l r) := by
  rcases eq_of_wholeValue ha with rfl | rfl <;> rcases eq_of_wholeValue hb with rfl | rfl
  · exact ⟨held_ofInt (toInt_add_of_safe hl hr) _, held_ofInt (toInt_sub_of_safe hl hr) _⟩
  all_goals exact ⟨held_fit64 _ _, held_fit64 _ _⟩

theorem held_inc_dec (hv : v.Canonical) (ha : v.wholeValue? = some a) :
    Held v.isInt64 (a.toInt + 1) (Binary64.ofInt64 a + 1.0) (inc v) ∧
      Held v.isInt64 (a.toInt - 1) (Binary64.ofInt64 a - 1.0) (dec v) := by
  rcases eq_of_wholeValue ha with rfl | rfl
  · exact ⟨held_ofInt (toInt_add_of_safe hv safe_one) _, held_ofInt (toInt_sub_of_safe hv safe_one) _⟩
  · exact ⟨held_fit64 _ _, held_fit64 _ _⟩

/-! ### Closure -/

theorem canonicalNumber_add (l r : Value) : (add l r).CanonicalNumber := by
  unfold add
  split
  · exact canonicalNumber_ofInt _
  · split
    · exact (held_fit64 _ _).canonicalNumber
    · exact canonicalNumber_float _

theorem canonicalNumber_sub (l r : Value) : (sub l r).CanonicalNumber := by
  unfold sub
  split
  · exact canonicalNumber_ofInt _
  · split
    · exact (held_fit64 _ _).canonicalNumber
    · exact canonicalNumber_float _

theorem canonicalNumber_mul (l r : Value) : (mul l r).CanonicalNumber := by
  unfold mul
  split
  · unfold product?
    split
    · exact canonicalNumber_float _
    · split
      · exact canonicalNumber_ofInt _
      · exact canonicalNumber_float _
  · exact canonicalNumber_float _

theorem canonicalNumber_mod (l r : Value) : (mod l r).CanonicalNumber := by
  unfold mod
  split
  · split
    · exact canonicalNumber_float _
    · split
      · split
        · exact canonicalNumber_float _
        · exact canonicalNumber_ofInt _
      · exact canonicalNumber_float _
  · exact canonicalNumber_float _

theorem canonicalNumber_arith (op : ArithOp) (l r : Value) : (op.apply l r).CanonicalNumber := by
  cases op with
  | sub => exact canonicalNumber_sub l r
  | mul => exact canonicalNumber_mul l r
  | div => exact canonicalNumber_float _
  | mod => exact canonicalNumber_mod l r

theorem canonicalNumber_bits (op : BitOp) (l r : Value) : (op.apply l r).CanonicalNumber := by
  cases op with
  | shiftRightZero => exact canonicalNumber_ofUInt32 _
  | _ => exact canonicalNumber_ofInt32 _

/-- Of all operators, only negation needs a canonical operand to yield a canonical result. -/
theorem canonicalNumber_neg (hv : v.Canonical) : (neg v).CanonicalNumber := by
  cases v with
  | int i =>
    rw [neg]
    split
    · exact canonicalNumber_float _
    · refine ⟨rfl, ?_⟩
      have hsafe : Safe i.toInt := hv
      show Safe (-i).toInt
      rw [toInt_neg_of_safe hsafe]
      rw [safe_iff] at hsafe ⊢
      omega
  | int64 i => exact (held_fit64 _ _).canonicalNumber
  | _ => exact canonicalNumber_float _

theorem canonicalNumber_inc (v : Value) : (inc v).CanonicalNumber := by
  cases v with
  | int i => exact canonicalNumber_ofInt _
  | int64 i => exact (held_fit64 _ _).canonicalNumber
  | _ => exact canonicalNumber_float _

theorem canonicalNumber_dec (v : Value) : (dec v).CanonicalNumber := by
  cases v with
  | int i => exact canonicalNumber_ofInt _
  | int64 i => exact (held_fit64 _ _).canonicalNumber
  | _ => exact canonicalNumber_float _

theorem canonicalNumber_unary (op : UnaryOp) (hv : v.CanonicalNumber) : (op.apply v).CanonicalNumber := by
  cases op with
  | toNumber | plus => exact hv
  | neg => exact canonicalNumber_neg hv.canonical
  | inc => exact canonicalNumber_inc v
  | dec => exact canonicalNumber_dec v
  | bitNot => exact canonicalNumber_ofInt32 _

end Operators

theorem canonicalNumber_toNumber (t : Text) : t.toNumber.CanonicalNumber := by
  unfold Text.toNumber
  split
  · exact canonicalNumber_float _
  · exact ⟨rfl, by decide⟩
  · dsimp only
    split
    · split
      case isTrue hsafe => exact ⟨rfl, isSafe_iff.mp hsafe⟩
      case isFalse => exact canonicalNumber_float _
    · exact canonicalNumber_float _

theorem canonicalNumber_primitive {v n : Value} (hv : v.Canonical) (h : v.primitiveNumber = .ok n) :
    n.CanonicalNumber := by
  cases v with
  | bool b =>
    cases h
    cases b <;> exact ⟨rfl, by decide⟩
  | null =>
    cases h
    exact ⟨rfl, by decide⟩
  | text t =>
    cases h
    exact canonicalNumber_toNumber t
  | symbol => cases h
  | int | int64 | float =>
    cases h
    exact ⟨rfl, hv⟩
  | _ =>
    cases h
    exact canonicalNumber_float _

/-- **Integer arithmetic is closed and exact.**  On canonical numbers every operator yields a canonical number, and
nothing that is formed without a test overflows.  On integers, sums and differences are held as `Held` says.  Numbers of
texts and of other canonical values are canonical too. -/
theorem integers_closed {l r : Value} (hl : l.CanonicalNumber) (hr : r.CanonicalNumber) :
    ((add l r).CanonicalNumber ∧ (∀ op : ArithOp, (op.apply l r).CanonicalNumber) ∧
      (∀ op : BitOp, (op.apply l r).CanonicalNumber) ∧ ∀ op : UnaryOp, (op.apply l).CanonicalNumber) ∧
    (add? l r = some (add l r) ∧ sub? l r = some (sub l r) ∧ neg? l = some (neg l) ∧ inc? l = some (inc l) ∧
      dec? l = some (dec l)) ∧
    (∀ a b, l.wholeValue? = some a → r.wholeValue? = some b →
      Held (l.isInt64 || r.isInt64) (a.toInt + b.toInt) (Binary64.ofInt64 a + Binary64.ofInt64 b) (add l r) ∧
      Held (l.isInt64 || r.isInt64) (a.toInt - b.toInt) (Binary64.ofInt64 a - Binary64.ofInt64 b) (sub l r)) ∧
    (∀ a, l.wholeValue? = some a →
      Held l.isInt64 (a.toInt + 1) (Binary64.ofInt64 a + 1.0) (inc l) ∧
      Held l.isInt64 (a.toInt - 1) (Binary64.ofInt64 a - 1.0) (dec l)) ∧
    (∀ t : Text, t.toNumber.CanonicalNumber) ∧
    ∀ v n : Value, v.Canonical → v.primitiveNumber = .ok n → n.CanonicalNumber := by
  have hcl := hl.canonical
  have hcr := hr.canonical
  refine ⟨⟨canonicalNumber_add l r, fun op => canonicalNumber_arith op l r, fun op => canonicalNumber_bits op l r,
    fun op => canonicalNumber_unary op hl⟩, ?_, ?_, ?_, canonicalNumber_toNumber, ?_⟩
  · exact ⟨add?_eq hcl hcr, sub?_eq hcl hcr, neg?_eq hcl, inc?_eq hcl, dec?_eq hcl⟩
  · exact fun a b ha hb => held_add_sub hcl hcr ha hb
  · exact fun a ha => held_inc_dec hcl ha
  · exact fun v n hv hn => canonicalNumber_primitive hv hn

/-- One more than the largest safe integer is rounded if both operands are of the safe form, and held exactly if one of
them is of the 64-bit form. -/
theorem integers_closed_atBound :
    ¬ Safe 9007199254740992 ∧
      (add (.int 9007199254740991) (.int 1) = .float (Binary64.ofInt64 9007199254740992) ∧
        Held false 9007199254740992 (Binary64.ofInt64 9007199254740991 + Binary64.ofInt64 1)
          (add (.int 9007199254740991) (.int 1))) ∧
      add (.int 9007199254740991) (.int64 1) = .int64 9007199254740992 ∧
        Held true 9007199254740992 (Binary64.ofInt64 9007199254740991 + Binary64.ofInt64 1)
          (add (.int 9007199254740991) (.int64 1)) := by
  have hmax : (Value.int 9007199254740991).CanonicalNumber := ⟨rfl, by decide⟩
  have hnarrow := (integers_closed hmax (r := .int 1) ⟨rfl, by decide⟩).2.2.1 _ _ rfl rfl
  have hwide := (integers_closed hmax (r := .int64 1) ⟨rfl, by decide⟩).2.2.1 _ _ rfl rfl
  exact ⟨by decide, ⟨rfl, hnarrow.1⟩, rfl, hwide.1⟩

end ScriptMachine.Value
