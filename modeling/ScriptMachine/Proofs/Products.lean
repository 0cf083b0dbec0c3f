import Mathlib
import ScriptMachine.Proofs.Integers

/-!
# Products and remainders of whole numbers

A product is formed modulo `2 ^ 64` and divided by its first factor again.  The quotient is the second factor only if the
product has not been wrapped, whatever the factors: what wrapping adds is a multiple of `2 ^ 64`, and a division cut
toward zero loses less than its divisor, which is at most `2 ^ 63`.

* `Value.product?_eq`, `Value.remainder?_eq` — products and remainders in terms of exact integers.

Main result: `Value.products_exact`.
-/

namespace ScriptMachine.Value

variable {a b : Int64}

theorem toInt_ne_zero (h : a ≠ 0) : a.toInt ≠ 0 := fun h0 => h (Int64.toInt_inj.mp h0)

theorem neg_iff_toInt : a < 0 ↔ a.toInt < 0 := Int64.lt_iff_toInt_lt

/-! ### Products -/

/-- One factor is zero and the other negative, so that the product is the negative zero. -/
def SignedZero (a b : Int64) : Prop := (a = 0 ∧ b < 0) ∨ (b = 0 ∧ a < 0)

instance (a b : Int64) : Decidable (SignedZero a b) := inferInstanceAs (Decidable (_ ∨ _))

/-- The wrapped product differs from the exact one by a multiple of `2 ^ 64`. -/
theorem exists_toInt_mul (a b : Int64) : ∃ k : Int, (a * b).toInt = a.toInt * b.toInt + 2 ^ 64 * k := by
  rw [Int64.toInt_mul, Int.bmod_def]
  generalize a.toInt * b.toInt = n
  split
  · exact ⟨-(n / 2 ^ 64), by omega⟩
  · exact ⟨-(n / 2 ^ 64) - 1, by omega⟩

theorem natAbs_tmod_le (n : Int) (ha : a ≠ 0) : (n.tmod a.toInt).natAbs < 2 ^ 63 := by
  have hfits := fits64_iff.mp (fits64_toInt a)
  have hpos : 0 < a.toInt.natAbs := Int.natAbs_pos.mpr (toInt_ne_zero ha)
  have hlt := Nat.mod_lt n.natAbs hpos
  rw [Int.natAbs_tmod]
  omega

/-- **The test for overflow is exact.**  Dividing the wrapped product yields the other factor if and only if the exact
product fits. -/
theorem quotient?_mul_iff (ha : a ≠ 0) : quotient? (a * b) a = some b ↔ Fits64 (a.toInt * b.toInt) := by
  have ha' := toInt_ne_zero ha
  rw [quotient?, if_neg ha]
  constructor
  · intro h
    by_cases hfits : Fits64 ((a * b).toInt.tdiv a.toInt)
    · rw [fit64_of_fits hfits] at h
      have hquotient : (a * b).toInt.tdiv a.toInt = b.toInt := by
        rw [← toInt_ofInt_of_fits hfits, Option.some.inj h]
      obtain ⟨k, hk⟩ := exists_toInt_mul a b
      have hsplit := Int.mul_tdiv_add_tmod (a * b).toInt a.toInt
      have hlost := natAbs_tmod_le (a * b).toInt ha
      rw [hquotient] at hsplit
      -- what is lost is the multiple of `2 ^ 64` that wrapping has added
      have hexact : (a * b).toInt = a.toInt * b.toInt := by omega
      rw [← hexact]
      exact fits64_toInt _
    · rw [fit64_of_not_fits hfits] at h
      cases h
  · intro hfits
    have hexact : (a * b).toInt = a.toInt * b.toInt := by
      rw [Int64.toInt_mul]
      exact bmod_of_fits hfits
    rw [hexact, Int.mul_tdiv_cancel_left _ ha']
    exact fit64_eq_some rfl

theorem product?_eq (a b : Int64) :
    product? a b =
      if SignedZero a b then some negativeZero
      else if Fits64 (a.toInt * b.toInt) then some (ofInt (Int64.ofInt (a.toInt * b.toInt)))
      else none := by
  have hwrapped : a * b = Int64.ofInt (a.toInt * b.toInt) := by
    rw [Int64.ofInt_mul, Int64.ofInt_toInt, Int64.ofInt_toInt]
  change (if SignedZero a b then _ else _) = _
  by_cases hzero : SignedZero a b
  · rw [if_pos hzero, if_pos hzero]
  · rw [if_neg hzero, if_neg hzero, ← hwrapped]
    by_cases ha : a = 0
    · have hfits : Fits64 (a.toInt * b.toInt) := by
        rw [ha, Int64.toInt_zero, Int.zero_mul]
        decide
      rw [if_pos (.inl ha), if_pos hfits]
    · by_cases hfits : Fits64 (a.toInt * b.toInt)
      · rw [if_pos (.inr ((quotient?_mul_iff ha).mpr hfits)), if_pos hfits]
      · rw [if_neg (fun h => h.elim ha fun h => hfits ((quotient?_mul_iff ha).mp h)), if_neg hfits]

/-! ### Remainders -/

theorem fits64_tdiv (hb : b ≠ 0) (h : ¬ (a = Int64.minValue ∧ b = -1)) : Fits64 (a.toInt.tdiv b.toInt) := by
  have ha := fits64_iff.mp (fits64_toInt a)
  have habs := Int.natAbs_tdiv_le_natAbs a.toInt b.toInt
  rw [fits64_iff]
  by_cases hleast : a.toInt = -9223372036854775808
  · -- the magnitude is halved at least, or the quotient is `a` itself
    have hb' := toInt_ne_zero hb
    have hminus : b.toInt ≠ -1 := fun hb1 => h ⟨Int64.toInt_inj.mp hleast, Int64.toInt_inj.mp hb1⟩
    by_cases hone : b.toInt = 1
    · rw [hone, Int.tdiv_one]
      omega
    · have hhalf : (a.toInt.tdiv b.toInt).natAbs ≤ a.toInt.natAbs / 2 := by
        rw [Int.natAbs_tdiv]
        exact Nat.div_le_div_left (by omega) (by decide)
      omega
  · omega

theorem remainder?_eq (hb : b ≠ 0) (h : ¬ (a = Int64.minValue ∧ b = -1)) : remainder? a b = some (a % b) := by
  have hquotient : quotient? a b ≠ none := by
    rw [quotient?, if_neg hb, fit64_of_fits (fits64_tdiv hb h)]
    exact Option.some_ne_none _
  rw [remainder?, if_neg (not_or.mpr ⟨hb, hquotient⟩)]

theorem mod_eq_zero_iff : a % b = 0 ↔ b.toInt ∣ a.toInt := by
  rw [Int.dvd_iff_tmod_eq_zero, ← Int64.toInt_mod, ← Int64.toInt_zero, Int64.toInt_inj]

/-- `m` is what division of `a` by `b` leaves if the quotient is cut toward zero: it has the sign of `a`, and is smaller
than `b`. -/
structure Remainder (a b m : Int64) : Prop where
  exact : m.toInt = a.toInt.tmod b.toInt
  division : a.toInt = b.toInt * a.toInt.tdiv b.toInt + m.toInt
  nonneg : 0 ≤ a.toInt → 0 ≤ m.toInt
  nonpos : a.toInt < 0 → m.toInt ≤ 0
  small : m.toInt.natAbs < b.toInt.natAbs

theorem remainder_mod (hb : b ≠ 0) : Remainder a b (a % b) := by
  have hexact : (a % b).toInt = a.toInt.tmod b.toInt := Int64.toInt_mod a b
  refine ⟨hexact, ?_, fun ha => ?_, fun ha => ?_, ?_⟩
  · rw [hexact, Int.mul_tdiv_add_tmod]
  · rw [hexact]
    exact Int.tmod_nonneg _ ha
  · have hneg := Int.tmod_nonneg b.toInt (Int.neg_nonneg_of_nonpos (Int.le_of_lt ha))
    rw [Int.neg_tmod] at hneg
    omega
  · rw [hexact, Int.natAbs_tmod]
    exact Nat.mod_lt _ (Int.natAbs_pos.mpr (toInt_ne_zero hb))

/-! ### Numbers that stand for integers -/

section Operands

variable {l r : Value} (hl : l.integer? = some a) (hr : r.integer? = some b)

include hl hr

theorem mul_of_integers : mul l r = (product? a b).getD (.float (l.toFloat * r.toFloat)) := by
  simp only [mul, hl, hr]

theorem mod_of_zero (hb : b = 0) : mod l r = nan := by
  simp only [mod, hl, hr, if_pos hb]

theorem mod_of_integers (hb : b ≠ 0) (h : ¬ (a = Int64.minValue ∧ b = -1)) :
    mod l r = if b.toInt ∣ a.toInt ∧ a < 0 then negativeZero else ofInt (a % b) := by
  simp only [mod, hl, hr, if_neg hb, remainder?_eq hb h, mod_eq_zero_iff]

/-- **Products and remainders of integers are exact.**  The product is the negative zero if one factor is zero and the
other negative; else it is formed as an integer exactly if it fits 64 bits, and is the exact one then, and in all other
cases it is formed in doubles.  There is no remainder by zero.  Else, but for the division that overflows, it is the
negative zero if a negative integer is divided without rest, and else the exact remainder. -/
theorem products_exact :
    (SignedZero a b → mul l r = negativeZero) ∧
    (¬ SignedZero a b →
      ((∃ p, product? a b = some p) ↔ Fits64 (a.toInt * b.toInt)) ∧
      (Fits64 (a.toInt * b.toInt) → ∃ p : Int64, p.toInt = a.toInt * b.toInt ∧ mul l r = ofInt p) ∧
      (¬ Fits64 (a.toInt * b.toInt) → mul l r = .float (l.toFloat * r.toFloat))) ∧
    (b = 0 → mod l r = nan) ∧
    (b ≠ 0 → ¬ (a = Int64.minValue ∧ b = -1) →
      (b.toInt ∣ a.toInt ∧ a < 0 → mod l r = negativeZero) ∧
      (¬ (b.toInt ∣ a.toInt ∧ a < 0) → ∃ m, Remainder a b m ∧ (a < 0 → m < 0) ∧ mod l r = ofInt m)) := by
  rw [mul_of_integers hl hr, product?_eq]
  refine ⟨fun hzero => ?_, fun hzero => ?_, mod_of_zero hl hr, fun hb h => ⟨fun hdvd => ?_, fun hdvd => ?_⟩⟩
  · rw [if_pos hzero]
    rfl
  · rw [if_neg hzero]
    by_cases hfits : Fits64 (a.toInt * b.toInt)
    · rw [if_pos hfits]
      exact ⟨⟨fun _ => hfits, fun _ => ⟨_, rfl⟩⟩, fun _ => ⟨_, toInt_ofInt_of_fits hfits, rfl⟩,
        fun hover => absurd hfits hover⟩
    · rw [if_neg hfits]
      exact ⟨⟨fun ⟨_, hp⟩ => (nomatch hp), fun h => absurd h hfits⟩, fun h => absurd h hfits, fun _ => rfl⟩
  · rw [mod_of_integers hl hr hb h, if_pos hdvd]
  · have hremainder := remainder_mod (a := a) hb
    refine ⟨a % b, hremainder, fun ha => ?_, ?_⟩
    · have hne : (a % b).toInt ≠ 0 := toInt_ne_zero fun h0 => hdvd ⟨mod_eq_zero_iff.mp h0, ha⟩
      have hle := hremainder.nonpos (neg_iff_toInt.mp ha)
      exact neg_iff_toInt.mpr (by omega)
    · rw [mod_of_integers hl hr hb h, if_neg hdvd]

end Operands

/-- The square of `2 ^ 32` wraps to zero and is formed in doubles; a factor may be a double that stands for an integer. -/
theorem products_exact_wrapped :
    (4294967296 * 4294967296 : Int64) = 0 ∧ ¬ Fits64 (4294967296 * 4294967296) ∧
      mul (.int 4294967296) (.float 4294967296.0) =
        .float ((Value.int 4294967296).toFloat * (Value.float 4294967296.0).toFloat) ∧
      mul (.int64 (-9223372036854775808)) (.int (-1)) =
        .float ((Value.int64 (-9223372036854775808)).toFloat * (Value.int (-1)).toFloat) ∧
      mod (.int (-7)) (.float 3.0) = .int (-1) ∧ mod (.int (-6)) (.float 3.0) = negativeZero := by
  have hsquare := products_exact (l := .int 4294967296) (r := .float 4294967296.0) (b := 4294967296)
    rfl (by decide +kernel)
  have hleast := products_exact (l := .int64 (-9223372036854775808)) (r := .int (-1)) rfl rfl
  have hthree : (Value.float 3.0).integer? = some 3 := by decide +kernel
  have hrest := (products_exact (l := .int (-7)) rfl hthree).2.2.2 (by decide) (by decide)
  have hnone := (products_exact (l := .int (-6)) rfl hthree).2.2.2 (by decide) (by decide)
  obtain ⟨m, hm, _, hmod⟩ := hrest.2 (by decide)
  have hm : m = -1 := Int64.toInt_inj.mp (hm.exact.trans (by decide))
  refine ⟨by decide, by decide, (hsquare.2.1 (by decide)).2.2 (by decide), (hleast.2.1 (by decide)).2.2 (by decide), ?_,
    hnone.1 (by decide)⟩
  rw [hmod, hm]
  rfl

end ScriptMachine.Value
