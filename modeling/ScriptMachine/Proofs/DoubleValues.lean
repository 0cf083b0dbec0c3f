import ScriptMachine.Proofs.Doubles

/-!
# Signs and values of doubles

A double has a sign unless it is NaN.  Products, sums and quotients of doubles with a positive sign have a positive sign
again, as long as no infinity meets a zero and no divisor is zero.  So decimal fractions are never NaN, however large or
small they are.  Doubles that are neither infinite nor NaN are rational numbers.
-/

namespace ScriptMachine.Binary64

open Float.Model Float.Model.UnpackedFloat

/-! ### Signs -/

def unpackedSign? : UnpackedFloat → Option Sign
  | .notANumber => none
  | .infinity s => some s
  | .zero s => some s
  | .finite s _ _ _ => some s

def sign? (f : Float) : Option Sign := unpackedSign? f.toModel.unpack

/-- A positive double that is neither zero nor infinite. -/
def isPositive (f : Float) : Bool :=
  match f.toModel.unpack with
  | .finite .positive _ _ _ => true
  | _ => false

theorem unpack_of_isPositive {f : Float} (h : isPositive f = true) :
    ∃ m e hm, f.toModel.unpack = .finite .positive m e hm := by
  unfold isPositive at h
  split at h
  case h_1 m e hm hu => exact ⟨m, e, hm, hu⟩
  case h_2 => cases h

theorem isNaN_of_sign? {f : Float} {s : Sign} (h : sign? f = some s) : f.isNaN = false := by
  show f.toModel.unpack.isNaN = false
  rw [sign?] at h
  cases hu : f.toModel.unpack with
  | notANumber =>
    rw [hu] at h
    cases h
  | _ => rfl

theorem unpackedSign?_packComponents (s : Sign) {e : BitVec 11} {m : BitVec 52} (h : e = -1#11 → m = 0#52) :
    unpackedSign? (unpack .binary64 (packComponents .binary64 s e m)) = some s := by
  unfold UnpackedFloat.unpack
  simp only [unpackExponent_packComponents, unpackMantissa_packComponents, unpackSign_packComponents,
    Sign.ofBitVec_toBitVec]
  split
  case isTrue he =>
    rw [if_pos (h he)]
    rfl
  case isFalse =>
    split
    · split <;> rfl
    · rfl

/-- Packing keeps the sign, though a number may become zero or infinite. -/
theorem unpackedSign?_pack (x : UnpackedFloat) :
    unpackedSign? (unpack .binary64 (UnpackedFloat.pack .binary64 x)) = unpackedSign? x := by
  cases x with
  | notANumber => exact congrArg unpackedSign? unpack_packedNaN
  | infinity s => exact unpackedSign?_packComponents s fun _ => rfl
  | zero s => exact unpackedSign?_packComponents s fun _ => rfl
  | finite s m e h =>
    unfold UnpackedFloat.pack
    dsimp only
    split
    · exact unpackedSign?_packComponents s fun _ => rfl
    case isFalse hsmall =>
      split
      · refine unpackedSign?_packComponents s fun hexponent => absurd hexponent ?_
        intro hall
        have hvalue := congrArg BitVec.toNat hall
        change _ % 2 ^ 11 = 2 ^ 11 - 1 at hvalue
        omega
      · exact unpackedSign?_packComponents s fun hexponent => absurd hexponent (by decide)

/-! ### Operations -/

theorem unpackedSign?_roundWithAccuracy (s : Sign) (m : Nat) (e : Int) (accuracy : Accuracy) :
    unpackedSign? (roundWithAccuracy .binary64 s m e accuracy) = some s := by
  unfold roundWithAccuracy
  dsimp only
  split <;> rfl

theorem unpackedSign?_round (s : Sign) (m : Nat) (e : Int) : unpackedSign? (round .binary64 s m e) = some s :=
  unpackedSign?_roundWithAccuracy _ _ _ _

theorem unpackedSign?_normalize {n : Int} (h : 0 ≤ n) (e : Int) :
    unpackedSign? (normalize .binary64 n e .positive) = some .positive := by
  unfold UnpackedFloat.normalize
  split
  case h_1 hlt => exact absurd (Int.compare_eq_lt.mp hlt) (by omega)
  case h_2 => rfl
  case h_3 => exact unpackedSign?_round _ _ _

variable {f g : Float}

theorem sign?_scale (hf : sign? f = some .positive) (hg : isPositive g = true) :
    sign? (f * g) = some .positive ∧ sign? (f / g) = some .positive := by
  obtain ⟨m, e, hm, hg⟩ := unpack_of_isPositive hg
  rw [sign?] at hf
  constructor
  on_goal 1 => refine (unpackedSign?_pack (UnpackedFloat.mul .binary64 f.toModel.unpack g.toModel.unpack)).trans ?_
  on_goal 2 => refine (unpackedSign?_pack (UnpackedFloat.div .binary64 f.toModel.unpack g.toModel.unpack)).trans ?_
  all_goals
    rw [hg]
    cases hu : f.toModel.unpack <;> rw [hu] at hf <;> cases hf
    · rfl
    · rfl
    · exact unpackedSign?_roundWithAccuracy _ _ _ _

theorem sign?_add (hf : sign? f = some .positive) (hg : sign? g = some .positive) : sign? (f + g) = some .positive := by
  refine (unpackedSign?_pack (UnpackedFloat.add .binary64 f.toModel.unpack g.toModel.unpack)).trans ?_
  rw [sign?] at hf hg
  cases hu : f.toModel.unpack <;> rw [hu] at hf <;> cases hf <;>
    cases hv : g.toModel.unpack <;> rw [hv] at hg <;> cases hg <;> try rfl
  -- both are numbers: their mantissas are added, and none is negative
  exact unpackedSign?_normalize (Int.add_nonneg (Int.natCast_nonneg _) (Int.natCast_nonneg _)) _

theorem sign?_neg {s : Sign} (hf : sign? f = some s) : sign? (-f) = some (-s) := by
  refine (unpackedSign?_pack f.toModel.unpack.neg).trans ?_
  rw [sign?] at hf
  cases hu : f.toModel.unpack <;> rw [hu] at hf <;> cases hf <;> rfl

/-! ### Decimal fractions -/

theorem isPositive_powerOfTen : ∀ f ∈ Float.exactlyRepresentablePowersOfTen, isPositive f = true := by
  decide

theorem unpackedSign?_ofScientific (m : Nat) (e : Int) :
    unpackedSign? (UnpackedFloat.ofScientific .binary64 m e) = some .positive := by
  unfold UnpackedFloat.ofScientific
  split
  · rfl
  split
  · rfl
  split
  · rfl
  split
  · exact unpackedSign?_roundWithAccuracy _ _ _ _
  · exact unpackedSign?_roundWithAccuracy _ _ _ _

/-- A decimal fraction has a positive sign; it may be zero or infinite. -/
theorem sign?_ofScientific (m : Nat) (s : Bool) (e : Nat) : sign? (Float.ofScientific m s e) = some .positive := by
  unfold Float.ofScientific
  split
  case isTrue hsmall =>
    have hnumber : sign? m.toUInt64.toFloat = some .positive :=
      (unpackedSign?_pack _).trans (unpackedSign?_normalize (Int.natCast_nonneg _) 0)
    have hlt : e < Float.exactlyRepresentablePowersOfTen.size := Nat.lt_succ_of_le hsmall.2
    have hpower := isPositive_powerOfTen _ (Array.getElem_mem hlt)
    split
    · exact (sign?_scale hnumber hpower).2
    · exact (sign?_scale hnumber hpower).1
  case isFalse => exact (unpackedSign?_pack _).trans (unpackedSign?_ofScientific m _)

/-! ### Values -/

/-- The rational number that a double is. -/
def value? (f : Float) : Option ℚ :=
  match f.toModel.unpack with
  | .zero _ => some 0
  | .finite s m e _ => some ((s.apply (m : Int) : Int) * 2 ^ e)
  | _ => none

theorem toNat_unpackMantissa (b : BitVec Format.binary64.numBits) : (unpackMantissa b).toNat = b.toNat % 2 ^ 52 := by
  rfl

theorem toNat_unpackExponent (b : BitVec Format.binary64.numBits) :
    (unpackExponent b).toNat = b.toNat / 2 ^ 52 % 2 ^ 11 := by
  rw [unpackExponent_def, BitVec.extractLsb'_toNat, Nat.shiftRight_eq_div_pow]

theorem ofBitVec_unpackSign (b : BitVec Format.binary64.numBits) :
    (Sign.ofBitVec (unpackSign b) == .negative) = decide (2 ^ 63 ≤ b.toNat) := by
  have hlt : b.toNat < 2 ^ 64 := b.isLt
  have hsign : (unpackSign b).toNat = b.toNat / 2 ^ 63 := by
    rw [unpackSign_def, BitVec.extractLsb'_toNat, Nat.shiftRight_eq_div_pow]
    exact Nat.mod_eq_of_lt (Nat.div_lt_of_lt_mul hlt)
  rcases Nat.lt_or_ge b.toNat (2 ^ 63) with hsmall | hlarge
  · have hzero : unpackSign b = 0#1 := BitVec.eq_of_toNat_eq (hsign.trans (Nat.div_eq_of_lt hsmall))
    rw [hzero, decide_eq_false (Nat.not_le_of_lt hsmall)]
    rfl
  · have hone : unpackSign b = 1#1 := BitVec.eq_of_toNat_eq (hsign.trans (show b.toNat / 2 ^ 63 = 1 by omega))
    rw [hone, decide_eq_true hlarge]
    rfl

def partsOf : UnpackedFloat → Option Dyadic
  | .zero s => some ⟨s == .negative, 0, -1074⟩
  | .finite s m e _ => some ⟨s == .negative, m, e⟩
  | _ => none

theorem partsOf_unpack (b : BitVec Format.binary64.numBits) :
    partsOf (unpack .binary64 b) =
      if b.toNat / leadingBit % 2048 = 2047 then none
      else if b.toNat / leadingBit % 2048 = 0 then some ⟨decide (signWeight ≤ b.toNat), b.toNat % leadingBit, -1074⟩
      else some ⟨decide (signWeight ≤ b.toNat), leadingBit + b.toNat % leadingBit,
        (b.toNat / leadingBit % 2048 : Nat) - 1075⟩ := by
  have hsign : _ = decide (signWeight ≤ b.toNat) := ofBitVec_unpackSign b
  have hexponent : _ = b.toNat / leadingBit % 2048 := toNat_unpackExponent b
  have hmantissa : _ = b.toNat % leadingBit := toNat_unpackMantissa b
  unfold UnpackedFloat.unpack
  rw [← hsign, ← hexponent, ← hmantissa]
  have hones : (unpackExponent b).toNat = 2047 ↔ unpackExponent b = -1#11 :=
    ⟨fun h => BitVec.eq_of_toNat_eq h, fun h => by rw [h]; rfl⟩
  have hzeros : (unpackExponent b).toNat = 0 ↔ unpackExponent b = 0#11 :=
    ⟨fun h => BitVec.eq_of_toNat_eq h, fun h => by rw [h]; rfl⟩
  rw [if_congr hones rfl rfl, if_congr hzeros rfl rfl]
  by_cases hall : unpackExponent b = -1#11
  · simp only [if_pos hall]
    split <;> rfl
  simp only [if_neg hall]
  by_cases hnone : unpackExponent b = 0#11
  · simp only [if_pos hnone]
    split
    case isTrue hm =>
      rw [hm]
      rfl
    case isFalse =>
      have he : ((unpackExponent b).toNat : Int) - ((1023 : Nat) + (52 : Nat)) + 1 = -1074 := by
        rw [hnone]
        rfl
      exact congrArg (fun e => some (Dyadic.mk _ _ e)) he
  · simp only [if_neg hnone]
    have hm : (1#1 ++ unpackMantissa b).toNat = leadingBit + (unpackMantissa b).toNat := by
      have hlt : (unpackMantissa b).toNat < 2 ^ 52 := (unpackMantissa b).isLt
      exact (Nat.two_pow_add_eq_or_of_lt hlt 1).symm
    exact congrArg (fun m => some (Dyadic.mk _ m _)) hm

theorem ofFloat?_eq (f : Float) : Dyadic.ofFloat? f = partsOf f.toModel.unpack :=
  (partsOf_unpack f.toModel.toBits.toBitVec).symm

end ScriptMachine.Binary64

namespace ScriptMachine.Dyadic

def value (d : Dyadic) : ℚ := (if d.negative then -(d.mantissa : ℚ) else d.mantissa) * 2 ^ d.exponent

theorem value_of_isIntegral {d : Dyadic} (h : d.isIntegral = true) : d.value = (d.truncated : ℚ) := by
  have hmagnitude : (d.mantissa : ℚ) * 2 ^ d.exponent = (d.magnitude : ℚ) := by
    unfold magnitude
    rw [isIntegral, Bool.or_eq_true, decide_eq_true_eq, beq_iff_eq] at h
    split
    case isTrue hexponent =>
      obtain ⟨k, hk⟩ := Int.eq_ofNat_of_zero_le hexponent
      rw [hk]
      simp
    case isFalse hexponent =>
      obtain ⟨k, hk⟩ : ∃ k : Nat, d.exponent = -(k : Int) := ⟨d.exponent.natAbs, by omega⟩
      have hdvd : Nat.pow 2 d.exponent.natAbs ∣ d.mantissa := Nat.dvd_of_mod_eq_zero (h.resolve_left hexponent)
      rw [Nat.cast_div hdvd (by simp), div_eq_mul_inv, hk]
      simp
  unfold value truncated
  split
  · rw [neg_mul, hmagnitude]
    simp
  · rw [hmagnitude]
    simp

theorem isIntegral_of_value {d : Dyadic} {i : Int} (h : d.value = i) : d.isIntegral = true := by
  rw [isIntegral, Bool.or_eq_true, decide_eq_true_eq, beq_iff_eq]
  by_cases hexponent : 0 ≤ d.exponent
  · exact .inl hexponent
  right
  obtain ⟨k, hk⟩ : ∃ k : Nat, d.exponent = -(k : Int) := ⟨d.exponent.natAbs, by omega⟩
  have hsigned : (if d.negative then -(d.mantissa : ℚ) else d.mantissa) = i * 2 ^ k := by
    rw [value, hk, zpow_neg] at h
    exact (div_eq_iff (by positivity)).mp h
  have hmantissa : (d.mantissa : Int) = (if d.negative then -i else i) * 2 ^ k := by
    split at hsigned
    case isTrue hnegative =>
      rw [if_pos hnegative, neg_mul, ← neg_eq_iff_eq_neg]
      exact_mod_cast hsigned
    case isFalse hpositive =>
      rw [if_neg hpositive]
      exact_mod_cast hsigned
  have hdvd : 2 ^ k ∣ d.mantissa := Int.natCast_dvd_natCast.mp ⟨_, by rw [hmantissa, mul_comm]; rfl⟩
  rw [hk, Int.natAbs_neg]
  exact Nat.mod_eq_zero_of_dvd hdvd

theorem value_eq_intCast {d : Dyadic} {i : Int} : d.value = i ↔ d.isIntegral = true ∧ d.truncated = i := by
  constructor
  · intro h
    have hintegral := isIntegral_of_value h
    exact ⟨hintegral, by exact_mod_cast (value_of_isIntegral hintegral).symm.trans h⟩
  · rintro ⟨hintegral, rfl⟩
    exact value_of_isIntegral hintegral

end ScriptMachine.Dyadic

namespace ScriptMachine.Binary64

open Float.Model Float.Model.UnpackedFloat

theorem value?_eq (f : Float) : value? f = (Dyadic.ofFloat? f).map Dyadic.value := by
  rw [ofFloat?_eq, value?]
  cases f.toModel.unpack with
  | notANumber => rfl
  | infinity s => rfl
  | zero s => cases s <;> simp [partsOf, Dyadic.value]
  | finite s m e h => cases s <;> simp [partsOf, Dyadic.value, Sign.apply]

/-- **When a double is taken for an integer**: it is one, and not negative zero. -/
theorem integer?_eq_some {f : Float} {i : Int64} :
    integer? f = some i ↔ value? f = some (i.toInt : ℚ) ∧ isNegativeZero f = false := by
  rw [integer?, value?_eq]
  cases hzero : isNegativeZero f with
  | true => simp
  | false =>
    cases Dyadic.ofFloat? f with
    | none => simp
    | some d =>
      have hrange : ∀ n : Int, Int64.minValue.toInt ≤ n → n ≤ Int64.maxValue.toInt → (Int64.ofInt n).toInt = n :=
        fun n hlow hhigh => Int64.toInt_ofInt_of_le hlow (Int.lt_add_one_of_le hhigh)
      simp only [Option.map_some, Option.some.injEq, Dyadic.value_eq_intCast, Bool.false_eq_true, if_false, and_true]
      constructor
      · intro h
        split at h
        case isTrue hfits =>
          obtain rfl := Option.some.inj h
          simp only [Bool.and_eq_true, decide_eq_true_eq] at hfits
          exact ⟨hfits.1.1, (hrange _ hfits.1.2 hfits.2).symm⟩
        case isFalse => cases h
      · rintro ⟨hintegral, htruncated⟩
        have hlow : Int64.minValue.toInt ≤ d.truncated := htruncated ▸ i.minValue_le_toInt
        have hhigh : d.truncated ≤ Int64.maxValue.toInt := htruncated ▸ i.toInt_le
        rw [hintegral, decide_eq_true hlow, decide_eq_true hhigh, htruncated, Int64.ofInt_toInt]
        rfl

end ScriptMachine.Binary64
