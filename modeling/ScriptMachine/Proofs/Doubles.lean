import Mathlib
import ScriptMachine.Value

/-!
# Doubles

Doubles that compare as equal are the same, but for the two zeros, and there is only one NaN.  Integers of 53 bits have
doubles of their own.

* `Binary64.eq_or_zeros_of_beq` — what comparison says about identity.
* `Binary64.Rounded` — the double nearest to an integer; up to `2 ^ 53` it is exact (`Binary64.rounded_normalize`).
* `Binary64.eq_of_ofInt64` — safe integers have doubles of their own.
-/

namespace ScriptMachine

namespace Binary64

open Float.Model Float.Model.UnpackedFloat

variable {m : Nat} {e : Int} {f g : Float} {s t : Sign} {n : Int} {hm : 0 < m}

/-! ### Comparison -/

theorem beq_self (h : f.isNaN = false) : (f == f) = true := by
  rw [Float.isNaN_eq_decide_eq_nan, decide_eq_false_iff_not] at h
  exact Float.beq_self_iff.mpr h

theorem eq_of_isNaN (hf : f.isNaN = true) (hg : g.isNaN = true) : f = g := by
  rw [Float.isNaN_eq_decide_eq_nan, decide_eq_true_eq] at hf hg
  exact hf.trans hg.symm

theorem eq_or_zeros_of_beq (h : (f == g) = true) : f = g ∨ (f == 0.0) = true ∧ (g == 0.0) = true := by
  obtain ⟨-, -, heq | ⟨hf, hg⟩ | ⟨hf, hg⟩⟩ := Float.beq_iff_ne_nan_and_eq.mp h
  · exact .inl heq
  · rw [hf, hg]
    exact .inr ⟨by decide, by decide⟩
  · rw [hf, hg]
    exact .inr ⟨by decide, by decide⟩

/-- There are two zeros, told apart by the sign bit. -/
theorem zero_cases (h : (f == 0.0) = true) : f = 0.0 ∨ f = negativeZero := by
  obtain ⟨-, -, hf | ⟨hf, -⟩ | ⟨hf, -⟩⟩ := Float.beq_iff_ne_nan_and_eq.mp h
  · exact .inl hf
  · exact .inl (hf.trans (Float.toBits_inj.mp (by decide)))
  · exact .inr (hf.trans (Float.toBits_inj.mp (by decide)))

theorem eq_of_zeros (hf : (f == 0.0) = true) (hg : (g == 0.0) = true) (hsign : signBit f = signBit g) :
    f = g := by
  rcases zero_cases hf with rfl | rfl <;> rcases zero_cases hg with rfl | rfl <;>
    first | rfl | exact absurd hsign (by decide)

/-! ### Integers as doubles -/

def FullMantissa (m : Nat) : Prop := 2 ^ 52 ≤ m ∧ m < 2 ^ 53

theorem FullMantissa.pos (h : FullMantissa m) : 0 < m := Nat.lt_of_lt_of_le (by decide) h.1

theorem FullMantissa.log2 (h : FullMantissa m) : m.log2 = 52 := (Nat.log2_eq_iff (Nat.ne_of_gt h.pos)).mpr h

theorem targetExponent_eq (m : Nat) (e : Int) :
    Format.binary64.targetExponent (totalExponent m e) = max (m.log2 + e - 52) (-1074) := by
  show max ((m.log2 : Int) + 1 + e - 53) (-1074) = _
  omega

theorem shift_mantissa (em : ExtendedMantissa) (k : Nat) : (em >>> k).mantissa = em.mantissa / 2 ^ k := by
  show (Nat.repeat ExtendedMantissa.shiftRightOne k em).mantissa = _
  induction k with
  | zero => simp [Nat.repeat]
  | succ k ih =>
    show (Nat.repeat ExtendedMantissa.shiftRightOne k em).mantissa / 2 = _
    rw [ih, Nat.div_div_eq_div_mul, Nat.pow_succ]

theorem shiftToTargetExponent_of_full (h : FullMantissa m) (he : -1074 ≤ e) :
    shiftToTargetExponent .binary64 m e .exact = (⟨m, false, false⟩, e) := by
  have htarget : Format.binary64.targetExponent (totalExponent m e) = e := by
    rw [targetExponent_eq, h.log2]
    omega
  unfold shiftToTargetExponent shiftToExponent
  dsimp only
  rw [htarget, Int.sub_self]
  exact Prod.ext rfl (Int.add_zero e)

/-- Rounding the mantissa to its successor may make it one digit longer, which the exponent takes up. -/
theorem shiftToTargetExponent_carry (he : -1074 ≤ e) :
    shiftToTargetExponent .binary64 (2 ^ 53) e .exact = (⟨2 ^ 52, false, false⟩, e + 1) := by
  have htarget : Format.binary64.targetExponent (totalExponent (2 ^ 53) e) - e = 1 := by
    rw [targetExponent_eq, Nat.log2_two_pow]
    omega
  unfold shiftToTargetExponent shiftToExponent
  dsimp only
  rw [htarget]
  rfl

theorem roundedMantissa_cases (em : ExtendedMantissa) :
    em.roundedMantissa = em.mantissa ∨ em.roundedMantissa = em.mantissa + 1 := by
  obtain ⟨m, r, s⟩ := em
  cases r <;> cases s <;>
    simp [ExtendedMantissa.roundedMantissa, ExtendedMantissa.accuracy, Accuracy.roundToNearestEven]
  omega

theorem roundWithAccuracy_of_full (s : Sign) (h : FullMantissa m) (he : -1074 ≤ e) :
    roundWithAccuracy .binary64 s m e .exact = .finite s m e h.pos := by
  unfold roundWithAccuracy
  rw [shiftToTargetExponent_of_full h he]
  dsimp only [ExtendedMantissa.roundedMantissa, ExtendedMantissa.accuracy, Accuracy.roundToNearestEven]
  rw [shiftToTargetExponent_of_full h he]
  exact dif_neg (Nat.ne_of_gt h.pos)

/-- Small numbers are exact: they are shifted until the mantissa is full. -/
theorem round_of_small (s : Sign) (hpos : 0 < m) (hsmall : m < 2 ^ 53) :
    ∃ h : FullMantissa (m * 2 ^ (52 - m.log2)),
      round .binary64 s m 0 = .finite s (m * 2 ^ (52 - m.log2)) (m.log2 - 52) h.pos := by
  have hlog : m.log2 < 53 := (Nat.log2_lt (Nat.ne_of_gt hpos)).mpr hsmall
  have hfull : FullMantissa (m * 2 ^ (52 - m.log2)) := by
    constructor
    · calc 2 ^ 52 = 2 ^ m.log2 * 2 ^ (52 - m.log2) := by rw [← Nat.pow_add]; congr 1; omega
        _ ≤ m * 2 ^ (52 - m.log2) := Nat.mul_le_mul_right _ (Nat.log2_self_le (Nat.ne_of_gt hpos))
    · calc m * 2 ^ (52 - m.log2) < 2 ^ (m.log2 + 1) * 2 ^ (52 - m.log2) :=
          Nat.mul_lt_mul_of_pos_right Nat.lt_log2_self (Nat.two_pow_pos _)
        _ = 2 ^ 53 := by rw [← Nat.pow_add]; congr 1; omega
  refine ⟨hfull, ?_⟩
  have htarget : Format.binary64.targetExponent (totalExponent m 0) = m.log2 - 52 := by
    rw [targetExponent_eq]
    omega
  have hshift : ((0 : Int) - ((m.log2 : Int) - 52)).toNat = 52 - m.log2 := by omega
  have hexponent : (0 : Int) - ((52 - m.log2 : Nat) : Int) = m.log2 - 52 := by omega
  unfold UnpackedFloat.round decreaseExponent
  rw [htarget]
  dsimp only
  rw [hshift, hexponent, Nat.shiftLeft_eq]
  exact roundWithAccuracy_of_full s hfull (by omega)

theorem round_of_large (s : Sign) (hlarge : 2 ^ 53 ≤ m) (hbound : m < 2 ^ 64) :
    ∃ n e, ∃ h : FullMantissa n, round .binary64 s m 0 = .finite s n e h.pos ∧ 0 < e ∧ e < 13 := by
  have hpos : m ≠ 0 := by omega
  obtain ⟨k, hk⟩ : ∃ k, m.log2 = 52 + k := Nat.exists_eq_add_of_le ((Nat.le_log2 hpos).mpr (by omega))
  have hk_pos : 53 ≤ m.log2 := (Nat.le_log2 hpos).mpr hlarge
  have hk_lt : m.log2 < 64 := (Nat.log2_lt hpos).mpr hbound
  have hfull : FullMantissa (m / 2 ^ k) := by
    constructor
    · rw [Nat.le_div_iff_mul_le (Nat.two_pow_pos k), ← Nat.pow_add, ← hk]
      exact Nat.log2_self_le hpos
    · rw [Nat.div_lt_iff_lt_mul (Nat.two_pow_pos k), ← Nat.pow_add, show 53 + k = m.log2 + 1 by omega]
      exact Nat.lt_log2_self
  have htarget : Format.binary64.targetExponent (totalExponent m 0) = k := by
    rw [targetExponent_eq]
    omega
  have hdecrease : ((0 : Int) - (k : Int)).toNat = 0 := by omega
  have hincrease : ((k : Int) - 0).toNat = k := by omega
  have hround : round .binary64 s m 0 = roundWithAccuracy .binary64 s m 0 .exact := by
    unfold UnpackedFloat.round decreaseExponent
    rw [htarget]
    dsimp only
    rw [hdecrease]
    rfl
  have hfirst : shiftToTargetExponent .binary64 m 0 .exact =
      ((⟨m, false, false⟩ : ExtendedMantissa) >>> k, (k : Int)) := by
    unfold shiftToTargetExponent shiftToExponent
    dsimp only
    rw [htarget]
    exact Prod.ext rfl (Int.zero_add _)
  rw [hround]
  unfold roundWithAccuracy
  rw [hfirst]
  dsimp only
  have hmantissa : ((⟨m, false, false⟩ : ExtendedMantissa) >>> k).mantissa = m / 2 ^ k := shift_mantissa _ _
  have hcases := roundedMantissa_cases ((⟨m, false, false⟩ : ExtendedMantissa) >>> k)
  generalize ((⟨m, false, false⟩ : ExtendedMantissa) >>> k).roundedMantissa = r at hcases ⊢
  by_cases hcarry : r = 2 ^ 53
  · subst hcarry
    rw [shiftToTargetExponent_carry (by omega)]
    refine ⟨2 ^ 52, k + 1, ⟨Nat.le_refl _, by decide⟩, dif_neg (Nat.ne_of_gt (Nat.two_pow_pos 52)), by omega, by omega⟩
  · have hr : FullMantissa r := by
      obtain ⟨hlow, hhigh⟩ := hfull
      constructor <;> omega
    rw [shiftToTargetExponent_of_full hr (by omega)]
    exact ⟨r, k, hr, dif_neg (Nat.ne_of_gt hr.pos), by omega, by omega⟩

theorem pack_of_full (h : FullMantissa m) (hlow : -1074 ≤ e) (hhigh : e ≤ 971) :
    pack .binary64 (.finite s m e h.pos) =
      packComponents .binary64 s (BitVec.ofNat 11 (e + 1075).toNat) (BitVec.ofNat 52 m) := by
  have hbiased : (e + (Format.binary64.exponentBias : Nat) + (Format.binary64.mantissaBitsWithoutImplicit : Nat)).toNat =
      (e + 1075).toNat := by
    show (e + (1023 : Nat) + (52 : Nat)).toNat = _
    omega
  unfold UnpackedFloat.pack
  rw [h.log2, hbiased, if_neg (by show ¬ (2 ^ 11 ≤ _); omega), if_pos (by decide)]

theorem pack_inj {n : Nat} {d : Int} {hn : 0 < n} (hfull : FullMantissa m)
    (hfull' : FullMantissa n) (he : -1074 ≤ e ∧ e ≤ 971) (hd : -1074 ≤ d ∧ d ≤ 971)
    (h : pack .binary64 (.finite s m e hm) = pack .binary64 (.finite t n d hn)) : s = t ∧ m = n ∧ e = d := by
  rw [pack_of_full hfull he.1 he.2, pack_of_full hfull' hd.1 hd.2] at h
  have hexponent := congrArg (fun b => (unpackExponent b).toNat) h
  have hmantissa := congrArg (fun b => (unpackMantissa b).toNat) h
  simp only [unpackExponent_packComponents, unpackMantissa_packComponents, BitVec.toNat_ofNat] at hexponent hmantissa
  obtain ⟨hm_low, hm_high⟩ := hfull
  obtain ⟨hn_low, hn_high⟩ := hfull'
  refine ⟨?_, by omega, by omega⟩
  have hsign := congrArg BitVec.msb h
  simp only [packComponents, BitVec.msb_append] at hsign
  cases s <;> cases t <;> first | rfl | cases hsign

theorem pack_zero_ne (hfull : FullMantissa m) (he : -1074 ≤ e ∧ e ≤ 971) :
    pack .binary64 (.zero s) ≠ pack .binary64 (.finite t m e hm) := by
  intro h
  rw [pack_of_full hfull he.1 he.2] at h
  have hexponent := congrArg (fun b => (unpackExponent b).toNat) h
  simp only [UnpackedFloat.pack, packedZero, unpackExponent_packComponents, BitVec.toNat_ofNat] at hexponent
  change 0 = _ at hexponent
  omega

/-- The sign of a number that is not zero. -/
def signOf (n : Int) : Sign := if n < 0 then .negative else .positive

theorem normalize_of_ne_zero (h : n ≠ 0) :
    UnpackedFloat.normalize .binary64 n 0 .positive = round .binary64 (signOf n) n.natAbs 0 := by
  unfold UnpackedFloat.normalize signOf
  rcases Int.lt_trichotomy n 0 with hneg | hzero | hpos
  · rw [Int.compare_eq_lt.mpr hneg, if_pos hneg]
    dsimp only
    congr 1
    omega
  · exact absurd hzero h
  · rw [Int.compare_eq_gt.mpr hpos, if_neg (by omega)]
    dsimp only
    congr 1
    omega

theorem natAbs_lt (i : Int64) : i.toInt.natAbs < 2 ^ 64 := by
  have := i.le_toInt
  have := i.toInt_lt
  omega

/-- An integer rounded to a double: zero, or a full mantissa with an exponent that is positive for large numbers only. -/
inductive Rounded (n : Int) : UnpackedFloat → Prop where
  | zero (isZero : n = 0) : Rounded n (.zero .positive)
  | small (nonzero : n ≠ 0) (small : n.natAbs < 2 ^ 53) (full : FullMantissa (n.natAbs * 2 ^ (52 - n.natAbs.log2)))
      (exponent : n.natAbs.log2 < 53) :
      Rounded n (.finite (signOf n) (n.natAbs * 2 ^ (52 - n.natAbs.log2)) (n.natAbs.log2 - 52) full.pos)
  | large {m : Nat} {e : Int} (large : 2 ^ 53 ≤ n.natAbs) (full : FullMantissa m) (low : 0 < e) (high : e < 13) :
      Rounded n (.finite (signOf n) m e full.pos)

theorem rounded_normalize (hbound : n.natAbs < 2 ^ 64) :
    Rounded n (UnpackedFloat.normalize .binary64 n 0 .positive) := by
  by_cases hzero : n = 0
  · subst hzero
    exact .zero rfl
  rw [normalize_of_ne_zero hzero]
  by_cases hsmall : n.natAbs < 2 ^ 53
  · obtain ⟨hfull, hround⟩ := round_of_small (signOf n) (Int.natAbs_pos.mpr hzero) hsmall
    rw [hround]
    exact .small hzero hsmall hfull ((Nat.log2_lt (Int.natAbs_ne_zero.mpr hzero)).mpr hsmall)
  · obtain ⟨m, e, hfull, hround, hlow, hhigh⟩ := round_of_large (signOf n) (Nat.le_of_not_lt hsmall) hbound
    rw [hround]
    exact .large (Nat.le_of_not_lt hsmall) hfull hlow hhigh

theorem eq_of_signOf {i j : Int} (hsign : signOf i = signOf j) (habs : i.natAbs = j.natAbs) : i = j := by
  unfold signOf at hsign
  split at hsign <;> split at hsign <;> first | omega | cases hsign

theorem eq_of_ofInt64 {i j : Int64} (hsafe : Value.isSafe i = true) (h : ofInt64 i = ofInt64 j) : i = j := by
  have hi := rounded_normalize (natAbs_lt i)
  have hj := rounded_normalize (natAbs_lt j)
  have hbits : pack .binary64 (UnpackedFloat.normalize .binary64 i.toInt 0 .positive) =
      pack .binary64 (UnpackedFloat.normalize .binary64 j.toInt 0 .positive) :=
    congrArg (fun f => f.toModel.toBits.toBitVec) h
  have hsmall : i.toInt.natAbs < 2 ^ 53 := by
    obtain ⟨hlow, hhigh⟩ := Bool.and_eq_true_iff.mp hsafe
    have hlow' := of_decide_eq_true hlow
    have hhigh' := of_decide_eq_true hhigh
    unfold Value.maxSafe at hlow' hhigh'
    omega
  refine Int64.toInt_inj.mp ?_
  generalize UnpackedFloat.normalize .binary64 i.toInt 0 .positive = u at hi hbits
  generalize UnpackedFloat.normalize .binary64 j.toInt 0 .positive = v at hj hbits
  cases hi with
  | large large => omega
  | zero hzero =>
    cases hj with
    | zero hzero' => rw [hzero, hzero']
    | small _ _ full exponent => exact absurd hbits (pack_zero_ne full (by omega))
    | large _ full => exact absurd hbits (pack_zero_ne full (by omega))
  | small _ _ full exponent =>
    cases hj with
    | zero => exact absurd hbits.symm (pack_zero_ne full (by omega))
    | large _ full' =>
      obtain ⟨-, -, he⟩ := pack_inj full full' (by omega) (by omega) hbits
      omega
    | small _ _ full' exponent' =>
      obtain ⟨hsign, hm, he⟩ := pack_inj full full' (by omega) (by omega) hbits
      have hlog : i.toInt.natAbs.log2 = j.toInt.natAbs.log2 := by omega
      rw [hlog] at hm
      exact eq_of_signOf hsign (Nat.eq_of_mul_eq_mul_right (Nat.two_pow_pos _) hm)

end Binary64

end ScriptMachine
