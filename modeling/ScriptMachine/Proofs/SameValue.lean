import ScriptMachine.Proofs.Doubles

/-!
# Same values

Redefining a property that is read only asks whether the new value is the same as the current one.  For numbers this is a
comparison of doubles, except between two integers, which are compared exactly.  So it is not transitive: two large
integers with the same nearest double are each the same as that double, but not as each other.

* `Value.Alike` — equal, or numbers with the same double: what being the same comes to over many steps
  (`Value.alike_of_sameValue`, `Value.Alike.trans`).
* `Value.Stays` — what is left of being the same then (`Value.Alike.stays`).
-/

namespace ScriptMachine

namespace Value

/-! ### Being the same -/

/-- Equal, or numbers with the same double. -/
def Alike (a b : Value) : Prop := a = b ∨ ∃ f, a.float? = some f ∧ b.float? = some f

/-- What a value can be replaced by, step by step, with each step to one that is the same as the one before: one that is
the same as the first, or another integer with the same nearest double. -/
inductive Stays (a : Value) : Value → Prop where
  | same {b : Value} (same : b.sameValue a = true) : Stays a b
  | marker (other : a.sameValue a = false) : Stays a a
  | blurred {b : Value} {i j : Int64} (first : a.wholeValue? = some i) (second : b.wholeValue? = some j) (ne : i ≠ j)
      (nearest : Binary64.ofInt64 i = Binary64.ofInt64 j) (large₁ : isSafe i = false) (large₂ : isSafe j = false) :
      Stays a b

section Same

variable {a b c : Value}

theorem Alike.refl (a : Value) : a.Alike a := .inl rfl

theorem Alike.symm (h : a.Alike b) : b.Alike a := by
  rcases h with rfl | ⟨f, ha, hb⟩
  · exact .inl rfl
  · exact .inr ⟨f, hb, ha⟩

theorem Alike.trans (hab : a.Alike b) (hbc : b.Alike c) : a.Alike c := by
  rcases hab with rfl | ⟨f, ha, hb⟩
  · exact hbc
  · rcases hbc with rfl | ⟨g, hb', hc⟩
    · exact .inr ⟨f, ha, hb⟩
    · rw [hb] at hb'
      cases hb'
      exact .inr ⟨f, ha, hc⟩

theorem float?_of_wholeValue? {i : Int64} (h : a.wholeValue? = some i) : a.float? = some (Binary64.ofInt64 i) := by
  cases a <;> cases h <;> rfl

theorem strictEquals_of_numbers {f g : Float} (ha : a.float? = some f) (hb : b.float? = some g) :
    a.strictEquals b = numbersEqual a b := by
  cases a <;> cases ha <;> cases b <;> cases hb <;> rfl

theorem eq_of_strictEquals (h : a.strictEquals b = true) (hother : a.float? = none ∨ b.float? = none) : a = b := by
  cases a <;> cases b <;> simp_all [strictEquals, float?, isNumber]

theorem numbersEqual_cases {f g : Float} (ha : a.float? = some f) (hb : b.float? = some g) :
    (∃ i j, a.wholeValue? = some i ∧ b.wholeValue? = some j ∧ numbersEqual a b = (i == j)) ∨
      numbersEqual a b = (f == g) := by
  unfold numbersEqual
  rw [ha, hb]
  split
  case h_1 i j hi hj => exact .inl ⟨i, j, hi, hj, rfl⟩
  case h_2 => exact .inr rfl

theorem alike_of_sameValue (h : a.sameValue b = true) : a.Alike b := by
  unfold sameValue at h
  split at h
  case h_2 hother =>
    refine .inl (eq_of_strictEquals h ?_)
    cases ha : a.float? with
    | none => exact .inl rfl
    | some f =>
      cases hb : b.float? with
      | none => exact .inr rfl
      | some g => exact absurd hb (hother f g ha)
  case h_1 f g ha hb =>
    suffices f = g by
      subst this
      exact .inr ⟨f, ha, hb⟩
    split at h
    case isTrue hnan =>
      obtain ⟨hf, hg⟩ := Bool.and_eq_true_iff.mp hnan
      exact Binary64.eq_of_isNaN hf hg
    case isFalse =>
      split at h
      case isTrue hzero =>
        obtain ⟨hf, hg⟩ := Bool.and_eq_true_iff.mp hzero
        exact Binary64.eq_of_zeros hf hg (eq_of_beq h)
      case isFalse hzero =>
        rw [strictEquals_of_numbers ha hb] at h
        rcases numbersEqual_cases ha hb with ⟨i, j, hi, hj, heq⟩ | heq
        · rw [heq] at h
          obtain rfl := eq_of_beq h
          rw [float?_of_wholeValue? hi] at ha
          rw [float?_of_wholeValue? hj] at hb
          exact Option.some.inj (ha.symm.trans hb)
        · rw [heq] at h
          rcases Binary64.eq_or_zeros_of_beq h with hsame | hzeros
          · exact hsame
          · exact absurd (Bool.and_eq_true_iff.mpr hzeros) hzero

theorem sameValue_of_float? {f : Float} (ha : a.float? = some f) (hb : b.float? = some f) :
    b.sameValue a = true ∨
      ∃ i j, a.wholeValue? = some i ∧ b.wholeValue? = some j ∧ i ≠ j ∧ Binary64.ofInt64 i = Binary64.ofInt64 j := by
  unfold sameValue
  rw [ha, hb]
  dsimp only
  cases hnan : f.isNaN with
  | true => exact .inl rfl
  | false =>
    cases hzero : f == 0.0 with
    | true => exact .inl (by simp)
    | false =>
      rw [strictEquals_of_numbers hb ha]
      rcases numbersEqual_cases hb ha with ⟨j, i, hj, hi, heq⟩ | heq
      · rw [heq]
        by_cases hij : i = j
        · exact .inl (by simp [hij])
        · refine .inr ⟨i, j, hi, hj, hij, ?_⟩
          rw [float?_of_wholeValue? hi] at ha
          rw [float?_of_wholeValue? hj] at hb
          exact Option.some.inj (ha.trans hb.symm)
      · exact .inl (heq.trans (Binary64.beq_self hnan))

theorem Alike.stays (h : a.Alike b) : a.Stays b := by
  rcases h with rfl | ⟨f, ha, hb⟩
  · cases hself : a.sameValue a with
    | true => exact .same hself
    | false => exact .marker hself
  · rcases sameValue_of_float? ha hb with hsame | ⟨i, j, hi, hj, hne, hnearest⟩
    · exact .same hsame
    · have houtside : ∀ {k l : Int64}, k ≠ l → Binary64.ofInt64 k = Binary64.ofInt64 l → isSafe k = false := by
        intro k l hkl heq
        cases hsafe : isSafe k with
        | false => rfl
        | true => exact absurd (Binary64.eq_of_ofInt64 hsafe heq) hkl
      exact .blurred hi hj hne hnearest (houtside hne hnearest) (houtside hne.symm hnearest.symm)

end Same

end Value

end ScriptMachine
