import Mathlib.Tactic.IntervalCases
import ScriptMachine.Proofs.DoubleValues
import ScriptMachine.Proofs.Integers

/-!
# Numeric texts

Which texts spell a number, as a grammar of its own, and what number it is.

* `NumericLiteral.Spells` — the grammar: nothing, an infinity, digits after the mark of their base, or a decimal literal.
* `NumericLiteral.ofTrimmed?_eq_some` — reading accepts exactly the grammar.

Main result: `Text.numeric_texts_read`.
-/

namespace ScriptMachine

namespace NumericLiteral

/-! ### The grammar -/

def IsDigits (cs : List Char) : Prop := ∀ c ∈ cs, c.isDigit = true

/-- A sign that may be missing, and whether it is negative. -/
inductive OptionalSign : List Char → Bool → Prop where
  | missing : OptionalSign [] false
  | plus : OptionalSign ['+'] false
  | minus : OptionalSign ['-'] true

/-- Digits with a point that may be missing, their digits alone, and how many of them follow the point. -/
inductive Mantissa : List Char → List Char → Nat → Prop where
  | whole {digits : List Char} (digits_ne : digits ≠ []) (isDigits : IsDigits digits) : Mantissa digits digits 0
  | point {whole fraction : List Char} (some_digit : whole ≠ [] ∨ fraction ≠ []) (whole_digits : IsDigits whole)
      (fraction_digits : IsDigits fraction) :
      Mantissa (whole ++ '.' :: fraction) (whole ++ fraction) fraction.length

/-- An exponent that may be missing, and its value. -/
inductive Exponent : List Char → Int → Prop where
  | missing : Exponent [] 0
  | written {mark : Char} {sign digits : List Char} {negative : Bool} (isMark : mark = 'e' ∨ mark = 'E')
      (isSign : OptionalSign sign negative) (digits_ne : digits ≠ []) (isDigits : IsDigits digits) :
      Exponent (mark :: (sign ++ digits)) (if negative then -(digitsNat digits : Int) else digitsNat digits)

/-- A decimal literal. -/
inductive SpellsDecimal : List Char → Bool → Decimal → Prop where
  | mk {sign mantissa exponent digits : List Char} {negative : Bool} {places : Nat} {e : Int}
      (isSign : OptionalSign sign negative) (isMantissa : Mantissa mantissa digits places)
      (isExponent : Exponent exponent e) :
      SpellsDecimal (sign ++ (mantissa ++ exponent)) negative ⟨digitsNat digits, e - places⟩

/-- The letter after a zero that announces a base. -/
inductive RadixMark : Char → Nat → Prop where
  | hexadecimal {c : Char} (isMark : c = 'x' ∨ c = 'X') : RadixMark c 16
  | octal {c : Char} (isMark : c = 'o' ∨ c = 'O') : RadixMark c 8
  | binary {c : Char} (isMark : c = 'b' ∨ c = 'B') : RadixMark c 2

theorem RadixMark.le {c : Char} {base : Nat} (h : RadixMark c base) : base ≤ 16 := by
  cases h <;> decide

/-- A digit of a base, a letter of either case, and its value. -/
def IsRadixDigit (base : Nat) (c : Char) (v : Nat) : Prop :=
  v < base ∧ (c = Nat.digitChar v ∨ c = (Nat.digitChar v).toUpper)

/-- **The grammar of numeric texts.** -/
inductive Spells : List Char → NumericLiteral → Prop where
  | blank : Spells [] .blank
  | infinity {sign : List Char} {negative : Bool} (isSign : OptionalSign sign negative) :
      Spells (sign ++ "Infinity".toList) (.infinity negative)
  | radix {mark : Char} {base : Nat} {digits : List Char} {values : List Nat} (isMark : RadixMark mark base)
      (digits_ne : digits ≠ []) (isDigits : List.Forall₂ (IsRadixDigit base) digits values) :
      Spells ('0' :: mark :: digits) (.radix base values)
  | decimal {cs : List Char} {negative : Bool} {value : Decimal} (isDecimal : SpellsDecimal cs negative value) :
      Spells cs (.decimal negative value)

/-! ### Signs and digits -/

variable {cs digits rest sign : List Char} {negative : Bool} {places : Nat} {e : Int} {l : NumericLiteral}

theorem splitSign_spec (cs : List Char) : ∃ sign, OptionalSign sign (splitSign cs).1 ∧ cs = sign ++ (splitSign cs).2 := by
  unfold splitSign
  split
  · exact ⟨['-'], .minus, rfl⟩
  · exact ⟨['+'], .plus, rfl⟩
  · exact ⟨[], .missing, rfl⟩

theorem splitSign_append (h : OptionalSign sign negative)
    (hrest : ∀ c cs, rest = c :: cs → c ≠ '-' ∧ c ≠ '+') : splitSign (sign ++ rest) = (negative, rest) := by
  cases h with
  | plus | minus => rfl
  | missing =>
    unfold splitSign
    split
    case h_1 heq => exact absurd rfl (hrest _ _ heq).1
    case h_2 heq => exact absurd rfl (hrest _ _ heq).2
    case h_3 => rfl

theorem splitDigits_spec (cs : List Char) : IsDigits (splitDigits cs).1 ∧ cs = (splitDigits cs).1 ++ (splitDigits cs).2 :=
  ⟨fun _ hc => List.mem_takeWhile_imp hc, List.takeWhile_append_dropWhile.symm⟩

theorem splitDigits_append (h : IsDigits digits)
    (hrest : ∀ c cs, rest = c :: cs → c.isDigit = false) : splitDigits (digits ++ rest) = (digits, rest) := by
  have hstop : rest.takeWhile Char.isDigit = [] ∧ rest.dropWhile Char.isDigit = rest := by
    cases rest with
    | nil => exact ⟨rfl, rfl⟩
    | cons c cs => simp [hrest c cs rfl]
  rw [splitDigits, List.takeWhile_append_of_pos h, List.dropWhile_append_of_pos h, hstop.1, hstop.2, List.append_nil]

theorem IsDigits.not_sign (h : IsDigits digits) 
    (hc : digits = c :: cs) : c ≠ '-' ∧ c ≠ '+' := by
  have hdigit := h c (by rw [hc]; exact List.mem_cons_self)
  constructor <;> rintro rfl <;> cases hdigit

/-! ### Exponents -/

theorem exponent?_eq_some : exponent? cs = some e ↔ Exponent cs e := by
  constructor
  · intro h
    cases cs with
    | nil =>
      cases h
      exact .missing
    | cons c cs =>
      obtain ⟨sign, hsign, hcs⟩ := splitSign_spec cs
      simp only [exponent?, List.all_eq_true] at h
      generalize splitSign cs = parts at h hsign hcs
      subst hcs
      split at h
      case isTrue hwritten =>
        obtain ⟨hmark, hne, hdigits⟩ := hwritten
        cases h
        exact .written hmark hsign hne hdigits
      case isFalse => cases h
  · intro h
    cases h with
    | missing => rfl
    | @written mark sign digits negative hmark hsign hne hdigits =>
      have hsplit : splitSign (sign ++ digits) = (negative, digits) := splitSign_append hsign fun _ _ => hdigits.not_sign
      simp only [exponent?, hsplit, List.all_eq_true]
      rw [if_pos ⟨hmark, hne, hdigits⟩]

theorem Exponent.mark (h : Exponent (c :: cs) e) : c = 'e' ∨ c = 'E' := by
  cases h with
  | written isMark => exact isMark

/-! ### Decimal literals -/

theorem Mantissa.head {mantissa : List Char} (h : Mantissa mantissa digits places) :
    ∃ c cs, mantissa = c :: cs ∧ c ≠ '-' ∧ c ≠ '+' := by
  cases h with
  | whole hne hdigits =>
    obtain ⟨c, cs, rfl⟩ := List.exists_cons_of_ne_nil hne
    exact ⟨c, cs, rfl, hdigits.not_sign rfl⟩
  | @point whole fraction _ hwhole =>
    cases whole with
    | nil => exact ⟨'.', fraction, rfl, by decide, by decide⟩
    | cons c cs => exact ⟨c, _, rfl, hwhole.not_sign rfl⟩

theorem mantissa_of_split (cs : List Char) :
    let (whole, rest) := splitDigits cs
    let (fraction, rest) := splitFraction rest
    (whole.isEmpty && fraction.isEmpty) = false →
      ∃ mantissa, Mantissa mantissa (whole ++ fraction) fraction.length ∧ cs = mantissa ++ rest := by
  obtain ⟨hwhole, hcs⟩ := splitDigits_spec cs
  generalize splitDigits cs = parts at hwhole hcs ⊢
  obtain ⟨whole, rest⟩ := parts
  dsimp only at hwhole hcs ⊢
  subst hcs
  unfold splitFraction
  split
  case h_1 rest =>
    obtain ⟨hfraction, hrest⟩ := splitDigits_spec rest
    generalize splitDigits rest = parts at hfraction hrest ⊢
    obtain ⟨fraction, rest⟩ := parts
    subst hrest
    intro hsome
    refine ⟨_, .point ?_ hwhole hfraction, by simp⟩
    simpa [or_iff_not_imp_left] using hsome
  case h_2 =>
    intro hsome
    simpa using Mantissa.whole (by simpa using hsome) hwhole

theorem split_of_mantissa {mantissa : List Char} (h : Mantissa mantissa digits places)
    (hrest : ∀ c cs, rest = c :: cs → c.isDigit = false ∧ c ≠ '.') :
    ∃ whole fraction tail, splitDigits (mantissa ++ rest) = (whole, tail) ∧ splitFraction tail = (fraction, rest) ∧
      digits = whole ++ fraction ∧ places = fraction.length ∧ (whole.isEmpty && fraction.isEmpty) = false := by
  have hend : ∀ c cs, rest = c :: cs → c.isDigit = false := fun c cs hc => (hrest c cs hc).1
  cases h with
  | whole hne hdigits =>
    refine ⟨digits, [], rest, splitDigits_append hdigits hend, ?_, by simp, rfl, by simpa using hne⟩
    unfold splitFraction
    split
    case h_1 => exact absurd rfl (hrest _ _ rfl).2
    case h_2 => rfl
  | @point whole fraction hsome hwhole hfraction =>
    refine ⟨whole, fraction, '.' :: (fraction ++ rest), ?_, splitDigits_append hfraction hend, rfl, rfl, ?_⟩
    · rw [List.append_assoc]
      refine splitDigits_append hwhole ?_
      rintro c cs hc
      cases hc
      rfl
    · simpa [or_iff_not_imp_left] using hsome

theorem decimal?_eq_some :
    decimal? cs = some l ↔ ∃ negative value, l = .decimal negative value ∧ SpellsDecimal cs negative value := by
  constructor
  · intro h
    obtain ⟨sign, hsign, hcs⟩ := splitSign_spec cs
    have hmantissa := mantissa_of_split (splitSign cs).2
    simp only [decimal?] at h hmantissa
    generalize splitSign cs = parts at h hsign hcs hmantissa
    subst hcs
    split at h
    case isTrue => cases h
    case isFalse hsome =>
      obtain ⟨e, he, rfl⟩ := Option.map_eq_some_iff.mp h
      obtain ⟨mantissa, hmantissa, hrest⟩ := hmantissa (Bool.eq_false_iff.mpr hsome)
      refine ⟨_, _, rfl, ?_⟩
      generalize splitDigits parts.2 = split at he hmantissa hrest ⊢
      rw [hrest]
      exact .mk hsign hmantissa (exponent?_eq_some.mp he)
  · rintro ⟨_, _, rfl, hspells⟩
    obtain @⟨sign, mantissa, exponent, digits, negative, places, e, hsign, hmantissa, hexponent⟩ := hspells
    have hrest : ∀ c cs, exponent = c :: cs → c.isDigit = false ∧ c ≠ '.' := by
      rintro c cs rfl
      rcases hexponent.mark with rfl | rfl <;> decide
    obtain ⟨whole, fraction, tail, hwhole, hfraction, rfl, rfl, hsome⟩ := split_of_mantissa hmantissa hrest
    have hsplit : splitSign (sign ++ (mantissa ++ exponent)) = (negative, mantissa ++ exponent) := by
      obtain ⟨c, cs, rfl, hc⟩ := hmantissa.head
      refine splitSign_append hsign fun _ _ heq => ?_
      cases heq
      exact hc
    simp only [decimal?, hsplit, hwhole, hfraction, hsome, exponent?_eq_some.mpr hexponent]
    rfl

/-! ### Digits of a base -/

theorem radixDigit?_eq_some {base : Nat} (hbase : base ≤ 16) {v : Nat} :
    radixDigit? base c = some v ↔ IsRadixDigit base c v := by
  constructor
  · intro h
    obtain ⟨hv, hlt⟩ := Option.filter_eq_some_iff.mp h
    refine ⟨by simpa using hlt, ?_⟩
    have hc : Char.ofNat c.toNat = c := Char.ofNat_toNat c
    simp only [Char.le_def, UInt32.le_iff_toNat_le, Char.toNat_val] at hv
    generalize c.toNat = k at hc hv
    subst hc
    split_ifs at hv with hdigit hlower hupper <;> cases hv
    · obtain ⟨hlow, hhigh⟩ := hdigit
      simp only [Char.reduceToNat] at hlow hhigh
      interval_cases k <;> decide
    · obtain ⟨hlow, hhigh⟩ := hlower
      simp only [Char.reduceToNat] at hlow hhigh
      interval_cases k <;> decide
    · obtain ⟨hlow, hhigh⟩ := hupper
      simp only [Char.reduceToNat] at hlow hhigh
      interval_cases k <;> decide
  · rintro ⟨hlt, hc⟩
    refine Option.filter_eq_some_iff.mpr ⟨?_, by simpa using hlt⟩
    have hsmall : v < 16 := hlt.trans_le hbase
    clear hlt
    interval_cases v <;> rcases hc with rfl | rfl <;> decide

theorem radixDigits?_eq_some {base : Nat} (hbase : base ≤ 16) :
    radixDigits? base cs = some l ↔
      cs ≠ [] ∧ ∃ values, List.Forall₂ (IsRadixDigit base) cs values ∧ l = .radix base values := by
  have hvalues : ∀ values, cs.mapM (radixDigit? base) = some values ↔ List.Forall₂ (IsRadixDigit base) cs values := by
    induction cs with
    | nil => intro values; cases values <;> simp
    | cons c cs ih =>
      simp only [List.mapM_cons, Option.bind_eq_bind, Option.bind_eq_some_iff, radixDigit?_eq_some hbase, ih,
        List.forall₂_cons_left_iff]
      simp [eq_comm]
  unfold radixDigits?
  split
  case isTrue hnil => simp [List.isEmpty_iff.mp hnil]
  case isFalse hne =>
    rw [List.isEmpty_iff] at hne
    simp only [Option.map_eq_some_iff, hvalues, ne_eq, hne, not_false_eq_true, true_and, @eq_comm _ l]

/-! ### Literals -/

def isDecimalChar (c : Char) : Bool := c.isDigit || ['.', 'e', 'E', '+', '-'].contains c

theorem isDecimalChar_of_digits (h : IsDigits digits) : ∀ c ∈ digits, isDecimalChar c = true :=
  fun c hc => by rw [isDecimalChar, h c hc, Bool.true_or]

theorem isDecimalChar_of_sign (h : OptionalSign sign negative) :
    ∀ c ∈ sign, isDecimalChar c = true := by
  cases h <;> simp [isDecimalChar]

theorem SpellsDecimal.chars {value : Decimal} (h : SpellsDecimal cs negative value) :
    cs ≠ [] ∧ ∀ c ∈ cs, isDecimalChar c = true := by
  obtain ⟨hsign, hmantissa, hexponent⟩ := h
  constructor
  · obtain ⟨c, cs, rfl, -⟩ := hmantissa.head
    simp
  · simp only [List.forall_mem_append]
    refine ⟨isDecimalChar_of_sign hsign, ?_, ?_⟩
    · cases hmantissa with
      | whole _ hdigits => exact isDecimalChar_of_digits hdigits
      | point _ hwhole hfraction =>
        rw [List.forall_mem_append, List.forall_mem_cons]
        exact ⟨isDecimalChar_of_digits hwhole, by decide, isDecimalChar_of_digits hfraction⟩
    · cases hexponent with
      | missing => simp
      | written hmark hsign _ hdigits =>
        rw [List.forall_mem_cons, List.forall_mem_append]
        refine ⟨?_, isDecimalChar_of_sign hsign, isDecimalChar_of_digits hdigits⟩
        rcases hmark with rfl | rfl <;> decide

theorem ofTrimmed?_of_decimal (hne : cs ≠ []) (h : ∀ c ∈ cs, isDecimalChar c = true) :
    ofTrimmed? cs = decimal? cs := by
  have hno : ∀ c, isDecimalChar c = false → c ∉ cs := fun c hc hmem => by simp [h c hmem] at hc
  have hinfinity : 'I' ∉ cs := hno 'I' (by decide)
  unfold ofTrimmed?
  rw [if_neg hne, if_neg, if_neg]
  · split
    case h_7 => rfl
    all_goals exact absurd (List.mem_cons_of_mem _ List.mem_cons_self) (hno _ (by decide))
  · rintro rfl
    exact hinfinity (by decide)
  · rintro (rfl | rfl) <;> exact hinfinity (by decide)

theorem ofTrimmed?_eq_some : ofTrimmed? cs = some l ↔ Spells cs l := by
  constructor
  · intro h
    unfold ofTrimmed? at h
    split_ifs at h with hnil hpositive hnegative
    · obtain rfl := hnil
      cases h
      exact .blank
    · cases h
      rcases hpositive with rfl | rfl
      · exact .infinity .missing
      · exact .infinity .plus
    · cases h
      rw [hnegative]
      exact .infinity .minus
    · have hradix : ∀ {mark base rest}, RadixMark mark base → radixDigits? base rest = some l →
          Spells ('0' :: mark :: rest) l := by
        intro mark base rest hmark h
        obtain ⟨hne, values, hdigits, rfl⟩ := (radixDigits?_eq_some hmark.le).mp h
        exact .radix hmark hne hdigits
      split at h
      · exact hradix (.hexadecimal (.inl rfl)) h
      · exact hradix (.hexadecimal (.inr rfl)) h
      · exact hradix (.octal (.inl rfl)) h
      · exact hradix (.octal (.inr rfl)) h
      · exact hradix (.binary (.inl rfl)) h
      · exact hradix (.binary (.inr rfl)) h
      · obtain ⟨negative, value, rfl, hdecimal⟩ := decimal?_eq_some.mp h
        exact .decimal hdecimal
  · intro h
    cases h with
    | blank => rfl
    | infinity hsign => cases hsign <;> rfl
    | radix hmark hne hdigits =>
      rw [← (radixDigits?_eq_some hmark.le).mpr ⟨hne, _, hdigits, rfl⟩]
      cases hmark with
      | hexadecimal isMark | octal isMark | binary isMark => rcases isMark with rfl | rfl <;> rfl
    | decimal hdecimal =>
      obtain ⟨hne, hchars⟩ := hdecimal.chars
      rw [ofTrimmed?_of_decimal hne hchars]
      exact decimal?_eq_some.mpr ⟨_, _, rfl, hdecimal⟩

/-! ### The double of a literal -/

open Binary64

/-- The double of a literal is a number or infinite. -/
theorem Spells.exists_sign (h : Spells cs l) : ∃ s, sign? l.toFloat = some s := by
  have hzero : sign? 0.0 = some .positive := sign?_ofScientific _ _ _
  cases h with
  | blank => exact ⟨_, hzero⟩
  | @infinity sign negative hsign => cases negative <;> exact ⟨_, rfl⟩
  | @radix mark base digits values hmark hne hdigits =>
    clear hne hdigits
    have hbase : isPositive (Float.ofNat base) = true := by cases hmark <;> decide
    have hfold : ∀ acc, sign? acc = some .positive →
        sign? (values.foldl (fun acc d => acc * Float.ofNat base + Float.ofNat d) acc) = some .positive := by
      induction values with
      | nil => exact fun _ hacc => hacc
      | cons d values ih => exact fun acc hacc => ih _ (sign?_add (sign?_scale hacc hbase).1 (sign?_ofScientific _ _ _))
    exact ⟨_, hfold _ hzero⟩
  | @decimal _ negative value _ =>
    have hvalue : sign? value.toFloat = some .positive := by
      unfold Decimal.toFloat
      split_ifs
      · exact hzero
      · rfl
      · exact hzero
      · exact sign?_ofScientific _ _ _
      · exact sign?_ofScientific _ _ _
    cases negative with
    | false => exact ⟨_, hvalue⟩
    | true => exact ⟨_, sign?_neg hvalue⟩

end NumericLiteral

namespace Text

open Binary64

/-- Without the blanks around it, the text is a literal.  A lone surrogate counts as the character that it is shown as,
which is in no literal. -/
def SpellsNumber (t : Text) (l : NumericLiteral) : Prop := NumericLiteral.Spells (trimBlanks (decode t.units)) l

variable {t : Text} {l : NumericLiteral}

theorem read?_eq_some : NumericLiteral.read? (decode t.units) = some l ↔ t.SpellsNumber l :=
  NumericLiteral.ofTrimmed?_eq_some

theorem toNumber_of_spells (h : t.SpellsNumber l) :
    (∃ i, integer? l.toFloat = some i ∧ Value.isSafe i = true ∧ t.toNumber = .int i) ∨
      (∀ i, integer? l.toFloat = some i → Value.isSafe i = false) ∧ t.toNumber = .float l.toFloat := by
  have hnumber : t.toNumber = (integer? l.toFloat).elim (.float l.toFloat)
      fun i => if Value.isSafe i then .int i else .float l.toFloat := by
    rw [toNumber, read?_eq_some.mpr h]
    cases l with
    | blank =>
      have hzero : integer? NumericLiteral.blank.toFloat = some 0 := by decide +kernel
      simp only [hzero]
      rfl
    | _ => dsimp only; cases integer? _ <;> rfl
  rw [hnumber]
  cases integer? l.toFloat with
  | none => exact .inr ⟨nofun, rfl⟩
  | some i =>
    cases hsafe : Value.isSafe i with
    | true => exact .inl ⟨i, rfl, hsafe, by simp [hsafe]⟩
    | false => exact .inr ⟨fun _ h => Option.some.inj h ▸ hsafe, by simp [hsafe]⟩

theorem toNumber_of_not_spells (h : ¬ ∃ l, t.SpellsNumber l) : t.toNumber = Value.nan := by
  have hnone : NumericLiteral.read? (decode t.units) = none :=
    Option.eq_none_iff_forall_ne_some.mpr fun l hl => h ⟨l, read?_eq_some.mp hl⟩
  rw [toNumber, hnone]

/-- **Which texts are numeric, and which of their numbers are integers.** -/
theorem numeric_texts_read (t : Text) :
    (t.toNumber.isNaN = true ↔ ¬ ∃ l, t.SpellsNumber l) ∧
    ∀ l, t.SpellsNumber l →
      (∀ i, t.toNumber = .int i ↔
        value? l.toFloat = some (i.toInt : ℚ) ∧ Value.Safe i.toInt ∧ isNegativeZero l.toFloat = false) ∧
      ((∀ i, t.toNumber ≠ .int i) → t.toNumber = .float l.toFloat) := by
  refine ⟨⟨?_, ?_⟩, fun l hl => ⟨fun i => ?_, fun hnone => ?_⟩⟩
  · rintro hnan ⟨l, hl⟩
    obtain ⟨s, hs⟩ := NumericLiteral.Spells.exists_sign hl
    obtain ⟨i, -, -, hi⟩ | ⟨-, hf⟩ := toNumber_of_spells hl
    · rw [hi] at hnan
      cases hnan
    · rw [hf, Value.isNaN, isNaN_of_sign? hs] at hnan
      cases hnan
  · intro hnone
    rw [toNumber_of_not_spells hnone]
    rfl
  · rw [and_comm (a := Value.Safe _), ← and_assoc, ← integer?_eq_some, ← Value.isSafe_iff]
    obtain ⟨j, hj, hsafe, hnumber⟩ | ⟨hnone, hnumber⟩ := toNumber_of_spells hl <;> rw [hnumber]
    · rw [hj, Value.int.injEq, Option.some.injEq]
      exact ⟨fun h => ⟨h, h ▸ hsafe⟩, And.left⟩
    · refine ⟨nofun, fun h => ?_⟩
      rw [hnone i h.1] at h
      cases h.2
  · obtain ⟨i, -, -, hi⟩ | ⟨-, hf⟩ := toNumber_of_spells hl
    · exact absurd hi (hnone i)
    · exact hf

theorem numeric_texts_read_decimal :
    (ofString " 12").SpellsNumber (.decimal false ⟨12, 0⟩) ∧ (ofString " 12").toNumber = .int 12 := by
  have hmantissa : NumericLiteral.Mantissa ['1', '2'] ['1', '2'] 0 :=
    .whole (by decide) (by simp [NumericLiteral.IsDigits])
  have hspells : (ofString " 12").SpellsNumber (.decimal false ⟨12, 0⟩) := by
    have htrim : trimBlanks (decode (ofString " 12").units) = ['1', '2'] := by decide
    exact .decimal (.mk .missing hmantissa .missing)
  obtain ⟨hvalue, hsign⟩ := integer?_eq_some.mp (show integer? (Decimal.toFloat ⟨12, 0⟩) = some 12 by decide +kernel)
  exact ⟨hspells, (((numeric_texts_read _).2 _ hspells).1 12).mpr ⟨hvalue, by decide, hsign⟩⟩

end Text

end ScriptMachine
