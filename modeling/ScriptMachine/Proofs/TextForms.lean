import ScriptMachine.Machine.Operators
import ScriptMachine.Proofs.OperandLists

/-!
# The form of a text cannot be seen

Units are stored narrow or wide, and each operation on them has a path for either form.

* `Encoding.Built.canonical`, `Encoding.Built.units_eq` — what every way to build keeps.
* `Encoding.compare_eq` — the order of the units, whichever path is taken.
-/

namespace ScriptMachine

namespace Encoding

variable {a b e : Encoding}

/-! ### The order of units -/

section Order

variable {x y : List UInt16}

theorem compare_unit_eq_lt {u v : UInt16} : Ord.compare u v = .lt ↔ u < v := compareOfLessAndEq_eq_lt

theorem compareLex_eq_lt : List.compareLex Ord.compare x y = .lt ↔ x < y := by
  induction x generalizing y with
  | nil => cases y <;> simp [List.compareLex_nil_nil, List.compareLex_nil_cons]
  | cons u x ih =>
    cases y with
    | nil => simp [List.compareLex_cons_nil]
    | cons v y =>
      rw [List.compareLex_cons_cons, Ordering.then_eq_lt, compare_unit_eq_lt, Std.compare_eq_iff_eq, ih,
        List.cons_lt_cons_iff]

theorem compareLex_toUInt16 (x y : List UInt8) :
    List.compareLex Ord.compare (x.map UInt8.toUInt16) (y.map UInt8.toUInt16) = List.compareLex Ord.compare x y := by
  have hunit : ∀ u v : UInt8, Ord.compare u.toUInt16 v.toUInt16 = Ord.compare u v := by
    intro u v
    show compareOfLessAndEq _ _ = compareOfLessAndEq _ _
    simp only [compareOfLessAndEq, UInt8.toUInt16_lt, UInt8.toUInt16_inj]
  induction x generalizing y with
  | nil => cases y <;> rfl
  | cons u x ih =>
    cases y with
    | nil => rfl
    | cons v y => rw [List.map_cons, List.map_cons, List.compareLex_cons_cons, List.compareLex_cons_cons, hunit, ih]

/-- Bytes are ordered as the units they stand for. -/
theorem compare_eq (a b : Encoding) : a.compare b = List.compareLex Ord.compare a.units b.units := by
  cases a with
  | wide x => rfl
  | narrow x =>
    cases b with
    | wide y => rfl
    | narrow y => exact (compareLex_toUInt16 x y).symm

theorem compare_eq_lt : a.compare b = .lt ↔ a.units < b.units := by
  rw [compare_eq, compareLex_eq_lt]

theorem compare_eq_eq : a.compare b = .eq ↔ a.units = b.units := by
  rw [compare_eq]
  exact Std.compare_eq_iff_eq (α := List UInt16)

theorem compare_eq_gt : a.compare b = .gt ↔ b.units < a.units := by
  rw [compare_eq, ← compareLex_eq_lt]
  exact Std.OrientedCmp.gt_iff_lt

theorem compare_lt_trans {c : Encoding} (hab : a.compare b = .lt) (hbc : b.compare c = .lt) : a.compare c = .lt := by
  rw [compare_eq] at hab hbc ⊢
  exact Std.TransCmp.lt_trans hab hbc

end Order

theorem Canonical.sameAsString (h : e.Canonical) (s : String) : e.sameAsString s = true ↔ e.units = Text.unitsOf s := by
  cases e with
  | wide units => exact beq_iff_eq
  | narrow bytes =>
    rw [Encoding.sameAsString, beq_iff_eq]
    constructor
    · rintro rfl
      exact (Text.unitsOf_eq_map (canonical_narrow.mp h)).symm
    · intro hunits
      have hsmall : ∀ b ∈ Text.bytesOf s, b < 0x80 := by
        rw [← Text.unitsOf_small, ← hunits]
        exact h.mp rfl
      rw [Text.unitsOf_eq_map hsmall] at hunits
      exact map_toUInt16_inj.mp hunits

/-! ### What is built -/

/-- The encoding is made from characters or units, or joined from two or from a row of such, and these units went in. -/
inductive Built : Encoding → List UInt16 → Prop where
  | ofString (s : String) : Built (.ofString s) (Text.unitsOf s)
  | ofUnits (us : List UInt16) : Built (.ofUnits us) us
  | append {a b : Encoding} {us vs : List UInt16} (ha : Built a us) (hb : Built b vs) : Built (a.append b) (us ++ vs)
  | joined {parts : List (Encoding × List UInt16)} (h : ∀ p ∈ parts, Built p.1 p.2) :
    Built (.ofUnits (parts.flatMap (·.1.units))) (parts.flatMap (·.2))

theorem Built.canonical {us : List UInt16} (h : Built e us) : e.Canonical := by
  induction h with
  | ofString s => exact canonical_ofString s
  | ofUnits us => exact canonical_ofUnits us
  | append _ _ iha ihb => exact iha.append ihb
  | joined => exact canonical_ofUnits _

theorem Built.units_eq {us : List UInt16} (h : Built e us) : e.units = us := by
  induction h with
  | ofString s => exact units_ofString s
  | ofUnits us => exact units_ofUnits us
  | append _ _ iha ihb => rw [units_append, iha, ihb]
  | @joined parts _ ih => rw [units_ofUnits, List.flatMap_def, List.flatMap_def, List.map_congr_left ih]

end Encoding

/-! ### Joining by one instruction -/

namespace Text

theorem units_foldl_append (t : Text) (ts : List Text) : (ts.foldl (· ++ ·) t).units = t.units ++ ts.flatMap units := by
  induction ts generalizing t with
  | nil => simp
  | cons s ts ih => rw [List.foldl_cons, ih, units_append, List.flatMap_cons, List.append_assoc]

theorem foldl_append_empty (ts : List Text) : ts.foldl (· ++ ·) .empty = ofUnits (ts.flatMap units) := by
  apply ext
  rw [units_foldl_append, empty, units_ofUnits, units_ofUnits, List.nil_append]

end Text

namespace VM

theorem joinUnits_texts (enter : Enter) (m : Machine) (us : List UInt16) (ts : List Text) :
    joinUnits enter us (ts.map .text) m = .ok (us ++ ts.flatMap Text.units) m := by
  induction ts generalizing us with
  | nil =>
    rw [List.flatMap_nil, List.append_nil]
    rfl
  | cons t ts ih =>
    have htext : toText enter (.text t) m = .ok t m := rfl
    rw [List.map_cons, joinUnits, bind_ok htext, ih, List.flatMap_cons, List.append_assoc]

theorem concat_texts (enter : Enter) {m : Machine} {below : List Value} {ts : List Text}
    (h : m.stack.Holds (below ++ ts.map .text)) :
    ∃ s : OperandStack, s.Holds (below ++ [.text (ts.foldl (· ++ ·) .empty)]) ∧
      concat enter ts.length m = .ok () { m with stack := s, regs := { m.regs with pc := m.regs.pc + 1 } } := by
  obtain ⟨s, hpop, hs⟩ := h.popMany (n := ts.length) (by simp)
  refine ⟨s.push (.text (ts.foldl (· ++ ·) .empty)), hs.push _, ?_⟩
  have hparts : popMany ts.length m = .ok (ts.map .text) { m with stack := s } := onStack_of_ok hpop
  rw [concat, bind_ok hparts, bind_ok (joinUnits_texts enter _ [] ts), Text.foldl_append_empty]
  rfl

end VM

namespace Encoding

/-- Take any texts built from characters and units, by joining two and by joining many.  Such a text is stored narrow
exactly if all its units are small.  Its units, length, the unit at a position, what is hashed, whether it equals a
character sequence, whether it equals another text, and how it is ordered against another depend on the units that went in
and on nothing else: equality is that of the units, and the order is the lexicographic one, which is total.  Joining two
texts joins their units, and the instruction that joins many leaves what joining them one by one from the bottom does. -/
theorem form_unobservable {a b c : Encoding} {us vs ws : List UInt16} (ha : Built a us) (hb : Built b vs)
    (hc : Built c ws) :
    (a.isWide = false ↔ ∀ u ∈ us, u < 0x80) ∧ a.units = us ∧ a.length = us.length ∧ (∀ i, a.unitAt? i = us[i]?) ∧
    a.hashInput = (us.length, us) ∧ (∀ s, a.sameAsString s = true ↔ us = Text.unitsOf s) ∧
    (a.same b = true ↔ us = vs) ∧
    (a.compare b = .lt ↔ us < vs) ∧ (a.compare b = .eq ↔ us = vs) ∧ (a.compare b = .gt ↔ vs < us) ∧
    (a.compare b = .lt → b.compare c = .lt → a.compare c = .lt) ∧
    (a.append b).units = us ++ vs ∧
    (∀ (enter : Enter) (m : Machine) (below : List Value) (ts : List Text),
      m.stack.Holds (below ++ ts.map .text) →
      ∃ s : OperandStack, s.Holds (below ++ [.text (ts.foldl (· ++ ·) .empty)]) ∧
        VM.concat enter ts.length m = .ok () { m with stack := s, regs := { m.regs with pc := m.regs.pc + 1 } } ∧
        (ts.foldl (· ++ ·) Text.empty).encoding = .ofUnits (ts.flatMap Text.units)) := by
  have hform := ha.canonical
  obtain rfl := ha.units_eq
  obtain rfl := hb.units_eq
  refine ⟨hform, rfl, a.length_eq, a.unitAt?_eq, Prod.ext a.length_eq rfl, hform.sameAsString, same_iff,
    compare_eq_lt, compare_eq_eq, compare_eq_gt, compare_lt_trans, units_append a b, ?_⟩
  intro enter m below ts hstack
  obtain ⟨s, hs, hconcat⟩ := VM.concat_texts enter hstack
  exact ⟨s, hs, hconcat, congrArg Text.encoding (Text.foldl_append_empty ts)⟩

/-- A machine with a narrow and a wide text on its stack. -/
def twoTexts : Machine :=
  { Machine.new .default with
    stack := (OperandStack.new.push (.text (.ofString "caf"))).push (.text (.ofString "\u00e9")) }

theorem form_unobservable_mixed :
    Built ((ofString "caf").append (ofString "\u00e9")) [99, 97, 102, 0xe9] ∧
    Built (ofString "caf\u00e9") [99, 97, 102, 0xe9] ∧ Built (ofUnits [99, 97, 102]) [99, 97, 102] ∧
    (ofUnits [99, 97, 102]).isWide = false ∧
    ((ofString "caf").append (ofString "\u00e9")).same (ofString "caf\u00e9") = true ∧
    ((ofString "caf").append (ofString "\u00e9")).sameAsString "caf\u00e9" = true ∧
    (ofUnits [99, 97, 102]).compare ((ofString "caf").append (ofString "\u00e9")) = .lt ∧
    ∃ s : OperandStack, s.Holds [.text (Text.empty ++ .ofString "caf" ++ .ofString "\u00e9")] ∧
      VM.concat (fun _ => pure .undefined) 2 twoTexts =
        .ok () { twoTexts with stack := s, regs := { twoTexts.regs with pc := twoTexts.regs.pc + 1 } } := by
  have hjoined : Built ((ofString "caf").append (ofString "\u00e9")) [99, 97, 102, 0xe9] :=
    .append (.ofString "caf") (.ofString "\u00e9")
  have hwhole : Built (ofString "caf\u00e9") [99, 97, 102, 0xe9] := .ofString "caf\u00e9"
  have hnarrow : Built (ofUnits [99, 97, 102]) [99, 97, 102] := .ofUnits _
  have hstack : twoTexts.stack.Holds ([] ++ [Text.ofString "caf", Text.ofString "\u00e9"].map .text) :=
    ((⟨rfl, rfl⟩ : OperandStack.new.Holds []).push _).push _
  have hseen := form_unobservable hjoined hwhole hnarrow
  have horder := form_unobservable hnarrow hjoined hwhole
  obtain ⟨-, -, -, -, -, hstring, hsame, -, -, -, -, -, hconcat⟩ := hseen
  obtain ⟨hwide, -, -, -, -, -, -, hless, -, -, -, -, -⟩ := horder
  obtain ⟨s, hs, hrun, -⟩ := hconcat (fun _ => pure .undefined) twoTexts [] _ hstack
  exact ⟨hjoined, hwhole, hnarrow, hwide.mpr (by simp), hsame.mpr rfl, (hstring _).mpr rfl, hless.mpr (by decide), s, hs,
    hrun⟩

end Encoding

end ScriptMachine
