import Mathlib.Data.List.Induction
import Mathlib.Data.List.TakeWhile
import ScriptMachine.Program.Assembler

/-!
# Source positions of assembled programs

An assembler records a source offset only where it changes.  What is recorded says for each instruction which offset was in
force when it was emitted.

* `Assembler.Call` — the calls that a program is assembled with; `Assembler.effect_perform` says what each does to
  what positions depend on.
* `Assembler.Tracks` — the marks tell the offsets of all instructions emitted so far.

Main result: `Assembler.source_positions_kept`.
-/

namespace ScriptMachine

/-! ### Lines and columns -/

namespace SourceFile

/-- Characters with the bytes they start at. -/
def starts : Nat → List Char → List (Nat × Char)
  | _, [] => []
  | i, c :: cs => (i, c) :: starts (i + c.utf8Size) cs

/-- The characters that start before a byte. -/
def before (s : SourceFile) (offset : Nat) : List Char :=
  ((starts 0 s.text.toList).filter (·.1 < offset)).map (·.2)

def advance (position : Nat × Nat) (c : Char) : Nat × Nat :=
  if c = '\n' then (position.1 + 1, 1) else (position.1, position.2 + 1)

theorem le_of_mem_starts {i : Nat} {cs : List Char} : ∀ x ∈ starts i cs, i ≤ x.1 := by
  induction cs generalizing i with
  | nil => simp [starts]
  | cons c cs ih =>
    rw [starts, List.forall_mem_cons]
    exact ⟨Nat.le_refl i, fun x hx => (Nat.le_add_right _ _).trans (ih x hx)⟩

theorem positionFrom_eq_foldl (offset : Nat) (cs : List Char) (i line column : Nat) :
    positionFrom offset cs i line column =
      (((starts i cs).filter (·.1 < offset)).map (·.2)).foldl advance (line, column) := by
  induction cs generalizing i line column with
  | nil => rfl
  | cons c cs ih =>
    rw [positionFrom]
    split
    case isTrue hle =>
      -- the characters after one that is too far are too far
      have hnone : (starts i (c :: cs)).filter (·.1 < offset) = [] :=
        List.filter_eq_nil_iff.mpr fun x hx => by simpa using hle.trans (le_of_mem_starts x hx)
      rw [hnone]
      rfl
    case isFalse hlt =>
      rw [starts, List.filter_cons_of_pos (by simpa using hlt), List.map_cons, List.foldl_cons, advance]
      split <;> exact ih _ _ _

theorem position_eq (s : SourceFile) (offset : Nat) :
    s.position offset =
      (1 + (s.before offset).count '\n', 1 + ((s.before offset).reverse.takeWhile (· ≠ '\n')).length) := by
  rw [position, positionFrom_eq_foldl]
  change (s.before offset).foldl advance (1, 1) = _
  induction s.before offset using List.reverseRecOn with
  | nil => rfl
  | append_singleton cs c ih =>
    rw [List.foldl_append, ih, List.foldl_cons, advance]
    split
    case isTrue hc => simp [hc, Nat.add_assoc]
    case isFalse hc => simp [hc, Nat.add_assoc]

end SourceFile

namespace Assembler

/-! ### Calls -/

/-- The calls that a program is assembled with. -/
inductive Call where
  | setPosition (offset : Nat)
  | addConstant (v : Value)
  | emit (i : Instruction)
  | load (v : Value)
  | emitJump (form : JumpForm)
  | emitJumpTo (form : JumpForm) (target : Nat)
  | emitGuard
  | patchJump (index : Nat)
  | patchJumpTo (index target : Nat)
  | patchCatch (index : Nat)
  | patchFinally (index : Nat)

def perform (a : Assembler) : Call → Assembler
  | .setPosition offset => a.setPosition offset
  | .addConstant v => (a.addConstant v).2
  | .emit i => (a.emit i).2
  | .load v => (a.load v).2
  | .emitJump form => (a.emitJump form).2
  | .emitJumpTo form target => (a.emitJumpTo form target).2
  | .emitGuard => a.emitGuard.2
  | .patchJump index => a.patchJump index
  | .patchJumpTo index target => a.patchJumpTo index target
  | .patchCatch index => a.patchCatch index
  | .patchFinally index => a.patchFinally index

def performAll (a : Assembler) (calls : List Call) : Assembler := calls.foldl perform a

def Call.emits : Call → Bool
  | .emit _ | .load _ | .emitJump _ | .emitJumpTo _ _ | .emitGuard => true
  | _ => false

/-- The offset in force after a call. -/
def Call.offset (before : Option Nat) : Call → Option Nat
  | .setPosition offset => some offset
  | _ => before

/-- The offset in force at each emission. -/
def offsets (before : Option Nat) : List Call → List (Option Nat)
  | [] => []
  | call :: calls => (if call.emits then [before] else []) ++ offsets (call.offset before) calls

/-- What a call does to what positions depend on. -/
structure Effect (a : Assembler) (call : Call) (a' : Assembler) : Prop where
  source : a'.source = a.source
  offset : a'.offset = call.offset a.offset
  size : a'.code.size = a.code.size + if call.emits then 1 else 0
  marks : a'.marks = if call.emits then markPosition a.marks a.code.size a.offset else a.marks

theorem effect_perform (a : Assembler) (call : Call) : Effect a call (a.perform call) := by
  cases call with
  | setPosition => exact ⟨rfl, rfl, rfl, rfl⟩
  | emit | emitJump | emitJumpTo | emitGuard => exact ⟨rfl, rfl, Array.size_push _, rfl⟩
  | patchJump | patchJumpTo | patchCatch | patchFinally => exact ⟨rfl, rfl, Array.size_modify, rfl⟩
  | addConstant v =>
    change Effect a _ (a.addConstant v).2
    unfold addConstant
    split <;> exact ⟨rfl, rfl, rfl, rfl⟩
  | load v =>
    change Effect a _ ((a.addConstant v).2.emit (.loadConstant (a.addConstant v).1)).2
    unfold addConstant
    split <;> exact ⟨rfl, rfl, Array.size_push _, rfl⟩

/-! ### Marks -/

def offsetAt? (marks : List PositionMark) (pc : Nat) : Option Nat :=
  (marks.takeWhile fun mark => decide (mark.pc ≤ pc)).getLast?.map (·.offset)

section Marks

variable {marks : List PositionMark} {offset : Option Nat} {n pc : Nat}

theorem markPosition_cases (marks : List PositionMark) (n : Nat) (offset : Option Nat) :
    markPosition marks n offset = marks ∨ ∃ o, markPosition marks n offset = marks ++ [⟨n, o⟩] := by
  unfold markPosition
  split
  · exact .inl rfl
  · split
    · exact .inl rfl
    · exact .inr ⟨_, rfl⟩

theorem offsetAt?_markPosition (hpc : pc < n) : offsetAt? (markPosition marks n offset) pc = offsetAt? marks pc := by
  rcases markPosition_cases marks n offset with h | ⟨o, h⟩ <;> rw [h]
  unfold offsetAt?
  rw [List.takeWhile_append]
  split
  case isTrue hall => simp [(List.takeWhile_prefix _).eq_of_length hall, hpc]
  case isFalse => rfl

theorem le_of_mem_markPosition (hlt : ∀ mark ∈ marks, mark.pc < n) :
    ∀ mark ∈ markPosition marks n offset, mark.pc ≤ n := by
  have hle : ∀ mark ∈ marks, mark.pc ≤ n := fun mark hmark => (hlt mark hmark).le
  rcases markPosition_cases marks n offset with h | ⟨o, h⟩ <;> rw [h]
  · exact hle
  · simpa [or_imp, forall_and] using hle

theorem offsetAt?_markPosition_new (hlt : ∀ mark ∈ marks, mark.pc < n) (hnone : offset = none → marks = []) :
    offsetAt? (markPosition marks n offset) n = offset := by
  rw [offsetAt?, List.takeWhile_eq_self_iff.mpr (by simpa using le_of_mem_markPosition hlt)]
  cases offset with
  | none =>
    rw [hnone rfl]
    rfl
  | some o =>
    rw [markPosition]
    split
    case isTrue hsame => exact hsame
    case isFalse => simp

theorem increasing_markPosition (hmarks : marks.Pairwise (·.pc < ·.pc)) (hlt : ∀ mark ∈ marks, mark.pc < n) :
    (markPosition marks n offset).Pairwise (·.pc < ·.pc) := by
  rcases markPosition_cases marks n offset with h | ⟨o, h⟩ <;> rw [h]
  · exact hmarks
  · simpa [List.pairwise_append] using ⟨hmarks, hlt⟩

end Marks

/-! ### Runs -/

/-- The instructions emitted so far had these offsets, and the marks tell them. -/
structure Tracks (source : Option SourceFile) (offs : List (Option Nat)) (a : Assembler) : Prop where
  source : a.source = source
  increasing : a.marks.Pairwise (·.pc < ·.pc)
  lt_size : ∀ mark ∈ a.marks, mark.pc < a.code.size
  unmarked : a.offset = none → a.marks = []
  recorded : offs = (List.range a.code.size).map (offsetAt? a.marks)

variable {a a' : Assembler} {source : Option SourceFile} {offs : List (Option Nat)}

theorem Tracks.step {call : Call} (h : Tracks source offs a) (heffect : Effect a call a') :
    Tracks source (offs ++ if call.emits then [a.offset] else []) a' := by
  obtain ⟨hsource, hoffset, hsize, hmarks⟩ := heffect
  have hunset : a'.offset = none → a.offset = none := fun hnone => by
    rw [hoffset] at hnone
    cases call <;> first | exact hnone | cases hnone
  cases hemits : call.emits with
  | false =>
    simp only [hemits, Bool.false_eq_true, if_false, Nat.add_zero, List.append_nil] at hsize hmarks ⊢
    refine ⟨hsource.trans h.source, hmarks ▸ h.increasing, ?_, fun hnone => ?_, ?_⟩
    · exact hmarks ▸ hsize ▸ h.lt_size
    · exact hmarks.trans (h.unmarked (hunset hnone))
    · exact hmarks ▸ hsize ▸ h.recorded
  | true =>
    simp only [hemits, if_true] at hsize hmarks ⊢
    refine ⟨hsource.trans h.source, hmarks ▸ increasing_markPosition h.increasing h.lt_size, ?_, fun hnone => ?_, ?_⟩
    · rw [hmarks, hsize]
      exact fun mark hmark => Nat.lt_succ_of_le (le_of_mem_markPosition h.lt_size mark hmark)
    · rw [hmarks, hunset hnone]
      exact h.unmarked (hunset hnone)
    · rw [hmarks, hsize, List.range_succ, List.map_append, List.map_singleton,
        offsetAt?_markPosition_new h.lt_size h.unmarked, h.recorded]
      congr 1
      exact List.map_congr_left fun i hi => (offsetAt?_markPosition (List.mem_range.mp hi)).symm

theorem Tracks.performAll (h : Tracks source offs a) (calls : List Call) :
    Tracks source (offs ++ offsets a.offset calls) (a.performAll calls) := by
  induction calls generalizing a offs with
  | nil => rwa [offsets, List.append_nil]
  | cons call calls ih =>
    have heffect := effect_perform a call
    have hrest := ih (h.step heffect)
    rwa [heffect.offset, List.append_assoc] at hrest

/-- **Source positions survive assembling.**  Marks are only made where the offset changes; still each instruction is at
the position that had been set last when it was emitted. -/
theorem source_positions_kept (name : Text) (source : SourceFile) (calls : List Call) :
    let p := ((new name (some source)).performAll calls).finish
    p.marks.Pairwise (·.pc < ·.pc) ∧ p.code.size = (offsets none calls).length ∧
    (∀ i offset, (offsets none calls)[i]? = some offset → p.position? i = offset.map source.position) ∧
    ∀ o, source.position o =
      (1 + (source.before o).count '\n', 1 + ((source.before o).reverse.takeWhile (· ≠ '\n')).length) := by
  have hnew : Tracks (some source) [] (new name (some source)) := ⟨rfl, .nil, nofun, fun _ => rfl, rfl⟩
  have htracks := hnew.performAll calls
  have hrecorded : offsets none calls = _ := htracks.recorded
  refine ⟨htracks.increasing, by simp [hrecorded, finish], fun i offset hi => ?_, source.position_eq⟩
  rw [hrecorded, List.getElem?_map, Option.map_eq_some_iff] at hi
  obtain ⟨pc, hpc, rfl⟩ := hi
  obtain ⟨_, rfl⟩ := List.getElem?_eq_some_iff.mp hpc
  rw [Program.position?, finish, htracks.source, List.getElem_range, offsetAt?, Option.map_map]
  rfl

end Assembler

end ScriptMachine
