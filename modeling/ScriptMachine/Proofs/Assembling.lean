import ScriptMachine.Proofs.SourcePositions

/-!
# What assembled programs are made of

Calls to an assembler add constants and instructions, and set offsets of instructions that were added before.

* `Assembler.Serves` — where a constant is found.  It stays there (`serves_assembled`), and two calls get the same place for
  equal texts and equal integers only (`index_eq_iff`).
* `Assembler.target?` — where the calls want an instruction to lead, read off from the calls alone.  `code_assembled` says
  what has become of each instruction by means of it.
-/

namespace ScriptMachine

/-- The ways in which an instruction may lead elsewhere: by its jump, to its catch section, to its finally section. -/
inductive Way where
  | jump
  | catching
  | finishing
  deriving DecidableEq

/-- The instruction with other offsets, for those of its ways that are given one. -/
def Instruction.led (offset : Way → Option Int) : Instruction → Instruction
  | .jump test o => .jump test ((offset .jump).getD o)
  | .nextKey o => .nextKey ((offset .jump).getD o)
  | .nextItem o => .nextItem ((offset .jump).getD o)
  | .guard catchOffset finallyOffset =>
    .guard ((offset .catching).getD catchOffset) ((offset .finishing).getD finallyOffset)
  | i => i

theorem Instruction.led_none (i : Instruction) : i.led (fun _ => none) = i := by
  cases i <;> rfl

theorem Instruction.led_led (f g : Way → Option Int) (i : Instruction) :
    (i.led f).led g = i.led fun w => (g w).or (f w) := by
  cases i with
  | jump | nextKey | nextItem => cases hg : g .jump <;> simp [led, hg]
  | guard => cases hc : g .catching <;> cases hf : g .finishing <;> simp [led, hc, hf]
  | _ => rfl

namespace Assembler

theorem JumpForm.led_make (form : JumpForm) (f : Way → Option Int) (o : Int) :
    (form.make o).led f = form.make ((f .jump).getD o) := by
  cases form <;> rfl

/-! ### Constants -/

/-- Equal texts, or equal integers of the `int` form. -/
def SameConstants (v w : Value) : Prop :=
  (∃ s t, v = .text s ∧ w = .text t ∧ s.units = t.units) ∨ ∃ i, v = .int i ∧ w = .int i

section Constants

variable {v w : Value} {i : Nat} {cs cs' : Array Value} {a : Assembler}

theorem sameConstant_iff : sameConstant v w = true ↔ SameConstants v w := by
  unfold SameConstants
  fun_cases sameConstant v w with
  | case1 s t => simp [← Text.eq_iff_units]
  | case2 i j => simpa using eq_comm
  | case3 v w htext hint =>
    simp only [Bool.false_eq_true, false_iff]
    rintro (⟨s, t, rfl, rfl, _⟩ | ⟨i, rfl, rfl⟩)
    · exact htext s t rfl rfl
    · exact hint i i rfl rfl

theorem SameConstants.eq (h : SameConstants v w) : v = w := by
  rcases h with ⟨s, t, rfl, rfl, h⟩ | ⟨i, rfl, rfl⟩
  · rw [Text.ext h]
  · rfl

theorem SameConstants.self (h : SameConstants v w) : SameConstants v v := by
  rcases h with ⟨s, t, rfl, _, _⟩ | ⟨i, rfl, _⟩
  · exact .inl ⟨s, s, rfl, rfl, rfl⟩
  · exact .inr ⟨i, rfl, rfl⟩

/-- A constant is at an index, and no constant before it serves as well. -/
structure Serves (cs : Array Value) (v : Value) (i : Nat) : Prop where
  there : cs[i]? = some v
  first : ∀ j < i, ∀ w, cs[j]? = some w → sameConstant v w = false

/-- Whatever is at an index is there later. -/
def Extends (cs cs' : Array Value) : Prop := ∀ (i : Nat) (v : Value), cs[i]? = some v → cs'[i]? = some v

theorem Serves.later (h : Serves cs v i) (hext : Extends cs cs') : Serves cs' v i := by
  obtain ⟨hi, _⟩ := Array.getElem?_eq_some_iff.mp h.there
  refine ⟨hext i v h.there, fun j hj w hw => ?_⟩
  have hold : cs[j]? = some cs[j] := Array.getElem?_eq_getElem (hj.trans hi)
  have hsame := (hext j _ hold).symm.trans hw
  exact h.first j hj w (hold.trans hsame)

theorem extends_push (cs : Array Value) (v : Value) : Extends cs (cs.push v) := by
  intro i w hi
  obtain ⟨hlt, _⟩ := Array.getElem?_eq_some_iff.mp hi
  rw [Array.getElem?_push, if_neg hlt.ne, hi]

theorem addConstant_of_some (h : a.constants.findIdx? (sameConstant v) = some i) : a.addConstant v = (i, a) := by
  rw [addConstant, h]

theorem addConstant_of_none (h : a.constants.findIdx? (sameConstant v) = none) :
    a.addConstant v = (a.constants.size, { a with constants := a.constants.push v }) := by
  rw [addConstant, h]

theorem code_addConstant (a : Assembler) (v : Value) : (a.addConstant v).2.code = a.code := by
  unfold addConstant
  split <;> rfl

theorem extends_addConstant (a : Assembler) (v : Value) : Extends a.constants (a.addConstant v).2.constants := by
  cases h : a.constants.findIdx? (sameConstant v) with
  | some i =>
    rw [addConstant_of_some h]
    exact fun _ _ => id
  | none =>
    rw [addConstant_of_none h]
    exact extends_push _ _

theorem serves_addConstant (a : Assembler) (v : Value) :
    Serves (a.addConstant v).2.constants v (a.addConstant v).1 := by
  cases h : a.constants.findIdx? (sameConstant v) with
  | some i =>
    rw [addConstant_of_some h]
    obtain ⟨hi, hsame, hfirst⟩ := Array.findIdx?_eq_some_iff_getElem.mp h
    refine ⟨?_, fun j hj w hw => ?_⟩
    · rw [(sameConstant_iff.mp hsame).eq]
      exact Array.getElem?_eq_getElem hi
    · obtain ⟨_, rfl⟩ := Array.getElem?_eq_some_iff.mp hw
      exact Bool.eq_false_iff.mpr (hfirst j hj)
  | none =>
    rw [addConstant_of_none h]
    refine ⟨by simp, fun j hj w hw => ?_⟩
    rw [Array.getElem?_push, if_neg (Nat.ne_of_lt hj)] at hw
    exact Array.findIdx?_eq_none_iff.mp h w (Array.mem_of_getElem? hw)

/-- A later call gets the place of an earlier constant if it asks for an equal text or integer, and only then. -/
theorem index_eq_iff (h : Serves a.constants v i) : i = (a.addConstant w).1 ↔ SameConstants v w := by
  constructor
  · intro hi
    cases hfound : a.constants.findIdx? (sameConstant w) with
    | some j =>
      rw [addConstant_of_some hfound] at hi
      obtain ⟨hj, hsame, _⟩ := Array.findIdx?_eq_some_iff_getElem.mp hfound
      obtain rfl : i = j := hi
      have hthere := h.there
      rw [Array.getElem?_eq_getElem hj, Option.some.injEq] at hthere
      rw [hthere] at hsame
      have hsame := sameConstant_iff.mp hsame
      exact hsame.eq ▸ hsame.self
    | none =>
      rw [addConstant_of_none hfound] at hi
      obtain ⟨hlt, _⟩ := Array.getElem?_eq_some_iff.mp h.there
      exact absurd hi hlt.ne
  · intro hsame
    obtain ⟨hi, hthere⟩ := Array.getElem?_eq_some_iff.mp h.there
    obtain rfl := hsame.eq
    have hfound : a.constants.findIdx? (sameConstant v) = some i := by
      refine Array.findIdx?_eq_some_iff_getElem.mpr ⟨hi, ?_, fun j hj => ?_⟩
      · rw [hthere]
        exact sameConstant_iff.mpr hsame
      · exact Bool.eq_false_iff.mp (h.first j hj _ (Array.getElem?_eq_getElem (hj.trans hi)))
    rw [addConstant_of_some hfound]

end Constants

/-! ### Calls -/

/-- The constant a call asks for. -/
def Call.constant? : Call → Option Value
  | .addConstant v | .load v => some v
  | _ => none

/-- The instruction a call appends. -/
def Call.emitted? (a : Assembler) : Call → Option Instruction
  | .emit i => some i
  | .load v => some (.loadConstant (a.addConstant v).1)
  | .emitJump form => some (form.make 0)
  | .emitJumpTo form target => some (form.make (relative a.code.size target))
  | .emitGuard => some (.guard 0 0)
  | _ => none

/-- Where a call that is made after `size` instructions wants the instruction at `j` to lead. -/
def Call.aim? (size j : Nat) (w : Way) : Call → Option Nat
  | .emitJumpTo _ target => if size = j ∧ w = .jump then some target else none
  | .patchJumpTo index target => if index = j ∧ w = .jump then some target else none
  | .patchJump index => if index = j ∧ w = .jump then some size else none
  | .patchCatch index => if index = j ∧ w = .catching then some size else none
  | .patchFinally index => if index = j ∧ w = .finishing then some size else none
  | _ => none

/-- Where the last of the calls that are made after `size` instructions, and are about it, wants the instruction at `j` to
lead. -/
def target? (j : Nat) (w : Way) : Nat → List Call → Option Nat
  | _, [] => none
  | size, call :: calls => (target? j w (size + if call.emits then 1 else 0) calls).or (call.aim? size j w)

variable {a : Assembler} {call : Call} {i : Instruction} {j : Nat} {v : Value} {before : List Call}

theorem constants_perform (h : call.constant? = some v) : (a.perform call).constants = (a.addConstant v).2.constants := by
  cases call <;> cases h <;> rfl

theorem extends_perform (a : Assembler) (call : Call) : Extends a.constants (a.perform call).constants := by
  cases h : call.constant? with
  | some v =>
    rw [constants_perform h]
    exact extends_addConstant a v
  | none =>
    cases call with
    | addConstant | load => cases h
    | _ => exact fun _ _ => id

theorem extends_performAll (a : Assembler) (calls : List Call) : Extends a.constants (a.performAll calls).constants := by
  induction calls generalizing a with
  | nil => exact fun _ _ => id
  | cons call calls ih => exact fun i v hi => ih (a.perform call) i v (extends_perform a call i v hi)

theorem performAll_append (a : Assembler) (before after : List Call) :
    a.performAll (before ++ after) = (a.performAll before).performAll after := List.foldl_append

theorem performAll_cons (a : Assembler) (call : Call) (calls : List Call) :
    a.performAll (call :: calls) = (a.perform call).performAll calls := rfl

/-- What a call does to the instructions there are. -/
theorem code_perform (call : Call) (hi : a.code[j]? = some i) :
    (a.perform call).code[j]? = some (i.led fun w => (call.aim? a.code.size j w).map (relative j)) := by
  obtain ⟨hj, _⟩ := Array.getElem?_eq_some_iff.mp hi
  have hpush : ∀ x, (a.code.push x)[j]? = some i := fun x => by rw [Array.getElem?_push, if_neg hj.ne, hi]
  have hpatch : ∀ (index target : Nat) (way : Way) (f : Instruction → Instruction),
      (∀ x, f x = x.led fun w => if w = way then some (relative index target) else none) →
      (a.code.modify index f)[j]? =
        some (i.led fun w => (if index = j ∧ w = way then some target else none).map (relative j)) := by
    intro index target way f hf
    rw [Array.getElem?_modify, hi]
    by_cases hindex : index = j
    · subst hindex
      simp only [if_true, Option.map_some, hf, true_and]
      congr 2
      funext w
      split <;> rfl
    · simp [hindex, Instruction.led_none]
  have hkeeps : i = i.led fun w => Option.map (relative j) none := (Instruction.led_none i).symm
  cases call with
  | setPosition => exact hi.trans (congrArg some hkeeps)
  | addConstant v =>
    change (a.addConstant v).2.code[j]? = _
    rw [code_addConstant]
    exact hi.trans (congrArg some hkeeps)
  | emit | emitJump | emitGuard => exact (hpush _).trans (congrArg some hkeeps)
  | load v =>
    change ((a.addConstant v).2.code.push _)[j]? = _
    rw [code_addConstant]
    exact (hpush _).trans (congrArg some hkeeps)
  | emitJumpTo form target =>
    refine (hpush _).trans (congrArg some ?_)
    simp [Call.aim?, hj.ne', Instruction.led_none]
  | patchJump index => exact hpatch index a.code.size .jump _ fun x => by cases x <;> rfl
  | patchJumpTo index target => exact hpatch index target .jump _ fun x => by cases x <;> rfl
  | patchCatch index => exact hpatch index a.code.size .catching _ fun x => by cases x <;> rfl
  | patchFinally index => exact hpatch index a.code.size .finishing _ fun x => by cases x <;> rfl

theorem code_performAll (calls : List Call) (hi : a.code[j]? = some i) :
    (a.performAll calls).code[j]? = some (i.led fun w => (target? j w a.code.size calls).map (relative j)) := by
  induction calls generalizing a i with
  | nil => exact hi.trans (congrArg some (Instruction.led_none i).symm)
  | cons call calls ih =>
    rw [performAll_cons, ih (code_perform call hi), Instruction.led_led, (effect_perform a call).size]
    simp only [target?, Option.map_or]

theorem size_performAll_le (a : Assembler) (calls : List Call) : a.code.size ≤ (a.performAll calls).code.size := by
  induction calls generalizing a with
  | nil => exact Nat.le_refl _
  | cons call calls ih =>
    have hsize := (effect_perform a call).size
    exact (by omega : a.code.size ≤ (a.perform call).code.size).trans (ih _)

/-- A section starts at an instruction that comes after all there are when it is set. -/
theorem target?_section {w : Way} {t : Nat} (hw : w ≠ .jump) {calls : List Call}
    (h : target? j w a.code.size calls = some t) : a.code.size ≤ t ∧ t ≤ (a.performAll calls).code.size := by
  induction calls generalizing a with
  | nil => cases h
  | cons call calls ih =>
    have hsize := (effect_perform a call).size
    rw [target?, ← hsize, Option.or_eq_some_iff] at h
    rcases h with hlater | ⟨_, haim⟩
    · obtain ⟨hle, hle'⟩ := ih hlater
      exact ⟨by omega, hle'⟩
    · have ht : t = a.code.size := by
        cases call <;> simp [Call.aim?, hw] at haim <;> exact haim.2.symm
      subst ht
      exact ⟨Nat.le_refl _, (by omega : a.code.size ≤ (a.perform call).code.size).trans (size_performAll_le _ _)⟩

theorem code_emitted (h : call.emitted? a = some i) : (a.perform call).code[a.code.size]? = some i := by
  cases call with
  | load v =>
    cases h
    change ((a.addConstant v).2.code.push _)[a.code.size]? = _
    rw [code_addConstant]
    exact Array.getElem?_push_size
  | emit | emitJump | emitJumpTo | emitGuard =>
    cases h
    exact Array.getElem?_push_size
  | _ => cases h

/-- The offset that an instruction is emitted with is the one it is wanted to have. -/
theorem led_aim (h : call.emitted? a = some i) (f : Way → Option Int) :
    i.led (fun w => (f w).or ((call.aim? a.code.size a.code.size w).map (relative a.code.size))) = i.led f := by
  cases call with
  | emitJumpTo form target =>
    cases h
    rw [JumpForm.led_make, JumpForm.led_make]
    cases f .jump <;> simp [Call.aim?]
  | emit | load | emitJump | emitGuard => simp [Call.aim?]
  | _ => cases h

/-- **A constant stays where a call has put or found it.** -/
theorem serves_assembled (after : List Call) (h : call.constant? = some v) :
    Serves (a.performAll (before ++ call :: after)).constants v ((a.performAll before).addConstant v).1 := by
  rw [performAll_append, performAll_cons]
  refine Serves.later ?_ (extends_performAll _ _)
  rw [constants_perform h]
  exact serves_addConstant _ v

theorem code_unaimed (hi : (a.performAll before).code[j]? = some i)
    (hnone : ∀ w, call.aim? (a.performAll before).code.size j w = none) :
    (a.performAll (before ++ [call])).code[j]? = some i := by
  rw [performAll_append]
  refine (code_perform call hi).trans (congrArg some ?_)
  simp only [hnone]
  exact Instruction.led_none i

theorem emits_of_emitted (h : call.emitted? a = some i) : call.emits = true := by
  cases call <;> first | rfl | cases h

/-- **What assembling makes of an instruction**: the one that was emitted, with the offsets to the last targets. -/
theorem code_assembled (after : List Call) (h : call.emitted? (a.performAll before) = some i)
    (hj : j = (a.performAll before).code.size) :
    (a.performAll (before ++ call :: after)).code[j]? =
      some (i.led fun w => (target? j w j (call :: after)).map (relative j)) := by
  subst hj
  have hsize : ((a.performAll before).perform call).code.size = (a.performAll before).code.size + 1 := by
    rw [(effect_perform _ call).size, emits_of_emitted h, if_pos rfl]
  rw [performAll_append, performAll_cons, code_performAll after (code_emitted h), hsize]
  simp only [target?, emits_of_emitted h, if_true, Option.map_or]
  rw [led_aim h]

end Assembler

end ScriptMachine
