import ScriptMachine.Proofs.Frames

/-!
# Places of activations

A trace has a line for the running activation, at the instruction it is at, and one for each saved activation, at the
instruction before the one it will go on with.  To say which instruction that is, the places of activations are noted,
with whether they move on before their instruction calls.

* `Sites.Hold` — notes agree with a machine; they do so after nested entries too (`Hold.placed`, `Hold.stranded`).
-/

namespace ScriptMachine

variable {a : Activation} {frames : List Activation}

/-! ### Lines -/

/-- The line of code at an instruction. -/
def Store.lineAt (σ : Store) (p : ProgramId) (pc : Nat) : TraceFrame :=
  let p := σ.program p
  let (line, column) := (p.position? pc).getD (0, 0)
  { functionName := if p.name.isEmpty then none else some p.name.display
    file := p.sourceName?, line, column, native := false }

theorem Activation.traceFrame_of_program {p : ProgramId} (h : a.program = some p) (σ : Store) (pc : Nat) :
    a.traceFrame? σ pc = some (σ.lineAt p pc) := by
  unfold traceFrame?
  rw [h]
  rfl

theorem Activation.traceFrame_eq_none {σ : Store} {pc : Nat} : a.traceFrame? σ pc = none ↔ a.isBoundary = true := by
  unfold traceFrame? isBoundary
  cases a.program <;> cases a.native <;> simp

/-- The lines of all activations, innermost first. -/
def Machine.lines (m : Machine) : List (Option TraceFrame) :=
  m.regs.traceFrame? m.store m.regs.pc :: m.frames.map fun a => a.traceFrame? m.store (a.pc - 1)

/-! ### Sites -/

/-- The place of an activation: the code it runs, the instruction it is at, and whether it moves on before that calls. -/
structure Site where
  program : ProgramId
  pc : Nat
  passed : Bool

/-- Where the activation will go on, as long as it is saved. -/
def Site.saved (s : Site) : Nat := s.pc + s.passed.toNat

/-- The instruction that traces show for the activation, as long as it is saved: its own if it moves on, else the one
before. -/
def Site.shown (s : Site) : Nat := if s.passed then s.pc else s.pc - 1

theorem Site.saved_sub_one (s : Site) : s.saved - 1 = s.shown := by
  unfold shown saved
  cases s.passed <;> rfl

/-- The places of activations, by the number of frames below them. -/
abbrev Sites := Nat → Option Site

namespace Sites

variable {S : Sites} {m m' : Machine} {passed : Bool}

/-- Note the place of the running activation. -/
def put (S : Sites) (m : Machine) (passed : Bool) : Sites := fun k =>
  if k < m.frames.length then S k
  else if k = m.frames.length then m.regs.program.map fun p => ⟨p, m.regs.pc, passed⟩
  else none

def Saved (S : Sites) : List Activation → Prop
  | [] => True
  | a :: rest => (∀ s ∈ S rest.length, a.program = some s.program ∧ a.pc = s.saved) ∧ S.Saved rest

theorem Saved.suffix {bottom : List Activation} (h : S.Saved frames) (hbottom : bottom <:+ frames) :
    S.Saved bottom := by
  obtain ⟨top, rfl⟩ := hbottom
  induction top with
  | nil => exact h
  | cons a top ih => exact ih h.2

theorem Saved.above {bottom : List Activation} (h : S.Saved bottom) (hnone : ∀ k, bottom.length ≤ k → S k = none)
    (hbottom : bottom <:+ frames) : S.Saved frames := by
  obtain ⟨top, rfl⟩ := hbottom
  induction top with
  | nil => exact h
  | cons a top ih =>
    refine ⟨fun s (hs : S (top ++ bottom).length = some s) => ?_, ih⟩
    rw [hnone _ (List.suffix_append top bottom).length_le] at hs
    cases hs

theorem Saved.congr {S' : Sites} (h : S.Saved frames) (heq : ∀ k < frames.length, S' k = S k) : S'.Saved frames := by
  induction frames with
  | nil => trivial
  | cons a rest ih =>
    refine ⟨heq rest.length (Nat.lt_succ_self _) ▸ h.1, ih h.2 fun k hk => heq k ?_⟩
    exact Nat.lt_succ_of_lt hk

theorem Saved.getElem (h : S.Saved frames) {k : Nat} (hk : k < frames.length) {s : Site} (hs : S k = some s) :
    ∃ a, frames.reverse[k]? = some a ∧ a.program = some s.program ∧ a.pc = s.saved := by
  induction frames with
  | nil => cases hk
  | cons a rest ih =>
    rw [List.reverse_cons]
    by_cases hrest : k < rest.length
    · rw [List.getElem?_append_left (by simpa using hrest)]
      exact ih h.2 hrest
    · have hlast : k = rest.length := by
        rw [List.length_cons] at hk
        omega
      refine ⟨a, ?_, h.1 s (hlast ▸ hs)⟩
      simp [hlast]

/-- Notes agree with a machine.  The running activation is at the place noted for it, and about to move on or not. -/
structure Hold (S : Sites) (passed : Bool) (m : Machine) : Prop where
  saved : S.Saved m.frames
  running : ∀ s ∈ S m.frames.length, m.regs.program = some s.program ∧ m.regs.pc = s.pc ∧ s.passed = passed
  above : ∀ k, m.frames.length < k → S k = none

theorem saved_put (h : S.Saved m.frames) (passed : Bool) : (S.put m passed).Saved m.frames :=
  h.congr fun _ hk => if_pos hk

theorem hold_put (h : S.Saved m.frames) (passed : Bool) : (S.put m passed).Hold passed m := by
  refine ⟨saved_put h passed, fun s hs => ?_, fun k hk => ?_⟩
  · have hput : S.put m passed m.frames.length = m.regs.program.map fun p => ⟨p, m.regs.pc, passed⟩ := by simp [put]
    rw [hput] at hs
    obtain ⟨p, hp, rfl⟩ := Option.map_eq_some_iff.mp hs
    exact ⟨hp, rfl, rfl⟩
  · unfold put
    rw [if_neg (by omega), if_neg (by omega)]

theorem hold_above (h : S.Saved m.frames) (hnone : ∀ k, m.frames.length ≤ k → S k = none) : S.Hold passed m := by
  refine ⟨h, fun s hs => ?_, fun k hk => hnone k (Nat.le_of_lt hk)⟩
  rw [hnone _ (Nat.le_refl _)] at hs
  cases hs

namespace Hold

variable (h : S.Hold passed m)

include h

theorem push (hprogram : a.program = m.regs.program) (hpc : a.pc = m.regs.pc + passed.toNat) :
    S.Saved (a :: m.frames) := by
  refine ⟨fun s hs => ?_, h.saved⟩
  obtain ⟨hp, hc, hpassed⟩ := h.running s hs
  refine ⟨hprogram.trans hp, ?_⟩
  unfold Site.saved
  rw [hpc, hc, hpassed]

theorem saving (hprogram : a.program = m.regs.program) (hpc : a.pc = m.regs.pc + passed.toNat)
    (hsaved : a :: m.frames <:+ frames) : S.Saved frames :=
  (h.push hprogram hpc).above (fun k hk => h.above k hk) hsaved

theorem pushed {passed' : Bool} (hprogram : a.program = m.regs.program) (hpc : a.pc = m.regs.pc + passed.toNat)
    (hsaved : a :: m.frames <:+ m'.frames) : S.Hold passed' m' :=
  hold_above (h.saving hprogram hpc hsaved) fun k hk => h.above k (Nat.lt_of_lt_of_le hsaved.length_le hk)

theorem placed (hplaced : VM.Placed m m') : S.Hold passed m' := by
  have hlen : m'.frames.length = m.frames.length := by rw [hplaced.frames]
  refine ⟨hplaced.frames ▸ h.saved, fun s hs => ?_, fun k hk => h.above k (hlen ▸ hk)⟩
  rw [hplaced.program, hplaced.pc]
  exact h.running s (hlen ▸ hs)

omit h in
theorem stranded (h : S.Hold false m) (hstranded : VM.Stranded m m') : S.Hold false m' := by
  rcases hstranded.saved with ⟨hframes, hregs⟩ | hsaved
  · exact h.placed ⟨⟨hstranded.handlers, hstranded.depth, hframes, hstranded.halted⟩, by rw [hregs], by rw [hregs]⟩
  · exact h.pushed rfl rfl hsaved

end Hold

/-- A trace shows the activations for which a place is noted: those that are saved by their return address, and the
running one at a given instruction. -/
def Shows (S : Sites) (m : Machine) (pc : Nat) : Prop :=
  ∀ k, ∀ s ∈ S k,
    m.lines.reverse[k]? = some (some (m.store.lineAt s.program (if k = m.frames.length then pc else s.shown)))

theorem Saved.shows (h : S.Saved m.frames) {pc : Nat}
    (hrunning : ∀ s ∈ S m.frames.length, m.regs.program = some s.program ∧ m.regs.pc = pc)
    (habove : ∀ k, m.frames.length < k → S k = none) : S.Shows m pc := by
  intro k s hs
  have hlen : (m.frames.map fun a => a.traceFrame? m.store (a.pc - 1)).reverse.length = m.frames.length := by simp
  unfold Machine.lines
  rw [List.reverse_cons]
  rcases Nat.lt_trichotomy k m.frames.length with hlt | heq | hgt
  · obtain ⟨a, ha, hprogram, hpc⟩ := h.getElem hlt hs
    rw [List.getElem?_append_left (hlen ▸ hlt), if_neg (Nat.ne_of_lt hlt), ← List.map_reverse, List.getElem?_map, ha]
    rw [Option.map_some, a.traceFrame_of_program hprogram, hpc, s.saved_sub_one]
  · obtain ⟨hprogram, hpc⟩ := hrunning s (heq ▸ hs)
    rw [List.getElem?_append_right (by omega), hlen, heq, Nat.sub_self, if_pos rfl]
    rw [List.getElem?_cons_zero, m.regs.traceFrame_of_program hprogram, hpc]
  · rw [habove k hgt] at hs
    cases hs

theorem Hold.shows (h : S.Hold passed m) (hframes : m'.frames = m.frames) (hprogram : m'.regs.program = m.regs.program)
    (σ : Store) : S.Shows { m' with store := σ } m'.regs.pc := by
  have hlen : m'.frames.length = m.frames.length := by rw [hframes]
  have hsaved : S.Saved m'.frames := hframes ▸ h.saved
  refine Saved.shows (m := { m' with store := σ }) hsaved (fun s hs => ⟨?_, rfl⟩) fun k hk => h.above k (hlen ▸ hk)
  exact hprogram.trans (h.running s (hlen ▸ hs)).1

theorem Hold.shows_saved (h : S.Hold passed m) (hprogram : a.program = m.regs.program)
    (hpc : a.pc = m.regs.pc + passed.toNat) (hsaved : a :: m.frames <:+ m'.frames) (σ : Store) (pc : Nat) :
    S.Shows { m' with store := σ } pc := by
  have hpushed : S.Hold false { m' with store := σ } := h.pushed hprogram hpc hsaved
  refine Saved.shows hpushed.saved (fun s hs => ?_) hpushed.above
  rw [h.above _ hsaved.length_le] at hs
  cases hs

end Sites

end ScriptMachine
