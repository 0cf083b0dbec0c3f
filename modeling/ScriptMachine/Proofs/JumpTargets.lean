import ScriptMachine.Proofs.Assembling
import ScriptMachine.Proofs.Returns

/-!
# Where assembled programs lead

An instruction leads elsewhere by an offset from its own place.  A jump adds it to the place the machine is at when the
jump is made, which is that of the instruction unless a call in between has moved the machine.  A try statement works out
the places of its sections when it starts; they are entered much later, from other code.

* `VM.leaves` — what an instruction with a target does before it goes there or on (`VM.execute_make`).
* `VM.OneProgram` — an activation runs one program for life, so that of a section is that of its statement.

Main result: `Assembler.assembled_as_asked`.
-/

namespace ScriptMachine

/-- The machine with its running code at another instruction. -/
def Machine.movedTo (m : Machine) (pc : Nat) : Machine := { m with regs := { m.regs with pc } }

/-- The way to a section of a try statement. -/
def TryPart.way? : TryPart → Option Way
  | .body => none
  | .catching => some .catching
  | .finishing => some .finishing

namespace VM

open Assembler

variable {enter : Enter} {fuel : Nat} {m m' : Machine} {form : JumpForm} {j t : Nat} {p : Program}

/-! ### Offsets -/

theorem relative_eq (hj : j < 2147483648) (ht : t < 2147483648) : relative j t = (t : Int) - j := by
  unfold relative
  rw [show UInt32.size = 4294967296 from rfl]
  exact Int.bmod_eq_of_le (by omega) (by omega)

theorem jump_relative (hpc : m.regs.pc = j) (hj : j < 2147483648) (ht : t < 2147483648) :
    jump (relative j t) m = .ok () (m.movedTo t) := by
  have htarget : (m.regs.pc : Int) + relative j t = t := by
    rw [relative_eq hj ht]
    omega
  unfold jump
  rw [regs_bind, htarget]
  rfl

theorem sectionStart?_relative (hjt : j < t) (ht : t < 2147483648) : sectionStart? j (relative j t) = some t := by
  unfold sectionStart?
  rw [relative_eq (hjt.trans ht) ht, if_pos (by omega)]
  congr 1
  omega

/-! ### Jumps -/

/-- Keep the top value if a jump is taken, and pop it otherwise. -/
def keepIf (condition : Bool) : VM Bool := do
  if condition then return true
  else
    let _ ← pop
    return false

/-- Whether a jump is taken.  The operand it tests is gone, or kept. -/
def jumpTaken : JumpTest → VM Bool
  | .always => return true
  | .falsy => return !(← pop).truthy
  | .truthy => return (← pop).truthy
  | .keepTruthy => do keepIf (← peek 0).truthy
  | .keepFalsy => do keepIf (!(← peek 0).truthy)
  | .keepDefined => do keepIf (!(← peek 0).isUndefined)
  | .defined => return !(← pop).isUndefined

/-- Whether the innermost loop has gone through all keys.  If not, it has the next one. -/
def keysEnd : VM Bool := do
  match (← get).loops with
  | [] => raise (.internal .loopUnderflow)
  | ⟨value, .keys cursor⟩ :: rest =>
    match ← onStore cursor.next with
    | (some key, cursor) =>
      modify fun m => { m with loops := ⟨key.toValue, .keys cursor⟩ :: rest }
      return false
    | (none, cursor) =>
      modify fun m => { m with loops := ⟨value, .keys cursor⟩ :: rest }
      return true
  | _ => raise (.internal .cursorExpected)

/-- Whether the innermost loop has gone through all items.  If not, it has the next one. -/
def itemsEnd (enter : Enter) : VM Bool := do
  match ← stepLoop enter with
  | (_, some v, i) =>
    pushLoop ⟨v, .items i⟩
    return false
  | (value, none, i) =>
    pushLoop ⟨value, .items i⟩
    return true

/-- Whether an instruction with a target goes there. -/
def leaves (enter : Enter) : JumpForm → VM Bool
  | .jump test => jumpTaken test
  | .nextKey => keysEnd
  | .nextItem => itemsEnd enter

theorem jumpKeeping_eq (condition : Bool) (offset : Int) :
    jumpKeeping condition offset = keepIf condition >>= fun b => if b then jump offset else advance := by
  cases condition with
  | true => rfl
  | false => simp [jumpKeeping, keepIf, drop]

/-- **An instruction with a target** finds out whether to go there, and then does so or goes on. -/
theorem execute_make (enter : Enter) (fuel : Nat) (form : JumpForm) (offset : Int) :
    execute enter fuel (form.make offset) = leaves enter form >>= fun b => if b then jump offset else advance := by
  cases form with
  | jump test => cases test <;> simp only [JumpForm.make, execute, jumpOn, leaves, jumpTaken, jumpKeeping_eq, jumpIf,
      bind_assoc, pure_bind, if_true]
  | nextKey =>
    change nextKey offset = keysEnd >>= _
    unfold nextKey keysEnd
    rw [bind_assoc]
    refine bind_congr fun m => ?_
    rcases m.loops with _ | ⟨⟨value, cursor | i⟩, rest⟩
    · rfl
    · rw [bind_assoc]
      refine bind_congr fun found => ?_
      obtain ⟨_ | key, cursor⟩ := found <;> simp
    · rfl
  | nextItem =>
    change nextItem enter offset = itemsEnd enter >>= _
    unfold nextItem itemsEnd
    rw [bind_assoc]
    refine bind_congr fun found => ?_
    obtain ⟨value, _ | v, i⟩ := found <;> simp

/-- The law that the running code stays at its instruction. -/
def seated : Law :=
  .ofRel (fun _ => True) (fun m m' => m'.regs.program = m.regs.program ∧ m'.regs.pc = m.regs.pc) (fun _ => ⟨rfl, rfl⟩)
    (fun h h' => ⟨h'.1.trans h.1, h'.2.trans h.2⟩) (fun _ _ => trivial)

instance : seated.Operands := ⟨fun h hpc => ⟨h.program, hpc⟩⟩

instance : seated.Loops := ⟨fun _ _ => ⟨rfl, rfl⟩⟩

theorem seated_jumpTaken (test : JumpTest) : Heeds seated (jumpTaken test) := by
  have hkeep : ∀ b, Heeds seated (keepIf b) := fun b => by cases b <;> grind [keepIf]
  cases test with
  | always => exact obeys_pure _
  | falsy | truthy | defined => exact obeys_pop.bind fun _ => obeys_pure _
  | keepTruthy | keepFalsy | keepDefined => exact (obeys_peek 0).bind fun _ => hkeep _

theorem seated_keysEnd : Heeds seated keysEnd := by
  have hset : ∀ l, Obeys seated (modify fun m => { m with loops := l }) _ := fun l =>
    obeys_modify fun m => Law.Loops.loops m l
  refine obeys_get.bind fun m => ?_
  split
  · exact obeys_raise _
  · refine (obeys_onStore _).bind fun found => ?_
    split <;> exact (hset _).bind fun _ => obeys_pure _
  · exact obeys_raise _

theorem staying_itemsEnd (he : Nests enter) : Heeds staying.strict (itemsEnd enter) := by
  refine (obeys_stepLoop fun e he' => (he.strict e he').placed.when _).bind fun found => ?_
  split <;> exact (obeys_pushLoop _).bind fun _ => obeys_pure _

theorem place_of_leaves {b : Bool} (hitems : form = .nextItem → Nests enter ∧ m.WellNested)
    (h : leaves enter form m = .ok b m') : m'.regs.program = m.regs.program ∧ m'.regs.pc = m.regs.pc := by
  cases form with
  | jump test => exact (seated_jumpTaken test).rel_of_ok trivial h
  | nextKey => exact seated_keysEnd.rel_of_ok trivial h
  | nextItem =>
    obtain ⟨he, hm⟩ := hitems rfl
    have hplaced : Placed m m' := (staying_itemsEnd he).rel_of_ok hm h
    exact ⟨hplaced.program, hplaced.pc⟩

/-- What an instruction with a target comes to, by what it finds out. -/
def LeadsTo (t : Nat) (m : Machine) (r : EStateM.Result Abort Machine Unit) : EStateM.Result Abort Machine Bool → Prop
  | .ok taken m' =>
    m'.regs.program = m.regs.program ∧ r = .ok () (m'.movedTo (if taken then t else m.regs.pc + 1))
  | .error e m' => r = .error e m'

theorem leadsTo_of_make (hj : m.regs.pc < 2147483648) (ht : t < 2147483648)
    (hitems : form = .nextItem → Nests enter ∧ m.WellNested) :
    LeadsTo t m (execute enter fuel (form.make (relative m.regs.pc t)) m) (leaves enter form m) := by
  rw [execute_make]
  rcases h : leaves enter form m with ⟨taken, m'⟩ | ⟨e, m'⟩
  · obtain ⟨hprogram, hpc⟩ := place_of_leaves hitems h
    rw [bind_ok h]
    refine ⟨hprogram, ?_⟩
    cases taken with
    | true => exact jump_relative hpc hj ht
    | false =>
      rw [← hpc]
      rfl
  · exact bind_error h

/-! ### Activations and their programs -/

/-- Every activation of a loop that was started from `s` runs one program, and has run it wherever its registers are
saved. -/
def OneProgram (s m : Machine) : Prop :=
  ∀ n, s.frames.length ≤ n → n ≤ m.frames.length → ∃ p, Abides (·.program = p) n m

theorem lasting_program (p : Option ProgramId) : Lasting (·.program = p) := fun _ _ _ _ hprogram h => hprogram.trans h

/-- There is nothing above the running activation. -/
theorem abides_above {base n : Nat} (h : Anchored base m) (hn : m.frames.length < n) : Abides (fun _ => False) n m := by
  refine ⟨fun hlen => absurd hlen hn.ne, fun own a rest hsplit hrest => ?_, fun x hx hdepth hframes => ?_⟩
  · rw [hsplit, List.length_append, List.length_cons] at hn
    omega
  · have hle := h.below x hx hdepth
    omega

theorem OneProgram.turn {s : Machine} (h : OneProgram s m) (hs : s.WellNested) (hm : Running s m) (he : Nests enter)
    (hhost : m.store.Propagates) (ht : VM.turn enter fuel m = .ok () m') (hrunning : m'.halted = false) :
    OneProgram s m' := by
  intro n hbelow hn
  by_cases hle : n ≤ m.frames.length
  · obtain ⟨p, habides⟩ := h n hbelow hle
    have hlasts := habides.turn (lasting_program p) hs hm he hle hhost ht hrunning
    exact ⟨p, hlasts fun _ _ _ _ hprogram hp => hprogram.trans hp⟩
  · have hturn := frames_turn he fuel ⟨hm.inside.wellNested hs, hhost⟩
    rw [ht] at hturn
    cases hturn with
    | steps htake _ hstepped hframed =>
      -- the activation has just been started
      have hnone := (abides_above hm.anchored (Nat.lt_of_not_le hle)).handlers_of_stepped (fun _ _ _ _ _ => id) htake
        hstepped
      cases hframed with
      | steady hframes | halts _ _ hframes =>
        rw [hframes] at hn
        omega
      | pushes _ hframes =>
        refine ⟨m'.regs.program, fun _ => rfl, fun own a rest hsplit hrest => ?_, fun x hx hdepth hlevel => ?_⟩
        · have hlength := congrArg List.length (hframes.symm.trans hsplit)
          rw [List.length_cons, List.length_append, List.length_cons] at hlength
          omega
        · exact (hnone x hx hdepth hlevel).elim
      | pops _ hframes =>
        rw [hframes, List.length_cons] at hle
        omega
    | unwinds hdropped hsuffix _ hunwound =>
      cases hunwound with
      | catches ha | finishes ha =>
        obtain ⟨_, hback, _⟩ := hm.asked he hs hdropped hsuffix ha
        rw [hback, length_bottomOf] at hn
        omega

section Run

variable {k : Nat} {e : Entry} {s : Machine} {ms : Nat → Machine} {a b pos : Nat} {part : TryPart}

theorem DisciplinedRun.oneProgram (hrun : DisciplinedRun fuel e s ms k) (ht : t < k) : OneProgram s (ms t) := by
  have hs := hrun.begins.wellNested
  induction t with
  | zero =>
    rw [hrun.start]
    intro n hbelow hn
    obtain rfl : n = s.frames.length := Nat.le_antisymm hn hbelow
    exact ⟨s.regs.program, abides_nested hs rfl⟩
  | succ t ih =>
    have hbefore : t < k := Nat.lt_of_succ_lt ht
    exact (ih hbefore).turn hs (hrun.running hbefore) (nests_disciplined fuel) (hrun.history.keeps hbefore).host
      (hrun.turn ht) (hrun.history _ ht).1

/-! ### Sections -/

/-- Where a section of a statement starts. -/
def start? (h : Handler) : TryPart → Option Nat
  | .body => none
  | .catching => h.catchPc
  | .finishing => h.finallyPc

/-- The handler of a statement that is under way is the one it was started with, in another section. -/
theorem History.later_opened (he : ∀ e, Heeds isolating (enter e)) (h0 : (ms 0).WellNested)
    (H : History (VM.turn enter fuel) ms k) {h : Handler} (hab : a < b) (hbk : b ≤ k) (hnone : handlerAt (ms a) pos = none)
    (hlive : Alive ms pos (a + 1) b) (hh : handlerAt (ms b) pos = some h) :
    ∃ c f, next? (ms a) = some (.guard c f) ∧ Later ((ms a).opened c f) h := by
  obtain ⟨x, hx⟩ := Option.isSome_iff_exists.mp (hlive (a + 1) (Nat.le_refl _) hab)
  obtain ⟨c, f, hnext, rfl⟩ := (H.turned he h0 (by omega)).opened hnone hx
  exact ⟨c, f, hnext, H.later he h0 hbk hab hlive hx hh⟩

/-- Entering a section of a statement is to go to its start, as worked out when the statement was started. -/
theorem History.pc_of_enters (he : ∀ e, Heeds isolating (enter e)) (h0 : (ms 0).WellNested)
    (H : History (VM.turn enter fuel) ms k) (hab : a < b) (hbk : b < k) (hnone : handlerAt (ms a) pos = none)
    (hlive : Alive ms pos (a + 1) (b + 1)) (henters : Enters ms pos part b) :
    ∃ c f, next? (ms a) = some (.guard c f) ∧ start? ((ms a).opened c f) part = some (ms (b + 1)).regs.pc := by
  obtain ⟨h, h', hh, hh', hpart, hpart'⟩ := henters
  have hbefore : Alive ms pos (a + 1) b := fun t h1 h2 => hlive t h1 (by omega)
  obtain ⟨c, f, hnext, hlater⟩ := H.later_opened he h0 hab (Nat.le_of_lt hbk) hnone hbefore hh
  refine ⟨c, f, hnext, ?_⟩
  cases (H.turned he h0 hbk).moved hh hh' with
  | stays => exact absurd hpart' hpart
  | catches _ _ _ _ hcatch _ hm' =>
    rw [← hpart', hm']
    exact hlater.catchPc.symm.trans hcatch
  | completes _ _ _ _ hfinally hregs =>
    rw [← hpart', hregs]
    exact hlater.finallyPc.symm.trans hfinally
  | finishes _ _ _ hr hm' =>
    rw [← hpart', hm']
    exact hlater.finallyPc.symm.trans (Reaction.of_eq_finishing hr).2

/-- In a run that keeps the discipline, a section is entered in the program of its statement. -/
theorem DisciplinedRun.program_of_enters (hrun : DisciplinedRun fuel e s ms k) (hab : a < b) (hbk : b < k)
    (hnone : handlerAt (ms a) pos = none) (hlive : Alive ms pos (a + 1) (b + 1)) (henters : Enters ms pos part b) :
    (ms (b + 1)).regs.program = (ms a).regs.program := by
  have he := nests_disciplined fuel
  have hs := hrun.begins.wellNested
  have H := hrun.history.untested
  have hwell : (ms 0).WellNested := hrun.start ▸ (running_nested hs).inside.wellNested hs
  have hrunning := hrun.running hbk
  obtain ⟨h, h', hh, hh', hpart, hpart'⟩ := id henters
  have hbefore : Alive ms pos (a + 1) b := fun t h1 h2 => hlive t h1 (by omega)
  obtain ⟨c, f, -, hlater⟩ := H.later_opened he.isolates hwell hab (Nat.le_of_lt hbk) hnone hbefore hh
  have hentered := fun hfails => hrun.history.entered hs hrun.begins.bounded hrun.start hab hbk hnone hlive hh henters hfails
  have hfollows := follows_step (follows_watched discipline fuel) fuel
  have hback : Entered (VM.enter fuel) fuel (ms a) (ms b) (ms (b + 1)) h →
      (ms (b + 1)).regs.program = (ms a).regs.program := by
    rintro (⟨_, _, _, hrestored, _, _, hm'⟩ | ⟨_, _, _, hrestored, _, hm'⟩) <;> rw [hm'] <;>
      exact congrArg (·.program) hrestored.regs
  cases (H.turned he.isolates hwell hbk).moved hh hh' with
  | stays => exact absurd hpart' hpart
  | catches hstep => exact hback (hentered ⟨_, _, hfollows.fault_of_following hstep⟩)
  | finishes hstep => exact hback (hentered ⟨_, _, hfollows.fault_of_following hstep⟩)
  | completes _ _ howns _ _ hregs =>
    -- the activation that has ended the section is the one that started the statement
    obtain ⟨hdepth, hframes⟩ := owns_iff.mp howns
    obtain ⟨p, habides⟩ := hrun.oneProgram hbk _ hrunning.length_le (Nat.le_refl _)
    have hmem : h ∈ (ms b).handlers := List.mem_reverse.mp (List.mem_of_getElem? hh)
    have hsaved := habides.handlers h hmem hdepth hframes
    rw [hlater.snapshot] at hsaved
    rw [hregs]
    exact (habides.running rfl).trans hsaved.symm

end Run

/-! ### Running an assembled program -/

/-- The machine runs a program. -/
def Runs (m : Machine) (p : Program) : Prop := ∃ id, m.regs.program = some id ∧ m.store.program id = p

theorem Runs.next_eq (h : Runs m p) : next? m = p.code[m.regs.pc]? := by
  obtain ⟨id, hid, rfl⟩ := h
  unfold next?
  rw [hid]
  rfl

theorem Runs.loadConstant {index : Nat} {v : Value} (h : Runs m p) (hv : p.constants[index]? = some v) :
    execute enter fuel (.loadConstant index) m = .ok () { m.advanced with stack := m.stack.push v } := by
  obtain ⟨id, hid, rfl⟩ := h
  change loadConstant index m = _
  unfold loadConstant
  rw [get_bind, hid, Option.bind_some, hv]
  rfl

end VM

namespace Assembler

open VM

section Assembled

variable {a : Assembler} {before after : List Call} {call : Call} {j : Nat}
  (hsize : (a.performAll (before ++ call :: after)).code.size < 2147483648) (hj : j = (a.performAll before).code.size)

include hsize hj

/-- An instruction that was emitted with a target, or given one later, leads there. -/
theorem leads_assembled {form : JumpForm} {o : Int} {t : Nat} (h : call.emitted? (a.performAll before) = some (form.make o))
    (htarget : target? j .jump j (call :: after) = some t) (ht : t < 2147483648) {m : Machine}
    (hruns : Runs m (a.performAll (before ++ call :: after)).finish) (hpc : m.regs.pc = j) :
    next? m = some (form.make (relative j t)) ∧
      ∀ enter fuel, (form = .nextItem → Nests enter ∧ m.WellNested) →
        LeadsTo t m (execute enter fuel (form.make (relative j t)) m) (leaves enter form m) := by
  have hcode := code_assembled after h hj
  obtain ⟨hlt, _⟩ := Array.getElem?_eq_some_iff.mp hcode
  refine ⟨?_, fun enter fuel hitems => ?_⟩
  · rw [hruns.next_eq, hpc]
    refine hcode.trans ?_
    rw [JumpForm.led_make, htarget]
    rfl
  · rw [← hpc]
    exact leadsTo_of_make (hpc ▸ hlt.trans hsize) ht hitems

/-- A try statement starts with the sections that it was given. -/
theorem guard_assembled (hcall : call = .emitGuard) {m : Machine}
    (hruns : Runs m (a.performAll (before ++ call :: after)).finish) (hpc : m.regs.pc = j) :
    ∃ catchOffset finallyOffset, next? m = some (.guard catchOffset finallyOffset) ∧
      ∀ part, start? (m.opened catchOffset finallyOffset) part = part.way?.bind fun w => target? j w (j + 1) after := by
  subst hcall
  have hemitted : Call.emitted? (a.performAll before) .emitGuard = some (.guard 0 0) := rfl
  have hcode := code_assembled after hemitted hj
  have hstart : ∀ w, w ≠ .jump →
      sectionStart? m.regs.pc (((target? j w (j + 1) after).map (relative j)).getD 0) = target? j w (j + 1) after := by
    intro w hw
    have hnext : ((a.performAll before).perform .emitGuard).code.size = j + 1 := by
      rw [(effect_perform _ _).size, hj]
      rfl
    rw [performAll_append, performAll_cons] at hsize
    cases ht : target? j w (j + 1) after with
    | none => rfl
    | some t =>
      obtain ⟨hle, hle'⟩ := target?_section hw (hnext ▸ ht)
      exact hpc ▸ sectionStart?_relative (by omega) (by omega)
  refine ⟨((target? j .catching (j + 1) after).map (relative j)).getD 0,
    ((target? j .finishing (j + 1) after).map (relative j)).getD 0, ?_, fun part => ?_⟩
  · rw [hruns.next_eq, hpc]
    refine hcode.trans ?_
    simp [Instruction.led, target?, Call.aim?, Call.emits]
  · cases part with
    | body => rfl
    | catching => exact hstart .catching fun h => by cases h
    | finishing => exact hstart .finishing fun h => by cases h

end Assembled

/-- **An assembled program means what was asked for**, whatever calls it was assembled with.

* The index that a call gets for a constant loads this very value.  Two calls get the same index for equal texts or equal
  integers, and otherwise not.  No later call changes what is at an index.
* The instruction at an index is the one that was emitted there, with the offsets to the targets that were set last; a call
  changes no instruction that it is not about.
* An instruction with a target goes there whenever it does not go on to the next instruction, in the same program.  The one
  that takes a step of an iterator does so if the call of `next` is balanced.
* A try statement starts with the targets of its sections, and whenever it enters one it goes to the target.  It does so in
  its own program in every run that keeps the discipline. -/
theorem assembled_as_asked (name : Text) (source : Option SourceFile) (calls : List Call)
    (hsize : ((new name source).performAll calls).code.size < 2147483648) :
    let made := (new name source).performAll
    let p := (made calls).finish
    (∀ before call after v, calls = before ++ call :: after → call.constant? = some v →
      ∀ m, Runs m p → ∀ enter fuel,
        execute enter fuel (.loadConstant ((made before).addConstant v).1) m =
          .ok () { m.advanced with stack := m.stack.push v }) ∧
    (∀ before call between call' after v w, calls = before ++ call :: (between ++ call' :: after) →
      call.constant? = some v → call'.constant? = some w →
      (((made before).addConstant v).1 = ((made (before ++ call :: between)).addConstant w).1 ↔ SameConstants v w)) ∧
    (∀ before after, calls = before ++ after → Extends (made before).constants p.constants) ∧
    (∀ before call after i, calls = before ++ call :: after → call.emitted? (made before) = some i →
      let j := (made before).code.size
      p.code[j]? = some (i.led fun w => (target? j w j (call :: after)).map (relative j))) ∧
    (∀ before call after j i, calls = before ++ call :: after → (made before).code[j]? = some i →
      (∀ w, call.aim? (made before).code.size j w = none) → (made (before ++ [call])).code[j]? = some i) ∧
    (∀ before call after form o t, calls = before ++ call :: after →
      call.emitted? (made before) = some (JumpForm.make form o) →
      let j := (made before).code.size
      target? j .jump j (call :: after) = some t → t < 2147483648 →
      ∀ m, Runs m p → m.regs.pc = j →
        next? m = some (form.make (relative j t)) ∧
        ∀ enter fuel, (form = .nextItem → Nests enter ∧ m.WellNested) →
          LeadsTo t m (execute enter fuel (form.make (relative j t)) m) (leaves enter form m)) ∧
    (∀ before after, calls = before ++ .emitGuard :: after →
      let j := (made before).code.size
      (∀ m, Runs m p → m.regs.pc = j → ∃ catchOffset finallyOffset,
        next? m = some (.guard catchOffset finallyOffset) ∧
        ∀ part, start? (m.opened catchOffset finallyOffset) part = part.way?.bind fun w => target? j w (j + 1) after) ∧
      ∀ fuel ms k, (ms 0).WellNested → History (turn (enter fuel) fuel) ms k →
        ∀ a b pos part, a < b → b < k → Runs (ms a) p → (ms a).regs.pc = j → handlerAt (ms a) pos = none →
          Alive ms pos (a + 1) (b + 1) → Enters ms pos part b →
          (part.way?.bind fun w => target? j w (j + 1) after) = some (ms (b + 1)).regs.pc ∧
          ∀ e s, DisciplinedRun fuel e s ms k → (ms (b + 1)).regs.program = (ms a).regs.program) := by
  refine ⟨?_, ?_, ?_, ?_, ?_, ?_, ?_⟩
  · rintro before call after v rfl hv m hruns enter fuel
    exact hruns.loadConstant (serves_assembled after hv).there
  · intro before call between call' after v w _ hv _
    exact index_eq_iff (serves_assembled between hv)
  · rintro before after rfl i v hi
    rw [performAll_append]
    exact extends_performAll _ _ i v hi
  · rintro before call after i rfl hemitted
    exact code_assembled after hemitted rfl
  · intro before call after j i _ hi hnone
    exact code_unaimed hi hnone
  · rintro before call after form o t rfl hemitted j htarget ht m hruns hpc
    exact leads_assembled hsize rfl hemitted htarget ht hruns hpc
  · rintro before after rfl j
    have hguard := fun m => guard_assembled (m := m) hsize rfl rfl
    refine ⟨hguard, fun fuel ms k h0 H a b pos part hab hbk hruns hpc hnone hlive henters => ⟨?_, fun e s hrun => ?_⟩⟩
    · obtain ⟨c, f, hnext, hentered⟩ := H.pc_of_enters (obeys_enter fuel) h0 hab hbk hnone hlive henters
      obtain ⟨c', f', hnext', hstart⟩ := hguard _ hruns hpc
      cases hnext.symm.trans hnext'
      exact (hstart part).symm.trans hentered
    · exact hrun.program_of_enters hab hbk hnone hlive henters

/-! ### A run -/

/-- A jump over an instruction to a try statement, the body of which throws a text.  The catch section loads the same text
again. -/
def sampleCalls : List Call :=
  [.emitJump (.jump .always), .emit .halt, .patchJump 0, .emitGuard, .load (.text (Text.ofString "a")), .emit .raise,
    .patchCatch 2, .emit .pop, .load (.text (Text.ofString "a")), .emit .halt, .patchFinally 2, .emit .halt,
    .emit .endFinally]

def sample : Assembler := (new (Text.ofString "f") none).performAll sampleCalls

def sampleMachine : Machine :=
  let m := Machine.new .default
  { m with
    store := { m.store with programs := #[sample.finish], objects := #[] }
    regs := { m.regs with program := some ⟨0⟩ } }

noncomputable def sampleRun : Nat → Machine := stateAfter (disciplined 9) 9 (nested sampleMachine)

theorem enters_of_parts {ms : Nat → Machine} {p t : Nat} {x part : TryPart}
    (h : (handlerAt (ms t) p).map (·.part) = some x) (h' : (handlerAt (ms (t + 1)) p).map (·.part) = some part)
    (hne : x ≠ part) : Enters ms p part t := by
  obtain ⟨y, hy, rfl⟩ := Option.map_eq_some_iff.mp h
  obtain ⟨y', hy', rfl⟩ := Option.map_eq_some_iff.mp h'
  exact ⟨y, y', hy, hy', hne, rfl⟩

/-- The jump leads to the statement, and its sections are entered where they start. -/
theorem assembled_as_asked_sample :
    sample.code.size < 2147483648 ∧
      LeadsTo 2 (sampleRun 0) (execute (enter 9) 9 (.jump .always 2) (sampleRun 0)) (.ok true (sampleRun 0)) ∧
      DisciplinedRun 9 (.program ⟨0⟩) sampleMachine sampleRun 8 ∧
      ((sampleRun 4).regs.pc = 5 ∧ (sampleRun 4).regs.program = some ⟨0⟩) ∧
      (sampleRun 7).regs.pc = 8 ∧ (sampleRun 7).regs.program = some ⟨0⟩ := by
  have hsize : sample.code.size < 2147483648 := by decide +kernel
  have hasked := assembled_as_asked (Text.ofString "f") none sampleCalls hsize
  have hwell : sampleMachine.WellNested := (wellNested_new .default).congr rfl rfl
  have hrun : DisciplinedRun 9 (.program ⟨0⟩) sampleMachine sampleRun 8 :=
    disciplinedRun_of_test rfl hwell (by decide +kernel)
  have hsome : ∀ t < 8, 2 ≤ t → (handlerAt (sampleRun t) 0).isSome := by decide +kernel
  have hlive : ∀ b < 7, Alive sampleRun 0 2 (b + 1) := fun b hb t h2 h8 => hsome t (by omega) h2
  have hcatches : Enters sampleRun 0 .catching 3 :=
    enters_of_parts (x := .body) (by decide +kernel) (by decide +kernel) nofun
  have hfinishes : Enters sampleRun 0 .finishing 6 :=
    enters_of_parts (x := .catching) (by decide +kernel) (by decide +kernel) nofun
  have hruns₀ : Runs (sampleRun 0) sample.finish := ⟨⟨0⟩, rfl, rfl⟩
  have hjump := hasked.2.2.2.2.2.1 [] _ _ (.jump .always) 0 2 rfl rfl rfl (by decide) (sampleRun 0) hruns₀ rfl
  have hmoved : sampleRun 1 = (sampleRun 0).movedTo 2 :=
    hrun.executed (by decide) (takeInterrupt_of_none rfl) hjump.1 fun enter => (hjump.2 enter 9 nofun).2
  have hruns₁ : Runs (sampleRun 1) sample.finish := hmoved ▸ hruns₀
  have hprogram₁ : (sampleRun 1).regs.program = some ⟨0⟩ := congrArg (·.regs.program) hmoved
  have hpc₁ : (sampleRun 1).regs.pc = 2 := congrArg (·.regs.pc) hmoved
  have hnone : handlerAt (sampleRun 1) 0 = none := congrArg (handlerAt · 0) hmoved
  have hguard := (hasked.2.2.2.2.2.2 [.emitJump (.jump .always), .emit .halt, .patchJump 0] _ rfl).2 9 sampleRun 8
    ((running_nested hwell).inside.wellNested hwell) hrun.history.unwatched 1
  obtain ⟨hpc₄, hprogram₄⟩ :=
    hguard 3 0 .catching (by decide) (by decide) hruns₁ hpc₁ hnone (hlive 3 (by decide)) hcatches
  obtain ⟨hpc₇, hprogram₇⟩ :=
    hguard 6 0 .finishing (by decide) (by decide) hruns₁ hpc₁ hnone (hlive 6 (by decide)) hfinishes
  exact ⟨hsize, hjump.2 (enter 9) 9 nofun, hrun,
    ⟨(Option.some.inj hpc₄).symm, (hprogram₄ _ _ hrun).trans hprogram₁⟩,
    (Option.some.inj hpc₇).symm, (hprogram₇ _ _ hrun).trans hprogram₁⟩

end Assembler

end ScriptMachine
