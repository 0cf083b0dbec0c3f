import ScriptMachine.Proofs.Activations

/-!
# Bases of frames

A function that is called from outside the running loop is given a base, the place of its receiver on the operand stack.
When it returns, the top of the stack is put at the base that it has then, which is another one if the code has pushed
operands before it set up its frame.  A run keeps bases if no function does so that was called from outside.
-/

namespace ScriptMachine.VM

variable {m m' : Machine}

/-! ### The discipline about bases -/

/-- What a run does that keeps the discipline and bases, in a loop that is run for an entry and was started from `s`:
the function for which the loop is run sets up its frame with nothing but its arguments on top of its base. -/
structure KeepsBase (e : Entry) (s m : Machine) : Prop extends Keeps e s m where
  begins : e.runsProgram = false → m.frames.length = s.frames.length → (∃ i ∈ next? m, i.beginsFrame = true) →
    m.regs.args + 1 ≤ m.stack.top → m.regs.base = some (m.stack.top - (m.regs.args + 1))

/-- The discipline with bases, as something to be tested during a run. -/
def baseDiscipline : Watch where
  entry := discipline.entry
  turn := KeepsBase

/-- Entries that stop where the discipline is broken or a base is moved. -/
noncomputable def grounded : Nat → Enter := watched baseDiscipline outOfFuel

theorem follows_grounded (fuel : Nat) (e : Entry) : Obeys following (grounded fuel e) (disciplined fuel e) := by
  have hentry : ∀ e m, baseDiscipline.entry e m → discipline.entry e m := fun _ _ h => h
  have hturn : ∀ e s m, baseDiscipline.turn e s m → discipline.turn e s m := fun _ _ _ h => h.toKeeps
  exact follows_weaker hentry hturn outOfFuel fuel e

theorem Obeys.of_following {L : Law} {x y : VM α} (hy : Heeds L y) (hx : Obeys following x y) : Heeds L x := by
  refine obeys_self fun m hm => ?_
  have hallows := hy.allows hm
  rcases (hx m trivial).1 with heq | ⟨_, m', heq⟩
  · rw [heq]
    exact hallows
  · rw [heq]
    trivial

theorem nests_grounded (fuel : Nat) : Nests (grounded fuel) where
  strict e he := ((nests_disciplined fuel).strict e he).of_following (follows_grounded fuel e)
  evaluate e := ((nests_disciplined fuel).evaluate e).of_following (follows_grounded fuel e)

/-! ### Instructions -/

theorem base_of_beginFrame {args : List Value} (h : beginFrame m = .ok args m') :
    m.regs.args + 1 ≤ m.stack.top ∧ m' = { m with regs.base := some (m.stack.top - (m.regs.args + 1)) } := by
  obtain ⟨_, _, hregs, h⟩ := bind_eq_ok.mp h
  cases hregs
  obtain ⟨_, _, htop, h⟩ := bind_eq_ok.mp h
  cases htop
  split at h
  · cases h
  · rename_i hle
    obtain ⟨_, m₁, hset, h⟩ := bind_eq_ok.mp h
    cases hset
    have hsame := (obeys_slots (L := reading) _ _).rel_of_ok trivial h
    exact ⟨Nat.le_of_not_lt hle, hsame⟩

theorem onStack_eq_ok {f : OperandStack → Outcome (α × OperandStack)} {a : α} (h : onStack f m = .ok a m') :
    ∃ s, f m.stack = .ok (a, s) ∧ m' = { m with stack := s } := by
  unfold onStack at h
  split at h
  · cases h
    exact ⟨_, by assumption, rfl⟩
  · cases h

theorem pop_eq_ok {v : Value} (h : pop m = .ok v m') : ∃ s, s.top = m.stack.top - 1 ∧ m' = { m with stack := s } := by
  obtain ⟨s, hpop, hm'⟩ := onStack_eq_ok h
  exact ⟨s, OperandStack.top_of_pop hpop, hm'⟩

theorem setSlot_eq_ok {i : Nat} {v : Value} (h : setSlot i v m = .ok () m') :
    ∃ s, m.stack.set i v = .ok s ∧ m' = { m with stack := s } := by
  obtain ⟨s, hset, hm'⟩ := onStack_eq_ok (f := fun s => (s.set i v).map fun s => ((), s)) h
  cases hs : m.stack.set i v with
  | error f =>
    rw [hs] at hset
    cases hset
  | ok s' =>
    rw [hs] at hset
    cases hset
    exact ⟨s, rfl, hm'⟩

theorem frameBase_eq_ok {b : Nat} (h : frameBase m = .ok b m') : m.regs.base = some b ∧ m' = m := by
  obtain ⟨_, _, hregs, h⟩ := bind_eq_ok.mp h
  cases hregs
  cases hb : m.regs.base with
  | none =>
    rw [hb] at h
    cases h
  | some base =>
    rw [hb] at h
    cases h
    exact ⟨rfl, rfl⟩

theorem handBack_eq_ok (h : handBack m = .ok () m') :
    ∃ v s first w s', m.stack.pop = .ok (v, s) ∧ m.regs.base = some (first + 1) ∧
      returned v (first + 1) { m with stack := s } = .ok w { m with stack := s } ∧
      (s.setTop (first + 1)).set first w = .ok s' ∧ m' = { m with stack := s' } := by
  obtain ⟨v, m₁, hpop, h⟩ := bind_eq_ok.mp h
  obtain ⟨s, hpopped, rfl⟩ := onStack_eq_ok hpop
  obtain ⟨base, m₂, hframe, h⟩ := bind_eq_ok.mp h
  obtain ⟨hbase, rfl⟩ := frameBase_eq_ok hframe
  cases base with
  | zero => cases h
  | succ first =>
    obtain ⟨w, m₃, hreturned, h⟩ := bind_eq_ok.mp h
    obtain rfl : m₃ = { m with stack := s } := (obeys_returned (L := reading) _ _).rel_of_ok trivial hreturned
    obtain ⟨_, m₄, hcut, h⟩ := bind_eq_ok.mp h
    cases hcut
    obtain ⟨s', hset, hm'⟩ := setSlot_eq_ok h
    exact ⟨v, s, first, w, s', hpopped, hbase, hreturned, hset, hm'⟩

theorem ret_eq_ok (h : ret m = .ok () m') : ∃ m₁, handBack m = .ok () m₁ ∧ m'.stack = m₁.stack := by
  obtain ⟨_, m₁, hback, h⟩ := bind_eq_ok.mp h
  refine ⟨m₁, hback, ?_⟩
  cases hf : m₁.frames with
  | nil =>
    rw [leaveFrame_of_nil hf] at h
    cases h
  | cons a rest =>
    rw [leaveFrame_of_cons hf] at h
    cases h
    rfl

theorem top_of_ret {b : Nat} (hb : m.regs.base = some b) (h : ret m = .ok () m') : m'.stack.top = b := by
  obtain ⟨m₁, hback, hstack⟩ := ret_eq_ok h
  obtain ⟨v, s, first, w, s', _, hbase, _, hset, rfl⟩ := handBack_eq_ok hback
  rw [hstack]
  cases hb.symm.trans hbase
  exact (OperandStack.top_of_set hset).trans (OperandStack.top_setTop _ _)

theorem base_of_begins {enter : Enter} {fuel : Nat} {i : Instruction} (hm : m.WellNested) (hi : i.beginsFrame = true)
    (hbegins : m.regs.args + 1 ≤ m.stack.top → m.regs.base = some (m.stack.top - (m.regs.args + 1)))
    (h : execute enter fuel i m = .ok () m') : m'.regs.base = m.regs.base := by
  -- all that is done after the base is set leaves it alone
  obtain ⟨k, hexecute, hk⟩ := begins_frame (L := still) (R := still.rel) hi
  rw [hexecute] at h
  obtain ⟨args, m₁, hbegin, hrest⟩ := bind_eq_ok.mp h
  obtain ⟨hle, rfl⟩ := base_of_beginFrame hbegin
  have hbased : { m with regs.base := some (m.stack.top - (m.regs.args + 1)) }.WellNested := hm.congr rfl rfl
  exact ((hk args).obeys.rel_of_ok hbased hrest).base.trans (hbegins hle).symm

theorem base_of_step {enter : Enter} {fuel : Nat} (hm : m.WellNested)
    (hbegins : (∃ i ∈ next? m, i.beginsFrame = true) → m.regs.args + 1 ≤ m.stack.top → m.regs.base = some (m.stack.top - (m.regs.args + 1)))
    (hstep : step enter fuel m = .ok () m')
    (hplain : (∀ i ∈ next? m, i.beginsFrame = false) → m'.regs.base = m.regs.base) : m'.regs.base = m.regs.base := by
  by_cases hb : ∃ i ∈ next? m, i.beginsFrame = true
  · obtain ⟨i, hi, hb⟩ := hb
    obtain ⟨⟨⟩, m₁, ht, _⟩ := bind_eq_ok.mp hstep
    have hexecute := (step_eq enter fuel ht hi).symm.trans hstep
    have hm₁ : m₁.WellNested := hm.congr (taken_handlers ht) (taken_depth ht)
    have hbase := hbegins ⟨i, hi, hb⟩
    rw [← taken_regs ht, ← taken_stack ht] at hbase
    rw [← taken_regs ht]
    exact base_of_begins hm₁ hb hbase hexecute
  · refine hplain fun i hi => ?_
    cases hi' : i.beginsFrame with
    | false => rfl
    | true => exact absurd ⟨i, hi, hi'⟩ hb

/-! ### Loops under way -/

section Turn

variable {enter : Enter} {fuel b : Nat} {e : Entry} {s m m' : Machine} (hs : s.WellNested) (hm : Running s m)
  (hg : Abides (fun r => r.base = some b) s.frames.length m) (he : Nests enter)

include hs hm hg he

/-- **A turn that keeps bases leaves the base of the function for which the loop is run**, unless it ends the loop. -/
theorem base_of_turn (hkeeps : KeepsBase e s m) (he' : e.runsProgram = false) (ht : turn enter fuel m = .ok () m')
    (hm' : Running s m') : Abides (fun r => r.base = some b) s.frames.length m' := by
  have hlasting : Lasting fun r => r.base = some b := fun _ _ hbase _ _ h => hbase.trans h
  refine hg.turn hlasting hs hm he hm.length_le hkeeps.host ht hm'.halted fun hlen hstep hplain _ _ hb => ?_
  exact (base_of_step (hm.inside.wellNested hs) (hkeeps.begins he' hlen) hstep hplain).trans hb

theorem top_of_returned (hhost : m.store.Propagates) (ht : turn enter fuel m = .ok () m')
    (hlen : m'.frames.length < s.frames.length) : m'.stack.top = b := by
  obtain ⟨hrunning, _, m₁, htake, hret⟩ := hm.returned hs he hhost ht hlen
  refine top_of_ret ?_ hret
  rw [taken_regs htake]
  exact hg.running hrunning

end Turn

section Dispatch

variable {enter : Enter} (he : Nests enter) {fuel b : Nat} {e : Entry} {s : Machine} (hs : s.WellNested)
  (hbound : Bounded e s) (he' : e.runsProgram = false)

include he hs hbound he'

theorem top_of_loop {n : Nat} (hm : Running s m) (hg : Abides (fun r => r.base = some b) s.frames.length m)
    (h : loop (do check (KeepsBase e s) outOfFuel; turn enter fuel) n m = .ok () m') : m'.stack.top = b := by
  induction n generalizing m with
  | zero => cases h
  | succ n ih =>
    rw [loop_of_running _ n hm.halted] at h
    obtain ⟨_, m₁, hturn, hrest⟩ := bind_eq_ok.mp h
    obtain ⟨hkeeps, hturn⟩ := passed_of_check hturn nofun
    have hstays := stays_turn he hs fuel hm hbound hkeeps.toKeeps
    rw [hturn] at hstays
    rcases hstays with hrunning | hended
    · exact ih hrunning (base_of_turn hs hm hg he hkeeps he' hturn hrunning) hrest
    · -- the loop is left at once
      cases n with
      | zero => cases hrest
      | succ n =>
        cases (loop_of_halted _ n hended.halted).symm.trans hrest
        exact top_of_returned hs hm hg he hkeeps.host hturn (hended.length_lt hbound he')

/-- **A function that is called from outside and keeps its base leaves the top of the stack there.** -/
theorem top_of_dispatch (hb : s.regs.base = some b)
    (h : watchedDispatch baseDiscipline outOfFuel enter fuel e s = .ok () m') : m'.stack.top = b := by
  obtain ⟨m, hloop, rfl⟩ := dispatch_eq_ok h
  show m.stack.top = b
  exact top_of_loop he hs hbound he' (running_nested hs) (abides_nested hs hb) hloop

end Dispatch

/-! ### Testing bases -/

/-- Whether all that can be called is code of scripts. -/
def onlyScripts? (m : Machine) : Bool :=
  m.store.objects.all fun x =>
    match x.callee? with
    | some (.native _) | some (.proxy _ _) => false
    | _ => true

/-- Whether a turn keeps the discipline and bases, in a machine without host code. -/
def keepsBase? (e : Entry) (s m : Machine) : Bool :=
  onlyScripts? m && match next? m with
    | some .halt => m.handlers.any (owns m) || e.runsProgram && m.frames.length == s.frames.length
    | some .ret => !e.runsProgram || m.frames.length != s.frames.length
    | some i =>
      !i.beginsFrame || e.runsProgram || m.frames.length != s.frames.length ||
        m.regs.base == some (m.stack.top - (m.regs.args + 1))
    | none => true

def baseTest : Test where
  entry _ := onlyScripts?
  turn := keepsBase?

theorem propagates_of_onlyScripts (h : onlyScripts? m = true) : m.store.Propagates := by
  refine Store.propagates_of fun x hmem callee hcallee => ?_
  have hx := Array.all_eq_true_iff_forall_mem.mp h x hmem
  rw [Option.mem_def.mp hcallee] at hx
  cases callee with
  | native | proxy => cases hx
  | script | bound => trivial

theorem keepsBase_of_test {e : Entry} {s : Machine} (h : keepsBase? e s m = true) : KeepsBase e s m := by
  obtain ⟨hscripts, h⟩ := Bool.and_eq_true_iff.mp h
  have hhost := propagates_of_onlyScripts hscripts
  refine ⟨⟨fun hi => ?_, fun hi hrun => ?_, hhost⟩, fun hrun hlen ⟨i, hi, hbegins⟩ _ => ?_⟩ <;> rw [hi] at h
  · simpa using h
  · simpa [hrun] using h
  · split at h
    case h_1 heq | h_2 heq =>
      cases heq
      cases hbegins
    case h_3 heq =>
      cases heq
      simpa [hbegins, hrun, hlen] using h
    case h_4 => contradiction

theorem follows_baseTest (fuel : Nat) (e : Entry) : Obeys following (tested baseTest fuel e) (grounded fuel e) :=
  follows_tested (fun _ _ h => propagates_of_onlyScripts h) (fun _ _ _ h => keepsBase_of_test h) fuel e

theorem grounded_of_test (fuel : Nat) (e : Entry) (m : Machine) (h : ended? (tested baseTest fuel e m) = true) :
    grounded fuel e m = enter fuel e m ∧ ∃ m', Ends (enter fuel e) m m' := by
  have hgrounded := (follows_baseTest fuel e).eq_of_ended h
  rw [← hgrounded] at h
  have henter : enter fuel e m = grounded fuel e m := (follows_watched baseDiscipline fuel e).eq_of_ended h
  rw [← henter] at h
  exact ⟨henter.symm, exists_of_ended h⟩

end ScriptMachine.VM
