import ScriptMachine.Proofs.Completion
import ScriptMachine.Proofs.OperandLists
import ScriptMachine.Proofs.Restore

/-!
# Functions that return

A function that is called by an instruction runs in the same dispatch loop as its caller, with the caller saved in a
frame below it.  In a run that keeps the discipline nothing but its return takes this frame away: until then the frames
below it stay as they are, and it stays a constructor or not.
-/

namespace ScriptMachine.VM

variable {vs : List Value} {first a b fuel : Nat} {w : Value} {m' s : Machine} {e : Entry} {m : Machine} {v : Value}
  {t : Nat} {k : Nat} {ms : Nat → Machine}

/-! ### The return instruction -/

/-- What a function yields that returns `v`, with operands `vs` below and its callee at slot `first`. -/
def yielded (constructing : Bool) (vs : List Value) (first : Nat) (v : Value) : Option Value :=
  if constructing && !v.isObject then vs[first + 1]? else some v

theorem returned_of_yielded (hstack : m.stack.Holds vs) (hw : yielded m.regs.constructing vs first v = some w) :
    returned v (first + 1) m = .ok w m := by
  unfold yielded at hw
  unfold returned
  rw [regs_bind]
  split at hw
  case isTrue h =>
    rw [if_pos h]
    exact readStack_of_ok (hstack.get hw)
  case isFalse h =>
    cases hw
    rw [if_neg h]
    rfl

/-- **A return** puts what the function yields in the place of its callee and drops what stands above. -/
theorem ret_of_holds {caller : Activation} {frames : List Activation} (hstack : m.stack.Holds (vs ++ [v]))
    (hbase : m.regs.base = some (first + 1)) (hfirst : first ≤ vs.length)
    (hw : yielded m.regs.constructing vs first v = some w) (hframes : m.frames = caller :: frames) :
    ∃ m', ret m = .ok () m' ∧ m'.frames = frames ∧ m'.regs = caller ∧ m'.stack.Holds (vs.take first ++ [w]) := by
  obtain ⟨s₁, hpop, h₁⟩ := hstack.pop
  have hpop : pop m = .ok v { m with stack := s₁ } := onStack_of_ok hpop
  have hbase : frameBase { m with stack := s₁ } = .ok (first + 1) { m with stack := s₁ } := frameBase_of_base hbase
  have hreturned : returned v (first + 1) { m with stack := s₁ } = .ok w { m with stack := s₁ } :=
    returned_of_yielded h₁ hw
  have hcut : setTop (first + 1) { m with stack := s₁ } = .ok () { m with stack := s₁.setTop (first + 1) } := rfl
  obtain ⟨x, h₂⟩ := h₁.cut hfirst
  have hlength : (vs.take first).length = first := by rw [List.length_take, Nat.min_eq_left hfirst]
  obtain ⟨s₃, hset, h₃⟩ := h₂.set (i := first) (by simp [hlength]) w
  have hset : setSlot first w { m with stack := s₁.setTop (first + 1) } = .ok () { m with stack := s₃ } :=
    writeStack_of_ok hset
  have hback : handBack m = .ok () { m with stack := s₃ } := by
    unfold handBack
    rw [bind_ok hpop, bind_ok hbase]
    dsimp only
    rw [bind_ok hreturned, bind_ok hcut, hset]
  unfold ret
  rw [bind_ok hback, leaveFrame_of_cons (m := { m with stack := s₃ }) hframes]
  refine ⟨_, rfl, rfl, rfl, ?_⟩
  rwa [List.set_append_right _ _ (Nat.le_of_eq hlength), hlength, Nat.sub_self] at h₃

/-! ### Runs -/

/-- A run of a dispatch loop that was started from `s` for an entry and keeps the discipline. -/
structure DisciplinedRun (fuel : Nat) (e : Entry) (s : Machine) (ms : Nat → Machine) (k : Nat) : Prop where
  begins : Begins e s
  start : ms 0 = nested s
  history : History (disciplinedTurn (disciplined fuel) fuel e s) ms k

/-- The running activation has been saved, to go on after the running instruction. -/
structure Suspended (m m' : Machine) : Prop where
  frames : m'.frames = m.advanced.regs :: m.frames
  handlers : m'.handlers = m.handlers
  depth : m'.depth = m.depth

/-- A function that was called in turn `a` is about to return `v` in turn `b`, with operands `vs` below: it has been
under way since, and now it is the one that runs. -/
structure Returning (ms : Nat → Machine) (a b : Nat) (vs : List Value) (v : Value) : Prop where
  later : a < b
  underWay : ∀ t, a < t → t ≤ b → (ms a).frames.length < (ms t).frames.length
  runs : (ms b).frames.length = (ms a).frames.length + 1
  next : next? (ms b) = some .ret
  operands : (ms b).stack.Holds (vs ++ [v])
  uninterrupted : ∃ m, takeInterrupt (ms b) = .ok () m

/-- A function that was called in turn `a` sets up its frame, up to turn `b`, with nothing but its arguments on top of
its base. -/
def InPlace (ms : Nat → Machine) (a b : Nat) : Prop :=
  ∀ t, a < t → t < b → (ms t).frames.length = (ms a).frames.length + 1 → (∃ i ∈ next? (ms t), i.beginsFrame = true) →
    (ms t).regs.args + 1 ≤ (ms t).stack.top → (ms t).regs.base = some ((ms t).stack.top - ((ms t).regs.args + 1))

/-- The running code has gone on after the running instruction, with these operands. -/
structure WentOn (m m' : Machine) (vs : List Value) : Prop where
  frames : m'.frames = m.frames
  regs : m'.regs = m.advanced.regs
  operands : m'.stack.Holds vs

section Taken

variable {m m₁ m₂ : Machine}

theorem Suspended.of_taken (ht : takeInterrupt m = .ok () m₁) (h : Suspended m₁ m₂) : Suspended m m₂ := by
  refine ⟨?_, h.handlers.trans (taken_handlers ht), h.depth.trans (taken_depth ht)⟩
  have hregs : m₁.advanced.regs = m.advanced.regs := by
    unfold Machine.advanced
    rw [taken_regs ht]
  rw [h.frames, hregs, taken_frames ht]

theorem WentOn.taken (ht : takeInterrupt m = .ok () m₁) (h : WentOn m m₂ vs) : WentOn m₁ m₂ vs := by
  refine ⟨h.frames.trans (taken_frames ht).symm, ?_, h.operands⟩
  rw [h.regs]
  unfold Machine.advanced
  rw [taken_regs ht]

end Taken

section Run

variable {fuel k : Nat} {e : Entry} {s : Machine} {ms : Nat → Machine} (hrun : DisciplinedRun fuel e s ms k)

include hrun

theorem DisciplinedRun.running (ht : t < k) : Running s (ms t) :=
  hrun.history.running hrun.begins.wellNested hrun.begins.bounded hrun.start ht

theorem DisciplinedRun.turn (ht : t + 1 < k) : VM.turn (disciplined fuel) fuel (ms t) = .ok () (ms (t + 1)) := by
  rcases (hrun.history.untested t (Nat.lt_of_succ_lt ht)).2 with hok | ⟨hk, _⟩
  · exact hok
  · omega

theorem DisciplinedRun.state_eq (ht : t < k) (hstep : step (disciplined fuel) fuel (ms t) = .ok () m) :
    ms (t + 1) = m := by
  have hturn := turn_of_step hstep
  rcases (hrun.history.untested t ht).2 with hok | ⟨_, f, hfault⟩
  · cases hturn.symm.trans hok
    rfl
  · cases hturn.symm.trans hfault

theorem DisciplinedRun.executed {m₁ : Machine} {i : Instruction} (ht : t < k) (htake : takeInterrupt (ms t) = .ok () m)
    (hi : next? (ms t) = some i) (hexecute : ∀ enter, execute enter fuel i m = .ok () m₁) : ms (t + 1) = m₁ :=
  hrun.state_eq ht ((step_eq (disciplined fuel) fuel htake hi).trans (hexecute _))

theorem DisciplinedRun.suffix (hab : a ≤ b) (hb : b < k) {bottom : List Activation} (hbottom : bottom <:+ (ms a).frames)
    (hlive : ∀ t, a ≤ t → t ≤ b → bottom.length ≤ (ms t).frames.length) : bottom <:+ (ms b).frames := by
  induction hab with
  | refl => exact hbottom
  | @step b hab ih =>
    have hsuffix := ih (by omega) fun t h1 h2 => hlive t h1 (Nat.le_succ_of_le h2)
    have hhost := (hrun.history.keeps (t := b) (by omega)).host
    exact (hrun.running (by omega)).suffix (nests_disciplined fuel) hrun.begins.wellNested fuel hhost hsuffix
      (hrun.turn hb) (hlive _ (Nat.le_succ_of_le hab) (Nat.le_refl _))

/-- What is known of base, kind and program of an activation stays known while the activation is under way, if its own
instructions keep it. -/
theorem DisciplinedRun.abides {P : Activation → Prop} (hP : Lasting P) {n : Nat} (hab : a ≤ b) (hb : b < k)
    (hstart : Abides P n (ms a)) (hlive : ∀ t, a ≤ t → t < b → n ≤ (ms t).frames.length)
    (hown : ∀ t, a ≤ t → t < b → (ms t).frames.length = n → step (disciplined fuel) fuel (ms t) = .ok () (ms (t + 1)) → ((∀ i ∈ next? (ms t), i.beginsFrame = false) → (ms (t + 1)).regs.base = (ms t).regs.base) → (ms (t + 1)).regs.constructing = (ms t).regs.constructing → (ms (t + 1)).regs.program = (ms t).regs.program → P (ms t).regs → P (ms (t + 1)).regs) :
    Abides P n (ms b) := by
  induction hab with
  | refl => exact hstart
  | @step b hab ih =>
    have habides := ih (by omega) (fun t h1 h2 => hlive t h1 (by omega)) fun t h1 h2 => hown t h1 (by omega)
    have hlevel := hlive b hab (Nat.lt_succ_self b)
    have hhost := (hrun.history.keeps (t := b) (by omega)).host
    exact habides.turn hP hrun.begins.wellNested (hrun.running (by omega)) (nests_disciplined fuel) hlevel hhost
      (hrun.turn hb) (hrun.history _ hb).1 (hown b hab (Nat.lt_succ_self b))

section Called

variable {a b : Nat} {vs : List Value} {v : Value} (hb : b < k) (hcall : Suspended (ms a) (ms (a + 1)))
  (hreturning : Returning ms a b vs v)

include hb hcall hreturning

theorem DisciplinedRun.abides_start {P : Activation → Prop} (hstart : P (ms (a + 1)).regs) :
    Abides P ((ms a).frames.length + 1) (ms (a + 1)) := by
  have hlength : (ms (a + 1)).frames.length = (ms a).frames.length + 1 := by rw [hcall.frames, List.length_cons]
  refine ⟨fun _ => hstart, fun own c rest hsplit hrest => ?_, fun h hh hdepth hframes => ?_⟩
  · rw [hsplit, List.length_append, List.length_cons] at hlength
    omega
  · have hlater := hreturning.later
    have hanchored := (hrun.running (t := a) (by omega)).anchored
    have hle := hanchored.below h (hcall.handlers ▸ hh) (hcall.depth ▸ hdepth)
    omega

theorem DisciplinedRun.kind_kept : (ms b).regs.constructing = (ms (a + 1)).regs.constructing := by
  have hlasting : Lasting fun r => r.constructing = (ms (a + 1)).regs.constructing := fun _ _ _ hc _ h => hc.trans h
  have hlive : ∀ t, a + 1 ≤ t → t < b → (ms a).frames.length + 1 ≤ (ms t).frames.length := fun t h1 h2 =>
    hreturning.underWay t h1 (Nat.le_of_lt h2)
  have habides := hrun.abides hlasting hreturning.later hb (hrun.abides_start hb hcall hreturning rfl) hlive
    fun t _ _ _ _ _ hkind _ h => hkind.trans h
  exact habides.running hreturning.runs

theorem DisciplinedRun.base_kept (hplace : InPlace ms a b) : (ms b).regs.base = (ms (a + 1)).regs.base := by
  have hlasting : Lasting fun r => r.base = (ms (a + 1)).regs.base := fun _ _ hbase _ _ h => hbase.trans h
  have hlive : ∀ t, a + 1 ≤ t → t < b → (ms a).frames.length + 1 ≤ (ms t).frames.length := fun t h1 h2 =>
    hreturning.underWay t h1 (Nat.le_of_lt h2)
  have habides := hrun.abides hlasting hreturning.later hb (hrun.abides_start hb hcall hreturning rfl) hlive
    fun t h1 h2 hlen hstep hplain _ _ h => by
      have hwell := (hrun.running (t := t) (by omega)).inside.wellNested hrun.begins.wellNested
      exact (base_of_step hwell (hplace t h1 h2 hlen) hstep hplain).trans h
  exact habides.running hreturning.runs

/-- When a function returns, its caller and the frames below are as they were when it was called. -/
theorem DisciplinedRun.frames_kept : (ms b).frames = (ms a).advanced.regs :: (ms a).frames := by
  have hlive : ∀ t, a + 1 ≤ t → t ≤ b → (ms (a + 1)).frames.length ≤ (ms t).frames.length := by
    rw [hcall.frames]
    exact hreturning.underWay
  have hsuffix := hrun.suffix hreturning.later hb (List.suffix_refl _) hlive
  rw [hcall.frames] at hsuffix
  exact (hsuffix.eq_of_length (by rw [hreturning.runs, List.length_cons])).symm

/-- **A function that returns lets its caller go on after the call.**  What it yields takes the place of the operands
from its callee on. -/
theorem DisciplinedRun.returns (hbase : (ms b).regs.base = some (first + 1)) (hfirst : first ≤ vs.length)
    (hw : yielded (ms (a + 1)).regs.constructing vs first v = some w) :
    WentOn (ms a) (ms (b + 1)) (vs.take first ++ [w]) := by
  obtain ⟨m, htake⟩ := hreturning.uninterrupted
  have hframes := hrun.frames_kept hb hcall hreturning
  have hoperands := hreturning.operands
  rw [← hrun.kind_kept hb hcall hreturning] at hw
  rw [← taken_frames htake] at hframes
  rw [← taken_stack htake] at hoperands
  rw [← taken_regs htake] at hbase hw
  obtain ⟨m', hret, hframes', hregs, hstack⟩ := ret_of_holds hoperands hbase hfirst hw hframes
  have hstep := (step_eq (disciplined fuel) fuel htake hreturning.next).trans hret
  rw [hrun.state_eq hb hstep]
  exact ⟨hframes', hregs, hstack⟩

end Called

end Run

/-! ### Functions called from outside the loop -/

theorem turns_of_loop {x : VM Unit} {n : Nat} (h : loop x n m = .ok () m') :
    ∃ (ms : Nat → Machine) (k : Nat), ms 0 = m ∧ ms k = m' ∧
      ∀ t < k, (ms t).halted = false ∧ x (ms t) = .ok () (ms (t + 1)) := by
  induction n generalizing m with
  | zero => cases h
  | succ n ih =>
    cases hhalted : m.halted with
    | true =>
      cases (loop_of_halted x n hhalted).symm.trans h
      exact ⟨fun _ => m', 0, rfl, rfl, fun t ht => absurd ht (Nat.not_lt_zero t)⟩
    | false =>
      obtain ⟨_, m₁, hturn, hrest⟩ := bind_eq_ok.mp ((loop_of_running x n hhalted).symm.trans h)
      obtain ⟨ms, k, rfl, hlast, hturns⟩ := ih hrest
      refine ⟨fun t => Nat.casesOn t m ms, k + 1, rfl, hlast, fun t ht => ?_⟩
      cases t with
      | zero => exact ⟨hhalted, hturn⟩
      | succ t => exact hturns t (Nat.lt_of_succ_lt_succ ht)

theorem pop_of_ret (hkind : m.regs.constructing = false) (h : ret m = .ok () m') :
    ∃ v s, m.stack.peek 0 = .ok v ∧ m'.stack.pop = .ok (v, s) := by
  obtain ⟨m₁, hback, hstack⟩ := ret_eq_ok h
  obtain ⟨v, s, first, w, s', hpop, _, hreturned, hset, rfl⟩ := handBack_eq_ok hback
  have hsame : returned v (first + 1) { m with stack := s } = .ok v { m with stack := s } := by
    have hregs : regs { m with stack := s } = .ok m.regs { m with stack := s } := rfl
    unfold returned
    rw [bind_ok hregs, hkind]
    rfl
  cases hsame.symm.trans hreturned
  obtain ⟨_, hsize, hs'⟩ := OperandStack.set_eq_ok hset
  have htop : s'.top = first + 1 := (OperandStack.top_of_set hset).trans (OperandStack.top_setTop _ _)
  have hlast : s'.slots[first]? = some v := by
    rw [hs']
    exact Array.getElem?_setIfInBounds_self_of_lt hsize
  have hpop' : s'.pop = .ok (v, { s' with slots := s'.slots.setIfInBounds first .empty, top := first }) := by
    unfold OperandStack.pop
    simp [htop, hlast]
  exact ⟨v, _, OperandStack.pop_eq_ok hpop, (congrArg OperandStack.pop hstack).trans hpop'⟩

/-- A function for which a dispatch loop was started from `s` returns `v`, in a run that keeps the discipline. -/
def Answered (fuel : Nat) (s : Machine) (v : Value) : Prop :=
  ∃ e ms k, DisciplinedRun fuel e s ms (k + 1) ∧ (ms k).frames.length = s.frames.length ∧ next? (ms k) = some .ret ∧
    (ms k).stack.peek 0 = .ok v

theorem DisciplinedRun.answered (hrun : DisciplinedRun fuel e s ms (k + 1))
    (he : e.runsProgram = false) (hkind : s.regs.constructing = false)
    (hturn : disciplinedTurn (disciplined fuel) fuel e s (ms k) = .ok () (ms (k + 1)))
    (hhalted : (ms (k + 1)).halted = true) : ∃ v st, Answered fuel s v ∧ (ms (k + 1)).stack.pop = .ok (v, st) := by
  have hs := hrun.begins.wellNested
  have hrunning := hrun.running (Nat.lt_succ_self k)
  have hstays := stays_disciplinedTurn (nests_disciplined fuel) fuel hs hrun.begins.bounded hrunning
  have hok : VM.turn (disciplined fuel) fuel (ms k) = .ok () (ms (k + 1)) :=
    (follows_check (follows_self _) _).ok_of_following hturn
  have hlen : (ms (k + 1)).frames.length < s.frames.length := by
    rw [hturn] at hstays
    rcases hstays with hgoes | hended
    · cases hgoes.halted.symm.trans hhalted
    · exact hended.length_lt hrun.begins.bounded he
  have hhost := (hrun.history.keeps (Nat.lt_succ_self k)).host
  obtain ⟨hlevel, hnext, m₁, htake, hret⟩ := hrunning.returned hs (nests_disciplined fuel) hhost hok hlen
  have hlasting : Lasting fun r => r.constructing = false := fun _ _ _ hc _ h => hc.trans h
  have habides := hrun.abides hlasting (Nat.zero_le k) (Nat.lt_succ_self k) (hrun.start ▸ abides_nested hs hkind)
    (fun t _ ht => (hrun.running (Nat.lt_succ_of_lt ht)).length_le) fun t _ _ _ _ _ hc _ h => hc.trans h
  have hplain : m₁.regs.constructing = false := by
    rw [taken_regs htake]
    exact habides.running hlevel
  obtain ⟨v, st, hpeek, hpop⟩ := pop_of_ret hplain hret
  rw [taken_stack htake] at hpeek
  exact ⟨v, st, ⟨e, ms, k, hrun, hlevel, hnext, hpeek⟩, hpop⟩

/-- **A function called from outside the loop answers what it returns.** -/
theorem answered_of_runScript {callee : ObjectId} {f : Closure} {this newTarget : Value} {args : List Value}
    (he : e.runsProgram = false) (hm : m.WellNested) (hs : enterFromOutside callee f this args newTarget m = .ok () s)
    (hkind : s.regs.constructing = false)
    (h : runScript (watchedDispatch discipline outOfFuel (disciplined fuel) fuel e) callee f this args newTarget m = .ok v m') :
    Answered fuel s v := by
  have hbegins : Begins e s := .function he hm hs
  unfold runScript at h
  rw [bind_ok hs] at h
  obtain ⟨_, m₁, hdispatch, h⟩ := bind_eq_ok.mp h
  obtain ⟨w, m₂, hpop, h⟩ := bind_eq_ok.mp h
  obtain ⟨_, m₃, _, h⟩ := bind_eq_ok.mp h
  cases h
  obtain ⟨m₀, hloop, rfl⟩ := dispatch_eq_ok hdispatch
  obtain ⟨ms, k, hfirst, hlast, hturns⟩ := turns_of_loop hloop
  have hhalted := halted_of_loop hloop
  cases k with
  | zero =>
    rw [← hlast, hfirst] at hhalted
    cases hhalted
  | succ k =>
    have hrun : DisciplinedRun fuel e s ms (k + 1) :=
      ⟨hbegins, hfirst, fun t ht => ⟨(hturns t ht).1, .inl (hturns t ht).2⟩⟩
    have hturn := (hturns k (Nat.lt_succ_self k)).2
    obtain ⟨w', st, hanswered, hpop'⟩ := hrun.answered he hkind hturn (hlast ▸ hhalted)
    obtain ⟨_, hpopped, _⟩ := onStack_eq_ok hpop
    rw [hlast] at hpop'
    cases hpopped.symm.trans hpop'
    exact hanswered

/-! ### Testing runs -/

deriving instance DecidableEq for Value, DynamicName, DynamicRead, DynamicWrite, ScopeNames,
  ScopeLayout, FunctionEntry, ParameterEntry, BodyEntry, VarBindings, GlobalBindings, FunctionTemplate, Instruction

theorem disciplinedRun_of_test (he : e.runsProgram = true) (hs : s.WellNested)
    (h : ∀ t < k, keepsBase? e s (stateAfter (disciplined fuel) fuel (nested s) t) = true ∧
      (stateAfter (disciplined fuel) fuel (nested s) t).halted = false ∧
      succeeds? (turn (disciplined fuel) fuel) (stateAfter (disciplined fuel) fuel (nested s) t) = some true) :
    DisciplinedRun fuel e s (stateAfter (disciplined fuel) fuel (nested s)) k :=
  ⟨.program he hs, rfl, history_of_test h⟩

theorem returning_of_test (hab : a < b)
    (h : (∀ t < b + 1, a < t → (ms a).frames.length < (ms t).frames.length) ∧
      (ms b).frames.length = (ms a).frames.length + 1 ∧ next? (ms b) = some .ret ∧
      (ms b).stack.toList = vs ++ [v] ∧ (ms b).stack.top = (vs ++ [v]).length ∧ (ms b).interrupt.isNone = true) :
    Returning ms a b vs v := by
  obtain ⟨hdeep, hruns, hnext, hlist, htop, hinterrupt⟩ := h
  exact ⟨hab, fun t h1 h2 => hdeep t (Nat.lt_succ_of_le h2) h1, hruns, hnext, ⟨hlist, htop⟩, ms b,
    takeInterrupt_of_none (Option.isNone_iff_eq_none.mp hinterrupt)⟩

end ScriptMachine.VM
