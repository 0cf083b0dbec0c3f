import ScriptMachine.Proofs.CallTargets

/-!
# Calls by instructions and calls from outside

A call by an instruction runs script code in the same dispatch loop as its caller and host code behind a frame of its
own; a call from outside runs script code in a loop of its own.  They agree on what is called, and with what.

Main result: `calls_agree`.
-/

namespace ScriptMachine.VM

/-! ### Host code in the running loop -/

/-- The machine as host code finds it that an instruction has called. -/
def behind (name : Text) (m : Machine) : Machine :=
  { m.advanced with
    frames := m.advanced.regs :: m.frames, regs := { m.advanced.regs with program := none, native := some name } }

section Host

variable {m m₁ : Machine} {name : Text} {body : VM Value} {v w : Value} {below rest : List Value}

theorem nativeInLoop_of_ok (hroom : HasRoom 1 m) (hbody : body (behind name m) = .ok v m₁)
    (hframes : m₁.frames = m.advanced.regs :: m.frames) :
    nativeInLoop name body m = .ok v { m₁ with regs := m.advanced.regs, frames := m.frames } := by
  have hpush := pushFrame_of_room (m := m.advanced) hroom.frames
  have henter : enterNative name { m.advanced with frames := m.advanced.regs :: m.advanced.frames } =
      .ok () (behind name m) := rfl
  unfold nativeInLoop behindNative
  rw [advance_bind, bind_ok hpush, bind_ok henter, bind_ok hbody, bind_ok (popFrame_of_cons hframes)]
  rfl

theorem finishCall_of_holds (hstack : m.stack.Holds (below ++ w :: rest)) (v : Value) :
    ∃ s, finishCall below.length v m = .ok () { m with stack := s } ∧ s.Holds (below ++ [v]) := by
  obtain ⟨s, hset, hs⟩ := hstack.set (i := below.length) (by simp) v
  have hwritten : s.Holds ((below ++ [v]) ++ rest) := by simpa using hs
  have hcut := hwritten.setTop
  rw [List.length_append] at hcut
  refine ⟨s.setTop (below.length + 1), ?_, hcut⟩
  unfold finishCall
  rw [bind_ok (setSlot_of_set hset)]
  rfl

theorem wentOn_of_host (hroom : HasRoom 1 m) (hbody : body (behind name m) = .ok v m₁)
    (hframes : m₁.frames = m.advanced.regs :: m.frames) (hstack : m₁.stack.Holds (below ++ w :: rest)) :
    ∃ m₂, (do finishCall below.length (← nativeInLoop name body) : VM Unit) m = .ok () m₂ ∧
      WentOn m m₂ (below ++ [v]) := by
  have hstack' : { m₁ with regs := m.advanced.regs, frames := m.frames }.stack.Holds
      (below ++ w :: rest) := hstack
  obtain ⟨s, hfinish, hs⟩ := finishCall_of_holds hstack' v
  rw [bind_ok (nativeInLoop_of_ok hroom hbody hframes), hfinish]
  exact ⟨_, rfl, ⟨rfl, rfl, hs⟩⟩

theorem wentOn_of_propagating {fuel : Nat} {b : Behaviour} (hroom : HasRoom 1 m) (hwell : m.WellNested)
    (hb : b.Propagates) (hbody : runHost (disciplined fuel) fuel b (behind name m) = .ok v m₁)
    (hstack : m₁.stack.Holds (below ++ w :: rest)) :
    ∃ m₂, (do finishCall below.length (← nativeInLoop name (runHost (enter fuel) fuel b)) : VM Unit) m = .ok () m₂ ∧
      WentOn m m₂ (below ++ [v]) := by
  have hfollows : Obeys following (runHost (disciplined fuel) fuel b) (runHost (enter fuel) fuel b) :=
    obeys_runHost (fun e => (follows_watched discipline fuel e).when _) fuel b
  have hkept : (behind name m).WellNested := hwell.congr rfl rfl
  have hbalanced := (balanced_runHost (nests_disciplined fuel) fuel hb).rel_of_ok hkept hbody
  exact wentOn_of_host hroom (hfollows.ok_of_following hbody) hbalanced.frames hstack

end Host

/-! ### Script code in the running loop -/

/-- When a function returns that the instruction `i` has called in `m`, the caller goes on after the call.  What was
returned stands in the place of the callee, as the base says that the function has then; this is the place above the
operands below the call, if the function has set up its frame in place and these operands are still there. -/
def ReturnsTo (fuel : Nat) (i : Instruction) (m : Machine) (below : List Value) : Prop :=
  ∀ {e : Entry} {s : Machine} {ms : Nat → Machine} {k a b : Nat} {vs : List Value} {v : Value},
    DisciplinedRun fuel e s ms k → b < k → takeInterrupt (ms a) = .ok () m → next? (ms a) = some i →
    Returning ms a b vs v →
    (∀ first ≤ vs.length, (ms b).regs.base = some (first + 1) → WentOn m (ms (b + 1)) (vs.take first ++ [v])) ∧
    (InPlace ms a b → below <+: vs → WentOn m (ms (b + 1)) (below ++ [v]))

theorem returnsTo_of_started {fuel : Nat} {i : Instruction} {m m₁ : Machine} {below args : List Value}
    {callee : ObjectId} {f : Closure} {this newTarget : Value} (hexecute : ∀ enter, execute enter fuel i m = .ok () m₁)
    (hcall : Suspended m m₁) (hstarted : Started below callee f this args newTarget false m₁) :
    ReturnsTo fuel i m below := by
  intro e s ms k a b vs v hrun hb ht hi hreturning
  exact ⟨fun first hfirst hbase => wentOn_of_started hexecute hcall hstarted hrun hb ht hi hreturning hbase hfirst rfl,
    fun hplace hbelow => wentOn_in_place hexecute hcall hstarted hrun hb ht hi hreturning hplace hbelow rfl⟩

/-! ### Agreement -/

/-- The call instruction `i` in `m` and the call `outside` in `m'` come to the same destination: with the same store,
with this receiver and with these arguments.

* A script function starts with the same frame above what is on the stack, and with the same registers.  Returning, it
  lets the caller of the instruction go on.
* Host code is run with receiver and arguments, after an instruction above the operands of the call.  Returning, it lets
  the caller of the instruction go on, if it propagates.
* All else is refused with the same fault. -/
inductive CallsAgree (fuel : Nat) (i : Instruction) (m : Machine) (below : List Value) (outside : VM Value)
    (m' : Machine) (below' : List Value) (σ : Store) (target this : Value) (args : List Value) : Destination → Prop where
  | script {o : ObjectId} {f : Closure} {m₁ m₂ : Machine} :
      target = .object o →
      (∀ enter, execute enter fuel i m = .ok () m₁) → m₁.store = σ → Suspended m m₁ →
      Started below o f (receivers f this .undefined).1 args (receivers f this .undefined).2 false m₁ →
      outside m' = guarded (enter fuel) (runScript (dispatch (turn (enter fuel) fuel) fuel) o f this args .undefined)
        { m' with store := σ } →
      enterFromOutside o f this args .undefined { m' with store := σ } = .ok () m₂ → m₂.store = σ →
      Started below' o f (receivers f this .undefined).1 args (receivers f this .undefined).2 false m₂ →
      ReturnsTo fuel i m below →
      CallsAgree fuel i m below outside m' below' σ target this args (.script o f)
  | host {name : Text} {b : Behaviour} {s : OperandStack} :
      s.Holds (below ++ this :: target :: args) →
      (∀ enter, execute enter fuel i m = (do finishCall below.length (← nativeInLoop name (runHost enter fuel b)))
        { m with store := σ, stack := s }) →
      outside m' = guarded (enter fuel) (behindNative name (runHost (enter fuel) fuel b)) { m' with store := σ } →
      (m.WellNested → b.Propagates → ∀ v w rest m₁,
        runHost (disciplined fuel) fuel b (behind name { m with store := σ, stack := s }) = .ok v m₁ →
        m₁.stack.Holds (below ++ w :: rest) →
        ∃ m₂, execute (enter fuel) fuel i m = .ok () m₂ ∧ WentOn m m₂ (below ++ [v])) →
      CallsAgree fuel i m below outside m' below' σ target this args (.host name b)
  | refused {f : Fault} {m₁ : Machine} :
      (∀ enter, execute enter fuel i m = .error (.fault f) m₁) → m₁.store = σ →
      outside m' = .error (.fault f) { m' with store := σ } →
      CallsAgree fuel i m below outside m' below' σ target this args (.refused f)

/-- **Calls by instructions and calls from outside agree.** -/
theorem calls_agree (fuel : Nat) {m m' : Machine} {below below' args : List Value} {this callee target : Value}
    {bs : List BoundFunction} (hbound : m.store.BoundTo callee bs target)
    (hstack : m.stack.Holds (below ++ this :: callee :: args)) (hroom : HasRoom 1 m) (hstore : m'.store = m.store)
    (hstack' : m'.stack.Holds below') (hroom' : HasRoom 2 m') :
    Store.Makes m.store (m.store.seenAlong callee bs) ∧
      CallsAgree fuel (.call args.length) m below (enter (fuel + bs.length + 1) (.call callee this args)) m' below'
        (m.store.seenAlong callee bs) target (boundReceiver bs this) (boundArguments bs args)
        ((m.store.seenAlong callee bs).destination target (boundReceiver bs this) (boundArguments bs args)) := by
  refine ⟨m.store.makes_seenAlong callee bs, ?_⟩
  obtain ⟨s, hs, hinside⟩ := call_of_boundTo fuel hbound hroom hstack
  have hbound' : m'.store.BoundTo callee bs target := hstore ▸ hbound
  have houtside := fun this args => enter_of_boundTo fuel hbound' this args
  simp only [hstore] at houtside
  have hroom₁ : HasRoom 1 { m with store := m.store.seenAlong callee bs, stack := s } := ⟨hroom.calls, hroom.frames⟩
  have hroom₂ : HasRoom 2 { m' with store := m.store.seenAlong callee bs } := ⟨hroom'.calls, hroom'.frames⟩
  cases hd : (m.store.seenAlong callee bs).destination target (boundReceiver bs this) (boundArguments bs args) with
  | script o f =>
    obtain rfl := Store.target_of_destination hd
    obtain ⟨m₁, henter, hstore₁, hcall, hstarted⟩ := enterScript_of_holds none hroom₁ hs
    obtain ⟨m₂, henter', hstore₂, hstarted'⟩ := enterFromOutside_of_holds o f (boundReceiver bs this)
      (boundArguments bs args) .undefined hroom₂ hstack'
    have hexecute : ∀ enter, execute enter fuel (.call args.length) m = .ok () m₁ := fun enter => by
      rw [hinside enter, hd]
      exact henter
    have hcall : Suspended m m₁ := ⟨hcall.frames, hcall.handlers, hcall.depth⟩
    refine .script rfl hexecute hstore₁ hcall hstarted ?_ henter' hstore₂ hstarted'
      (returnsTo_of_started hexecute hcall hstarted)
    rw [houtside, hd]
    exact bind_ok hroom₂.checkDepth
  | host name b =>
    refine .host hs (fun enter => ?_) ?_ fun hwell hpropagates v w rest m₁ hbody hstack₁ => ?_
    · rw [hinside enter, hd]
      rfl
    · rw [houtside, hd]
      rfl
    · obtain ⟨m₂, hfinish, hwent⟩ := wentOn_of_propagating hroom₁ (hwell.congr rfl rfl) hpropagates hbody hstack₁
      refine ⟨m₂, ?_, ⟨hwent.frames, hwent.regs, hwent.operands⟩⟩
      rw [hinside, hd]
      exact hfinish
  | refused f =>
    have hexecute : ∀ enter, execute enter fuel (.call args.length) m =
        .error (.fault f) { m with store := m.store.seenAlong callee bs, stack := s } := fun enter => by
      rw [hinside enter, hd]
      rfl
    refine .refused hexecute rfl ?_
    rw [houtside, hd]
    rfl

/-! ### A call of a bound function -/

/-- The function that is called; it returns its first argument. -/
def boundTwice : Closure := ⟨⟨⟨1⟩, Text.ofString "f", 1, false⟩, (Machine.new .default).realm.globalScope, .normal⟩

/-- A program that, with an operand below, calls a function through two bound ones. -/
def callingBound : Machine :=
  let m := withCode #[.loadConstant 1, .loadUndefined, .loadConstant 0, .loadConstant 2, .call 1, .halt]
    #[.object ⟨2⟩, .int 5, .int 3]
  let code : Program :=
    { code := #[.enterBare 0 1, .loadSlot ⟨-1, false⟩ false, .ret], constants := #[], name := Text.ofString "f"
      source := none, marks := [] }
  { m with
    store := { m.store with
      objects := #[⟨.new none, .function boundTwice⟩, ⟨.new none, .bound ⟨⟨0⟩, .int 7, [.int 2]⟩⟩,
        ⟨.new none, .bound ⟨⟨1⟩, .int 8, [.int 1]⟩⟩]
      programs := m.store.programs.push code } }

noncomputable def boundRun : Nat → Machine := stateAfter (disciplined 9) 9 (nested callingBound)

/-- The function gets the receiver of the inner bound function and the arguments of both, and its caller goes on with
what it returns. -/
theorem calls_agree_callingBound :
    (boundRun 4).store.BoundTo (.object ⟨2⟩) [⟨⟨1⟩, .int 8, [.int 1]⟩, ⟨⟨0⟩, .int 7, [.int 2]⟩] (.object ⟨0⟩) ∧
      DisciplinedRun 9 (.program ⟨0⟩) callingBound boundRun 8 ∧
      (∃ m₁, (∀ enter, execute enter 9 (.call 1) (boundRun 4) = .ok () m₁) ∧
        Started [.int 5] ⟨0⟩ boundTwice (.int 7) [.int 2, .int 1, .int 3] .undefined false m₁) ∧
      (∃ m₂, enterFromOutside ⟨0⟩ boundTwice (.int 7) [.int 2, .int 1, .int 3] .undefined callingBound = .ok () m₂ ∧
        Started [] ⟨0⟩ boundTwice (.int 7) [.int 2, .int 1, .int 3] .undefined false m₂) ∧
      WentOn (boundRun 4) (boundRun 8) [.int 5, .int 2] := by
  have hbound : (boundRun 4).store.BoundTo (.object ⟨2⟩) [⟨⟨1⟩, .int 8, [.int 1]⟩, ⟨⟨0⟩, .int 7, [.int 2]⟩]
      (.object ⟨0⟩) := .bound rfl (.bound rfl (.target rfl))
  have hrun : DisciplinedRun 9 (.program ⟨0⟩) callingBound boundRun 8 :=
    disciplinedRun_of_test rfl ((wellNested_new .default).congr rfl rfl) (by decide +kernel)
  have hstack : (boundRun 4).stack.Holds ([.int 5] ++ .undefined :: .object ⟨2⟩ :: [.int 3]) := ⟨rfl, rfl⟩
  have hreturning : Returning boundRun 4 7 [.int 5, .object ⟨0⟩, .int 7, .int 2, .int 1, .int 3] (.int 2) :=
    returning_of_test (by decide) (by decide +kernel)
  have hplace : InPlace boundRun 4 7 := by
    have hbase : ∀ t < 7, 4 < t →
        (boundRun t).regs.base = some ((boundRun t).stack.top - ((boundRun t).regs.args + 1)) := by decide +kernel
    exact fun t h4 h7 _ _ _ => hbase t h7 h4
  have hempty : callingBound.stack.Holds [] := ⟨rfl, rfl⟩
  have hsame : callingBound.store = (boundRun 4).store := rfl
  have hagree := (calls_agree 9 hbound hstack ⟨.inl rfl, .inr (by decide +kernel)⟩ hsame hempty
    ⟨.inl rfl, .inr (by decide +kernel)⟩).2
  change CallsAgree _ _ _ _ _ _ _ _ _ (.int 7) [.int 2, .int 1, .int 3] (.script ⟨0⟩ boundTwice) at hagree
  cases hagree with
  | script _ hexecute _ _ hstarted _ henter _ hstarted' hreturns =>
    refine ⟨hbound, hrun, ⟨_, hexecute, hstarted⟩, ⟨_, henter, hstarted'⟩, ?_⟩
    exact (hreturns hrun (by decide) rfl rfl hreturning).2 hplace ⟨_, rfl⟩

end ScriptMachine.VM
