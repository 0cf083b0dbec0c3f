import ScriptMachine.Proofs.Discipline

/-!
# Frames

What instructions do to the saved frames, if nested entries are balanced and host code propagates.

* `Moves` — a call leaves frames alone or pushes one; where the caller is if the call fails, `Stops` says.
* `Framed` — a step leaves frames alone, pushes one, pops one, or ends the loop, and only some instructions move the
  base of the running activation; `frames_step` says that every step that succeeds is one of these, and that one that
  fails leaves frames behind at most, with the activation that was running at its instruction or saved (`Stopped`).
-/

namespace ScriptMachine

variable {o : ObjectId} {n : Nat} {passed : Bool} {r : EStateM.Result Abort Machine Unit} {m m₁ m' : Machine}
  {f : Fault}

/-! ### Host code in the store -/

theorem Object.callee_eq (x : Object) : x.callee? = x.settled.kind.callee? := rfl

theorem Object.callee_settled (x : Object) : x.settled.callee? = x.callee? := by
  rw [callee_eq, settled_settled, callee_eq]

namespace Store

theorem Makes.callee {σ σ' : Store} (h : Makes σ σ') (o : ObjectId) : (σ'.object o).callee? = (σ.object o).callee? := by
  rcases h.objects o with ho | ho <;> rw [ho]
  exact Object.callee_settled _

/-- The store after the callee that a value is has been looked at. -/
def seen (σ : Store) : Value → Store
  | .object o => ((made o).run σ).2
  | _ => σ

theorem callee_seen (σ : Store) (v : Value) (o : ObjectId) : ((σ.seen v).object o).callee? = (σ.object o).callee? := by
  cases v with
  | object o' => exact (reads_made o' σ).1.callee o
  | _ => rfl

/-- The script function that `new` of a value starts in the running loop. -/
def constructor? (σ : Store) : Value → Option Closure
  | .object o =>
    match (σ.object o).callee? with
    | some (.script f) => if f.kind.isNormal then some f else none
    | _ => none
  | _ => none

end Store

namespace VM

theorem calleeOf_object (o : ObjectId) (m : Machine) :
    calleeOf (.object o) m = match (m.store.object o).callee? with
      | some callee => .ok (o, callee) { m with store := m.store.seen (.object o) }
      | none => .error (.fault (.type (.notFunction ((m.store.seen (.object o)).display (.object o)))))
          { m with store := m.store.seen (.object o) } := by
  have hmade : onStore (Store.made o) m =
      .ok ((Store.made o).run m.store).1 { m with store := m.store.seen (.object o) } := rfl
  unfold calleeOf
  dsimp only
  rw [bind_ok hmade, Store.run_made, ← Object.callee_eq]
  cases (m.store.object o).callee? <;> rfl

theorem calleeOf_of_some {callee : Callee} (h : (m.store.object o).callee? = some callee) :
    calleeOf (.object o) m = .ok (o, callee) { m with store := m.store.seen (.object o) } := by
  rw [calleeOf_object, h]

theorem calleeOf_of_none (h : (m.store.object o).callee? = none) :
    calleeOf (.object o) m =
      .error (.fault (.type (.notFunction ((m.store.seen (.object o)).display (.object o)))))
        { m with store := m.store.seen (.object o) } := by
  rw [calleeOf_object, h]

theorem calleeOf_spec (v : Value) (m : Machine) :
    ∃ σ, m.store.Persists σ ∧ (m.store.Propagates → σ.Propagates) ∧
      ((∃ o callee, calleeOf v m = .ok (o, callee) { m with store := σ } ∧
          (m.store.Propagates → callee.Propagates)) ∨
        ∃ f, calleeOf v m = .error (.fault f) { m with store := σ }) := by
  cases v with
  | object o =>
    refine ⟨_, Store.persists_run (Store.made o) m.store,
      fun hm o' callee hc => hm o' callee (m.store.callee_seen (.object o) o' ▸ hc), ?_⟩
    cases hcallee : (m.store.object o).callee? with
    | none => exact .inr ⟨_, calleeOf_of_none hcallee⟩
    | some callee => exact .inl ⟨o, callee, calleeOf_of_some hcallee, fun hm => hm o callee hcallee⟩
  | unresolved name member => cases member <;> exact ⟨m.store, .refl _, id, .inr ⟨_, rfl⟩⟩
  | _ => exact ⟨m.store, .refl _, id, .inr ⟨_, rfl⟩⟩

/-! ### Handing over -/

/-- Whether the callee of a call with `n` arguments is the function of the realm that evaluates source text. -/
def callsEval (m : Machine) (n : Nat) : Bool :=
  match m.stack.peek n with
  | .ok (.object o) => o = m.realm.eval
  | _ => false

/-- Whether the callee of a construction with `n` arguments is a script function that can construct. -/
def constructsScript (m : Machine) (n : Nat) : Bool :=
  match m.stack.peek n with
  | .ok v => (m.store.constructor? v).isSome
  | .error _ => false

/-- Whether the number of arguments above the innermost marker meets a condition. -/
def counted (fixed : Nat) (p : Nat → Bool) (m : Machine) : Bool :=
  match variadicCount fixed m with
  | .ok n _ => p n
  | .error _ _ => false

/-- Whether the next instruction hands over to its callee in the running loop, so that the caller is saved with the place
of the instruction after it.  All other instructions leave calls to nested entries. -/
def handsOver (m : Machine) : Bool :=
  match next? m with
  | some (.call _) | some .callVariadic => true
  | some (.callEval n _) => !callsEval m n
  | some (.callEvalVariadic _) => counted 2 (fun n => !callsEval m n) m
  | some (.construct n) => constructsScript m n
  | some .constructVariadic => counted 1 (constructsScript m) m
  | _ => false

theorem slot_spec (i : Nat) (m : Machine) :
    (∃ v, m.stack.get i = .ok v ∧ slot i m = .ok v m) ∨ ∃ f, slot i m = .error (.fault f) m := by
  have hslot : slot i m = ofOutcome (m.stack.get i) m := rfl
  rw [hslot]
  cases m.stack.get i with
  | ok v => exact .inl ⟨v, rfl, rfl⟩
  | error f => exact .inr ⟨f, rfl⟩

theorem callBase_spec (n : Nat) (m : Machine) :
    (¬ m.stack.top < n + 2 ∧ callBase n m = .ok (m.stack.top - (n + 2)) m) ∨
      ∃ f, callBase n m = .error (.fault f) m := by
  unfold callBase
  by_cases hfew : m.stack.top < n + 2
  · exact .inr ⟨_, congrFun (if_pos hfew) m⟩
  · exact .inl ⟨hfew, congrFun (if_neg hfew) m⟩

theorem variadicCount_spec (fixed : Nat) (m : Machine) :
    (∃ n, variadicCount fixed m = .ok n m) ∨ ∃ f, variadicCount fixed m = .error (.fault f) m := by
  unfold variadicCount
  rw [get_bind]
  generalize m.stack.toList.reverse.findIdx? _ = found
  cases found with
  | none => exact .inr ⟨_, rfl⟩
  | some count =>
    by_cases hfew : count < fixed
    · exact .inr ⟨_, congrFun (if_pos hfew) m⟩
    · exact .inl ⟨_, congrFun (if_neg hfew) m⟩

theorem counted_congr (h : m₁.stack = m.stack) (fixed : Nat) (p : Nat → Bool) :
    counted fixed p m₁ = counted fixed p m := by
  unfold counted variadicCount
  rw [get_bind, get_bind, h]
  generalize m.stack.toList.reverse.findIdx? _ = found
  cases found with
  | none => rfl
  | some count => by_cases hfew : count < fixed <;> simp only [hfew, if_true, if_false] <;> rfl

theorem counted_of_ok {fixed : Nat} (h : variadicCount fixed m = .ok n m₁) (p : Nat → Bool) :
    counted fixed p m = p n := by
  unfold counted
  rw [h]

theorem callsEval_of_get (hoperands : ¬ m.stack.top < n + 2)
    (h : m.stack.get (m.stack.top - (n + 2) + 1) = .ok (.object o)) : callsEval m n = decide (o = m.realm.eval) := by
  have hpeek : m.stack.peek n = .ok (.object o) := by
    unfold OperandStack.peek
    rw [if_neg (by omega), ← h]
    congr 1
    omega
  unfold callsEval
  rw [hpeek]

variable {v : Value} {P : Machine → Prop} {x : VM Value}

theorem constructsScript_of_get (hoperands : ¬ m.stack.top < n + 1)
    (h : m.stack.get (m.stack.top - (n + 1)) = .ok v) : constructsScript m n = (m.store.constructor? v).isSome := by
  unfold constructsScript OperandStack.peek
  rw [if_neg hoperands, h]

theorem scriptConstructor_eq (v : Value) (m : Machine) :
    scriptConstructor? v m = .ok (m.store.constructor? v) { m with store := m.store.seen v } := by
  unfold scriptConstructor?
  cases v with
  | object o =>
    cases hcallee : (m.store.object o).callee? with
    | none =>
      rw [bind_ok (attempt_fault (calleeOf_of_none hcallee))]
      simp only [Store.constructor?, hcallee]
      rfl
    | some callee =>
      rw [bind_ok (attempt_ok (calleeOf_of_some hcallee))]
      simp only [Store.constructor?, hcallee]
      cases callee <;> rfl
  | unresolved name member => cases member <;> rfl
  | _ => rfl

/-! ### Calls in the running loop -/

/-- Frames are the same. -/
structure Steady (m m' : Machine) : Prop where
  handlers : m'.handlers = m.handlers := by rfl
  depth : m'.depth = m.depth := by rfl
  frames : m'.frames = m.frames := by rfl
  halted : m.halted = false → m'.halted = false := by exact id

theorem Steady.deepened (h : Steady m m') : Deepened m m' :=
  ⟨h.handlers, h.depth, h.frames ▸ List.suffix_refl _, h.halted⟩

theorem SameControl.steady (h : SameControl m m') : Steady m m' :=
  ⟨h.handlers, h.depth, h.frames, fun hm => h.halted.trans hm⟩

theorem Steady.trans {m₂ : Machine} (h : Steady m m₁) (h' : Steady m₁ m₂) : Steady m m₂ :=
  ⟨h'.handlers.trans h.handlers, h'.depth.trans h.depth, h'.frames.trans h.frames, h'.halted ∘ h.halted⟩

/-- A law that frames and more stay the same, and that a failure leaves frames behind at most. -/
def deepening (rel : Machine → Machine → Prop) (refl : ∀ m, rel m m)
    (trans : ∀ {a b c}, rel a b → rel b c → rel a c) (steady : ∀ {a b}, rel a b → Steady a b) : Law where
  pre := Machine.WellNested
  rel; fail := Deepened; stops := fun _ => False; refl; trans
  keeps hm h := hm.congr (steady h).handlers (steady h).depth
  weaken h := (steady h).deepened
  trans_fail h h' := (steady h).deepened.trans h'

/-- The law that frames stay the same. -/
def steady : Law := deepening Steady (fun _ => {}) .trans id

instance : steady.Control := ⟨fun h _ => h.steady⟩

theorem steady_modifyRegs (f : Activation → Activation) : Heeds steady (modifyRegs f) :=
  obeys_modify fun _ => ⟨rfl, rfl, rfl, id⟩

theorem Balanced.steady (h : Balanced m m') : Steady m m' := ⟨h.handlers, h.depth, h.frames, h.halted⟩

theorem Obeys.steady {x y : VM α} (h : Obeys balanced x y) : Obeys steady x y :=
  h.mono id (fun _ => Balanced.steady) (fun _ => Stranded.toDeepened) id

/-- Frames are the same, and the running activation runs the same program and is a constructor's or not as before. -/
structure Firm (m m' : Machine) : Prop extends Steady m m' where
  constructing : m'.regs.constructing = m.regs.constructing := by rfl
  program : m'.regs.program = m.regs.program := by rfl

theorem SameControl.firm (h : SameControl m m') : Firm m m' := ⟨h.steady, h.constructing, h.program⟩

theorem Balanced.firm (h : Balanced m m') : Firm m m' := ⟨h.steady, by rw [h.regs], by rw [h.regs]⟩

theorem Firm.trans {m₂ : Machine} (h : Firm m m₁) (h' : Firm m₁ m₂) : Firm m m₂ :=
  ⟨h.toSteady.trans h'.toSteady, h'.constructing.trans h.constructing, h'.program.trans h.program⟩

/-- The law that frames and the kind and program of the running activation stay the same. -/
def firm : Law := deepening Firm (fun _ => {}) .trans Firm.toSteady

instance : firm.Control := ⟨fun h _ => h.firm⟩

instance : firm.Declares := ⟨fun _ _ _ _ _ _ => {}⟩

theorem Obeys.unmoved {x y : VM α} (h : Obeys balanced.strict x y) : Obeys VM.firm.strict x y :=
  h.mono id (fun _ => Balanced.firm) (fun _ => Balanced.firm) id

/-- Frames are the same, and the running activation is of the same kind and has not moved its base. -/
structure Still (m m' : Machine) : Prop extends Firm m m' where
  base : m'.regs.base = m.regs.base := by rfl

/-- The law that frames and the base stay the same. -/
def still : Law := deepening Still (fun _ => {}) (fun h h' => ⟨h.toFirm.trans h'.toFirm, h'.base.trans h.base⟩) (·.toSteady)

theorem Balanced.still (h : Balanced m m') : Still m m' := ⟨h.firm, by rw [h.regs]⟩

instance : still.Quiet := ⟨fun h => ⟨h.firm, h.base⟩⟩

instance : still.Declares := ⟨fun _ _ _ _ _ _ => {}⟩

instance : still.Aside := ⟨fun h => h.balanced.still⟩

theorem Obeys.still {x y : VM α} (h : Obeys balanced x y) : Obeys still x y :=
  h.mono id (fun _ => Balanced.still) (fun _ => Stranded.toDeepened) id

theorem Obeys.fixed {x y : VM α} (h : Obeys balanced.strict x y) : Obeys VM.still.strict x y :=
  h.mono id (fun _ => Balanced.still) (fun _ => Balanced.still) id

/-- The running activation is at the same instruction. -/
structure Placed (m m' : Machine) : Prop extends Steady m m' where
  program : m'.regs.program = m.regs.program := by rfl
  pc : m'.regs.pc = m.regs.pc := by rfl

theorem Placed.trans {m₂ : Machine} (h : Placed m m₁) (h' : Placed m₁ m₂) : Placed m m₂ :=
  ⟨h.toSteady.trans h'.toSteady, h'.program.trans h.program, h'.pc.trans h.pc⟩

theorem Balanced.placed (h : Balanced m m') : Placed m m' := ⟨h.steady, by rw [h.regs], by rw [h.regs]⟩

/-- The law that the running activation stays at its instruction, and that after a failure it does so or is saved there. -/
def staying : Law where
  pre := Machine.WellNested
  rel := Placed
  fail m m' := Placed m m' ∨ ∃ a, a.program = m.regs.program ∧ a.pc = m.regs.pc ∧ a :: m.frames <:+ m'.frames
  stops _ := False
  refl _ := {}
  trans := .trans
  keeps hm h := steady.keeps hm h.toSteady
  weaken := .inl
  trans_fail h h' := by
    rcases h' with h' | ⟨a, hprogram, hpc, hsaved⟩
    · exact .inl (h.trans h')
    · exact .inr ⟨a, hprogram.trans h.program, hpc.trans h.pc, h.frames ▸ hsaved⟩

theorem SameControl.placed (h : SameControl m m') (hpc : m'.regs.pc = m.regs.pc) : Placed m m' :=
  ⟨h.steady, h.program, hpc⟩

instance : staying.Exact := ⟨fun _ => id⟩

instance : staying.Operands := ⟨fun h hpc => h.placed hpc⟩

instance : staying.Base := ⟨fun _ _ => {}⟩

instance : staying.Declares := ⟨fun _ _ _ _ _ _ => {}⟩

instance : staying.Aside := ⟨fun h => h.balanced.placed⟩

theorem Obeys.staying {x y : VM α} (h : Obeys balanced x y) : Obeys staying x y := by
  refine h.mono id (fun _ => Balanced.placed) (fun _ h => ?_) id
  rcases h.saved with ⟨hframes, hregs⟩ | hsaved
  · exact .inl ⟨⟨h.handlers, h.depth, hframes, h.halted⟩, by rw [hregs], by rw [hregs]⟩
  · exact .inr ⟨_, rfl, rfl, hsaved⟩

theorem Obeys.placed {x y : VM α} (h : Obeys balanced.strict x y) : Obeys VM.staying.strict x y :=
  h.mono id (fun _ => Balanced.placed) (fun _ => Balanced.placed) id

/-- A frame has been pushed for the running code, which will go on after its instruction. -/
structure Pushed (m m' : Machine) : Prop where
  handlers : m'.handlers = m.handlers
  depth : m'.depth = m.depth
  frames : ∃ a, (a.program = m.regs.program ∧ a.pc = m.regs.pc + 1) ∧
    (a.base = m.regs.base ∧ a.constructing = m.regs.constructing) ∧ m'.frames = a :: m.frames
  halted : m.halted = false → m'.halted = false

/-- Where the activation that runs in `m` is in `m'`, after an instruction of it has failed with `f`.  Given is whether the
instruction moves on before it saves the activation. -/
inductive Stops (passed : Bool) (f : Fault) (m m' : Machine) : Prop where
  /-- It runs, and is at the instruction. -/
  | running : m'.frames = m.frames → m'.regs.program = m.regs.program → m'.regs.pc = m.regs.pc → Stops passed f m m'
  /-- It runs, and has moved on: there was no room for the frame of host code, or no place for the result. -/
  | past :
      passed = true → m'.frames = m.frames → m'.regs.program = m.regs.program → m'.regs.pc = m.regs.pc + 1 →
      (f = .range .callDepth ∧ m'.limits.maxFrames ≠ 0 ∧ m'.limits.maxFrames ≤ m'.frames.length + 1) ∨
        (∃ i, f = .internal i) →
      Stops passed f m m'
  | saved {a : Activation} :
      a.program = m.regs.program → a.pc = m.regs.pc + passed.toNat → a :: m.frames <:+ m'.frames → Stops passed f m m'

theorem stops_of_staying {x y : VM α} (h : Lands staying (fun _ _ => True) x y)
    (hm : m.WellNested) (hfails : x m = .error (.fault f) m') : Stops false f m m' := by
  have hadmits := (h m hm).2
  rw [hfails] at hadmits
  rcases hadmits with hplaced | ⟨a, hprogram, hpc, hsaved⟩
  · exact .running hplaced.frames hplaced.program hplaced.pc
  · exact .saved hprogram hpc hsaved

/-- What a call may end with that is executed in the running loop. -/
def Moves (passed : Bool) (m : Machine) : EStateM.Result Abort Machine Unit → Prop
  | .ok _ m' => Still m m' ∨ passed = true ∧ Pushed m m'
  | .error (.fault f) m' => Deepened m m' ∧ Stops passed f m m'
  | .error .outOfFuel _ => True

theorem moves_of_still (h : still.Allows m r) (hstops : ∀ f m', r = .error (.fault f) m' → Stops passed f m m') :
    Moves passed m r := by
  rcases r with _ | ⟨_ | _, _⟩
  · exact .inl h
  · exact ⟨h, hstops _ _ rfl⟩
  · trivial

/-- What is done when something nested is over. -/
theorem moves_nested {k : Value → VM Unit} (hx : Heeds balanced x) (hstill : ∀ v, Heeds still (k v))
    (hlands : ∀ v, Arrives staying (fun _ _ => True) (k v)) (hm : m.WellNested) : Moves false m ((x >>= k) m) := by
  refine moves_of_still ((hx.still.bind hstill).allows hm) fun f m' hfails => ?_
  exact stops_of_staying (hx.staying.lands hlands) hm hfails

/-- Control, the base and the place of the running code are the same. -/
structure Prepared (m m' : Machine) : Prop extends SameControl m m' where
  base : m'.regs.base = m.regs.base := by rfl
  pc : m'.regs.pc = m.regs.pc := by rfl

theorem Prepared.stored {store : Store} {stack : OperandStack} : Prepared m { m with store, stack } := {}

theorem Prepared.still (h : Prepared m m') : Still m m' := ⟨h.firm, h.base⟩

theorem Prepared.stops (h : Prepared m m') (passed : Bool) (f : Fault) : Stops passed f m m' :=
  .running h.frames h.program h.pc

theorem Stops.after (h : Stops passed f m₁ m') (hsame : Prepared m m₁) : Stops passed f m m' := by
  have hframes := hsame.frames
  have hprogram := hsame.program
  have hpc := hsame.pc
  cases h with
  | running hf hp hc => exact .running (hf.trans hframes) (hp.trans hprogram) (hc.trans hpc)
  | past hpassed hf hp hc hwhy =>
    exact .past hpassed (hf.trans hframes) (hp.trans hprogram) (hc.trans (by rw [hpc])) hwhy
  | saved hp hc hs => exact .saved (hp.trans hprogram) (hc.trans (by rw [hpc])) (hframes ▸ hs)

theorem Moves.after (h : Moves passed m₁ r) (hsame : Prepared m m₁) : Moves passed m r := by
  have hdeep : Deepened m m₁ := hsame.steady.deepened
  rcases r with ⟨_, m'⟩ | ⟨_ | _, m'⟩
  · rcases h with h | ⟨hpassed, h⟩
    · exact .inl (still.trans hsame.still h)
    · obtain ⟨a, hplace, hbase, hframes⟩ := h.frames
      exact .inr ⟨hpassed, h.handlers.trans hsame.handlers, h.depth.trans hsame.depth,
        ⟨a, ⟨hplace.1.trans hsame.program, hplace.2.trans (by rw [hsame.pc])⟩,
          ⟨hbase.1.trans hsame.base, hbase.2.trans hsame.constructing⟩, by rw [hframes, hsame.frames]⟩,
        h.halted ∘ hsame.steady.halted⟩
  · exact ⟨hdeep.trans h.1, h.2.after hsame⟩
  · trivial

/-- The law that control, the base and the place stay as they are, and that a condition once met stays met. -/
def preparing (P : Machine → Prop) : Law :=
  .ofRel P (fun m m' => Prepared m m' ∧ (P m → P m')) (fun _ => ⟨{}, id⟩)
    (fun h h' => ⟨⟨controlling.trans h.1.toSameControl h'.1.toSameControl, h'.1.base.trans h.1.base,
      h'.1.pc.trans h.1.pc⟩, h'.2 ∘ h.2⟩)
    (fun hm h => h.2 hm)

instance : (preparing fun _ => True).Operands := ⟨fun h hpc => ⟨⟨h.toSameControl, h.base, hpc⟩, id⟩⟩

instance : (preparing Machine.WellNested).Operands :=
  ⟨fun h hpc => ⟨⟨h.toSameControl, h.base, hpc⟩, fun hm => hm.congr h.handlers h.depth⟩⟩

/-- What is known before a call: handlers are well nested and host code propagates. -/
def Calling (m : Machine) : Prop := m.WellNested ∧ m.store.Propagates

theorem preparing_onStack (f : OperandStack → Outcome (α × OperandStack)) : Heeds (preparing Calling) (onStack f) := by
  refine obeys_self fun m _ => ?_
  unfold onStack
  split
  · exact ⟨.stored, fun hm => ⟨hm.1.congr rfl rfl, hm.2⟩⟩
  · exact (preparing Calling).refl m

theorem preparing_writeStack (f : OperandStack → Outcome OperandStack) :
    Heeds (preparing Calling) (writeStack f) := preparing_onStack _

theorem preparing_setSlot (i : Nat) (v : Value) : Heeds (preparing Calling) (setSlot i v) := preparing_writeStack _

theorem prepared_bind {Q : Machine → EStateM.Result Abort Machine β → Prop}
    (hafter : ∀ {m m₁ r}, Prepared m m₁ → Q m₁ r → Q m r)
    (hfault : ∀ {m m₁ f}, Prepared m m₁ → Q m (.error (.fault f) m₁)) (hfuel : ∀ {m m₁}, Q m (.error .outOfFuel m₁))
    {x : VM α} {k : α → VM β} (hx : Heeds (preparing P) x) (hk : ∀ a m, P m → Q m (k a m)) (hm : P m) :
    Q m ((x >>= k) m) := by
  have hallows := hx.allows hm
  rcases h : x m with ⟨a, m₁⟩ | ⟨f | _, m₁⟩
  · rw [h] at hallows
    rw [bind_ok h]
    exact hafter hallows.1 (hk a m₁ (hallows.2 hm))
  · rw [h] at hallows
    rw [bind_error h]
    exact hfault hallows.1
  · rw [bind_error h]
    exact hfuel

theorem moves_bind {x : VM α} {k : α → VM Unit} (hx : Heeds (preparing P) x)
    (hk : ∀ a m, P m → Moves passed m (k a m)) (hm : P m) : Moves passed m ((x >>= k) m) :=
  prepared_bind (fun hsame h => h.after hsame) (fun hsame => ⟨hsame.steady.deepened, hsame.stops _ _⟩) trivial hx hk hm

theorem moves_fault (f : Fault) (m : Machine) : Moves passed m (.error (.fault f) m) :=
  ⟨(Balanced.refl m).stranded.toDeepened, .running rfl rfl rfl⟩

theorem pushFrame_spec (m : Machine) : pushFrame m = .ok () { m with frames := m.regs :: m.frames } ∨
      pushFrame m = .error (.fault (.range .callDepth)) m ∧
        m.limits.maxFrames ≠ 0 ∧ m.limits.maxFrames ≤ m.frames.length + 1 := by
  unfold pushFrame
  by_cases hfull : m.limits.maxFrames ≠ 0 ∧ m.limits.maxFrames ≤ m.frames.length + 1
  · exact .inr ⟨congrFun (if_pos hfull) m, hfull⟩
  · exact .inl (congrFun (if_neg hfull) m)

theorem pushCaller_spec (m : Machine) :
    (∃ m₁, pushCaller m = .ok () m₁ ∧ Pushed m m₁) ∨ ∃ f, pushCaller m = .error (.fault f) m := by
  unfold pushCaller
  rw [advance_bind]
  rcases pushFrame_spec m.advanced with hpush | ⟨hpush, _⟩
  · rw [bind_ok (attempt_ok hpush)]
    exact .inl ⟨_, rfl, ⟨rfl, rfl, ⟨m.advanced.regs, ⟨rfl, rfl⟩, ⟨rfl, rfl⟩, rfl⟩, id⟩⟩
  · rw [bind_ok (attempt_fault hpush)]
    exact .inr ⟨_, rfl⟩

theorem moves_enterScript (f : Closure) (first n : Nat) (newTarget : Option Value) (hm : m.WellNested) :
    Moves true m (enterScript f first n newTarget m) := by
  unfold enterScript
  rcases pushCaller_spec m with ⟨m₁, h, hpushed⟩ | ⟨fault, h⟩
  · rw [bind_ok h]
    have hm₁ : m₁.WellNested := hm.congr hpushed.handlers hpushed.depth
    obtain ⟨a, hplace, hbase, hframes⟩ := hpushed.frames
    -- the rest leaves frames alone
    have hafter : ∀ {r : EStateM.Result Abort Machine Unit}, steady.Allows m₁ r → Moves true m r := by
      intro r hr
      rcases r with ⟨_, m'⟩ | ⟨_ | _, m'⟩
      · exact .inr ⟨rfl, hr.handlers.trans hpushed.handlers, hr.depth.trans hpushed.depth,
          ⟨a, hplace, hbase, hr.frames.trans hframes⟩, hr.halted ∘ hpushed.halted⟩
      · have hsuffix : a :: m.frames <:+ m'.frames := hframes ▸ hr.frames
        exact ⟨⟨hr.handlers.trans hpushed.handlers, hr.depth.trans hpushed.depth, (List.suffix_cons _ _).trans hsuffix,
          hr.halted ∘ hpushed.halted⟩, .saved hplace.1 hplace.2 hsuffix⟩
      · trivial
    apply hafter
    refine Obeys.allows ?_ hm₁
    cases f.kind with
    | arrow this captured =>
      refine (obeys_slot _).bind fun _ => (obeys_setSlot _ _).bind fun _ => (obeys_setSlot _ _).bind fun _ => ?_
      exact (obeys_pure _).bind fun _ => steady_modifyRegs _
    | normal | method => exact (obeys_writeStack _).bind fun _ => (obeys_pure _).bind fun _ => steady_modifyRegs _
  · rw [bind_error h]
    exact moves_fault _ _

theorem popFrame_of_nil (h : m.frames = []) : popFrame m = .error (.fault (.internal .frameUnderflow)) m := by
  unfold popFrame
  rw [get_bind, h]
  rfl

theorem popFrame_of_cons {regs : Activation} {frames : List Activation} (h : m.frames = regs :: frames) :
    popFrame m = .ok () { m with regs, frames } := by
  unfold popFrame
  rw [get_bind, h]
  rfl

/-- Whatever leaves frames alone is balanced between saving the running activation and going back to it. -/
theorem balanced_saved {x : VM α} {k : α → VM β} (hx : Heeds steady x) (hk : ∀ a, Heeds balanced (k a)) :
    Heeds balanced (do pushFrame; let a ← x; popFrame; k a) := by
  refine obeys_self fun m hm => ?_
  rcases pushFrame_spec m with hpush | ⟨hpush, _⟩
  · rw [bind_ok hpush]
    have hallows := hx.allows (m := { m with frames := m.regs :: m.frames }) (hm.congr rfl rfl)
    rcases h : x { m with frames := m.regs :: m.frames } with ⟨a, m₁⟩ | ⟨f | _, m₁⟩
    · rw [h] at hallows
      have hback : Balanced m { m₁ with regs := m.regs, frames := m.frames } :=
        ⟨hallows.handlers, hallows.depth, rfl, rfl, hallows.halted⟩
      rw [bind_ok h, bind_ok (popFrame_of_cons hallows.frames)]
      exact ((hk a).allows (balanced.keeps hm hback)).trans hback
    · rw [h] at hallows
      rw [bind_error h]
      exact ⟨⟨hallows.handlers, hallows.depth, (List.suffix_cons _ _).trans hallows.frames, hallows.halted⟩,
        .inr hallows.frames⟩
    · rw [bind_error h]
      trivial
  · rw [bind_error hpush]
    exact (Balanced.refl m).stranded

theorem balanced_behindNative (name : Text) (hx : Heeds balanced x) :
    Heeds balanced (behindNative name x) := by
  have henter : Heeds steady (enterNative name) := steady_modifyRegs _
  exact balanced_saved (henter.bind fun _ => hx.steady) fun v => obeys_pure v

/-- Host code behind a native frame fails for lack of room, or leaves its caller saved. -/
theorem saved_of_behindNative {name : Text} (hx : Heeds balanced x) (hm : m.WellNested)
    (h : behindNative name x m = .error (.fault f) m') :
    (m' = m ∧ f = .range .callDepth ∧ m.limits.maxFrames ≠ 0 ∧ m.limits.maxFrames ≤ m.frames.length + 1) ∨
      m.regs :: m.frames <:+ m'.frames := by
  unfold behindNative at h
  rcases pushFrame_spec m with hpush | ⟨hpush, hfull⟩
  · have henter : enterNative name { m with frames := m.regs :: m.frames } = .ok () { m with
        frames := m.regs :: m.frames, regs := { m.regs with program := none, native := some name } } := rfl
    rw [bind_ok hpush, bind_ok henter] at h
    have hallows := hx.steady.allows (m := { m with
      frames := m.regs :: m.frames, regs := { m.regs with program := none, native := some name } }) (hm.congr rfl rfl)
    rcases bind_eq_error.mp h with hbody | ⟨v, m₁, hbody, hrest⟩
    · rw [hbody] at hallows
      exact .inr hallows.frames
    · -- the frame is there to go back to
      rw [hbody] at hallows
      rw [bind_ok (popFrame_of_cons hallows.frames)] at hrest
      cases hrest
  · rw [bind_error hpush] at h
    cases h
    exact .inl ⟨rfl, rfl, hfull⟩

theorem finishCall_fault {first : Nat} (h : finishCall first v m = .error (.fault f) m') :
    m' = m ∧ ∃ i, f = .internal i := by
  rcases bind_eq_error.mp h with hset | ⟨_, _, _, htop⟩
  · unfold setSlot writeStack onStack at hset
    dsimp only at hset
    cases hs : m.stack.set first v with
    | ok s =>
      rw [hs] at hset
      cases hset
    | error g =>
      rw [hs] at hset
      cases hset
      refine ⟨rfl, ?_⟩
      unfold OperandStack.set at hs
      split at hs
      · cases hs
        exact ⟨_, rfl⟩
      · split at hs <;> cases hs
        exact ⟨_, rfl⟩
  · cases htop

section Nested

variable {enter : Enter} (he : Nests enter)

include he

theorem moves_nativeInLoop (fuel : Nat) (name : Text) {b : Behaviour} (hb : b.Propagates) (first : Nat)
    (hm : m.WellNested) :
    Moves true m ((nativeInLoop name (runHost enter fuel b) >>= fun v => finishCall first v) m) := by
  have hnative := balanced_behindNative name (balanced_runHost he fuel hb)
  have hstill : Obeys still (nativeInLoop name (runHost enter fuel b) >>= fun v => finishCall first v) _ :=
    Obeys.bind (obeys_advance.bind fun _ => hnative.still) fun v => (obeys_setSlot _ _).bind fun _ => obeys_setTop _
  refine moves_of_still (hstill.allows hm) fun f m' h => ?_
  have hadvanced : m.advanced.WellNested := hm.congr rfl rfl
  rcases bind_eq_error.mp h with hfails | ⟨v, m₁, hok, hfinish⟩
  · have hbehind : behindNative name (runHost enter fuel b) m.advanced = .error (.fault f) m' := hfails
    rcases saved_of_behindNative (balanced_runHost he fuel hb) hadvanced hbehind with ⟨rfl, hf, hfull⟩ | hsaved
    · exact .past rfl rfl rfl rfl (.inl ⟨hf, hfull⟩)
    · exact .saved (a := m.advanced.regs) rfl rfl hsaved
  · obtain ⟨rfl, hf⟩ := finishCall_fault hfinish
    have hback : Balanced m.advanced m' := hnative.rel_of_ok hadvanced hok
    exact .past rfl hback.frames (by rw [hback.regs]; rfl) (by rw [hback.regs]; rfl) (.inr hf)

theorem moves_callWithin (fuel k n : Nat) (hm : Calling m) : Moves true m (callWithin enter fuel k n m) := by
  induction k generalizing n m with
  | zero => trivial
  | succ k ih =>
    refine moves_bind obeys_checkDepth (fun _ m hm => ?_) hm
    refine moves_bind (obeys_callBase n) (fun first m hm => ?_) hm
    refine moves_bind (obeys_slot _) (fun v m hm => ?_) hm
    obtain ⟨σ, -, hσ, ⟨o, callee, hok, hcallee⟩ | ⟨f, hfault⟩⟩ := calleeOf_spec v m
    · rw [bind_ok hok]
      have hm' : Calling { m with store := σ } := ⟨hm.1.congr rfl rfl, hσ hm.2⟩
      have hsame : Prepared m { m with store := σ } := .stored
      refine Moves.after ?_ hsame
      have hcallee := hcallee hm.2
      cases callee with
      | script f => exact moves_enterScript _ _ _ _ hm'.1
      | native f =>
        refine moves_bind (obeys_slot _) (fun this m hm => ?_) hm'
        refine moves_bind obeys_top (fun top m hm => ?_) hm
        refine moves_bind (obeys_slots _ _) (fun args m hm => ?_) hm
        exact moves_nativeInLoop he fuel f.name (hcallee.1 _) first hm.1
      | proxy target handler =>
        refine moves_bind (obeys_slot _) (fun this m hm => ?_) hm'
        refine moves_bind obeys_top (fun top m hm => ?_) hm
        refine moves_bind (obeys_slots _ _) (fun args m hm => ?_) hm
        exact moves_nativeInLoop he fuel proxyName (hcallee.1 target this args) first hm.1
      | bound f =>
        refine moves_bind (preparing_setSlot _ _) (fun _ m hm => ?_) hm'
        refine moves_bind (preparing_setSlot _ _) (fun _ m hm => ?_) hm
        refine moves_bind (preparing_writeStack _) (fun _ m hm => ?_) hm
        exact ih _ hm
    · rw [bind_error hfault]
      exact (moves_fault f _).after .stored

theorem moves_call (fuel n : Nat) (hm : Calling m) : Moves true m (call enter fuel n m) :=
  moves_callWithin he fuel _ n hm

theorem moves_construct (n : Nat) (hm : m.WellNested) : Moves (constructsScript m n) m (construct enter n m) := by
  refine moves_bind (P := fun m₁ => m₁ = m) obeys_checkDepth (fun _ m₁ hm₁ => ?_) rfl
  rw [hm₁, top_bind]
  split
  case isTrue => exact moves_fault _ _
  case isFalse hoperands =>
    rcases slot_spec (m.stack.top - (n + 1)) m with ⟨callee, hget, hslot⟩ | ⟨f, hslot⟩
    · have hpassed := constructsScript_of_get hoperands hget
      rw [bind_ok hslot, bind_ok (scriptConstructor_eq callee m), hpassed]
      have hseen : { m with store := m.store.seen callee }.WellNested := hm.congr rfl rfl
      have hsame : Prepared m { m with store := m.store.seen callee } := .stored
      refine Moves.after ?_ hsame
      cases m.store.constructor? callee with
      | some f =>
        refine moves_bind (obeys_freshReceiver _) (fun this m hm => ?_) hseen
        exact moves_bind (obeys_writeStack _) (fun _ m hm => moves_enterScript _ _ _ _ hm) hm
      | none =>
        refine moves_bind (obeys_popMany _) (fun args m hm => ?_) hseen
        exact moves_nested (he.evaluate (.construct callee args none)) (fun v => obeys_replaceNext v)
          (fun v => lands_replaceNext v) hm
    · rw [bind_error hslot]
      exact moves_fault _ _

theorem moves_callEval (fuel n : Nat) (strict : Bool) (hm : Calling m) :
    Moves (!callsEval m n) m (callEval enter fuel n strict m) := by
  unfold callEval
  rcases callBase_spec n m with ⟨hoperands, hbase⟩ | ⟨f, hbase⟩
  · rw [bind_ok hbase]
    rcases slot_spec (m.stack.top - (n + 2) + 1) m with ⟨callee, hget, hslot⟩ | ⟨f, hslot⟩
    · rw [bind_ok hslot]
      cases callee with
      | object o =>
        have hpassed := callsEval_of_get hoperands hget
        dsimp only
        rw [realm_bind, hpassed]
        split
        case isTrue heval =>
          have hends : ∀ {x : VM Value} {m₁}, Heeds balanced x → Calling m₁ →
              Moves false m₁ ((x >>= fun v => finishCall (m.stack.top - (n + 2)) v >>= fun _ => advance) m₁) :=
            fun hx hm₁ => moves_nested hx
              (fun _ => Obeys.bind ((obeys_setSlot _ _).bind fun _ => obeys_setTop _) fun _ => obeys_advance)
              (fun _ => Obeys.lands ((obeys_setSlot _ _).bind fun _ => obeys_setTop _) fun _ => lands_advance) hm₁.1
          rw [decide_eq_true heval]
          split
          · exact hends (obeys_pure _) hm
          · refine moves_bind (obeys_slot _) (fun source m hm => ?_) hm
            split
            case h_1 source =>
              exact moves_bind obeys_receiver (fun this m hm => hends (he.evaluate _) hm) hm
            case h_2 => exact hends (obeys_pure _) hm
        case isFalse hother =>
          rw [decide_eq_false hother]
          exact moves_call he fuel n hm
      | unresolved name member => cases member <;> exact moves_fault _ _
      | _ => exact moves_fault _ _
    · rw [bind_error hslot]
      exact moves_fault _ _
  · rw [bind_error hbase]
    exact moves_fault _ _

end Nested

/-! ### Steps -/

/-- The handlers that stay when the running function returns. -/
def keptHandlers (m : Machine) : List Handler :=
  m.handlers.dropWhile fun h => h.depth = m.depth && (m.frames.length ≤ h.snapshot.frames : Bool)

/-- What a step that succeeds does to frames, and to base, kind, program and place of the activation that it leaves running
or saves. -/
inductive Framed (m m' : Machine) : Prop where
  /-- The same activation goes on; only instructions that begin a frame may move its base. -/
  | steady : m'.frames = m.frames → (m.halted = false → m'.halted = false) →
      ((∀ i ∈ next? m, i.beginsFrame = false) → m'.regs.base = m.regs.base) →
      m'.regs.constructing = m.regs.constructing → m'.regs.program = m.regs.program → Framed m m'
  /-- A script function is called. -/
  | pushes {a : Activation} :
      a.program.isSome → m'.frames = a :: m.frames → (m.halted = false → m'.halted = false) →
      a.base = m.regs.base → a.constructing = m.regs.constructing → a.program = m.regs.program → a.pc = m.regs.pc + 1 →
      handsOver m = true → Framed m m'
  /-- A function returns. -/
  | pops {a : Activation} :
      next? m = some .ret → m.frames = a :: m'.frames → m'.handlers = keptHandlers m → m'.depth = m.depth →
      (m.halted = false → m'.halted = a.isBoundary) → m'.regs = a → Framed m m'
  /-- The loop ends. -/
  | halts :
      next? m = some .halt → (∀ h ∈ m.handlers.head?, owns m h = false) → m'.frames = m.frames → m'.halted = true →
      Framed m m'

/-- Where the activation that runs in `m` is in `m'`, after a step of it has failed with `f`. -/
inductive Stopped (f : Fault) (m m' : Machine) : Prop where
  | stops : Stops (handsOver m) f m m' → Stopped f m m'
  /-- A finally section has ended, and the fault that was pending is raised again. -/
  | again {h : Handler} :
      next? m = some .halt → m.handlers.head? = some h → h.pending = some f → m'.frames = m.frames →
      m'.regs.program = m.regs.program → m'.regs.pc = h.resume → Stopped f m m'

/-- What a step may end with. -/
def Frames (m : Machine) : EStateM.Result Abort Machine Unit → Prop
  | .ok _ m' => Framed m m'
  | .error (.fault f) m' => m.frames <:+ m'.frames ∧ (m.halted = false → m'.halted = false) ∧ Stopped f m m'
  | .error .outOfFuel _ => True

theorem Moves.framed (h : Moves (handsOver m) m r) (hprogram : m.regs.program.isSome) : Frames m r := by
  rcases r with ⟨_, m'⟩ | ⟨_ | _, m'⟩
  · rcases h with h | ⟨hpassed, h⟩
    · exact .steady h.frames h.halted (fun _ => h.base) h.constructing h.program
    · obtain ⟨a, ⟨ha, hpc⟩, ⟨hbase, hconstructing⟩, hframes⟩ := h.frames
      exact .pushes (ha ▸ hprogram) hframes h.halted hbase hconstructing ha hpc hpassed
  · exact ⟨h.1.frames, h.1.halted, .stops h.2⟩
  · trivial

theorem frames_of_firm (h : firm.Allows m r) (hbegins : ¬ ∀ i ∈ next? m, i.beginsFrame = false)
    (hstops : ∀ f m', r = .error (.fault f) m' → Stops (handsOver m) f m m') : Frames m r := by
  rcases r with ⟨_, m'⟩ | ⟨_ | _, m'⟩
  · exact .steady h.frames h.halted (fun hplain => absurd hplain hbegins) h.constructing h.program
  · exact ⟨h.frames, h.halted, .stops (hstops _ _ rfl)⟩
  · trivial

theorem endSection_spec (h : Handler) (rest : List Handler) (m : Machine) :
    (∃ handlers pc, endSection h rest m = .ok () { m with handlers, regs := { m.regs with pc } }) ∨
      ∃ f, h.pending = some f ∧ endSection h rest m =
        .error (.fault f) { m with handlers := rest, regs := { m.regs with pc := h.resume } } := by
  by_cases hpart : h.part = .finishing
  · have hleaves : endSection h rest m = leaveFinally h { m with handlers := rest } := by
      rw [endSection_of_finishing hpart]
      rfl
    rw [hleaves, leaveFinally, get_bind]
    split
    · cases hpending : h.pending with
      | none => exact .inl ⟨_, _, rfl⟩
      | some f => exact .inr ⟨f, rfl, rfl⟩
    · exact .inl ⟨_, _, rfl⟩
  · rw [endSection_of_not_finishing hpart]
    split <;> exact .inl ⟨_, _, rfl⟩

theorem frames_halt (hi : next? m = some .halt) : Frames m (halt m) := by
  by_cases ho : ∀ h ∈ m.handlers.head?, owns m h = false
  · rw [halt_of_not_owned ho]
    exact .halts hi ho rfl rfl
  · obtain ⟨h, rest, hh, ho⟩ := exists_head_of_not_forall (by simpa using ho)
    rw [halt_of_owned hh ho]
    rcases endSection_spec h rest m.advanced with ⟨handlers, pc, hends⟩ | ⟨f, hpending, hfails⟩
    · rw [hends]
      exact .steady rfl id (fun _ => rfl) rfl rfl
    · rw [hfails]
      exact ⟨List.suffix_refl _, id, .again hi (by rw [hh]; rfl) hpending rfl rfl rfl⟩

theorem leaveFrame_of_nil (hf : m.frames = []) :
    leaveFrame m = .error (.fault (.internal .frameUnderflow)) { m with handlers := keptHandlers m } := by
  have hdrop : dropHandlers m.frames.length m = .ok () { m with handlers := keptHandlers m } := rfl
  have hpop := popFrame_of_nil (m := { m with handlers := keptHandlers m }) hf
  unfold leaveFrame
  rw [get_bind, bind_ok hdrop, bind_error hpop]

theorem leaveFrame_of_cons {a : Activation} {rest : List Activation} (hf : m.frames = a :: rest) :
    leaveFrame m = .ok () { m with
      handlers := keptHandlers m, regs := a, frames := rest, halted := if a.isBoundary then true else m.halted } := by
  have hdrop : dropHandlers m.frames.length m = .ok () { m with handlers := keptHandlers m } := rfl
  unfold leaveFrame
  rw [get_bind, bind_ok hdrop, hf]
  cases hb : a.isBoundary <;> simp [hb] <;> rfl

theorem frames_ret (hi : next? m = some .ret) : Frames m (ret m) := by
  have hback : (preparing fun _ => True).Allows m (handBack m) := obeys_handBack.allows trivial
  unfold ret
  rcases h : handBack m with ⟨⟨⟩, m₁⟩ | ⟨e, m₁⟩
  · rw [h] at hback
    obtain ⟨hback, _⟩ := hback
    rw [bind_ok h]
    have hkept : keptHandlers m₁ = keptHandlers m := by
      unfold keptHandlers
      rw [hback.handlers, hback.depth, hback.frames]
    cases hf : m₁.frames with
    | nil =>
      rw [leaveFrame_of_nil hf]
      exact ⟨hback.frames ▸ List.suffix_refl _, fun hm => hback.halted.trans hm,
        .stops (.running hback.frames hback.program hback.pc)⟩
    | cons a rest =>
      rw [leaveFrame_of_cons hf]
      refine .pops hi (hback.frames.symm.trans hf) hkept hback.depth (fun hm => ?_) rfl
      have hrunning : m₁.halted = false := hback.halted.trans hm
      cases a.isBoundary <;> simp [hrunning]
  · rw [h] at hback
    rw [bind_error h]
    cases e with
    | fault f =>
      exact ⟨hback.1.frames ▸ List.suffix_refl _, fun hm => hback.1.halted.trans hm, .stops (hback.1.stops _ _)⟩
    | outOfFuel => trivial

theorem program_of_next {i : Instruction} (hi : next? m = some i) : m.regs.program.isSome := by
  unfold next? at hi
  cases hp : m.regs.program with
  | none => simp [hp] at hi
  | some p => rfl

theorem handsOver_taken (ht : takeInterrupt m = .ok () m₁) : handsOver m₁ = handsOver m := by
  have hstack : m₁.stack = m.stack := by rcases takeInterrupt_ok ht with rfl | ⟨lines, rfl⟩ <;> rfl
  have heval : callsEval m₁ = callsEval m := by rcases takeInterrupt_ok ht with rfl | ⟨lines, rfl⟩ <;> rfl
  have hconstructs : constructsScript m₁ = constructsScript m := by
    rcases takeInterrupt_ok ht with rfl | ⟨lines, rfl⟩ <;> rfl
  unfold handsOver
  simp only [next_of_takeInterrupt ht, heval, hconstructs, counted_congr hstack]

theorem Frames.taken (ht : takeInterrupt m = .ok () m₁) (h : Frames m₁ r) : Frames m r := by
  have hands := handsOver_taken ht
  rcases takeInterrupt_ok ht with rfl | ⟨lines, rfl⟩
  · exact h
  · rcases r with ⟨_, m'⟩ | ⟨_ | _, m'⟩
    · cases h with
      | steady hframes hhalted hbase hconstructing hprogram =>
        exact .steady hframes hhalted hbase hconstructing hprogram
      | pushes hsome hframes hhalted hbase hconstructing hprogram hpc hpassed =>
        exact .pushes hsome hframes hhalted hbase hconstructing hprogram hpc (hands ▸ hpassed)
      | pops hi hframes hkept hdepth hhalted hregs => exact .pops hi hframes hkept hdepth hhalted hregs
      | halts hi howned hframes hhalted => exact .halts hi howned hframes hhalted
    · refine ⟨h.1, h.2.1, ?_⟩
      cases h.2.2 with
      | stops hstops =>
        rw [hands] at hstops
        cases hstops with
        | running hf hp hc => exact .stops (.running hf hp hc)
        | past hpassed hf hp hc hwhy => exact .stops (.past hpassed hf hp hc hwhy)
        | saved hp hc hs => exact .stops (.saved hp hc hs)
      | again hi hh hpending hf hp hc => exact .again hi hh hpending hf hp hc
    · trivial

theorem Nests.isolates {enter : Enter} (he : Nests enter) (e : Entry) : Heeds isolating (enter e) :=
  (he.evaluate e).mono id (fun _ h => ⟨h.handlers, h.depth⟩) (fun _ h => ⟨h.handlers, h.depth⟩) id

section Nested

variable {enter : Enter} (he : Nests enter)

include he

theorem frames_execute (fuel : Nat) {i : Instruction} (hm : Calling m) (hi : next? m = some i) :
    Frames m (execute enter fuel i m) := by
  have hprogram := program_of_next hi
  have hmoves : Moves (handsOver m) m (execute enter fuel i m) → Frames m (execute enter fuel i m) :=
    fun h => h.framed hprogram
  have hcount : ∀ fixed (k : Nat → VM Unit) (p : Nat → Bool),
      handsOver m = counted fixed p m → (∀ n, Moves (p n) m (k n m)) →
      Moves (handsOver m) m ((variadicCount fixed >>= k) m) := by
    intro fixed k p hpassed hk
    rcases variadicCount_spec fixed m with ⟨n, hn⟩ | ⟨f, hf⟩
    · rw [hpassed, counted_of_ok hn, bind_ok hn]
      exact hk n
    · rw [bind_error hf]
      exact moves_fault _ _
  cases htransfer : i.isTransfer with
  | false =>
    have hlands : Arrives staying.strict (fun _ _ => True) (execute enter fuel i) :=
      lands_execute (fun e he' => (he.strict e he').placed.when _) fuel htransfer
    have hstops : ∀ f m', execute enter fuel i m = .error (.fault f) m' → Stops (handsOver m) f m m' := by
      intro f m' hfails
      have hadmits := (hlands m hm.1).2
      rw [hfails] at hadmits
      exact .running hadmits.frames hadmits.program hadmits.pc
    cases hbegins : i.beginsFrame with
    | false =>
      have hobeys := obeys_executePlain (fun e he' => (he.strict e he').fixed.when _) fuel htransfer hbegins
      exact hmoves (moves_of_still (hobeys.weaken.allows hm.1) hstops)
    | true =>
      have hobeys := obeys_execute (fun e he' => (he.strict e he').unmoved.when _) fuel htransfer
      refine frames_of_firm (hobeys.weaken.allows hm.1) (fun hplain => ?_) hstops
      rw [hplain i hi] at hbegins
      cases hbegins
  | true =>
    have hands : ∀ {b : Bool}, handsOver m = b → Moves b m (execute enter fuel i m) → Frames m (execute enter fuel i m) :=
      fun hb h => hmoves (hb ▸ h)
    cases i with
    | halt => exact frames_halt hi
    | guard catchOffset finallyOffset => exact .steady rfl id (fun _ => rfl) rfl rfl
    | ret => exact frames_ret hi
    | call n => exact hands (by unfold handsOver; rw [hi]) (moves_call he fuel n hm)
    | callVariadic =>
      refine hands (by unfold handsOver; rw [hi]) ?_
      exact moves_bind (obeys_variadicCount 2) (fun n m hm => moves_call he fuel n hm) hm
    | callEval n strict => exact hands (by unfold handsOver; rw [hi]) (moves_callEval he fuel n strict hm)
    | callEvalVariadic strict =>
      exact hmoves (hcount 2 _ _ (by unfold handsOver; rw [hi]) fun n => moves_callEval he fuel n strict hm)
    | construct n => exact hands (by unfold handsOver; rw [hi]) (moves_construct he n hm.1)
    | constructVariadic =>
      exact hmoves (hcount 1 _ _ (by unfold handsOver; rw [hi]) fun n => moves_construct he n hm.1)
    | _ => cases htransfer

/-- **What a step does to frames.** -/
theorem frames_step (fuel : Nat) (hm : Calling m) : Frames m (step enter fuel m) := by
  have htake : balanced.strict.Allows m (takeInterrupt m) := obeys_takeInterrupt.allows hm.1
  rcases ht : takeInterrupt m with ⟨⟨⟩, m₁⟩ | ⟨e, m₁⟩
  · have hm₁ : Calling m₁ := by
      rcases takeInterrupt_ok ht with rfl | ⟨lines, rfl⟩
      · exact hm
      · exact ⟨hm.1.congr rfl rfl, hm.2⟩
    refine Frames.taken ht ?_
    unfold step
    rw [bind_ok ht]
    rcases fetch_eq m₁ with ⟨i, hi, hfetch⟩ | ⟨f, _, hfetch⟩
    · rw [bind_ok hfetch]
      exact frames_execute he fuel hm₁ hi
    · rw [bind_error hfetch]
      exact ⟨List.suffix_refl _, id, .stops (.running rfl rfl rfl)⟩
  · rw [ht] at htake
    unfold step
    rw [bind_error ht]
    cases e with
    | fault f =>
      have hplaced := htake.placed
      exact ⟨htake.frames ▸ List.suffix_refl _, htake.halted, .stops (.running hplaced.frames hplaced.program hplaced.pc)⟩
    | outOfFuel => trivial

/-- What a turn comes to, with the frames: a step, or a fault that is settled and then unwound. -/
inductive TurnFrames (enter : Enter) (fuel : Nat) (m : Machine) : EStateM.Result Abort Machine Unit → Prop where
  | steps {m₁ m' : Machine} :
      takeInterrupt m = .ok () m₁ → step enter fuel m = .ok () m' → Stepped (next? m) m₁ m' → Framed m m' →
      TurnFrames enter fuel m (.ok () m')
  | unwinds {g : Fault} {m₂ : Machine} {r : EStateM.Result Abort Machine Unit} :
      Dropped (next? m) m.frames.length m m₂ → m.frames <:+ m₂.frames → (m.halted = false → m₂.halted = false) →
      Unwound enter g m₂ r → TurnFrames enter fuel m r
  | outOfFuel {m' : Machine} : TurnFrames enter fuel m (.error .outOfFuel m')

theorem frames_turn (fuel : Nat) (hm : Calling m) : TurnFrames enter fuel m (turn enter fuel m) := by
  have htook := (took_turn he.isolates fuel hm.1).2
  have hframes := frames_step he fuel hm
  generalize turn enter fuel m = r at htook ⊢
  cases htook with
  | steps htake hstep hstepped =>
    rw [hstep] at hframes
    exact .steps htake hstep hstepped hframes
  | @unwinds f g m₁ m₂ _ hstep hdropped hsettle hunwound =>
    rw [hstep] at hframes
    obtain ⟨_, σ, _, hσ⟩ := settle_eq_ok f m₁
    cases hsettle.symm.trans hσ
    have hsettled : Dropped (next? m) m.frames.length m { m₁ with store := σ } := hdropped.trans (.calm rfl rfl)
    exact .unwinds hsettled hframes.1 hframes.2.1 hunwound
  | outOfFuel => exact .outOfFuel

end Nested

end VM

end ScriptMachine
