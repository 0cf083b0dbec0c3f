import ScriptMachine.Proofs.Recursion
import ScriptMachine.Proofs.Returns

/-!
# What calls lead to

A call leads through bound functions to a target that is none, with the receiver of the innermost bound function and the
arguments of all of them, innermost first, before those of the call.  An instruction finds this on the operand stack,
which it rewrites at each bound function; a call from outside the loop passes it on from entry to entry.

* `Store.destination` — what a call of a target comes to: script code, host code, or a fault.
* `call_of_boundTo`, `enter_of_boundTo` — the two kinds of calls get there.
-/

namespace ScriptMachine

/-! ### Bound functions -/

def boundReceiver (bs : List BoundFunction) (this : Value) : Value := (bs.getLast?.map (·.this)).getD this

def boundArguments (bs : List BoundFunction) (args : List Value) : List Value := bs.reverse.flatMap (·.args) ++ args

theorem boundReceiver_cons (b : BoundFunction) (bs : List BoundFunction) (this : Value) :
    boundReceiver (b :: bs) this = boundReceiver bs b.this := by
  cases bs with
  | nil => rfl
  | cons b' bs =>
    obtain ⟨x, hx⟩ : ∃ x, (b' :: bs).getLast? = some x := ⟨_, List.getLast?_eq_some_getLast (List.cons_ne_nil _ _)⟩
    rfl

theorem boundArguments_cons (b : BoundFunction) (bs : List BoundFunction) (args : List Value) :
    boundArguments (b :: bs) args = boundArguments bs (b.args ++ args) := by
  simp [boundArguments]

namespace Store

variable {σ σ' : Store} {v t t' : Value} {b : BoundFunction} {bs bs' : List BoundFunction}

def boundAt? (σ : Store) : Value → Option BoundFunction
  | .object o =>
    match (σ.object o).callee? with
    | some (.bound b) => some b
    | _ => none
  | _ => none

/-- A value leads through bound functions, outermost first, to a target that is none. -/
inductive BoundTo (σ : Store) : Value → List BoundFunction → Value → Prop where
  | target {v : Value} (h : σ.boundAt? v = none) : BoundTo σ v [] v
  | bound {v t : Value} {b : BoundFunction} {bs : List BoundFunction} (h : σ.boundAt? v = some b)
      (rest : BoundTo σ (.object b.target) bs t) : BoundTo σ v (b :: bs) t

theorem callee_of_boundAt (h : σ.boundAt? v = some b) :
    ∃ o, v = .object o ∧ (σ.object o).callee? = some (.bound b) := by
  unfold boundAt? at h
  split at h
  case h_1 o =>
    split at h
    case h_1 b' hb =>
      cases h
      exact ⟨o, rfl, hb⟩
    case h_2 => cases h
  case h_2 => cases h

theorem Makes.boundAt_eq (h : Makes σ σ') (v : Value) : σ'.boundAt? v = σ.boundAt? v := by
  cases v with
  | object o => simp only [boundAt?, h.callee o]
  | _ => rfl

namespace BoundTo

theorem made (h : BoundTo σ v bs t) (hσ : Makes σ σ') : BoundTo σ' v bs t := by
  induction h with
  | target h => exact .target ((hσ.boundAt_eq _).trans h)
  | bound h _ ih => exact .bound ((hσ.boundAt_eq _).trans h) ih

theorem route (h : BoundTo σ v bs t) {o : ObjectId} (hv : v = .object o) : ∃ l p,
    Route (fun o => (σ.boundAt? (.object o)).map (·.target)) o (l ++ [p]) ∧ l.length = bs.length ∧
      ∀ q ∈ l, q.index < σ.objects.size := by
  induction h generalizing o with
  | target h =>
    subst hv
    exact ⟨[], o, .last (by rw [h]; rfl), rfl, nofun⟩
  | bound h _ ih =>
    subst hv
    obtain ⟨l, p, hroute, hlength, hknown⟩ := ih rfl
    obtain ⟨_, ⟨⟩, hcallee⟩ := callee_of_boundAt h
    exact ⟨o :: l, p, .step (by rw [h]; rfl) hroute, congrArg Nat.succ hlength,
      List.forall_mem_cons.mpr ⟨lt_size_of_callee hcallee, hknown⟩⟩

theorem length_le (h : BoundTo σ v bs t) : bs.length ≤ σ.objects.size := by
  cases h with
  | target => exact Nat.zero_le _
  | bound hb rest =>
    obtain ⟨o, rfl, -⟩ := callee_of_boundAt hb
    obtain ⟨l, p, hroute, hlength, hknown⟩ := (BoundTo.bound hb rest).route rfl
    rw [← hlength]
    exact length_le_of_nodup ObjectId.index_injective (List.nodup_append.mp hroute.nodup).1 hknown

end BoundTo

/-! ### Callees -/

def seenAlong (σ : Store) (v : Value) : List BoundFunction → Store
  | [] => σ.seen v
  | b :: bs => (σ.seen v).seenAlong (.object b.target) bs

theorem makes_seen (σ : Store) (v : Value) : Makes σ (σ.seen v) := by
  cases v with
  | object o => exact (reads_made o σ).1
  | _ => exact .refl σ

theorem makes_seenAlong (σ : Store) (v : Value) (bs : List BoundFunction) : Makes σ (σ.seenAlong v bs) := by
  induction bs generalizing σ v with
  | nil => exact σ.makes_seen v
  | cons b bs ih => exact (σ.makes_seen v).trans (ih _ _)

end Store

namespace VM

variable {m : Machine}

/-! ### Destinations -/

/-- What a call comes to. -/
inductive Destination where
  | script (o : ObjectId) (f : Closure)
  | host (name : Text) (behaviour : Behaviour)
  | refused (fault : Fault)

end VM

/-- What a call of a target that is no bound function comes to. -/
def Store.destination (σ : Store) (target this : Value) (args : List Value) : VM.Destination :=
  match target with
  | .object o =>
    match (σ.object o).callee? with
    | some (.script f) => .script o f
    | some (.native f) => .host f.name (f.call ⟨this, args, none, f.name⟩)
    | some (.proxy t handler) => .host VM.proxyName (handler.apply t this args)
    | _ => .refused (.type (.notFunction (σ.display target)))
  | .unresolved name false => .refused (.unresolved name)
  | .unresolved name true => .refused (.type (.memberNotFunction name.display))
  | v => .refused (.type (.notFunction (σ.display v)))

theorem Store.target_of_destination {σ : Store} {target this : Value} {args : List Value} {o : ObjectId} {f : Closure}
    (h : σ.destination target this args = .script o f) : target = .object o := by
  unfold Store.destination at h
  split at h
  · split at h <;> cases h
    rfl
  all_goals cases h

namespace VM

/-- Get to a destination by an instruction, with receiver, callee and `n` arguments from slot `first` on. -/
def arrive (enter : Enter) (fuel first n : Nat) : Destination → VM Unit
  | .script _ f => enterScript f first n none
  | .host name behaviour => do finishCall first (← nativeInLoop name (runHost enter fuel behaviour))
  | .refused f => raise f

def arriveOutside (enter : Enter) (fuel : Nat) (run : VM Unit) (this : Value) (args : List Value) :
    Destination → VM Value
  | .script o f => callScript enter run o f this args .undefined
  | .host name behaviour => callNative enter name (runHost enter fuel behaviour)
  | .refused f => raise f

/-- Frames for a call stay below both limits; `k` are needed. -/
structure HasRoom (k : Nat) (m : Machine) : Prop where
  calls : m.limits.callDepth = 0 ∨ m.frames.length + 1 < m.limits.callDepth
  frames : m.limits.maxFrames = 0 ∨ m.frames.length + k < m.limits.maxFrames

theorem HasRoom.checkDepth {k : Nat} (h : HasRoom k m) : checkDepth m = .ok () m := by
  refine congrFun (if_neg ?_) m
  have hcalls := h.calls
  omega

section Arriving

variable {below args : List Value} {this target : Value} {v : Value} {i : Nat}

theorem callBase_of_holds {w : Value} (hstack : m.stack.Holds (below ++ v :: w :: args)) :
    callBase args.length m = .ok below.length m := by
  have htop : m.stack.top = below.length + (args.length + 2) := by simpa using hstack.top_eq
  have hbase : callBase args.length m = .ok (m.stack.top - (args.length + 2)) m :=
    congrFun (if_neg (by omega)) m
  rw [hbase, htop, Nat.add_sub_cancel]

theorem slot_of_holds {vs : List Value} (hstack : m.stack.Holds vs) (hv : vs[i]? = some v) :
    slot i m = .ok v m :=
  readStack_of_ok (hstack.get hv)

theorem setSlot_of_set {s : OperandStack} (h : m.stack.set i v = .ok s) :
    setSlot i v m = .ok () { m with stack := s } :=
  writeStack_of_ok h

theorem operands_bind (hstack : m.stack.Holds (below ++ this :: v :: args))
    (k : Value → List Value → VM Unit) :
    (do
      let this ← slot below.length
      let args ← slots (below.length + 2) (← top)
      k this args : VM Unit) m = k this args m := by
  have hsplit : m.stack.Holds ((below ++ [this, v]) ++ (args ++ [])) := by simpa using hstack
  have hslice : m.stack.slice (below.length + 2) m.stack.top = .ok args :=
    hsplit.slice (by simp) (by rw [hstack.top_eq]; simp; omega)
  have hslot : slot below.length m = .ok this m := slot_of_holds hstack (by simp)
  rw [bind_ok hslot, top_bind, bind_ok (slots_of_slice hslice)]

theorem callWithin_of_target (enter : Enter) (fuel k : Nat) (h : m.store.boundAt? target = none)
    (hroom : HasRoom 1 m) (hstack : m.stack.Holds (below ++ this :: target :: args)) :
    callWithin enter fuel (k + 1) args.length m =
      arrive enter fuel below.length args.length ((m.store.seen target).destination target this args)
        { m with store := m.store.seen target } := by
  have hslot : slot (below.length + 1) m = .ok target m := slot_of_holds hstack (by simp)
  unfold callWithin
  rw [bind_ok hroom.checkDepth, bind_ok (callBase_of_holds hstack), bind_ok hslot]
  cases target with
  | object o =>
    have hsame := (m.store.makes_seen (.object o)).callee o
    cases hcallee : (m.store.object o).callee? with
    | none =>
      rw [bind_error (calleeOf_of_none hcallee)]
      simp only [Store.destination, hsame, hcallee]
      rfl
    | some callee =>
      rw [bind_ok (calleeOf_of_some hcallee)]
      have hstack' : { m with store := m.store.seen (.object o) }.stack.Holds
          (below ++ this :: .object o :: args) := hstack
      cases callee with
      | script f =>
        simp only [Store.destination, hsame, hcallee]
        rfl
      | native f =>
        simp only [Store.destination, hsame, hcallee]
        exact operands_bind hstack' _
      | proxy t handler =>
        simp only [Store.destination, hsame, hcallee]
        exact operands_bind hstack' _
      | bound b => simp [Store.boundAt?, hcallee] at h
  | unresolved name member => cases member <;> rfl
  | _ => rfl

theorem callWithin_of_bound (fuel k : Nat) {b : BoundFunction} (h : m.store.boundAt? v = some b)
    (hroom : HasRoom 1 m) (hstack : m.stack.Holds (below ++ this :: v :: args)) :
    ∃ s, s.Holds (below ++ b.this :: .object b.target :: (b.args ++ args)) ∧
      ∀ enter, callWithin enter fuel (k + 1) args.length m =
        callWithin enter fuel k (b.args ++ args).length { m with store := m.store.seen v, stack := s } := by
  obtain ⟨o, rfl, hcallee⟩ := Store.callee_of_boundAt h
  have hslot : slot (below.length + 1) m = .ok (.object o) m := slot_of_holds hstack (by simp)
  -- the three writes to the stack
  obtain ⟨s₁, hset₁, h₁⟩ := hstack.set (i := below.length) (by simp) b.this
  obtain ⟨s₂, hset₂, h₂⟩ := h₁.set (i := below.length + 1) (by simp) (.object b.target)
  have hboth : s₂.Holds ((below ++ [b.this, .object b.target]) ++ args) := by simpa using h₂
  obtain ⟨s₃, hinsert, h₃⟩ := hboth.insertAt b.args
  rw [List.length_append] at hinsert
  have hfirst := setSlot_of_set (m := { m with store := m.store.seen (.object o) }) hset₁
  have hsecond := setSlot_of_set (m := { m with store := m.store.seen (.object o), stack := s₁ }) hset₂
  have hthird := writeStack_of_ok (m := { m with store := m.store.seen (.object o), stack := s₂ })
    (g := (·.insertAt (below.length + 2) b.args)) hinsert
  refine ⟨s₃, by simpa using h₃, fun enter => ?_⟩
  rw [List.length_append, Nat.add_comm b.args.length]
  conv_lhs => unfold callWithin
  rw [bind_ok hroom.checkDepth, bind_ok (callBase_of_holds hstack), bind_ok hslot, bind_ok (calleeOf_of_some hcallee)]
  dsimp only
  rw [bind_ok hfirst, bind_ok hsecond]
  exact bind_ok hthird

variable {callee : Value} {bs : List BoundFunction}

theorem callWithin_of_boundTo (fuel : Nat) {k : Nat} (h : m.store.BoundTo callee bs target)
    (hk : bs.length < k) (hroom : HasRoom 1 m) (hstack : m.stack.Holds (below ++ this :: callee :: args)) :
    ∃ s, s.Holds (below ++ boundReceiver bs this :: target :: boundArguments bs args) ∧
      ∀ enter, callWithin enter fuel k args.length m =
        arrive enter fuel below.length (boundArguments bs args).length
          ((m.store.seenAlong callee bs).destination target (boundReceiver bs this) (boundArguments bs args))
          { m with store := m.store.seenAlong callee bs, stack := s } := by
  obtain ⟨k, rfl⟩ : ∃ k', k = k' + 1 := ⟨k - 1, by omega⟩
  induction bs generalizing m callee this args k with
  | nil =>
    cases h with
    | target h => exact ⟨m.stack, hstack, fun enter => callWithin_of_target enter fuel k h hroom hstack⟩
  | cons b bs ih =>
    cases h with
    | bound h rest =>
      obtain ⟨k, rfl⟩ : ∃ k', k = k' + 1 := ⟨k - 1, by rw [List.length_cons] at hk; omega⟩
      obtain ⟨s, hs, hnext⟩ := callWithin_of_bound fuel (k + 1) h hroom hstack
      obtain ⟨s', hs', harrive⟩ := ih (m := { m with store := m.store.seen callee, stack := s })
        (rest.made (m.store.makes_seen callee)) ⟨hroom.calls, hroom.frames⟩ hs k
        (by rw [List.length_cons] at hk; omega)
      rw [boundReceiver_cons, boundArguments_cons]
      exact ⟨s', hs', fun enter => (hnext enter).trans (harrive enter)⟩

/-- **A call by an instruction** gets to its destination, with receiver, target and arguments on the stack. -/
theorem call_of_boundTo (fuel : Nat) (h : m.store.BoundTo callee bs target) (hroom : HasRoom 1 m)
    (hstack : m.stack.Holds (below ++ this :: callee :: args)) :
    ∃ s, s.Holds (below ++ boundReceiver bs this :: target :: boundArguments bs args) ∧
      ∀ enter, execute enter fuel (.call args.length) m =
        arrive enter fuel below.length (boundArguments bs args).length
          ((m.store.seenAlong callee bs).destination target (boundReceiver bs this) (boundArguments bs args))
          { m with store := m.store.seenAlong callee bs, stack := s } :=
  callWithin_of_boundTo fuel h (Nat.lt_succ_of_le h.length_le) hroom hstack

theorem callValue_of_target (enter : Enter) (fuel : Nat) (run : VM Unit) (h : m.store.boundAt? target = none) :
    callValue enter fuel run target this args m =
      arriveOutside enter fuel run this args ((m.store.seen target).destination target this args)
        { m with store := m.store.seen target } := by
  unfold callValue
  cases target with
  | object o =>
    have hsame := (m.store.makes_seen (.object o)).callee o
    cases hcallee : (m.store.object o).callee? with
    | none =>
      rw [bind_error (calleeOf_of_none hcallee)]
      simp only [Store.destination, hsame, hcallee]
      rfl
    | some callee =>
      rw [bind_ok (calleeOf_of_some hcallee)]
      cases callee with
      | bound b => simp [Store.boundAt?, hcallee] at h
      | script | native | proxy =>
        simp only [Store.destination, hsame, hcallee]
        rfl
  | unresolved name member => cases member <;> rfl
  | _ => rfl

/-- **A call from outside the loop** gets to its destination, with receiver, target and arguments passed on. -/
theorem enter_of_boundTo (fuel : Nat) (h : m.store.BoundTo callee bs target) (this : Value) (args : List Value) :
    enter (fuel + bs.length + 1) (.call callee this args) m =
      arriveOutside (enter fuel) fuel (dispatch (turn (enter fuel) fuel) fuel) (boundReceiver bs this)
        (boundArguments bs args)
        ((m.store.seenAlong callee bs).destination target (boundReceiver bs this) (boundArguments bs args))
        { m with store := m.store.seenAlong callee bs } := by
  induction bs generalizing m callee this args with
  | nil =>
    cases h with
    | target h => exact callValue_of_target (enter fuel) fuel _ h
  | cons b bs ih =>
    cases h with
    | bound h rest =>
      obtain ⟨o, rfl, hcallee⟩ := Store.callee_of_boundAt h
      rw [boundReceiver_cons, boundArguments_cons]
      refine Eq.trans ?_ (ih (m := { m with store := m.store.seen (.object o) })
        (rest.made (m.store.makes_seen (.object o))) b.this (b.args ++ args))
      show callValue (enter (fuel + bs.length + 1)) _ _ (.object o) this args m = _
      unfold callValue
      rw [bind_ok (calleeOf_of_some hcallee)]

end Arriving

/-! ### Script functions that start -/

/-- A script function is about to run: its frame starts with callee, receiver and arguments above these operands. -/
structure Started (below : List Value) (callee : ObjectId) (f : Closure) (this : Value) (args : List Value)
    (newTarget : Value) (constructing : Bool) (m : Machine) : Prop where
  operands : m.stack.Holds (below ++ .object callee :: this :: args)
  base : m.regs.base = some (below.length + 1)
  count : m.regs.args = args.length
  program : m.regs.program = some f.template.program
  native : m.regs.native = none
  pc : m.regs.pc = 0
  scope : m.regs.scope = f.scope
  newTarget : m.regs.newTarget = newTarget
  constructing : m.regs.constructing = constructing

variable {below args : List Value} {this : Value} {callee : ObjectId} {f : Closure}

theorem enterScript_of_holds (newTarget : Option Value) (hroom : HasRoom 1 m)
    (hstack : m.stack.Holds (below ++ this :: .object callee :: args)) :
    ∃ m', enterScript f below.length args.length newTarget m = .ok () m' ∧ m'.store = m.store ∧ Suspended m m' ∧
      Started below callee f (receivers f this (newTarget.getD .undefined)).1 args
        (receivers f this (newTarget.getD .undefined)).2 newTarget.isSome m' := by
  have hframes := hroom.frames
  have hpush := pushCaller_of_room (m := m) (by omega)
  unfold enterScript receivers
  rw [bind_ok hpush]
  cases hkind : f.kind with
  | normal | method =>
    obtain ⟨s, hswap, hs⟩ := hstack.swap
    dsimp only
    rw [bind_ok (writeStack_of_ok (m := { m.advanced with frames := m.advanced.regs :: m.frames }) hswap)]
    exact ⟨_, rfl, rfl, ⟨rfl, rfl, rfl⟩, ⟨hs, rfl, rfl, rfl, rfl, rfl, rfl, rfl, rfl⟩⟩
  | arrow captured target =>
    obtain ⟨s₁, hset₁, h₁⟩ := hstack.set (i := below.length) (by simp) (.object callee)
    obtain ⟨s₂, hset₂, h₂⟩ := h₁.set (i := below.length + 1) (by simp) captured
    have hslot : slot (below.length + 1) { m.advanced with frames := m.advanced.regs :: m.frames } =
        .ok (.object callee) { m.advanced with frames := m.advanced.regs :: m.frames } :=
      slot_of_holds hstack (by simp)
    have hfirst := setSlot_of_set (m := { m.advanced with frames := m.advanced.regs :: m.frames }) hset₁
    have hsecond := setSlot_of_set (m := { m.advanced with frames := m.advanced.regs :: m.frames, stack := s₁ }) hset₂
    dsimp only
    rw [bind_ok hslot, bind_ok hfirst, bind_ok hsecond]
    exact ⟨_, rfl, rfl, ⟨rfl, rfl, rfl⟩, ⟨by simpa using h₂, rfl, rfl, rfl, rfl, rfl, rfl, rfl, rfl⟩⟩

theorem pushFrame_of_room (h : m.limits.maxFrames = 0 ∨ m.frames.length + 1 < m.limits.maxFrames) :
    pushFrame m = .ok () { m with frames := m.regs :: m.frames } :=
  congrFun (if_neg (by omega)) m

theorem enterFromOutside_of_holds (callee : ObjectId) (f : Closure) (this : Value) (args : List Value)
    (newTarget : Value) (hroom : HasRoom 2 m) (hstack : m.stack.Holds below) :
    ∃ m', enterFromOutside callee f this args newTarget m = .ok () m' ∧ m'.store = m.store ∧
      Started below callee f (receivers f this newTarget).1 args (receivers f this newTarget).2 false m' := by
  -- what is done between the two frames
  obtain ⟨m₁, hm₁⟩ : ∃ m₁ : Machine, m₁ = { m with
    frames := m.regs :: m.frames, regs := { m.regs with program := none, native := none }
    stack := args.foldl OperandStack.push ((m.stack.push (.object callee)).push (receivers f this newTarget).1) } :=
    ⟨_, rfl⟩
  have hframes := hroom.frames
  have hframes₁ : m₁.limits.maxFrames = 0 ∨ m₁.frames.length + 1 < m₁.limits.maxFrames := by
    rw [hm₁]
    exact hframes
  have hstack₁ : m₁.stack.Holds (below ++ .object callee :: (receivers f this newTarget).1 :: args) := by
    rw [hm₁]
    simpa using ((hstack.push (.object callee)).push (receivers f this newTarget).1).pushAll args
  have hsplit : enterFromOutside callee f this args newTarget m = (do
      pushFrame
      modifyRegs fun r =>
        { r with
          args := args.length, program := some f.template.program, scope := f.scope, base := some (below.length + 1)
          pc := 0, newTarget := (receivers f this newTarget).2, constructing := false }) m₁ := by
    have htop : (m.stack.push (.object callee)).top = below.length + 1 := by
      rw [OperandStack.top_push, hstack.top_eq]
    unfold enterFromOutside
    rw [bind_ok (pushFrame_of_room (by omega)), hm₁, ← htop]
    rfl
  rw [hsplit, bind_ok (pushFrame_of_room hframes₁)]
  refine ⟨_, rfl, ?_, ⟨hstack₁, rfl, rfl, rfl, ?_, rfl, rfl, rfl, rfl⟩⟩ <;> rw [hm₁]

/-! ### Script functions that return -/

section Returns

variable {fuel k a b first : Nat} {i : Instruction} {e : Entry} {s m₁ : Machine} {ms : Nat → Machine} {vs : List Value}
  {v w newTarget : Value} {constructing : Bool} (hexecute : ∀ enter, execute enter fuel i m = .ok () m₁)
  (hcall : Suspended m m₁) (hstarted : Started below callee f this args newTarget constructing m₁)
  (hrun : DisciplinedRun fuel e s ms k) (hb : b < k) (ht : takeInterrupt (ms a) = .ok () m) (hi : next? (ms a) = some i)
  (hreturning : Returning ms a b vs v)

include hexecute hcall hstarted hrun hb ht hi hreturning

/-- When a function returns that an instruction has started, the caller goes on.  What it yields stands in the place of
the callee, as its base then says. -/
theorem wentOn_of_started (hbase : (ms b).regs.base = some (first + 1)) (hfirst : first ≤ vs.length)
    (hw : yielded constructing vs first v = some w) : WentOn m (ms (b + 1)) (vs.take first ++ [w]) := by
  have hstate := hrun.executed (Nat.lt_trans hreturning.later hb) ht hi hexecute
  rw [← hstate] at hcall hstarted
  rw [← hstarted.constructing] at hw
  exact (hrun.returns hb (hcall.of_taken ht) hreturning hbase hfirst hw).taken ht

theorem wentOn_in_place (hplace : InPlace ms a b) (hbelow : below <+: vs)
    (hw : yielded constructing vs below.length v = some w) : WentOn m (ms (b + 1)) (below ++ [w]) := by
  have hstate := hrun.executed (Nat.lt_trans hreturning.later hb) ht hi hexecute
  have hbase : (ms b).regs.base = some (below.length + 1) := by
    rw [← hstate] at hcall hstarted
    exact (hrun.base_kept hb (hcall.of_taken ht) hreturning hplace).trans hstarted.base
  have hwent := wentOn_of_started hexecute hcall hstarted hrun hb ht hi hreturning hbase hbelow.length_le hw
  rwa [← List.prefix_iff_eq_take.mp hbelow] at hwent

end Returns

end VM

end ScriptMachine
