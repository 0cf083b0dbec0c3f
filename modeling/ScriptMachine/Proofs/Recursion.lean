import Mathlib.Data.Nat.Count
import ScriptMachine.Proofs.Ceiling
import ScriptMachine.Proofs.Chains
import ScriptMachine.Proofs.Completion
import ScriptMachine.Proofs.OperandLists
import ScriptMachine.Proofs.TopLevel

/-!
# Calls at the ceiling

A call by an instruction is refused exactly if one more frame would reach one of two limits, and a refused call changes
neither frames nor registers.  So how deep a function can call itself depends on the limits only.

* `Called` — what becomes of such a call; `called_execute` says that this is so for every instruction that calls.

Main result: `frame_ceiling_exact`.
-/

namespace ScriptMachine

variable {n t : Nat} {o : ObjectId} {m : Machine}

/-! ### What bound functions lead to -/

namespace Store

theorem lt_size_of_callee {σ : Store} {c : Callee} (h : (σ.object o).callee? = some c) : o.index < σ.objects.size := by
  refine Nat.lt_of_not_le fun hge => ?_
  have hdefault : (σ.object o).settled = default := settled_of_size_le hge
  rw [Object.callee_eq, hdefault] at h
  cases h

/-- An object is a script function, or a bound function that leads to one: by way of these objects. -/
inductive Leads (σ : Store) (f : Closure) : ObjectId → List ObjectId → Prop where
  | script {o : ObjectId} (h : (σ.object o).callee? = some (.script f)) : Leads σ f o [o]
  | bound {o : ObjectId} {b : BoundFunction} {l : List ObjectId} (h : (σ.object o).callee? = some (.bound b))
      (rest : Leads σ f b.target l) : Leads σ f o (o :: l)

namespace Leads

variable {σ σ' : Store} {f : Closure} {o p : ObjectId} {l l' : List ObjectId}

theorem congr (h : Leads σ f o l) (hsame : ∀ o, (σ'.object o).callee? = (σ.object o).callee?) : Leads σ' f o l := by
  induction h with
  | script h => exact .script ((hsame _).trans h)
  | bound h _ ih => exact .bound ((hsame _).trans h) ih

theorem route (h : Leads σ f o l) : Route (fun o => match (σ.object o).callee? with
    | some (.bound b) => some b.target
    | _ => none) o l := by
  induction h with
  | script h => exact .last (by simp only [h])
  | bound h _ ih => exact .step (by simp only [h]) ih

theorem known (h : Leads σ f o l) : ∀ p ∈ l, p.index < σ.objects.size := by
  induction h with
  | script h => exact List.forall_mem_singleton.mpr (lt_size_of_callee h)
  | bound h _ ih => exact List.forall_mem_cons.mpr ⟨lt_size_of_callee h, ih⟩

theorem length_le (h : Leads σ f o l) : l.length ≤ σ.objects.size :=
  length_le_of_nodup ObjectId.index_injective h.route.nodup h.known

end Leads

end Store

namespace VM

/-! ### Calls of script functions -/

/-- A call with `n` arguments on the stack leads from an object to a script function. -/
structure CallsFrom (m : Machine) (n : Nat) (o : ObjectId) (f : Closure) : Prop where
  operands : n + 2 ≤ m.stack.top
  callee : m.stack.peek n = .ok (.object o)
  leads : ∃ l, m.store.Leads f o l

/-- A construction with `n` arguments on the stack runs a script function in the running loop. -/
def ConstructsWith (m : Machine) (n : Nat) (f : Closure) : Prop :=
  ∃ o, m.stack.peek n = .ok (.object o) ∧ (m.store.object o).callee? = some (.script f) ∧ f.kind.isNormal = true

/-- An instruction is about to call a script function: by a call, by a call by the name `eval` of another function than
that of the realm, or by `new`. -/
inductive CallsScript (m : Machine) (f : Closure) : Instruction → Prop where
  | call {n : Nat} {o : ObjectId} : CallsFrom m n o f → CallsScript m f (.call n)
  | callVariadic {n : Nat} {o : ObjectId} :
      variadicCount 2 m = .ok n m → CallsFrom m n o f → CallsScript m f .callVariadic
  | callEval {n : Nat} {o : ObjectId} {strict : Bool} :
      CallsFrom m n o f → o ≠ m.realm.eval → CallsScript m f (.callEval n strict)
  | callEvalVariadic {n : Nat} {o : ObjectId} {strict : Bool} :
      variadicCount 2 m = .ok n m → CallsFrom m n o f → o ≠ m.realm.eval → CallsScript m f (.callEvalVariadic strict)
  | construct {n : Nat} : ConstructsWith m n f → CallsScript m f (.construct n)
  | constructVariadic {n : Nat} :
      variadicCount 1 m = .ok n m → ConstructsWith m n f → CallsScript m f .constructVariadic

/-- A script function has been entered: its caller is saved, to go on after the call, and its code is about to start. -/
structure Activated (m : Machine) (f : Closure) (m' : Machine) : Prop where
  frames : m'.frames = { m.regs with pc := m.regs.pc + 1 } :: m.frames
  program : m'.regs.program = some f.template.program
  pc : m'.regs.pc = 0
  scope : m'.regs.scope = f.scope
  limits : m'.limits = m.limits
  handlers : m'.handlers = m.handlers
  depth : m'.depth = m.depth

/-- One more frame stays below both limits. -/
def Room (m : Machine) : Prop :=
  (m.limits.callDepth = 0 ∨ m.frames.length + 1 < m.limits.callDepth) ∧ m.frames.length + 1 < m.limits.maxFrames

/-- A call has been refused: nothing has been saved or entered. -/
structure Refused (m m' : Machine) : Prop where
  frames : m'.frames = m.frames
  regs : m'.regs = m.regs
  handlers : m'.handlers = m.handlers
  depth : m'.depth = m.depth

/-- What becomes of a call of a script function. -/
def Called (m : Machine) (f : Closure) (r : EStateM.Result Abort Machine Unit) : Prop :=
  (Room m → ∃ m', r = .ok () m' ∧ Activated m f m') ∧
    (¬ Room m → ∃ m', r = .error (.fault (.range .callDepth)) m' ∧ Refused m m')

/-- What a call prepares changes neither frames nor registers nor limits. -/
structure Readied (m m' : Machine) : Prop where
  frames : m'.frames = m.frames
  regs : m'.regs = m.regs
  limits : m'.limits = m.limits
  handlers : m'.handlers = m.handlers
  depth : m'.depth = m.depth

section Called

variable {m m₁ : Machine} {f : Closure} {r : EStateM.Result Abort Machine Unit}

theorem Readied.room_iff (h : Readied m m₁) : Room m₁ ↔ Room m := by
  unfold Room
  rw [h.frames, h.limits]

theorem Called.of_readied (h : Called m₁ f r) (hready : Readied m m₁) : Called m f r := by
  constructor
  · intro hroom
    obtain ⟨m', hr, he⟩ := h.1 (hready.room_iff.mpr hroom)
    refine ⟨m', hr, ⟨?_, he.program, he.pc, he.scope, he.limits.trans hready.limits,
      he.handlers.trans hready.handlers, he.depth.trans hready.depth⟩⟩
    rw [he.frames, hready.frames, hready.regs]
  · intro hroom
    obtain ⟨m', hr, he⟩ := h.2 fun h => hroom (hready.room_iff.mp h)
    exact ⟨m', hr, ⟨he.frames.trans hready.frames, he.regs.trans hready.regs, he.handlers.trans hready.handlers,
      he.depth.trans hready.depth⟩⟩

theorem called_of_refused (h : ¬ Room m) : Called m f (.error (.fault (.range .callDepth)) m) :=
  ⟨fun hroom => absurd hroom h, fun _ => ⟨m, rfl, ⟨rfl, rfl, rfl, rfl⟩⟩⟩

end Called

section Steps

variable {m : Machine} {f : Closure}

theorem called_checkDepth {k : VM Unit} (h : (m.limits.callDepth = 0 ∨ m.frames.length + 1 < m.limits.callDepth) →
    Called m f (k m)) : Called m f ((do checkDepth; k : VM Unit) m) := by
  by_cases hfull : m.limits.callDepth ≠ 0 ∧ m.limits.callDepth ≤ m.frames.length + 1
  · have hcheck : checkDepth m = .error (.fault (.range .callDepth)) m := congrFun (if_pos hfull) m
    rw [bind_error hcheck]
    refine called_of_refused fun hroom => ?_
    have hdepth := hroom.1
    omega
  · have hcheck : checkDepth m = .ok () m := congrFun (if_neg hfull) m
    rw [bind_ok hcheck]
    exact h (by omega)

theorem pushCaller_of_full (h : m.limits.maxFrames ≠ 0 ∧ m.limits.maxFrames ≤ m.frames.length + 1) :
    pushCaller m = .error (.fault (.range .callDepth)) m := by
  have hpush : pushFrame m.advanced = .error (.fault (.range .callDepth)) m.advanced :=
    congrFun (if_pos h) _
  unfold pushCaller
  rw [advance_bind, bind_ok (attempt_fault hpush)]
  rfl

theorem pushCaller_of_room (h : ¬ (m.limits.maxFrames ≠ 0 ∧ m.limits.maxFrames ≤ m.frames.length + 1)) :
    pushCaller m = .ok () { m.advanced with frames := m.advanced.regs :: m.frames } := by
  have hpush : pushFrame m.advanced = .ok () { m.advanced with frames := m.advanced.regs :: m.frames } :=
    congrFun (if_neg h) _
  unfold pushCaller
  rw [advance_bind, bind_ok (attempt_ok hpush)]
  rfl

theorem called_enterScript {first : Nat} (n : Nat) (newTarget : Option Value) (hlimit : m.limits.maxFrames ≠ 0)
    (hdepth : m.limits.callDepth = 0 ∨ m.frames.length + 1 < m.limits.callDepth) (hfirst : first + 1 < m.stack.top)
    (hslot : f.kind.isNormal = true ∨ first + 1 < m.stack.slots.size) :
    Called m f (enterScript f first n newTarget m) := by
  unfold enterScript
  by_cases hfull : m.limits.maxFrames ≠ 0 ∧ m.limits.maxFrames ≤ m.frames.length + 1
  · rw [bind_error (pushCaller_of_full hfull)]
    refine called_of_refused fun hroom => ?_
    have hmax := hroom.2
    omega
  · rw [bind_ok (pushCaller_of_room hfull)]
    have hroom : Room m := ⟨hdepth, by omega⟩
    refine ⟨fun _ => ?_, fun h => absurd hroom h⟩
    have hswap := OperandStack.swap_of_lt (Nat.lt_of_succ_lt hfirst) hfirst
    cases hkind : f.kind with
    | normal | method =>
      dsimp only
      rw [bind_ok (writeStack_of_ok hswap)]
      exact ⟨_, rfl, ⟨rfl, rfl, rfl, rfl, rfl, rfl, rfl⟩⟩
    | arrow this captured =>
      have hsize : first + 1 < m.stack.slots.size := by
        rw [hkind] at hslot
        exact hslot.resolve_left nofun
      dsimp only
      obtain ⟨m₁, hm₁⟩ : ∃ m₁, m₁ = { m.advanced with frames := m.advanced.regs :: m.frames } := ⟨_, rfl⟩
      have hstack : m₁.stack = m.stack := by rw [hm₁]; rfl
      rw [← hstack] at hfirst hsize
      rw [← hm₁, bind_ok (slot_of_getElem? hfirst (Array.getElem?_eq_getElem hsize))]
      rw [setSlots_bind hfirst hsize]
      subst hm₁
      exact ⟨_, rfl, ⟨rfl, rfl, rfl, rfl, rfl, rfl, rfl⟩⟩

theorem called_callWithin (enter : Enter) (fuel : Nat) {k : Nat} {l : List ObjectId} (hleads : m.store.Leads f o l)
    (hk : l.length ≤ k) (hlimit : m.limits.maxFrames ≠ 0) (hoperands : n + 2 ≤ m.stack.top)
    (hcallee : m.stack.peek n = .ok (.object o)) : Called m f (callWithin enter fuel k n m) := by
  induction l generalizing m k n o with
  | nil => cases hleads
  | cons o' l ih =>
    obtain ⟨k, rfl⟩ : ∃ k', k = k' + 1 := ⟨k - 1, by rw [List.length_cons] at hk; omega⟩
    refine called_checkDepth fun hdepth => ?_
    have hbase : callBase n m = .ok (m.stack.top - (n + 2)) m := congrFun (if_neg (Nat.not_lt.mpr hoperands)) m
    rw [bind_ok hbase]
    generalize hfirst : m.stack.top - (n + 2) = first
    have htop : first + 1 < m.stack.top := by omega
    have hslot : m.stack.slots[first + 1]? = some (.object o) := by
      have hpeek := (OperandStack.peek_eq_ok.mp hcallee).2
      rwa [show m.stack.top - (n + 1) = first + 1 by omega] at hpeek
    have hsize : first + 1 < m.stack.slots.size := (Array.getElem?_eq_some_iff.mp hslot).1
    rw [bind_ok (slot_of_getElem? htop hslot)]
    cases hleads with
    | script hscript =>
      rw [bind_ok (calleeOf_of_some hscript)]
      exact (called_enterScript (m := { m with store := m.store.seen _ }) n none hlimit hdepth htop
        (.inr hsize)).of_readied ⟨rfl, rfl, rfl, rfl, rfl⟩
    | @bound _ b _ hbound rest =>
      have hsame := m.store.callee_seen (.object o')
      rw [bind_ok (calleeOf_of_some hbound)]
      generalize m.store.seen (.object o') = σ at hsame ⊢
      dsimp only
      rw [setSlots_bind (m := { m with store := σ }) htop hsize]
      -- the callee stands below what is put in
      obtain ⟨s, hinsert, htop', hkept⟩ := OperandStack.exists_insertAt (s := { m.stack with
          slots := (m.stack.slots.setIfInBounds first b.this).setIfInBounds (first + 1) (.object b.target) })
        htop b.args
      rw [bind_ok (writeStack_of_ok hinsert)]
      have htarget : s.slots[first + 1]? = some (.object b.target) := by
        rw [hkept (first + 1) (Nat.lt_succ_self _) (by simpa using hsize)]
        simp [hsize]
      have hnext : s.peek (n + b.args.length) = .ok (.object b.target) := by
        refine OperandStack.peek_eq_ok.mpr ⟨by rw [htop']; dsimp only; omega, ?_⟩
        rw [htop', show m.stack.top + b.args.length - (n + b.args.length + 1) = first + 1 by omega, htarget]
      refine (ih (m := { m with store := σ, stack := s }) (rest.congr hsame) ?_ hlimit ?_ hnext).of_readied
        ⟨rfl, rfl, rfl, rfl, rfl⟩
      · rw [List.length_cons] at hk
        omega
      · rw [htop']
        dsimp only
        omega

theorem called_call (enter : Enter) (fuel : Nat) (hlimit : m.limits.maxFrames ≠ 0) (h : CallsFrom m n o f) :
    Called m f (call enter fuel n m) := by
  obtain ⟨l, hleads⟩ := h.leads
  exact called_callWithin enter fuel hleads (Nat.le_succ_of_le hleads.length_le) hlimit h.operands h.callee

theorem called_callEval (enter : Enter) (fuel : Nat) (strict : Bool) (hlimit : m.limits.maxFrames ≠ 0)
    (h : CallsFrom m n o f) (ho : o ≠ m.realm.eval) : Called m f (callEval enter fuel n strict m) := by
  have hoperands := h.operands
  have hbase : callBase n m = .ok (m.stack.top - (n + 2)) m := congrFun (if_neg (Nat.not_lt.mpr hoperands)) m
  have hslot : slot (m.stack.top - (n + 2) + 1) m = .ok (.object o) m := by
    refine slot_of_getElem? (by omega) ?_
    have hpeek := (OperandStack.peek_eq_ok.mp h.callee).2
    rwa [show m.stack.top - (n + 1) = m.stack.top - (n + 2) + 1 by omega] at hpeek
  unfold callEval
  rw [bind_ok hbase, bind_ok hslot]
  dsimp only
  rw [realm_bind, if_neg ho]
  exact called_call enter fuel hlimit h

theorem freshReceiver_eq (newTarget : Value) (m : Machine) :
    ∃ v σ, freshReceiver newTarget m = .ok v { m with store := σ } := by
  have hprototype : ∃ p σ, namedPrototype newTarget m = .ok p { m with store := σ } := by
    cases newTarget with
    | object o =>
      obtain ⟨found, σ, hget⟩ : ∃ found σ, onStore (Store.get? o (.ofString "prototype")) m =
        .ok found { m with store := σ } := ⟨_, _, rfl⟩
      unfold namedPrototype
      dsimp only
      rw [bind_ok hget]
      cases found with
      | none => exact ⟨_, _, rfl⟩
      | some v => cases v <;> exact ⟨_, _, rfl⟩
    | _ => exact ⟨_, _, rfl⟩
  obtain ⟨p, σ, hp⟩ := hprototype
  unfold freshReceiver
  rw [bind_ok hp]
  exact ⟨_, _, rfl⟩

theorem called_construct (enter : Enter) (hlimit : m.limits.maxFrames ≠ 0) (h : ConstructsWith m n f) :
    Called m f (construct enter n m) := by
  obtain ⟨o, hcallee, hscript, hnormal⟩ := h
  obtain ⟨hoperands, hslot⟩ := OperandStack.peek_eq_ok.mp hcallee
  refine called_checkDepth fun hdepth => ?_
  rw [top_bind, if_neg (Nat.not_lt.mpr hoperands)]
  generalize hfirst : m.stack.top - (n + 1) = first at hslot ⊢
  rw [bind_ok (slot_of_getElem? (by omega) hslot)]
  have hconstructor : m.store.constructor? (.object o) = some f := by
    simp only [Store.constructor?, hscript, hnormal, if_true]
  rw [bind_ok (scriptConstructor_eq _ m), hconstructor]
  dsimp only
  obtain ⟨this, σ', hthis⟩ := freshReceiver_eq (.object o) { m with store := m.store.seen (.object o) }
  rw [bind_ok hthis]
  obtain ⟨s, hinsert, htop', _⟩ := OperandStack.exists_insertAt (s := m.stack) (i := first) (by omega) [this]
  rw [bind_ok (writeStack_of_ok hinsert)]
  refine (called_enterScript (m := { m with store := σ', stack := s }) n (some (.object o)) hlimit hdepth ?_
    (.inl hnormal)).of_readied ⟨rfl, rfl, rfl, rfl, rfl⟩
  rw [htop', List.length_singleton]
  omega

/-- **A call of a script function by an instruction is refused exactly if there is no room for its frame.** -/
theorem called_execute (enter : Enter) (fuel : Nat) {i : Instruction} (hlimit : m.limits.maxFrames ≠ 0)
    (h : CallsScript m f i) : Called m f (execute enter fuel i m) := by
  cases h with
  | call h => exact called_call enter fuel hlimit h
  | callVariadic hcount h =>
    show Called m f ((variadicCount 2 >>= fun n => call enter fuel n) m)
    rw [bind_ok hcount]
    exact called_call enter fuel hlimit h
  | callEval h ho => exact called_callEval enter fuel _ hlimit h ho
  | @callEvalVariadic _ _ strict hcount h ho =>
    show Called m f ((variadicCount 2 >>= fun n => callEval enter fuel n strict) m)
    rw [bind_ok hcount]
    exact called_callEval enter fuel _ hlimit h ho
  | construct h => exact called_construct enter hlimit h
  | constructVariadic hcount h =>
    show Called m f ((variadicCount 1 >>= fun n => construct enter n) m)
    rw [bind_ok hcount]
    exact called_construct enter hlimit h

end Steps

end VM

/-! ### The error of a refused call -/

def Store.IsError (σ : Store) (v : Value) (kind : ErrorKind) (message : String) : Prop :=
  ∃ o, v = .object o ∧ (σ.object o).kind = .error kind none ∧
    (σ.object o).properties.find? (.ofString "message") = some (.hidden (.text (Text.ofString message)))

/-- The smaller of the two limits on frames, unless the one on calls is not set. -/
def Limits.ceiling (l : Limits) : Nat := if l.callDepth = 0 then l.maxFrames else min l.callDepth l.maxFrames

namespace VM

/-- A fault that reaches scripts as a thrown error object. -/
def Catchable (f : Fault) (kind : ErrorKind) (message : String) : Prop :=
  ∀ m, ∃ e σ, settle f m = .ok (.thrown e) { m with store := σ } ∧ σ.IsError e.value kind message

theorem catchable_range (cause : RangeCause) : Catchable (.range cause) .range cause.message := by
  intro m
  have hnew : ∀ x : Object, (m.store.objects.push x)[m.store.objects.size]? = some x := fun x =>
    Array.getElem?_push_size
  refine ⟨_, _, rfl, ⟨m.store.objects.size⟩, rfl, ?_⟩
  constructor
  · exact congrArg (fun x : Option Object => (x.getD default).kind) (hnew _)
  · refine (congrArg (fun x : Option Object => (x.getD default).properties.find? (.ofString "message")) (hnew _)).trans ?_
    exact PropertyTable.find?_insert _ _ _ _

/-! ### Functions that only call themselves -/

theorem room_iff : Room m ↔ m.frames.length + 1 < m.limits.ceiling := by
  unfold Room Limits.ceiling
  split <;> omega

/-- Along a history a function is called, and nothing else: any other instruction is no call, no return, no end and no
try statement, starts no nested entry and does not fail.  There is no interrupt. -/
def OnlyCalls (fuel : Nat) (f : Closure) (ms : Nat → Machine) (k : Nat) : Prop :=
  ∀ t < k, (ms t).interrupt = none ∧ ∃ i, next? (ms t) = some i ∧
    (CallsScript (ms t) f i ∨ i.isTransfer = false ∧ ∀ enter, step enter fuel (ms t) = .ok () (ms (t + 1)))

open Classical in
/-- How often a function has been activated along a history. -/
noncomputable def activations (f : Closure) (ms : Nat → Machine) (k : Nat) : Nat :=
  Nat.count (fun t => Activated (ms t) f (ms (t + 1))) k

/-- So many activations are under way below the program, and none of them is in a try statement. -/
structure Sunk (l : Limits) (d : Nat) (m : Machine) : Prop where
  frames : m.frames.length = d + 1
  limits : m.limits = l
  handlers : m.handlers = []

/-- What a turn of a function that only calls itself does. -/
inductive Sinks (f : Closure) (l : Limits) (d : Nat) (m : Machine) (turn : EStateM.Result Abort Machine Unit) :
    Prop where
  /-- The function is activated once more. -/
  | deeper {m' : Machine} (ok : turn = .ok () m') (activated : Activated m f m') (room : d + 2 < l.ceiling)
      (sunk : Sunk l (d + 1) m')
  /-- There is no call. -/
  | stays {m' : Machine} (ok : turn = .ok () m') (same : m'.frames = m.frames) (sunk : Sunk l d m')
  | refused {e : Exception} {m' : Machine} (fails : turn = .error (.fault (.thrown e)) m')
      (error : m'.store.IsError e.value .range RangeCause.callDepth.message) (same : m'.frames = m.frames)
      (full : ¬ d + 2 < l.ceiling)

section Recursion

variable {fuel k : Nat} {f : Closure} {l : Limits} {ms : Nat → Machine}

theorem sameControl_of_step {m' : Machine} {i : Instruction} (hnext : next? m = some i)
    (hinterrupt : m.interrupt = none) (hplain : i.isTransfer = false) (hstep : ∀ enter, step enter fuel m = .ok () m') :
    SameControl m m' := by
  have hobeys : Heeds controlling.strict (execute (fun _ => outOfFuel) fuel i) :=
    obeys_execute (fun _ _ => obeys_outOfFuel.when _) fuel hplain
  refine hobeys.rel_of_ok trivial (a := ()) ?_
  rw [← step_eq _ fuel (takeInterrupt_of_none hinterrupt) hnext]
  exact hstep _

theorem sinks_turn (hlimit : l.maxFrames ≠ 0) {d : Nat} (ht : t < k) (honly : OnlyCalls fuel f ms k)
    (hsunk : Sunk l d (ms t)) : Sinks f l d (ms t) (turn (enter fuel) fuel (ms t)) := by
  obtain ⟨hinterrupt, i, hnext, hcall | ⟨hplain, hstep⟩⟩ := honly t ht
  · have hcalled : Called (ms t) f (step (enter fuel) fuel (ms t)) := by
      rw [step_eq _ fuel (takeInterrupt_of_none hinterrupt) hnext]
      exact called_execute (enter fuel) fuel (by rwa [hsunk.limits]) hcall
    have hroom : Room (ms t) ↔ d + 2 < l.ceiling := by rw [room_iff, hsunk.frames, hsunk.limits]
    by_cases hr : Room (ms t)
    · obtain ⟨m', hstep, hactivated⟩ := hcalled.1 hr
      refine .deeper (turn_of_step hstep) hactivated (hroom.mp hr) ⟨?_, ?_, ?_⟩
      · rw [hactivated.frames, List.length_cons, hsunk.frames]
      · exact hactivated.limits.trans hsunk.limits
      · exact hactivated.handlers.trans hsunk.handlers
    · obtain ⟨m', hstep, hrefused⟩ := hcalled.2 hr
      obtain ⟨e, σ, hsettle, herror⟩ := catchable_range .callDepth m'
      have hframes : { m' with store := σ }.frames = (ms t).frames := hrefused.frames
      refine .refused ?_ herror hframes fun h => hr (hroom.mpr h)
      have hhandlers : m'.handlers = [] := hrefused.handlers.trans hsunk.handlers
      unfold turn unwind
      rw [bind_ok (attempt_fault hstep)]
      dsimp only
      rw [bind_ok hsettle]
      refine unwindWithin_of_not_owned _ _ _ fun h hh => ?_
      rw [show ({ m' with store := σ } : Machine).handlers = [] from hhandlers] at hh
      cases hh
  · have hsame := sameControl_of_step hnext hinterrupt hplain hstep
    refine .stays (turn_of_step (hstep _)) hsame.frames ⟨?_, ?_, ?_⟩
    · rw [hsame.frames, hsunk.frames]
    · exact hsame.limits.trans hsunk.limits
    · exact hsame.handlers.trans hsunk.handlers

theorem activations_succ_of (h : Activated (ms k) f (ms (k + 1))) :
    activations f ms (k + 1) = activations f ms k + 1 := by
  unfold activations
  rw [Nat.count_succ, if_pos h]

theorem activations_succ_of_not (h : ¬ Activated (ms k) f (ms (k + 1))) :
    activations f ms (k + 1) = activations f ms k := by
  unfold activations
  rw [Nat.count_succ, if_neg h, Nat.add_zero]

theorem not_activated {m' : Machine} (h : m'.frames = m.frames) : ¬ Activated m f m' := by
  intro hactivated
  have hlength := congrArg List.length (h.symm.trans hactivated.frames)
  rw [List.length_cons] at hlength
  omega

variable (hlimit : l.maxFrames ≠ 0) (honly : OnlyCalls fuel f ms k) (h0 : Sunk l 0 (ms 0))

include hlimit honly h0

/-- As long as no turn has failed, each activation has left a frame. -/
theorem sunk_activations (ht : t ≤ k) (hok : ∀ s < t, turn (enter fuel) fuel (ms s) = .ok () (ms (s + 1))) :
    Sunk l (activations f ms t) (ms t) ∧ activations f ms t ≤ l.ceiling - 2 := by
  induction t with
  | zero => exact ⟨h0, Nat.zero_le _⟩
  | succ t ih =>
    obtain ⟨hsunk, hle⟩ := ih (by omega) fun s hs => hok s (by omega)
    cases sinks_turn hlimit ht honly hsunk with
    | deeper ok activated room sunk =>
      cases (hok t (by omega)).symm.trans ok
      rw [activations_succ_of activated]
      exact ⟨sunk, by omega⟩
    | stays ok same sunk =>
      cases (hok t (by omega)).symm.trans ok
      rw [activations_succ_of_not (not_activated same)]
      exact ⟨sunk, hle⟩
    | refused fails => cases (hok t (by omega)).symm.trans fails

variable (H : History (turn (enter fuel) fuel) ms k)

include H

/-- The turn that fails is a call, and comes after as many activations as the limits allow. -/
theorem activations_of_fails (ht : t + 1 = k) {g : Fault}
    (hfails : turn (enter fuel) fuel (ms t) = .error (.fault g) (ms k)) :
    activations f ms k = l.ceiling - 2 ∧
      ∃ e, g = .thrown e ∧ (ms k).store.IsError e.value .range RangeCause.callDepth.message := by
  have hok : ∀ s < t, turn (enter fuel) fuel (ms s) = .ok () (ms (s + 1)) := fun s hs =>
    (H s (by omega)).2.resolve_right fun h => by omega
  obtain ⟨hsunk, hle⟩ := sunk_activations hlimit honly h0 (by omega) hok
  cases sinks_turn hlimit (by omega) honly hsunk with
  | deeper ok => cases hfails.symm.trans ok
  | stays ok => cases hfails.symm.trans ok
  | refused fails error same full =>
    cases hfails.symm.trans fails
    subst ht
    rw [activations_succ_of_not (not_activated same)]
    exact ⟨by omega, _, rfl, error⟩

theorem activations_le : activations f ms k ≤ l.ceiling - 2 := by
  cases k with
  | zero => exact (sunk_activations hlimit honly h0 (Nat.le_refl 0) fun s hs => absurd hs (Nat.not_lt_zero s)).2
  | succ t =>
    have hok : ∀ s < t, turn (enter fuel) fuel (ms s) = .ok () (ms (s + 1)) := fun s hs =>
      (H s (by omega)).2.resolve_right fun h => by omega
    rcases (H t (Nat.lt_succ_self t)).2 with hlast | ⟨_, g, hfails⟩
    · refine (sunk_activations hlimit honly h0 (Nat.le_refl _) fun s hs => ?_).2
      rcases Nat.lt_succ_iff_lt_or_eq.mp hs with hlt | rfl
      · exact hok s hlt
      · exact hlast
    · exact Nat.le_of_eq (activations_of_fails hlimit honly h0 H rfl hfails).1

end Recursion

theorem sunk_programStart (p : ProgramId) (hm : m.TopLevel) : Sunk m.limits 0 (nested (programStart p m)) := by
  refine ⟨?_, rfl, hm.handlers⟩
  show (m.regs :: m.frames).length = 0 + 1
  rw [hm.frames]
  rfl

/-- **The ceiling on frames is exact.**  Let the limit on frames be set.
* In a run from the top level throughout which the limit stays the same, there are fewer frames than it says before every
  entry and every turn, and at the end.
* An instruction that calls a script function enters it if and only if one more frame is below both limits.  Otherwise it
  raises a range error, which scripts can catch, and no frame is added and no register changed.
* A function that only calls itself, started by a program at the top level, is activated as often as the smaller limit
  says, less two: no more often at any time, and exactly as often when a turn fails, which it does with that error. -/
theorem frame_ceiling_exact {cap : Nat} (hcap : 0 < cap) :
    (∀ fuel e m, m.TopLevel → Throughout (fun m => m.limits.maxFrames = cap) fuel e m →
      Throughout (fun m => m.frames.length < cap) fuel e m ∧
        ∀ m', Ends (enter fuel e) m m' → m'.frames.length < cap) ∧
    (∀ enter fuel m i f, m.limits.maxFrames = cap → CallsScript m f i →
      ((∃ m', execute enter fuel i m = .ok () m' ∧ Activated m f m') ↔
        (m.limits.callDepth = 0 ∨ m.frames.length + 1 < m.limits.callDepth) ∧ m.frames.length + 1 < cap) ∧
      (¬ ((m.limits.callDepth = 0 ∨ m.frames.length + 1 < m.limits.callDepth) ∧ m.frames.length + 1 < cap) →
        ∃ m', execute enter fuel i m = .error (.fault (.range .callDepth)) m' ∧ Refused m m')) ∧
    Catchable (.range .callDepth) .range "Maximum call stack size exceeded" ∧
    ∀ fuel p m f ms k, m.TopLevel → m.limits.maxFrames = cap → ms 0 = nested (programStart p m) →
      History (turn (enter fuel) fuel) ms k → OnlyCalls fuel f ms k →
      activations f ms k ≤ m.limits.ceiling - 2 ∧
        ∀ t g, t + 1 = k → turn (enter fuel) fuel (ms t) = .error (.fault g) (ms k) →
          activations f ms k = m.limits.ceiling - 2 ∧
            ∃ e, g = .thrown e ∧ (ms k).store.IsError e.value .range "Maximum call stack size exceeded" := by
  refine ⟨fun fuel e m hm hheld => ?_, fun enter fuel m i f hlimit hcall => ?_, catchable_range .callDepth,
    fun fuel p m f ms k hm hlimit h0 H honly => ?_⟩
  · have hbelow : Below cap m := by
      show m.frames.length < cap
      rw [hm.frames]
      exact hcap
    exact below_throughout hbelow hheld
  · obtain ⟨henters, hrefuses⟩ := called_execute enter fuel (by omega) hcall
    have hroom : Room m ↔ (m.limits.callDepth = 0 ∨ m.frames.length + 1 < m.limits.callDepth) ∧
        m.frames.length + 1 < cap := by rw [← hlimit]; rfl
    refine ⟨⟨fun ⟨m', hok, _⟩ => ?_, fun h => henters (hroom.mpr h)⟩, fun h => hrefuses fun hr => h (hroom.mp hr)⟩
    refine hroom.mp (Classical.byContradiction fun hr => ?_)
    obtain ⟨_, hfault, _⟩ := hrefuses hr
    cases hok.symm.trans hfault
  · have hset : m.limits.maxFrames ≠ 0 := by omega
    have hsunk : Sunk m.limits 0 (ms 0) := h0 ▸ sunk_programStart p hm
    exact ⟨activations_le hset honly hsunk H, fun t g ht hfails => activations_of_fails hset honly hsunk H ht hfails⟩

/-! ### A recursion -/

/-- A program that calls a function which calls itself, with room for five frames and calls up to four. -/
def recursing : Machine :=
  { withFunctions [#[.loadUndefined, .loadConstant 0, .call 0, .halt],
      #[.enterBare 0 0, .loadUndefined, .loadCallee, .call 0, .ret]] with
    limits := { Limits.default with maxFrames := 5, callDepth := 4 } }

/-- The function that calls itself. -/
def recursive : Closure := ⟨⟨⟨1⟩, Text.ofString "f", 0, false⟩, recursing.realm.globalScope, .normal⟩

def recursingRun : Nat → Machine := stateAfter (enter 16) 16 (nested (programStart ⟨0⟩ recursing))

theorem onlyCalls_recursing : OnlyCalls 16 recursive recursingRun 11 := by
  intro t ht
  match t, ht with
  | 0, _ | 1, _ | 3, _ | 4, _ | 5, _ | 7, _ | 8, _ | 9, _ => exact ⟨rfl, _, rfl, .inr ⟨rfl, fun _ => rfl⟩⟩
  | 2, _ | 6, _ | 10, _ => exact ⟨rfl, _, rfl, .inl (.call ⟨by decide +kernel, rfl, _, .script (o := ⟨1⟩) rfl⟩)⟩

/-- There are two activations: the second is entered with two frames saved, and the third is refused with three. -/
theorem frame_ceiling_exact_recursing :
    Throughout (fun m => m.frames.length < 5) 17 (.program ⟨0⟩) recursing ∧
      (∃ m', execute (enter 16) 16 (.call 0) (recursingRun 6) = .ok () m' ∧ Activated (recursingRun 6) recursive m') ∧
      activations recursive recursingRun 11 = 2 := by
  have hm : recursing.TopLevel := ⟨(Machine.topLevel_new .default).toIdle.of_same rfl rfl rfl rfl rfl, rfl⟩
  have hheld : Throughout (fun m => m.limits.maxFrames = 5) 17 (.program ⟨0⟩) recursing :=
    throughout_of_tested (p := fun m => m.limits.maxFrames == 5) (fun m h => by simpa using h) (by decide +kernel)
  have H : History (turn (enter 16) 16) recursingRun 11 := history_stateAfter (by decide +kernel)
  obtain ⟨hbelow, hcalls, _, hdepth⟩ := frame_ceiling_exact (by decide : 0 < 5)
  refine ⟨(hbelow 17 _ recursing hm hheld).1, ?_, ?_⟩
  · have hcall : CallsScript (recursingRun 6) recursive (.call 0) :=
      .call ⟨by decide +kernel, rfl, _, .script (o := ⟨1⟩) rfl⟩
    exact ((hcalls (enter 16) 16 (recursingRun 6) (.call 0) recursive rfl hcall).1).mpr (by decide +kernel)
  · have hfails : succeeds? (turn (enter 16) 16) (recursingRun 10) = some false := by decide +kernel
    rcases (H 10 (by decide)).2 with hok | ⟨_, g, hfault⟩
    · unfold succeeds? at hfails
      rw [hok] at hfails
      cases hfails
    · exact ((hdepth 16 ⟨0⟩ recursing recursive recursingRun 11 hm rfl rfl H onlyCalls_recursing).2 10 g rfl hfault).1

end VM

end ScriptMachine
