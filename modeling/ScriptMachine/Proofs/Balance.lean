import ScriptMachine.Proofs.Anchors

/-!
# Balance

Entries that keep the discipline are balanced: after one that succeeds, frames and registers are as they were, and
after one that fails too, unless it evaluates source text.

* `balanced_runScript`, `balanced_evaluate`, `balanced_runGlobally` — what is done around a loop brings frames and
  registers back.
* `nests_disciplined` — the result for entries, however deeply nested.
-/

namespace ScriptMachine.VM

/-! ### Dispatch loops -/

theorem obeys_checked {L : Law} {p : Machine → Prop} {x : VM α} (h : ∀ m, L.pre m → p m → L.Allows m (x m)) :
    Heeds L (do check p outOfFuel; x) := by
  refine obeys_self fun m hm => ?_
  by_cases hp : p m
  · rw [bind_ok (check_of_true hp)]
    exact h m hm hp
  · have hstop : check p outOfFuel m = .error .outOfFuel m := check_of_false hp
    rw [bind_error hstop]
    trivial

/-- A turn of a dispatch loop that is stopped where the discipline is broken. -/
noncomputable def disciplinedTurn (enter : Enter) (fuel : Nat) (e : Entry) (s : Machine) : VM Unit := do
  check (discipline.turn e s) outOfFuel
  turn enter fuel

/-- What a dispatch loop started from `s` may end with. -/
def Leaves (e : Entry) (s : Machine) : EStateM.Result Abort Machine Unit → Prop
  | .ok _ m' => m'.handlers = s.handlers ∧ m'.depth = s.depth ∧ m'.halted = false ∧
      m'.frames = if e.runsProgram then s.frames else s.frames.tail
  | .error (.fault _) m' => Deepened s m'
  | .error .outOfFuel _ => True

theorem running_nested {s : Machine} (hs : s.WellNested) : Running s (nested s) := by
  have hnone : ∀ h ∈ s.handlers, h.depth ≠ s.depth + 1 := by
    intro h hh
    have hle := hs.below h hh
    omega
  refine ⟨inside_start rfl rfl, ⟨[], rfl, by simp⟩, ⟨?_, ?_, ?_⟩, rfl⟩
  · exact fun h hh hd => absurd hd (hnone h hh)
  · exact fun h hh hd => absurd hd (hnone h hh)
  · exact List.pairwise_of_forall_mem_list fun _ _ outer ho hd => absurd hd (hnone outer ho)

section Dispatch

variable {enter : Enter} (he : Nests enter) (fuel : Nat) {e : Entry} {s : Machine}

include he

theorem stays_disciplinedTurn (hs : s.WellNested) (hbound : Bounded e s) {m : Machine} (hm : Running s m) :
    Stays e s (disciplinedTurn enter fuel e s m) := by
  rcases h : disciplinedTurn enter fuel e s m with ⟨_, m'⟩ | ⟨_ | _, m'⟩
  case error.outOfFuel => trivial
  all_goals
    obtain ⟨hkeeps, hturn⟩ := passed_of_check h nofun
    exact hturn ▸ stays_turn he hs fuel hm hbound hkeeps

/-- **What a dispatch loop does to frames.** -/
theorem leaves_dispatch (hs : s.WellNested) (hbound : Bounded e s) :
    Leaves e s (watchedDispatch discipline outOfFuel enter fuel e s) := by
  show Leaves e s (dispatch (disciplinedTurn enter fuel e s) fuel s)
  by_cases hdeep : s.limits.maxLoops < s.depth + 1
  · rw [dispatch_of_deep _ _ hdeep]
    have hin : Inside s { s with depth := s.depth + 1 } := inside_start rfl rfl
    exact ⟨hin.left.1, hin.left.2, List.suffix_refl _, fun _ => rfl⟩
  · rw [dispatch_of_not_deep _ _ hdeep]
    have hloop := stays_loop (fun m hm => stays_disciplinedTurn he fuel hs hbound hm) fuel (.inl (running_nested hs))
    rcases h : loop (disciplinedTurn enter fuel e s) fuel (nested s) with ⟨⟨⟩, m⟩ | ⟨f | _, m⟩
    · rw [h] at hloop
      rcases hloop with hrunning | hended
      · have hhalted := halted_of_loop h
        rw [hrunning.halted] at hhalted
        cases hhalted
      · exact ⟨hended.inside.left.1, hended.inside.left.2, rfl, hended.frames⟩
    · rw [h] at hloop
      exact ⟨hloop.1.left.1, hloop.1.left.2, hloop.2, fun _ => rfl⟩
    · trivial

theorem steady_program (he' : e.runsProgram = true) :
    Heeds steady (watchedDispatch discipline outOfFuel enter fuel e) := by
  refine obeys_self fun s hs => ?_
  have hbound : Bounded e s := fun h => by rw [he'] at h; cases h
  have hleaves := leaves_dispatch he fuel hs hbound
  generalize watchedDispatch discipline outOfFuel enter fuel e s = r at hleaves ⊢
  rcases r with ⟨⟨⟩, m⟩ | ⟨f | _, m⟩
  · obtain ⟨hhandlers, hdepth, hhalted, hframes⟩ := hleaves
    rw [if_pos he'] at hframes
    exact ⟨hhandlers, hdepth, hframes, fun _ => hhalted⟩
  · exact hleaves
  · trivial

end Dispatch

/-! ### Programs -/

/-- What is done for a program between saving the running activation and going back to it. -/
def programBody (run : VM Unit) (p : ProgramId) (this : Value) : VM Value := do
  startProgram p this
  run
  let v := (← regs).result
  modifyRegs fun r => { r with result := .undefined }
  return v

theorem programBody_bind (run : VM Unit) (p : ProgramId) (this : Value) (top : Nat) :
    (do startProgram p this; run; endProgram top) =
      (do let v ← programBody run p this; popFrame; setTop top; return v : VM Value) := by
  unfold programBody endProgram
  simp only [bind_assoc, pure_bind]

theorem steady_startProgram (p : ProgramId) (this : Value) : Heeds steady (startProgram p this) :=
  obeys_top.bind fun _ => (steady_modifyRegs _).bind fun _ => obeys_push _

/-- Set the registers for code in the global scope. -/
def enterGlobally : VM Realm := do
  let realm ← realm
  modifyRegs fun r => { r with scope := realm.globalScope, newTarget := .undefined }
  return realm

theorem steady_enterGlobally : Heeds steady enterGlobally :=
  obeys_realm.bind fun _ => (steady_modifyRegs _).bind fun _ => obeys_pure _

theorem runGlobally_eq (run : VM Unit) (p : ProgramId) : runGlobally run p = (do
    let top ← top
    pushFrame
    let realm ← enterGlobally
    startProgram p (.object realm.global)
    run
    endProgram top) := by
  unfold runGlobally enterGlobally
  simp only [bind_assoc, pure_bind]

def toGlobalScope : VM Unit := do
  let realm ← realm
  modifyRegs fun r => { r with scope := realm.globalScope }

theorem steady_toGlobalScope : Heeds steady toGlobalScope := obeys_realm.bind fun _ => steady_modifyRegs _

section Programs

variable {run : VM Unit} (hrun : Heeds steady run)

include hrun

theorem steady_programBody (p : ProgramId) (this : Value) : Heeds steady (programBody run p this) := by
  refine (steady_startProgram p this).bind fun _ => hrun.bind fun _ => obeys_regs.bind fun _ => ?_
  exact (steady_modifyRegs _).bind fun _ => obeys_pure _

theorem balanced_program {α : Type} {x : VM α} (hx : Heeds steady x) (p : ProgramId) (this : α → Value) (top : Nat) :
    Heeds balanced (do pushFrame; let a ← x; startProgram p (this a); run; endProgram top) := by
  have hsplit : (do pushFrame; let a ← x; startProgram p (this a); run; endProgram top) = (do
      pushFrame
      let v ← (do let a ← x; programBody run p (this a))
      popFrame
      setTop top
      return v) := by
    simp only [programBody_bind, bind_assoc]
  rw [hsplit]
  refine balanced_saved (hx.bind fun a => steady_programBody hrun p (this a)) fun v => ?_
  refine Obeys.bind (obeys_modify ?_) fun _ => obeys_pure v
  exact fun _ => ⟨rfl, rfl, rfl, rfl, id⟩

theorem balanced_runGlobally (p : ProgramId) : Heeds balanced (runGlobally run p) := by
  exact obeys_top.bind fun top => balanced_program hrun steady_enterGlobally p (fun realm => .object realm.global) top

theorem balanced_evaluate (source : Text) (direct strict : Bool) (this : Value) :
    Heeds balanced (evaluate run source direct strict this) := by
  cases direct with
  | true =>
    refine obeys_inFunction.bind fun _ => (obeys_compile _ _).bind fun p => obeys_top.bind fun top => ?_
    exact balanced_program hrun (obeys_pure PUnit.unit) p (fun _ => this) top
  | false =>
    refine (obeys_pure _).bind fun _ => (obeys_compile _ _).bind fun p => obeys_top.bind fun top => ?_
    exact balanced_program hrun steady_toGlobalScope p (fun _ => this) top

end Programs

/-! ### Functions -/

/-- What is done for a script function between saving the running activation and going back to it. -/
def functionBody (run : VM Unit) (callee : ObjectId) (f : Closure) (this : Value) (args : List Value)
    (newTarget : Value) : VM Value := do
  modifyRegs fun r => { r with program := none, native := none }
  push (.object callee)
  let base ← top
  push (receivers f this newTarget).1
  pushAll args
  pushFrame
  modifyRegs fun r =>
    { r with
      args := args.length, program := some f.template.program, scope := f.scope, base := some base, pc := 0
      newTarget := (receivers f this newTarget).2, constructing := false }
  run
  pop

theorem runScript_eq (run : VM Unit) (callee : ObjectId) (f : Closure) (this : Value) (args : List Value)
    (newTarget : Value) : runScript run callee f this args newTarget = (do
      pushFrame
      let v ← functionBody run callee f this args newTarget
      popFrame
      return v) := by
  unfold runScript enterFromOutside functionBody
  simp only [bind_assoc]

/-- The running activation is a boundary. -/
def AtBoundary (m : Machine) : Prop := m.WellNested ∧ m.regs.isBoundary = true

instance : (preparing AtBoundary).Operands where
  operands h hpc := by
    refine ⟨⟨h.toSameControl, h.base, hpc⟩, fun hm => ⟨hm.1.congr h.handlers h.depth, ?_⟩⟩
    unfold Activation.isBoundary
    rw [h.program, h.native]
    exact hm.2

theorem steady_bind {P : Machine → Prop} {x : VM α} {k : α → VM β} (hx : Heeds (preparing P) x)
    (hk : ∀ a m, P m → steady.Allows m (k a m)) {m : Machine} (hm : P m) : steady.Allows m ((x >>= k) m) :=
  prepared_bind (fun hsame h => h.trans hsame.steady) (fun hsame => hsame.steady.deepened) trivial
    hx hk hm

section Functions

variable {enter : Enter} (he : Nests enter) (fuel : Nat) {e : Entry} (he' : e.runsProgram = false)

include he he'

theorem steady_function (g : Activation → Activation) {m : Machine} (hm : AtBoundary m) :
    steady.Allows m ((do
      pushFrame
      modifyRegs g
      watchedDispatch discipline outOfFuel enter fuel e
      pop : VM Value) m) := by
  rcases pushFrame_spec m with hpush | ⟨hpush, _⟩
  · have hregs : modifyRegs g { m with frames := m.regs :: m.frames } = .ok () _ := rfl
    rw [bind_ok hpush, bind_ok hregs]
    have hs : { m with frames := m.regs :: m.frames, regs := g m.regs }.WellNested := hm.1.congr rfl rfl
    have hleaves := leaves_dispatch he fuel hs (e := e) fun _ => ⟨m.regs, rfl, hm.2⟩
    rcases h : watchedDispatch discipline outOfFuel enter fuel e
      { m with frames := m.regs :: m.frames, regs := g m.regs } with ⟨⟨⟩, m₁⟩ | ⟨f | _, m₁⟩
    · rw [h] at hleaves
      obtain ⟨hhandlers, hdepth, hhalted, hframes⟩ := hleaves
      rw [if_neg (by simp [he'])] at hframes
      have hsteady : Steady m m₁ := ⟨hhandlers, hdepth, hframes, fun _ => hhalted⟩
      rw [bind_ok h]
      exact (obeys_pop.allows (steady.keeps hm.1 hsteady)).trans hsteady
    · rw [h] at hleaves
      rw [bind_error h]
      exact ⟨hleaves.handlers, hleaves.depth, (List.suffix_cons _ _).trans hleaves.frames, hleaves.halted⟩
    · rw [bind_error h]
      trivial
  · rw [bind_error hpush]
    exact (Balanced.refl m).stranded.toDeepened

theorem balanced_runScript (callee : ObjectId) (f : Closure) (this : Value) (args : List Value) (newTarget : Value) :
    Heeds balanced (runScript (watchedDispatch discipline outOfFuel enter fuel e) callee f this args newTarget) := by
  rw [runScript_eq]
  refine balanced_saved (obeys_self fun m hm => ?_) fun v => obeys_pure v
  have hregs : modifyRegs (fun r => { r with program := none, native := none }) m =
      .ok () { m with regs := { m.regs with program := none, native := none } } := rfl
  have hboundary : AtBoundary { m with regs := { m.regs with program := none, native := none } } :=
    ⟨hm.congr rfl rfl, rfl⟩
  have hsteady : Steady m { m with regs := { m.regs with program := none, native := none } } := {}
  unfold functionBody
  rw [bind_ok hregs]
  refine Law.Admits.trans hsteady ?_
  refine steady_bind (obeys_push _) (fun _ m hm => ?_) hboundary
  refine steady_bind obeys_top (fun _ m hm => ?_) hm
  refine steady_bind (obeys_push _) (fun _ m hm => ?_) hm
  refine steady_bind (obeys_pushAll _) (fun _ m hm => ?_) hm
  exact steady_function he fuel he' _ hm

end Functions

/-! ### Entries -/

theorem bind_eq_attempt (x : VM α) (k : α → VM β) : x >>= k = attempt x >>= fun
    | .ok a => k a
    | .error f => raise f := by
  funext m
  rcases h : x m with ⟨a, m₁⟩ | ⟨f | _, m₁⟩
  · rw [bind_ok h, bind_ok (attempt_ok h)]
  · rw [bind_error h, bind_ok (attempt_fault h)]
    rfl
  · rw [bind_error h, bind_error (attempt_outOfFuel h)]

/-- Where host code propagates, only callees that propagate are found. -/
theorem obeys_attempt_calleeOf {L : Law} [L.Store] (callee : Value) {k₁ k₂ : Outcome (ObjectId × Callee) → VM α}
    (hfault : ∀ f, Obeys L (k₁ (.error f)) (k₂ (.error f)))
    (hok : ∀ o found, found.Propagates → Obeys L (k₁ (.ok (o, found))) (k₂ (.ok (o, found)))) :
    ObeysWhen L (fun m => m.store.Propagates) (attempt (calleeOf callee) >>= k₁) (attempt (calleeOf callee) >>= k₂) := by
  intro m hm hhost
  obtain ⟨σ, hevolves, _, hcallee⟩ := calleeOf_spec callee m
  have hsame : L.rel m { m with store := σ } := Law.Store.store m hevolves
  have hσ : L.pre { m with store := σ } := L.keeps hm hsame
  rcases hcallee with ⟨o, found, h, hfound⟩ | ⟨f, h⟩
  · rw [bind_ok (attempt_ok h), bind_ok (attempt_ok h)]
    exact (hok o found (hfound hhost)).after hsame hσ
  · rw [bind_ok (attempt_fault h), bind_ok (attempt_fault h)]
    exact (hfault f).after hsame hσ

section Entries

variable {L : Law} [L.Guard] {e₁ e₂ : Enter} (fuel : Nat) {run₁ run₂ : VM Unit}
  (he : ∀ e, e.evaluates = false → Obeys L.strict (e₁ e) (e₂ e))

include he

theorem strict_callScript {callee : ObjectId} {f : Closure} {this : Value} {args : List Value} {newTarget : Value}
    (hrun : Obeys L (runScript run₁ callee f this args newTarget) (runScript run₂ callee f this args newTarget)) :
    Obeys L.strict (callScript e₁ run₁ callee f this args newTarget)
      (callScript e₂ run₂ callee f this args newTarget) :=
  obeys_checkDepth.bind fun _ => obeys_guarded (fun r => he (.close r) rfl) hrun

theorem strict_callNative {name : Text} {b : Behaviour}
    (hrun : Obeys L (behindNative name (runHost e₁ fuel b)) (behindNative name (runHost e₂ fuel b))) :
    Obeys L.strict (callNative e₁ name (runHost e₁ fuel b)) (callNative e₂ name (runHost e₂ fuel b)) :=
  obeys_guarded (fun r => he (.close r) rfl) hrun

variable (hnative : ∀ name {b : Behaviour}, b.Propagates →
  Obeys L (behindNative name (runHost e₁ fuel b)) (behindNative name (runHost e₂ fuel b)))

include hnative

section Calls

variable (hscript : ∀ callee f this args newTarget,
  Obeys L (runScript run₁ callee f this args newTarget) (runScript run₂ callee f this args newTarget))

include hscript

theorem strict_callValue (callee this : Value) (args : List Value) :
    ObeysWhen L.strict (fun m => m.store.Propagates) (callValue e₁ fuel run₁ callee this args)
      (callValue e₂ fuel run₂ callee this args) := by
  unfold callValue
  rw [bind_eq_attempt (calleeOf callee), bind_eq_attempt (calleeOf callee)]
  refine obeys_attempt_calleeOf callee (fun _ => obeys_raise _) fun o found hfound => ?_
  cases found with
  | script f => exact strict_callScript he (hscript _ _ _ _ _)
  | native f => exact strict_callNative fuel he (hnative f.name (hfound.1 _))
  | bound f => exact he _ rfl
  | proxy target handler => exact strict_callNative fuel he (hnative proxyName (hfound.1 target this args))

theorem strict_constructValue (callee : Value) (args : List Value) (newTarget : Option Value) :
    ObeysWhen L.strict (fun m => m.store.Propagates) (constructValue e₁ fuel run₁ callee args newTarget)
      (constructValue e₂ fuel run₂ callee args newTarget) := by
  refine obeys_attempt_calleeOf callee (fun _ => obeys_refuseConstruct callee) fun o found hfound => ?_
  cases found with
  | script f =>
    dsimp only
    split
    · refine (obeys_freshReceiver _).bind fun this => ?_
      exact (strict_callScript he (hscript _ _ _ _ _)).bind fun _ => obeys_pure _
    · exact obeys_refuseConstruct _
  | native f =>
    dsimp only
    split
    case h_1 construct hc => exact strict_callNative fuel he (hnative f.name (hfound.2 construct hc _ _))
    case h_2 => exact strict_callNative fuel he (hnative f.name (hfound.1 _))
  | bound f => exact he _ rfl
  | proxy target handler => exact strict_callNative fuel he (hnative proxyName (hfound.2 target args _))

end Calls

/-- Entries obey a law strictly if what they run obeys it, but for those that evaluate source text. -/
theorem strict_start [L.Iterators] {e : Entry} (hevaluates : e.evaluates = false)
    (hscript : e.runsProgram = false → ∀ callee f this args newTarget,
      Obeys L (runScript run₁ callee f this args newTarget) (runScript run₂ callee f this args newTarget))
    (hprogram : e.runsProgram = true → ∀ p, Obeys L (runGlobally run₁ p) (runGlobally run₂ p)) :
    ObeysWhen L.strict (fun m => m.store.Propagates) (start e₁ fuel run₁ e) (start e₂ fuel run₂ e) := by
  have hclose : ∀ r, Obeys L.strict (e₁ (.close r)) (e₂ (.close r)) := fun r => he _ rfl
  cases e with
  | call callee this args => exact strict_callValue fuel he hnative (hscript rfl) callee this args
  | construct callee args newTarget =>
    exact strict_constructValue fuel he hnative (hscript rfl) callee args newTarget
  | evaluate => cases hevaluates
  | program p => exact (obeys_guarded hclose (hprogram rfl p)).when _
  | next i => exact fun m hm hhost => strict_callValue fuel he hnative (hscript rfl) _ _ _ m hm hhost
  | finish i method =>
    intro m hm hhost
    have hended : L.rel m (m.setStatus i .ended) := Law.Iterators.ends m i
    have hcall := strict_callValue fuel he hnative (hscript rfl) method ((m.setStatus i .ended).iterator i).iterator []
      (m.setStatus i .ended) (L.keeps hm hended) hhost
    exact ⟨hcall.1, hcall.2.trans hended⟩
  | close i =>
    have hbody := obeys_closeIterator (fun e he' => (he e he').when _) i
    exact ((obeys_guarded hclose hbody.weaken).bind fun _ => obeys_pure _).when _

end Entries

/-- **Entries that keep the discipline are balanced.** -/
theorem nests_disciplined (fuel : Nat) : Nests (disciplined fuel) := by
  induction fuel with
  | zero => exact ⟨fun _ _ => obeys_outOfFuel, fun _ => obeys_outOfFuel⟩
  | succ fuel ih =>
    have hstrict : ∀ e, e.evaluates = false →
        Heeds balanced.strict (disciplined (fuel + 1) e) := fun e he =>
      obeys_checked fun m hm hhost =>
        (strict_start fuel ih.strict (fun name _ hb => balanced_behindNative name (balanced_runHost ih fuel hb)) he
          (fun he' => balanced_runScript ih fuel he')
          (fun he' p => balanced_runGlobally (steady_program ih fuel he') p) m hm hhost).2
    refine ⟨hstrict, fun e => ?_⟩
    cases he : e.evaluates with
    | false => exact (hstrict e he).weaken
    | true =>
      cases e with
      | evaluate source direct strict this =>
        exact obeys_checked fun m hm _ => (balanced_evaluate (steady_program ih fuel rfl) _ _ _ _).allows hm
      | _ => cases he

end ScriptMachine.VM
