import ScriptMachine.Proofs.ConstructAgreement

/-!
# What can be constructed with

Construction is meant for script functions of the normal kind, host functions, and bound functions and proxies whose
targets are of that sort again.  For all other values it is to be refused, before anything is run.

Main result: `VM.only_constructors_construct`.
-/

namespace ScriptMachine

namespace Store

/-! ### Constructors -/

/-- The value is meant to construct. -/
inductive Constructible (σ : Store) : Value → Prop where
  | script {o : ObjectId} {f : Closure} (callee : (σ.object o).callee? = some (.script f))
      (normal : f.kind.isNormal = true) : Constructible σ (.object o)
  | native {o : ObjectId} {f : NativeFunction} (callee : (σ.object o).callee? = some (.native f)) :
      Constructible σ (.object o)
  | bound {o : ObjectId} {b : BoundFunction} (callee : (σ.object o).callee? = some (.bound b))
      (target : Constructible σ (.object b.target)) : Constructible σ (.object o)
  | proxy {o t : ObjectId} {handler : ProxyHandler} (callee : (σ.object o).callee? = some (.proxy t handler))
      (target : Constructible σ (.object t)) : Constructible σ (.object o)

/-- The value leads through bound functions to a proxy whose target is not meant to construct. -/
inductive Overlooked (σ : Store) : Value → Prop where
  | proxy {o t : ObjectId} {handler : ProxyHandler} (callee : (σ.object o).callee? = some (.proxy t handler))
      (forbidden : ¬ Constructible σ (.object t)) : Overlooked σ (.object o)
  | bound {o : ObjectId} {b : BoundFunction} (callee : (σ.object o).callee? = some (.bound b))
      (target : Overlooked σ (.object b.target)) : Overlooked σ (.object o)

section Constructible

variable {σ σ' : Store} {v : Value} {b : BoundFunction} {bs : List BoundFunction} {t : Value}

theorem Constructible.congr (h : Constructible σ v) (hsame : ∀ o, (σ'.object o).callee? = (σ.object o).callee?) :
    Constructible σ' v := by
  induction h with
  | script callee normal => exact .script ((hsame _).trans callee) normal
  | native callee => exact .native ((hsame _).trans callee)
  | bound callee _ ih => exact .bound ((hsame _).trans callee) ih
  | proxy callee _ ih => exact .proxy ((hsame _).trans callee) ih

theorem Makes.constructible_iff (h : Makes σ σ') : Constructible σ' v ↔ Constructible σ v :=
  ⟨fun hv => hv.congr fun o => (h.callee o).symm, fun hv => hv.congr h.callee⟩

theorem Overlooked.congr (h : Overlooked σ v) (hsame : ∀ o, (σ'.object o).callee? = (σ.object o).callee?) :
    Overlooked σ' v := by
  induction h with
  | proxy callee forbidden =>
    exact .proxy ((hsame _).trans callee) fun ht => forbidden (ht.congr fun o => (hsame o).symm)
  | bound callee _ ih => exact .bound ((hsame _).trans callee) ih

theorem Makes.overlooked_iff (h : Makes σ σ') : Overlooked σ' v ↔ Overlooked σ v :=
  ⟨fun hv => hv.congr fun o => (h.callee o).symm, fun hv => hv.congr h.callee⟩

theorem BoundTo.unmade (h : BoundTo σ' v bs t) (hσ : Makes σ σ') : BoundTo σ v bs t := by
  induction h with
  | target h => exact .target ((hσ.boundAt_eq _).symm.trans h)
  | bound h _ ih => exact .bound ((hσ.boundAt_eq _).symm.trans h) ih

theorem constructible_of_boundAt (h : σ.boundAt? v = some b) : Constructible σ v ↔ Constructible σ (.object b.target) := by
  obtain ⟨o, rfl, hcallee⟩ := callee_of_boundAt h
  refine ⟨fun hv => ?_, fun ht => .bound hcallee ht⟩
  cases hv with
  | bound callee target =>
    cases hcallee.symm.trans callee
    exact target
  | script callee | native callee | proxy callee => cases hcallee.symm.trans callee

theorem overlooked_of_boundAt (h : σ.boundAt? v = some b) : Overlooked σ v ↔ Overlooked σ (.object b.target) := by
  obtain ⟨o, rfl, hcallee⟩ := callee_of_boundAt h
  refine ⟨fun hv => ?_, fun ht => .bound hcallee ht⟩
  cases hv with
  | bound callee target =>
    cases hcallee.symm.trans callee
    exact target
  | proxy callee => cases hcallee.symm.trans callee

end Constructible

end Store

/-! ### What is run -/

/-- What is run to construct: a script function in a loop of its own, or host code behind a frame. -/
inductive VM.Construction where
  | script (o : ObjectId) (f : Closure)
  | host (name : Text) (behaviour : Behaviour)

/-- What is run to construct with a value that is no bound function. -/
def Store.construction? (σ : Store) (target : Value) (args : List Value) (newTarget : Value) : Option VM.Construction :=
  match target with
  | .object o =>
    match (σ.object o).callee? with
    | some (.script f) => if f.kind.isNormal then some (.script o f) else none
    | some (.native f) => some (.host f.name (match f.construct with
      | some construct => construct args newTarget
      | none => f.call ⟨target, args, some newTarget, f.name⟩))
    | some (.proxy t handler) => some (.host VM.proxyName (handler.construct t args newTarget))
    | _ => none
  | _ => none

namespace Store

variable {σ σ' : Store} {target newTarget : Value} {args : List Value}

theorem isSome_construction_iff (h : σ.boundAt? target = none) :
    (σ.construction? target args newTarget).isSome = true ↔ Constructible σ target ∨ Overlooked σ target := by
  cases target with
  | object o =>
    unfold construction?
    dsimp only
    constructor
    · intro hsome
      split at hsome
      case h_1 f hscript =>
        split at hsome
        case isTrue hnormal => exact .inl (.script hscript hnormal)
        case isFalse => cases hsome
      case h_2 f hnative => exact .inl (.native hnative)
      case h_3 t handler hproxy =>
        by_cases ht : Constructible σ (.object t)
        · exact .inl (.proxy hproxy ht)
        · exact .inr (.proxy hproxy ht)
      case h_4 => cases hsome
    · rintro (hv | hv)
      · cases hv with
        | script callee normal => simp [callee, normal]
        | native callee | proxy callee => simp [callee]
        | bound callee => simp [boundAt?, callee] at h
      · cases hv with
        | proxy callee => simp [callee]
        | bound callee => simp [boundAt?, callee] at h
  | _ =>
    refine ⟨fun hsome => absurd hsome Bool.false_ne_true, fun hv => ?_⟩
    rcases hv with hv | hv <;> cases hv

theorem Makes.construction_eq (h : Makes σ σ') (target : Value) (args : List Value) (newTarget : Value) :
    σ'.construction? target args newTarget = σ.construction? target args newTarget := by
  cases target with
  | object o => simp only [construction?, h.callee o]
  | _ => rfl

end Store

namespace VM

variable {m : Machine} {callee target : Value} {args : List Value}

def carryOut (enter : Enter) (fuel : Nat) (run : VM Unit) (args : List Value) (newTarget : Value) :
    Construction → VM Value
  | .script o f => do
    let this ← freshReceiver newTarget
    let v ← callScript enter run o f this args newTarget
    return if v.isObject then v else this
  | .host name behaviour => callNative enter name (runHost enter fuel behaviour)

def boundNewTarget (callee newTarget : Value) : List BoundFunction → Value
  | [] => newTarget
  | b :: bs =>
    boundNewTarget (.object b.target) (if newTarget.object? = callee.object? then .object b.target else newTarget) bs

/-- What a construction from outside the loop comes to.

* What the last target of the bound functions has is run, with the arguments and the new target that they pass on.
* A value that cannot be constructed with is refused with a type error that names the last target.
* The fuel does not suffice for all bound functions on the way.

In the last two cases nothing is run, and lazy objects are made at most. -/
inductive Constructs (n : Nat) (callee : Value) (args : List Value) (newTarget : Value) (m : Machine) :
    EStateM.Result Abort Machine Value → Prop where
  | runs {fuel : Nat} {bs : List BoundFunction} {target : Value} {c : Construction} (depth : n = fuel + bs.length + 1)
      (bound : m.store.BoundTo callee bs target)
      (behaviour : m.store.construction? target (boundArguments bs args) (boundNewTarget callee newTarget bs) = some c)
      (allowed : m.store.Constructible callee ∨ m.store.Overlooked callee) :
      Constructs n callee args newTarget m
        (carryOut (enter fuel) fuel (dispatch (turn (enter fuel) fuel) fuel) (boundArguments bs args)
          (boundNewTarget callee newTarget bs) c { m with store := m.store.seenAlong callee bs })
  | refused {bs : List BoundFunction} {target : Value} (depth : bs.length < n)
      (bound : m.store.BoundTo callee bs target) (forbidden : ¬ m.store.Constructible callee)
      (noticed : ¬ m.store.Overlooked callee) :
      Constructs n callee args newTarget m
        (.error (.fault (.type (.notConstructor ((m.store.seenAlong callee bs).display target))))
          { m with store := m.store.seenAlong callee bs })
  | outOfFuel {σ : Store} (made : Store.Makes m.store σ)
      (short : ∀ bs target, m.store.BoundTo callee bs target → n ≤ bs.length) :
      Constructs n callee args newTarget m (.error .outOfFuel { m with store := σ })

/-! ### From outside the loop -/

section Outside

variable {n : Nat} {callee newTarget : Value} {args : List Value} {b : BoundFunction}
  {r : EStateM.Result Abort Machine Value}

theorem constructValue_of_target (enter : Enter) (fuel : Nat) (run : VM Unit) (h : m.store.boundAt? callee = none)
    (args : List Value) (newTarget : Option Value) :
    constructValue enter fuel run callee args newTarget m =
      match m.store.construction? callee args (newTarget.getD callee) with
      | some c => carryOut enter fuel run args (newTarget.getD callee) c { m with store := m.store.seen callee }
      | none => .error (.fault (.type (.notConstructor ((m.store.seen callee).display callee))))
          { m with store := m.store.seen callee } := by
  unfold constructValue
  cases callee with
  | object o =>
    cases hcallee : (m.store.object o).callee? with
    | none =>
      rw [bind_ok (attempt_fault (calleeOf_of_none hcallee))]
      simp only [Store.construction?, hcallee]
      rfl
    | some c =>
      rw [bind_ok (attempt_ok (calleeOf_of_some hcallee))]
      cases c with
      | script f =>
        simp only [Store.construction?, hcallee]
        cases f.kind.isNormal <;> rfl
      | native f =>
        simp only [Store.construction?, hcallee]
        cases f.construct <;> rfl
      | proxy t handler =>
        simp only [Store.construction?, hcallee]
        rfl
      | bound b => simp [Store.boundAt?, hcallee] at h
  | unresolved name member => cases member <;> rfl
  | _ => rfl

theorem Constructs.of_target (h : m.store.boundAt? callee = none) (args : List Value) (newTarget : Option Value) :
    Constructs (n + 1) callee args (newTarget.getD callee) m (enter (n + 1) (.construct callee args newTarget) m) := by
  have hstart : enter (n + 1) (.construct callee args newTarget) m =
      constructValue (enter n) n (dispatch (turn (enter n) n) n) callee args newTarget m := rfl
  have hsome : (m.store.construction? callee args (newTarget.getD callee)).isSome = true ↔
      m.store.Constructible callee ∨ m.store.Overlooked callee := Store.isSome_construction_iff h
  have hbound : m.store.BoundTo callee [] callee := .target h
  rw [hstart, constructValue_of_target _ _ _ h]
  cases hc : m.store.construction? callee args (newTarget.getD callee) with
  | some c =>
    rw [hc, Option.isSome_some, eq_self, true_iff] at hsome
    have hdepth : n + 1 = n + ([] : List BoundFunction).length + 1 := rfl
    exact .runs hdepth hbound hc hsome
  | none =>
    rw [hc, Option.isSome_none, Bool.false_eq_true, false_iff, not_or] at hsome
    exact @refused (n + 1) callee args (newTarget.getD callee) m [] callee n.succ_pos hbound hsome.1 hsome.2

theorem Constructs.of_bound (h : m.store.boundAt? callee = some b)
    (hr : Constructs n (.object b.target) (b.args ++ args)
      (if newTarget.object? = callee.object? then .object b.target else newTarget)
      { m with store := m.store.seen callee } r) :
    Constructs (n + 1) callee args newTarget m r := by
  have hmade := m.store.makes_seen callee
  cases hr with
  | @runs fuel bs target c depth bound behaviour allowed =>
    rw [hmade.construction_eq, ← boundArguments_cons] at behaviour
    rw [hmade.constructible_iff, hmade.overlooked_iff, ← Store.constructible_of_boundAt h,
      ← Store.overlooked_of_boundAt h] at allowed
    rw [← boundArguments_cons]
    have hdepth : n + 1 = fuel + (b :: bs).length + 1 := by
      rw [List.length_cons]
      omega
    exact .runs hdepth (.bound h (bound.unmade hmade)) behaviour allowed
  | @refused bs target depth bound forbidden noticed =>
    rw [hmade.constructible_iff, ← Store.constructible_of_boundAt h] at forbidden
    rw [hmade.overlooked_iff, ← Store.overlooked_of_boundAt h] at noticed
    have hdepth : (b :: bs).length < n + 1 := Nat.succ_lt_succ depth
    have hbound : m.store.BoundTo callee (b :: bs) target := .bound h (bound.unmade hmade)
    exact @refused (n + 1) callee args newTarget m (b :: bs) target hdepth hbound forbidden noticed
  | outOfFuel made short =>
    refine .outOfFuel (hmade.trans made) fun bs target hbound => ?_
    cases hbound with
    | target hnone => cases h.symm.trans hnone
    | bound hb rest =>
      cases h.symm.trans hb
      exact Nat.succ_le_succ (short _ _ (rest.made hmade))

theorem constructs_enter (n : Nat) (callee : Value) (args : List Value) (newTarget : Option Value) (m : Machine) :
    Constructs n callee args (newTarget.getD callee) m (enter n (.construct callee args newTarget) m) := by
  induction n generalizing callee args newTarget m with
  | zero => exact .outOfFuel (.refl _) fun _ _ _ => Nat.zero_le _
  | succ n ih =>
    cases h : m.store.boundAt? callee with
    | none => exact .of_target h args newTarget
    | some b =>
      refine .of_bound h ?_
      have hstart : enter (n + 1) (.construct callee args newTarget) m =
          constructValue (enter n) n (dispatch (turn (enter n) n) n) callee args newTarget m := rfl
      rw [hstart, constructValue_passes_on _ _ _ h]
      exact ih _ _ (some _) _

theorem Constructs.of_seen (hr : Constructs n callee args newTarget { m with store := m.store.seen callee } r) :
    Constructs n callee args newTarget m r := by
  have hmade := m.store.makes_seen callee
  cases hr with
  | @runs fuel bs target c depth bound behaviour allowed =>
    rw [hmade.construction_eq] at behaviour
    rw [hmade.constructible_iff, hmade.overlooked_iff] at allowed
    rw [Store.seenAlong_seen]
    exact .runs depth (bound.unmade hmade) behaviour allowed
  | @refused bs target depth bound forbidden noticed =>
    rw [hmade.constructible_iff] at forbidden
    rw [hmade.overlooked_iff] at noticed
    rw [Store.seenAlong_seen]
    exact .refused depth (bound.unmade hmade) forbidden noticed
  | outOfFuel made short =>
    exact .outOfFuel (hmade.trans made) fun bs target hbound => short bs target (hbound.made hmade)

end Outside

/-! ### By an instruction -/

/-- What the instruction comes to, with operands below the callee and its arguments.

* A script function of the normal kind is started in the running loop.
* All else is left to a construction from outside the loop.  Its answer takes the place of the callee, and where it fails
  so does the instruction. -/
inductive ConstructsNext (n : Nat) (m : Machine) (below : List Value) (callee : Value) (args : List Value) :
    EStateM.Result Abort Machine Unit → Prop where
  | starts {o : ObjectId} {f : Closure} {m₁ : Machine} (isObject : callee = .object o)
      (script : (m.store.object o).callee? = some (.script f)) (normal : f.kind.isNormal = true)
      (suspended : Suspended m m₁) (started : Started below o f (.object m.store.fresh) args (.object o) true m₁) :
      ConstructsNext n m below callee args (.ok () m₁)
  | answered {s : OperandStack} {v : Value} {m₁ : Machine} (operands : s.Holds (below ++ [callee]))
      (constructs : Constructs n callee args callee { m with stack := s } (.ok v m₁)) :
      ConstructsNext n m below callee args (replaceNext v m₁)
  | failed {s : OperandStack} {e : Abort} {m₁ : Machine} (operands : s.Holds (below ++ [callee]))
      (constructs : Constructs n callee args callee { m with stack := s } (.error e m₁)) :
      ConstructsNext n m below callee args (.error e m₁)

theorem script_of_constructor {f : Closure} (h : m.store.constructor? callee = some f) :
    ∃ o, callee = .object o ∧ (m.store.object o).callee? = some (.script f) ∧ f.kind.isNormal = true := by
  unfold Store.constructor? at h
  split at h
  case h_1 o =>
    split at h
    case h_1 g hscript =>
      split at h
      case isTrue hnormal =>
        cases h
        exact ⟨o, rfl, hscript, hnormal⟩
      case isFalse => cases h
    case h_2 => cases h
  case h_2 => cases h

theorem constructsNext_execute (n fuel : Nat) {below : List Value} (hstack : m.stack.Holds (below ++ callee :: args))
    (hroom : HasRoom 1 m) :
    ConstructsNext n m below callee args (execute (enter n) fuel (.construct args.length) m) := by
  cases hconstructor : m.store.constructor? callee with
  | some f =>
    obtain ⟨o, rfl, hscript, hnormal⟩ := script_of_constructor hconstructor
    obtain ⟨m₁, hexecute, -, hsuspended, hstarted⟩ := construct_of_script fuel hscript hnormal hroom hstack
    rw [hexecute]
    exact .starts rfl hscript hnormal hsuspended hstarted
  | none =>
    obtain ⟨s, hs, hexecute⟩ := construct_of_other hconstructor hroom hstack
    have hconstructs : Constructs n callee args callee { m with stack := s } _ :=
      .of_seen (constructs_enter n callee args none { m with store := m.store.seen callee, stack := s })
    rw [hexecute]
    cases hanswer : enter n (.construct callee args none) { m with store := m.store.seen callee, stack := s } with
    | ok v m₁ =>
      rw [hanswer] at hconstructs
      rw [bind_ok hanswer]
      exact .answered hs hconstructs
    | error e m₁ =>
      rw [hanswer] at hconstructs
      rw [bind_error hanswer]
      exact .failed hs hconstructs

/-- **Only constructors construct**, but for proxies that are overlooked: whatever the value, arguments and new target, a
construction runs something for a value that is meant to construct, or that leads to a proxy.  All other values are refused
with a type error, and nothing is run. -/
theorem only_constructors_construct (n : Nat) (callee : Value) (args : List Value) (m : Machine) :
    (∀ newTarget : Option Value,
      Constructs n callee args (newTarget.getD callee) m (enter n (.construct callee args newTarget) m)) ∧
    ∀ below fuel, m.stack.Holds (below ++ callee :: args) → HasRoom 1 m →
      ConstructsNext n m below callee args (execute (enter n) fuel (.construct args.length) m) :=
  ⟨fun newTarget => constructs_enter n callee args newTarget m,
    fun _ fuel hstack hroom => constructsNext_execute n fuel hstack hroom⟩

def proxyOfPlain : Machine :=
  let m := Machine.new .default
  { m with
    store := { m.store with objects := #[.ofKind none .ordinary, .ofKind none (.proxy ⟨0⟩ .forward)] }
    stack := m.stack.push (.object ⟨1⟩) }

theorem not_constructible_plain : ¬ proxyOfPlain.store.Constructible (.object ⟨0⟩) := by
  intro h
  cases h with
  | script callee | native callee | bound callee | proxy callee => cases callee

/-- The plain object is refused, and the trap of the proxy is run. -/
theorem only_constructors_construct_proxyOfPlain :
    enter 5 (.construct (.object ⟨0⟩) [] none) proxyOfPlain =
        .error (.fault (.type (.notConstructor (proxyOfPlain.store.display (.object ⟨0⟩))))) proxyOfPlain ∧
      enter 5 (.construct (.object ⟨1⟩) [] none) proxyOfPlain =
        callNative (enter 4) proxyName (runHost (enter 4) 4 (ProxyHandler.forward.construct ⟨0⟩ [] (.object ⟨1⟩)))
          proxyOfPlain ∧
      (proxyOfPlain.stack.Holds ([] ++ .object ⟨1⟩ :: []) ∧ HasRoom 1 proxyOfPlain ∧
        ConstructsNext 5 proxyOfPlain [] (.object ⟨1⟩) [] (execute (enter 5) 0 (.construct 0) proxyOfPlain)) := by
  have hstack : proxyOfPlain.stack.Holds ([] ++ .object ⟨1⟩ :: []) := ⟨rfl, rfl⟩
  have hroom : HasRoom 1 proxyOfPlain := ⟨.inl rfl, .inr (by decide +kernel)⟩
  have hplain := (only_constructors_construct 5 (.object ⟨0⟩) [] proxyOfPlain).1 none
  have hproxy := (only_constructors_construct 5 (.object ⟨1⟩) [] proxyOfPlain).1 none
  refine ⟨?_, ?_, hstack, hroom, (only_constructors_construct 5 (.object ⟨1⟩) [] proxyOfPlain).2 [] 0 hstack hroom⟩
  · generalize enter 5 (.construct (.object ⟨0⟩) [] none) proxyOfPlain = r at hplain ⊢
    cases hplain with
    | runs _ _ _ allowed =>
      rcases allowed with h | h
      · exact absurd h not_constructible_plain
      · cases h with
        | proxy callee | bound callee => cases callee
    | refused _ bound =>
      cases bound with
      | target => rfl
      | bound h => cases h
    | outOfFuel _ short => exact absurd (short [] _ (.target rfl)) (by decide)
  · generalize enter 5 (.construct (.object ⟨1⟩) [] none) proxyOfPlain = r at hproxy ⊢
    cases hproxy with
    | runs depth bound behaviour =>
      cases bound with
      | target =>
        cases depth
        cases behaviour
        rfl
      | bound h => cases h
    | refused _ _ _ noticed => exact absurd (.proxy rfl not_constructible_plain) noticed
    | outOfFuel _ short => exact absurd (short [] _ (.target rfl)) (by decide)

end VM

end ScriptMachine
