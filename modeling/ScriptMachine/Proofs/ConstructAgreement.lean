import ScriptMachine.Proofs.CallTargets
import ScriptMachine.Proofs.NamePlaces
import ScriptMachine.Proofs.Parameters

/-!
# Construction by an instruction and from outside

`new` makes the receiver, and starts a script constructor in the same dispatch loop as its caller, marked as one, so
that its return yields the receiver if it returns no object.  From outside the loop the constructor is called like any
other function, and what it answers is replaced by the receiver if it is no object.

Main result: `constructs_agree`.
-/

namespace ScriptMachine

variable {b : BoundFunction} {newTarget : Option Value}

/-! ### Receivers -/

namespace Store

variable {σ σ' : Store} {o : ObjectId}

/-- The prototype for a new target: the object that it names, or that of plain objects. -/
def prototypeFor (σ : Store) (realm : Realm) (o : ObjectId) : ObjectId :=
  match σ.valueOf o (.ofString "prototype") with
  | some (.object p) => p
  | _ => realm.objectPrototype

def withReceiver (σ : Store) (realm : Realm) (o : ObjectId) : Store :=
  ((get? o (.ofString "prototype")).run σ).2.added (.ofKind (some (σ.prototypeFor realm o)) .ordinary)

theorem Makes.fresh_eq (h : Makes σ σ') : σ'.fresh = σ.fresh := congrArg ObjectId.mk h.size

theorem Makes.prototypeFor_eq (h : Makes σ σ') (realm : Realm) (o : ObjectId) :
    σ'.prototypeFor realm o = σ.prototypeFor realm o := by
  unfold prototypeFor
  rw [h.valueOf_eq]

theorem object_withReceiver (σ : Store) (realm : Realm) (o : ObjectId) :
    (σ.withReceiver realm o).object σ.fresh = .ofKind (some (σ.prototypeFor realm o)) .ordinary := by
  rw [← ((reads_get o (.ofString "prototype")) σ).1.fresh_eq]
  exact object_added _ _

theorem seen_seen (σ : Store) (v : Value) : (σ.seen v).seen v = σ.seen v := by
  cases v with
  | object o => exact congrArg Prod.snd ((reads_made o).again σ)
  | _ => rfl

theorem seenAlong_seen (σ : Store) (v : Value) (bs : List BoundFunction) :
    (σ.seen v).seenAlong v bs = σ.seenAlong v bs := by
  cases bs with
  | nil => exact σ.seen_seen v
  | cons b bs => exact congrArg (seenAlong · (.object b.target) bs) (σ.seen_seen v)

end Store

namespace VM

variable {m : Machine} {o : ObjectId} {f : Closure} {below args : List Value} {callee : Value} {bs : List BoundFunction}
  {k fuel : Nat}

theorem freshReceiver_of_object (o : ObjectId) (m : Machine) :
    freshReceiver (.object o) m = .ok (.object m.store.fresh) { m with store := m.store.withReceiver m.realm o } := by
  have hget : onStore (Store.get? o (.ofString "prototype")) m = .ok (m.store.valueOf o (.ofString "prototype"))
      { m with store := ((Store.get? o (.ofString "prototype")).run m.store).2 } := rfl
  have hnamed : namedPrototype (.object o) m = .ok (m.store.prototypeFor m.realm o)
      { m with store := ((Store.get? o (.ofString "prototype")).run m.store).2 } := by
    unfold namedPrototype Store.prototypeFor
    dsimp only
    rw [bind_ok hget]
    cases m.store.valueOf o (.ofString "prototype") with
    | none => rfl
    | some v => cases v <;> rfl
  unfold freshReceiver
  rw [bind_ok hnamed, ← ((Store.reads_get o (.ofString "prototype")) m.store).1.fresh_eq]
  rfl

theorem receivers_of_normal (h : f.kind.isNormal = true) (this newTarget : Value) :
    receivers f this newTarget = (this, newTarget) := by
  unfold receivers
  cases hkind : f.kind with
  | normal | method => rfl
  | arrow =>
    rw [hkind] at h
    cases h

/-! ### The instruction -/

theorem constructor_of_script (hscript : (m.store.object o).callee? = some (.script f))
    (hnormal : f.kind.isNormal = true) : m.store.constructor? (.object o) = some f := by
  simp only [Store.constructor?, hscript, hnormal, if_true]

theorem constructor_of_bound (h : m.store.boundAt? callee = some b) : m.store.constructor? callee = none := by
  obtain ⟨o, rfl, hcallee⟩ := Store.callee_of_boundAt h
  simp only [Store.constructor?, hcallee]

theorem construct_bind (enter : Enter) (fuel : Nat) (hroom : HasRoom k m)
    (hstack : m.stack.Holds (below ++ callee :: args)) :
    execute enter fuel (.construct args.length) m =
      ((m.store.constructor? callee).elim
        (do
          let args ← popMany args.length
          replaceNext (← enter (.construct callee args none)))
        (fun f => do
          let this ← freshReceiver callee
          writeStack (·.insertAt below.length [this])
          enterScript f below.length args.length (some callee)) : VM Unit) { m with store := m.store.seen callee } := by
  have htop : top m = .ok (below.length + (args.length + 1)) m := by
    show EStateM.Result.ok m.stack.top m = _
    rw [hstack.top_eq, List.length_append, List.length_cons]
  have hslot : slot below.length m = .ok callee m := slot_of_holds hstack (by simp)
  show construct enter args.length m = _
  unfold construct
  rw [bind_ok hroom.checkDepth, bind_ok htop, if_neg (by omega), Nat.add_sub_cancel, bind_ok hslot,
    bind_ok (scriptConstructor_eq callee m)]
  cases m.store.constructor? callee <;> rfl

theorem construct_of_script (fuel : Nat) (hscript : (m.store.object o).callee? = some (.script f))
    (hnormal : f.kind.isNormal = true) (hroom : HasRoom 1 m) (hstack : m.stack.Holds (below ++ .object o :: args)) :
    ∃ m', (∀ enter, execute enter fuel (.construct args.length) m = .ok () m') ∧
      m'.store = (m.store.seen (.object o)).withReceiver m.realm o ∧ Suspended m m' ∧
      Started below o f (.object m.store.fresh) args (.object o) true m' := by
  have hfresh := (m.store.makes_seen (.object o)).fresh_eq
  have hthis := freshReceiver_of_object o { m with store := m.store.seen (.object o) }
  rw [hfresh] at hthis
  obtain ⟨s, hinsert, hs⟩ := hstack.insertAt [.object m.store.fresh]
  have hwrite := writeStack_of_ok (g := (·.insertAt below.length [.object m.store.fresh]))
    (m := { m with store := (m.store.seen (.object o)).withReceiver m.realm o }) hinsert
  obtain ⟨m', henter, hstore, hcall, hstarted⟩ := enterScript_of_holds
    (m := { m with store := (m.store.seen (.object o)).withReceiver m.realm o, stack := s }) (some (.object o))
    ⟨hroom.calls, hroom.frames⟩ hs
  rw [receivers_of_normal hnormal] at hstarted
  refine ⟨m', fun enter => ?_, hstore, ⟨hcall.frames, hcall.handlers, hcall.depth⟩, hstarted⟩
  rw [construct_bind enter fuel hroom hstack, constructor_of_script hscript hnormal, Option.elim_some, bind_ok hthis,
    bind_ok hwrite, henter]

/-- Whatever is no script constructor is left to an entry of its own. -/
theorem construct_of_other (h : m.store.constructor? callee = none) (hroom : HasRoom k m)
    (hstack : m.stack.Holds (below ++ callee :: args)) :
    ∃ s, s.Holds (below ++ [callee]) ∧ ∀ enter fuel, execute enter fuel (.construct args.length) m =
      (enter (.construct callee args none) >>= replaceNext) { m with store := m.store.seen callee, stack := s } := by
  have hsplit : m.stack.Holds ((below ++ [callee]) ++ args) := by simpa using hstack
  obtain ⟨s, hpop, hs⟩ := hsplit.popMany rfl
  have hpopped : popMany args.length { m with store := m.store.seen callee } =
      .ok args { m with store := m.store.seen callee, stack := s } := onStack_of_ok hpop
  refine ⟨s, hs, fun enter fuel => ?_⟩
  rw [construct_bind enter fuel hroom hstack, h]
  exact bind_ok hpopped

/-! ### Construction from outside -/

/-- Run a constructor in a loop of its own, and yield what it returns if that is an object, else its receiver. -/
def runConstructor (enter : Enter) (run : VM Unit) (o : ObjectId) (f : Closure) (this : Value) (args : List Value) :
    VM Value := do
  let v ← callScript enter run o f this args (.object o)
  return if v.isObject then v else this

theorem constructValue_of_script (enter : Enter) (fuel : Nat) (run : VM Unit) (args : List Value)
    (hscript : (m.store.object o).callee? = some (.script f)) (hnormal : f.kind.isNormal = true)
    (hnew : newTarget.getD (.object o) = .object o) :
    constructValue enter fuel run (.object o) args newTarget m =
      runConstructor enter run o f (.object m.store.fresh) args
        { m with store := (m.store.seen (.object o)).withReceiver m.realm o } := by
  have hthis := freshReceiver_of_object o { m with store := m.store.seen (.object o) }
  rw [(m.store.makes_seen (.object o)).fresh_eq] at hthis
  unfold constructValue
  rw [hnew, bind_ok (attempt_ok (calleeOf_of_some hscript))]
  dsimp only
  rw [if_pos hnormal, bind_ok hthis]
  rfl

theorem constructValue_passes_on (enter : Enter) (fuel : Nat) (run : VM Unit) (h : m.store.boundAt? callee = some b)
    (args : List Value) (newTarget : Option Value) :
    constructValue enter fuel run callee args newTarget m =
      enter (.construct (.object b.target) (b.args ++ args)
        (some (if (newTarget.getD callee).object? = callee.object? then .object b.target else newTarget.getD callee)))
        { m with store := m.store.seen callee } := by
  obtain ⟨o, rfl, hcallee⟩ := Store.callee_of_boundAt h
  unfold constructValue
  rw [bind_ok (attempt_ok (calleeOf_of_some hcallee))]
  rfl

theorem constructValue_of_bound (enter : Enter) (fuel : Nat) (run : VM Unit) (args : List Value)
    (h : m.store.boundAt? callee = some b) (hnew : newTarget.getD callee = callee) :
    constructValue enter fuel run callee args newTarget m =
      enter (.construct (.object b.target) (b.args ++ args) (some (.object b.target)))
        { m with store := m.store.seen callee } := by
  rw [constructValue_passes_on enter fuel run h, hnew, if_pos rfl]

theorem disciplined_of_ok {e : Entry} {v : Value} {m' : Machine}
    (h : disciplined (fuel + 1) e m = .ok v m') :
    disciplined (fuel + 1) e m =
      start (disciplined fuel) fuel (watchedDispatch discipline outOfFuel (disciplined fuel) fuel e) e m := by
  exact h.trans (passed_of_check h nofun).2.symm

section Chain

variable (hbound : m.store.BoundTo callee bs (.object o)) (hscript : (m.store.object o).callee? = some (.script f))
  (hnormal : f.kind.isNormal = true)

include hbound hscript hnormal

theorem enter_construct_of_boundTo (fuel : Nat) (args : List Value) (hnew : newTarget.getD callee = callee) :
    enter (fuel + bs.length + 1) (.construct callee args newTarget) m =
      runConstructor (enter fuel) (dispatch (turn (enter fuel) fuel) fuel) o f (.object m.store.fresh)
        (boundArguments bs args) { m with store := (m.store.seenAlong callee bs).withReceiver m.realm o } := by
  induction bs generalizing m callee args newTarget with
  | nil =>
    cases hbound with
    | target => exact constructValue_of_script (enter fuel) fuel _ args hscript hnormal hnew
  | cons b bs ih =>
    cases hbound with
    | bound h rest =>
      have hmade := m.store.makes_seen callee
      have hself : (some (Value.object b.target)).getD (.object b.target) = .object b.target := rfl
      have hnext := ih (m := { m with store := m.store.seen callee }) (rest.made hmade) ((hmade.callee o).trans hscript)
        (b.args ++ args) hself
      rw [boundArguments_cons, ← hmade.fresh_eq]
      exact (constructValue_of_bound (enter (fuel + bs.length + 1)) _ _ args h hnew).trans hnext

theorem disciplined_construct_of_boundTo (fuel : Nat) (args : List Value) (hnew : newTarget.getD callee = callee)
    {v : Value} {m' : Machine}
    (hanswer : disciplined (fuel + bs.length + 1) (.construct callee args newTarget) m = .ok v m') :
    ∃ e : Entry, e.runsProgram = false ∧
      runConstructor (disciplined fuel) (watchedDispatch discipline outOfFuel (disciplined fuel) fuel e) o f
        (.object m.store.fresh) (boundArguments bs args)
        { m with store := (m.store.seenAlong callee bs).withReceiver m.realm o } = .ok v m' := by
  induction bs generalizing m callee args newTarget with
  | nil =>
    cases hbound with
    | target =>
      refine ⟨.construct (.object o) args newTarget, rfl, ?_⟩
      rw [← hanswer, disciplined_of_ok hanswer]
      exact (constructValue_of_script (disciplined fuel) fuel _ args hscript hnormal hnew).symm
  | cons b bs ih =>
    cases hbound with
    | bound h rest =>
      have hmade := m.store.makes_seen callee
      have hstart := disciplined_of_ok hanswer
      rw [hanswer] at hstart
      have hnext := (constructValue_of_bound (disciplined (fuel + bs.length + 1)) _ _ args h hnew).symm.trans
        hstart.symm
      rw [boundArguments_cons, ← hmade.fresh_eq]
      exact ih (m := { m with store := m.store.seen callee }) (rest.made hmade) ((hmade.callee o).trans hscript)
        (b.args ++ args) rfl hnext

end Chain

/-- A construction from outside runs the constructor in a loop of its own, with this receiver.  It answers what the
constructor returns if that is an object, else the receiver. -/
structure ConstructsOutside (fuel depth : Nat) (e : Entry) (m : Machine) (below : List Value) (σ : Store) (o : ObjectId)
    (f : Closure) (this : ObjectId) (args : List Value) : Prop where
  runs : enter depth e m = runConstructor (enter fuel) (dispatch (turn (enter fuel) fuel) fuel) o f (.object this) args
    { m with store := σ }
  starts : ∃ s, enterFromOutside o f (.object this) args (.object o) { m with store := σ } = .ok () s ∧ s.store = σ ∧
    Started below o f (.object this) args (.object o) false s ∧
    ∀ r m', m.WellNested → disciplined depth e m = .ok r m' →
      enter depth e m = .ok r m' ∧ ∃ v, Answered fuel s v ∧ r = if v.isObject then v else .object this

theorem constructsOutside_of_boundTo (fuel : Nat) (hbound : m.store.BoundTo callee bs (.object o))
    (hscript : (m.store.object o).callee? = some (.script f)) (hnormal : f.kind.isNormal = true)
    (hroom : HasRoom 2 m) (hstack : m.stack.Holds below) (args : List Value) :
    ConstructsOutside fuel (fuel + bs.length + 1) (.construct callee args none) m below
      ((m.store.seenAlong callee bs).withReceiver m.realm o) o f m.store.fresh (boundArguments bs args) := by
  have hroom' : HasRoom 2 { m with store := (m.store.seenAlong callee bs).withReceiver m.realm o } :=
    ⟨hroom.calls, hroom.frames⟩
  obtain ⟨s, hs, hstore, hstarted⟩ := enterFromOutside_of_holds o f (.object m.store.fresh) (boundArguments bs args)
    (.object o) hroom' hstack
  rw [receivers_of_normal hnormal] at hstarted
  refine ⟨enter_construct_of_boundTo hbound hscript hnormal fuel args rfl, s, hs, hstore, hstarted, ?_⟩
  intro r m' hwell hanswer
  refine ⟨(follows_watched discipline _ _).ok_of_following hanswer, ?_⟩
  obtain ⟨e, he, hrun⟩ := disciplined_construct_of_boundTo hbound hscript hnormal fuel args rfl hanswer
  obtain ⟨v, m₁, hcall, hr⟩ := bind_eq_ok.mp hrun
  obtain ⟨_, m₂, hdepth, hguarded⟩ := bind_eq_ok.mp hcall
  cases hdepth.symm.trans hroom'.checkDepth
  cases hr
  have hwell' : { m with store := (m.store.seenAlong callee bs).withReceiver m.realm o }.WellNested :=
    hwell.congr rfl rfl
  exact ⟨v, answered_of_runScript he hwell' hs hstarted.constructing (guarded_eq_ok hguarded), rfl⟩

/-! ### Constructors that return -/

/-- The operand in slot `i` is left as it is in the turns between `a` and `b`. -/
def Untouched (ms : Nat → Machine) (a b i : Nat) : Prop :=
  ∀ t, a < t → t < b → (ms (t + 1)).stack.toList[i]? = (ms t).stack.toList[i]?

theorem Untouched.kept {ms : Nat → Machine} {a b i : Nat} (h : Untouched ms a b i) (hab : a < b) :
    (ms b).stack.toList[i]? = (ms (a + 1)).stack.toList[i]? := by
  induction hab with
  | refl => rfl
  | @step b hab ih => exact (h b hab (Nat.lt_succ_self b)).trans (ih fun t h1 h2 => h t h1 (Nat.lt_succ_of_lt h2))

/-- When a constructor returns that the instruction `i` has started in `m`, the caller goes on after the instruction.
What is left is what was returned if that is an object, else what then stands at the base of the constructor; this is
the receiver, above the operands below the call, if the constructor has set up its frame in place, has not written the
slot of its receiver, and the operands below are still there. -/
def YieldsTo (fuel : Nat) (i : Instruction) (m : Machine) (below : List Value) (this : ObjectId) : Prop :=
  ∀ {e : Entry} {s : Machine} {ms : Nat → Machine} {k a b : Nat} {vs : List Value} {v : Value},
    DisciplinedRun fuel e s ms k → b < k → takeInterrupt (ms a) = .ok () m → next? (ms a) = some i →
    Returning ms a b vs v →
    (∀ first ≤ vs.length, (ms b).regs.base = some (first + 1) → ∀ w ∈ yielded true vs first v,
      WentOn m (ms (b + 1)) (vs.take first ++ [w])) ∧
    (InPlace ms a b → below <+: vs → Untouched ms a b (below.length + 1) →
      WentOn m (ms (b + 1)) (below ++ [if v.isObject then v else .object this]))

theorem yieldsTo_of_started {i : Instruction} {m₁ : Machine} {this : ObjectId} {newTarget : Value}
    (hexecute : ∀ enter, execute enter fuel i m = .ok () m₁) (hcall : Suspended m m₁)
    (hstarted : Started below o f (.object this) args newTarget true m₁) : YieldsTo fuel i m below this := by
  intro e s ms k a b vs v hrun hb ht hi hreturning
  refine ⟨fun first hfirst hbase w hw =>
    wentOn_of_started hexecute hcall hstarted hrun hb ht hi hreturning hbase hfirst hw, ?_⟩
  intro hplace hbelow huntouched
  refine wentOn_in_place hexecute hcall hstarted hrun hb ht hi hreturning hplace hbelow ?_
  unfold yielded
  cases hv : v.isObject with
  | true => rfl
  | false =>
    have hkept := huntouched.kept hreturning.later
    rw [hrun.executed (Nat.lt_trans hreturning.later hb) ht hi hexecute, hreturning.operands.toList_eq,
      hstarted.operands.toList_eq] at hkept
    have hthis : (vs ++ [v])[below.length + 1]? = some (.object this) := by simpa using hkept
    -- the receiver is an object, so it is not what is returned
    have hlt : below.length + 1 < vs.length := by
      by_contra hge
      rw [List.getElem?_append_right (Nat.le_of_not_lt hge)] at hthis
      obtain rfl : .object this = v := by simpa using List.mem_of_getElem? hthis
      cases hv
    rwa [List.getElem?_append_left hlt] at hthis

/-! ### Agreement -/

/-- What the instruction does in `m`.

* A script constructor starts with a frame above the operands below the call.  Returning, it lets its caller go on.
* A bound function is left to a construction from outside, whose answer takes the place of the callee. -/
inductive ConstructsInLoop (fuel : Nat) (m : Machine) (below : List Value) (callee : Value) (args : List Value)
    (σ : Store) (o : ObjectId) (f : Closure) (this : ObjectId) : List BoundFunction → Prop where
  | script {m₁ : Machine} :
      callee = .object o → (∀ enter, execute enter fuel (.construct args.length) m = .ok () m₁) → m₁.store = σ →
      Suspended m m₁ → Started below o f (.object this) args (.object o) true m₁ →
      YieldsTo fuel (.construct args.length) m below this →
      ConstructsInLoop fuel m below callee args σ o f this []
  | bound {b : BoundFunction} {bs : List BoundFunction} {m₁ : Machine} :
      (∀ enter fuel, execute enter fuel (.construct args.length) m =
        (do replaceNext (← enter (.construct callee args none))) m₁) →
      ConstructsOutside fuel (fuel + (b :: bs).length + 1) (.construct callee args none) m₁ (below ++ [callee]) σ o f
        this (boundArguments (b :: bs) args) →
      (∀ r m₂ vs w, m.WellNested →
        disciplined (fuel + (b :: bs).length + 1) (.construct callee args none) m₁ = .ok r m₂ →
        m₂.stack.Holds (vs ++ [w]) →
        ∃ m₃, (∀ n, execute (enter (fuel + (b :: bs).length + 1)) n (.construct args.length) m = .ok () m₃) ∧
          WentOn m m₃ (vs ++ [r])) →
      ConstructsInLoop fuel m below callee args σ o f this (b :: bs)

theorem replaceNext_of_holds {vs : List Value} {w : Value} (hstack : m.stack.Holds (vs ++ [w])) (v : Value) :
    ∃ m', replaceNext v m = .ok () m' ∧ WentOn m m' (vs ++ [v]) := by
  obtain ⟨s, hreplace, hs⟩ := hstack.replaceTop v
  have hwrite := writeStack_of_ok (g := (·.replaceTop v)) hreplace
  exact ⟨_, bind_ok hwrite, ⟨rfl, rfl, hs⟩⟩

theorem constructsInLoop_of_boundTo (fuel : Nat) (hbound : m.store.BoundTo callee bs (.object o))
    (hscript : (m.store.object o).callee? = some (.script f)) (hnormal : f.kind.isNormal = true)
    (hstack : m.stack.Holds (below ++ callee :: args)) (hroom : HasRoom 2 m) :
    ConstructsInLoop fuel m below callee args ((m.store.seenAlong callee bs).withReceiver m.realm o) o f m.store.fresh
      bs := by
  cases hbound with
  | target =>
    obtain ⟨m₁, hexecute, hstore, hcall, hstarted⟩ := construct_of_script fuel hscript hnormal
      ⟨hroom.calls, by have hframes := hroom.frames; omega⟩ hstack
    exact .script rfl hexecute hstore hcall hstarted (yieldsTo_of_started hexecute hcall hstarted)
  | @bound _ _ b bs h rest =>
    obtain ⟨s, hs, hexecute⟩ := construct_of_other (constructor_of_bound h) hroom hstack
    have hseen := m.store.makes_seen callee
    have houtside := constructsOutside_of_boundTo (m := { m with store := m.store.seen callee, stack := s }) fuel
      ((Store.BoundTo.bound h rest).made hseen) ((hseen.callee o).trans hscript) hnormal ⟨hroom.calls, hroom.frames⟩
      hs args
    rw [Store.seenAlong_seen, hseen.fresh_eq] at houtside
    refine .bound hexecute houtside fun r m₂ vs w hwell hanswer hstack₂ => ?_
    -- the nested entry leaves frames and registers alone, so the caller goes on with its answer
    have hwell' : { m with store := m.store.seen callee, stack := s }.WellNested := hwell.congr rfl rfl
    have hbalanced := ((nests_disciplined _).evaluate _).rel_of_ok hwell' hanswer
    have hanswer' := (follows_watched discipline _ _).ok_of_following hanswer
    obtain ⟨m₃, hreplace, hwent⟩ := replaceNext_of_holds hstack₂ r
    refine ⟨m₃, fun n => ?_, hwent.frames.trans hbalanced.frames, ?_, hwent.operands⟩
    · rw [hexecute, bind_ok hanswer', hreplace]
    · rw [hwent.regs]
      unfold Machine.advanced
      rw [hbalanced.regs]

/-- **Construction by an instruction and construction from outside agree.** -/
theorem constructs_agree (fuel : Nat) {m' : Machine} {below' : List Value}
    (hbound : m.store.BoundTo callee bs (.object o)) (hscript : (m.store.object o).callee? = some (.script f))
    (hnormal : f.kind.isNormal = true) (hstack : m.stack.Holds (below ++ callee :: args)) (hroom : HasRoom 2 m)
    (hstore : m'.store = m.store) (hrealm : m'.realm = m.realm) (hstack' : m'.stack.Holds below')
    (hroom' : HasRoom 2 m') :
    ((m.store.seenAlong callee bs).withReceiver m.realm o).object m.store.fresh =
        .ofKind (some (m.store.prototypeFor m.realm o)) .ordinary ∧
      ConstructsInLoop fuel m below callee args ((m.store.seenAlong callee bs).withReceiver m.realm o) o f m.store.fresh
        bs ∧
      ConstructsOutside fuel (fuel + bs.length + 1) (.construct callee args none) m' below'
        ((m.store.seenAlong callee bs).withReceiver m.realm o) o f m.store.fresh (boundArguments bs args) := by
  refine ⟨?_, constructsInLoop_of_boundTo fuel hbound hscript hnormal hstack hroom, ?_⟩
  · have hmade := m.store.makes_seenAlong callee bs
    rw [← hmade.fresh_eq, ← hmade.prototypeFor_eq]
    exact Store.object_withReceiver _ _ _
  · have houtside := constructsOutside_of_boundTo fuel (hstore ▸ hbound) (hstore ▸ hscript) hnormal hroom'
      hstack' args
    rwa [hstore, hrealm] at houtside

/-! ### A constructor that returns no object -/

def returnsFirst : Closure := ⟨⟨⟨1⟩, Text.ofString "f", 1, false⟩, (Machine.new .default).realm.globalScope, .normal⟩

/-- A program that, with an operand below, constructs with a number.  The constructor names a prototype. -/
def withNumber : Machine :=
  let m := withCode #[.loadConstant 1, .loadConstant 0, .loadConstant 2, .construct 1, .halt]
    #[.object ⟨0⟩, .int 5, .int 3]
  let code : Program :=
    { code := #[.enterBare 0 1, .loadSlot ⟨-1, false⟩ false, .ret], constants := #[], name := Text.ofString "f"
      source := none, marks := [] }
  { m with
    store := { m.store with
      objects := #[⟨⟨none, ⟨[(.ofString "prototype", .plain (.object ⟨1⟩))]⟩, true⟩, .function returnsFirst⟩,
        ⟨.new none, .ordinary⟩]
      programs := m.store.programs.push code } }

noncomputable def withNumberRun : Nat → Machine := stateAfter (disciplined 9) 9 (nested withNumber)

/-- The receiver inherits from the prototype that the constructor names, and is what the caller goes on with. -/
theorem constructs_agree_withNumber :
    DisciplinedRun 9 (.program ⟨0⟩) withNumber withNumberRun 7 ∧
      ((((withNumberRun 3).store.seenAlong (.object ⟨0⟩) []).withReceiver withNumber.realm ⟨0⟩).object ⟨2⟩ =
        .ofKind (some ⟨1⟩) .ordinary) ∧
      (∃ m₁, (∀ enter, execute enter 9 (.construct 1) (withNumberRun 3) = .ok () m₁) ∧
        Started [.int 5] ⟨0⟩ returnsFirst (.object ⟨2⟩) [.int 3] (.object ⟨0⟩) true m₁) ∧
      WentOn (withNumberRun 3) (withNumberRun 7) [.int 5, .object ⟨2⟩] := by
  have hrun : DisciplinedRun 9 (.program ⟨0⟩) withNumber withNumberRun 7 :=
    disciplinedRun_of_test rfl ((wellNested_new .default).congr rfl rfl) (by decide +kernel)
  have hstack : (withNumberRun 3).stack.Holds ([.int 5] ++ .object ⟨0⟩ :: [.int 3]) := ⟨rfl, rfl⟩
  have hempty : withNumber.stack.Holds [] := ⟨rfl, rfl⟩
  have hsame : withNumber.store = (withNumberRun 3).store := rfl
  have hrealm : withNumber.realm = (withNumberRun 3).realm := rfl
  have hscript : ((withNumberRun 3).store.object ⟨0⟩).callee? = some (.script returnsFirst) := rfl
  have hreturning : Returning withNumberRun 3 6 [.int 5, .object ⟨0⟩, .object ⟨2⟩, .int 3] (.int 3) :=
    returning_of_test (by decide) (by decide +kernel)
  have hplace : InPlace withNumberRun 3 6 := by
    have hbase : ∀ t < 6, 3 < t → (withNumberRun t).regs.base =
        some ((withNumberRun t).stack.top - ((withNumberRun t).regs.args + 1)) := by decide +kernel
    exact fun t h4 h7 _ _ _ => hbase t h7 h4
  have huntouched : Untouched withNumberRun 3 6 2 := by
    have hall : ∀ t < 6, 3 < t →
        (withNumberRun (t + 1)).stack.toList[2]? = (withNumberRun t).stack.toList[2]? := by decide +kernel
    exact fun t h3 h6 => hall t h6 h3
  obtain ⟨hreceiver, hloop, _⟩ := constructs_agree 9 (.target rfl) hscript rfl hstack
    ⟨.inl rfl, .inr (by decide +kernel)⟩ hsame hrealm hempty ⟨.inl rfl, .inr (by decide +kernel)⟩
  cases hloop with
  | script _ hexecute _ _ hstarted hyields =>
    refine ⟨hrun, hreceiver, ⟨_, hexecute, hstarted⟩, ?_⟩
    exact (hyields hrun (by decide) rfl rfl hreturning).2 hplace ⟨_, rfl⟩ huntouched

end VM

end ScriptMachine
