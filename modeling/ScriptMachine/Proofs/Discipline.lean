import ScriptMachine.Proofs.Isolation

/-!
# Call discipline

Code may leave a function by `halt` or a program by a return, and a host function may go on after the evaluation of
source text has failed; frames are then left behind.  A run keeps the discipline if it does nothing of the kind.

* `balanced` — the law that frames and registers are the same after a success, and that after a failure they are so too
  or saved below other frames.  Host functions that propagate obey it (`balanced_runHost`).
-/

namespace ScriptMachine

variable {a c : Machine} {b : Behaviour} {enter : Enter}

/-! ### Host functions -/

namespace Behaviour

/-- A host function that fails in any case. -/
inductive Fails : Behaviour → Prop where
  | done (f : Fault) : Fails (.done (.error f))
  | ask {op : HostOp} {next : op.Answer → Behaviour} : (∀ a, Fails (next a)) → Fails (.ask op next)
  | makeNative {name : Text} {length : Nat} {body : HostCall → Behaviour} {next : ObjectId → Behaviour} :
      (∀ o, Fails (next o)) → Fails (.makeNative name length body next)

/-- A host function that fails once an evaluation has failed. -/
inductive Propagates : Behaviour → Prop where
  | done (outcome : Outcome Value) : Propagates (.done outcome)
  | ask {op : HostOp} {next : op.Answer → Behaviour} :
      op.evaluates = false → (∀ a, Propagates (next a)) → Propagates (.ask op next)
  | evaluate {source : Text} {direct strict : Bool} {this : Value} {next : Outcome Value → Behaviour} :
      (∀ f, Fails (next (.error f))) → (∀ v, Propagates (next (.ok v))) →
      Propagates (.ask (.evaluate source direct strict this) next)
  | makeNative {name : Text} {length : Nat} {body : HostCall → Behaviour} {next : ObjectId → Behaviour} :
      (∀ o, Propagates (next o)) → Propagates (.makeNative name length body next)

end Behaviour

def Callee.Propagates : Callee → Prop
  | .native f =>
    (∀ c, (f.call c).Propagates) ∧ ∀ construct ∈ f.construct, ∀ args newTarget, (construct args newTarget).Propagates
  | .proxy _ h =>
    (∀ target this args, (h.apply target this args).Propagates) ∧
      ∀ target args newTarget, (h.construct target args newTarget).Propagates
  | _ => True

def Object.callee? (x : Object) : Option Callee := (x.kind.settle x.toShell).1.kind.callee?

def Store.Propagates (σ : Store) : Prop := ∀ o, ∀ callee ∈ (σ.object o).callee?, callee.Propagates

theorem Store.propagates_of {σ : Store} (h : ∀ x ∈ σ.objects, ∀ callee ∈ x.callee?, callee.Propagates) :
    σ.Propagates := by
  intro o callee hcallee
  unfold Store.object at hcallee
  cases ho : σ.objects[o.index]? with
  | none => simp [ho] at hcallee; cases hcallee
  | some x => exact h x (Array.mem_of_getElem? ho) callee (by rwa [ho] at hcallee)

/-! ### The discipline -/

/-- Whether an entry runs a program in its dispatch loop, and not a function. -/
def Entry.runsProgram : Entry → Bool
  | .evaluate .. | .program _ => true
  | _ => false

namespace VM

/-- What a run does that keeps the discipline, in a loop that is run for an entry and was started from `s`: a function
ends with `halt` only a section of a try statement, a program does not return, and host code propagates. -/
structure Keeps (e : Entry) (s m : Machine) : Prop where
  halts : next? m = some .halt →
    (∃ h ∈ m.handlers, owns m h = true) ∨ e.runsProgram = true ∧ m.frames.length = s.frames.length
  returns : next? m = some .ret → e.runsProgram = true → m.frames.length ≠ s.frames.length
  host : m.store.Propagates

/-- The discipline, as something to be tested during a run. -/
def discipline : Watch where
  entry _ m := m.store.Propagates
  turn := Keeps

/-- Entries that stop where the discipline is broken. -/
noncomputable def disciplined : Nat → Enter := watched discipline outOfFuel

/-! ### Balance -/

/-- Frames and registers are the same. -/
structure Balanced (m m' : Machine) : Prop where
  handlers : m'.handlers = m.handlers
  depth : m'.depth = m.depth
  frames : m'.frames = m.frames
  regs : m'.regs = m.regs
  halted : m.halted = false → m'.halted = false

/-- All frames are still there, below others. -/
structure Deepened (m m' : Machine) : Prop where
  handlers : m'.handlers = m.handlers
  depth : m'.depth = m.depth
  frames : m.frames <:+ m'.frames
  halted : m.halted = false → m'.halted = false

/-- All frames are still there, and the running activation still runs or is saved on top of them, below others. -/
structure Stranded (m m' : Machine) : Prop extends Deepened m m' where
  saved : (m'.frames = m.frames ∧ m'.regs = m.regs) ∨ m.regs :: m.frames <:+ m'.frames

theorem Balanced.stranded {m m' : Machine} (h : Balanced m m') : Stranded m m' :=
  ⟨⟨h.handlers, h.depth, h.frames ▸ List.suffix_refl _, h.halted⟩, .inl ⟨h.frames, h.regs⟩⟩

theorem Outside.balanced {m m' : Machine} (h : Outside m m') : Balanced m m' :=
  ⟨h.handlers, h.depth, h.frames, h.regs, fun hm => h.halted.trans hm⟩

theorem Balanced.refl (m : Machine) : Balanced m m := Outside.balanced {}

theorem Balanced.trans {b : Machine} (h : Balanced a b) (h' : Balanced b c) : Balanced a c :=
  ⟨h'.handlers.trans h.handlers, h'.depth.trans h.depth, h'.frames.trans h.frames, h'.regs.trans h.regs,
    h'.halted ∘ h.halted⟩

theorem Deepened.trans {b : Machine} (h : Deepened a b) (h' : Deepened b c) : Deepened a c :=
  ⟨h'.handlers.trans h.handlers, h'.depth.trans h.depth, h.frames.trans h'.frames, h'.halted ∘ h.halted⟩

theorem Stranded.trans {b : Machine} (h : Stranded a b) (h' : Stranded b c) : Stranded a c := by
  refine ⟨h.toDeepened.trans h'.toDeepened, ?_⟩
  rcases h.saved with ⟨hframes, hregs⟩ | hsaved
  · simpa only [hframes, hregs] using h'.saved
  · exact .inr (hsaved.trans h'.frames)

/-- The law that frames and registers stay the same, and that a failure leaves frames behind at most. -/
def balanced : Law where
  pre := Machine.WellNested
  rel := Balanced
  fail := Stranded
  stops _ := False
  refl := .refl
  trans := .trans
  keeps hm h := hm.congr h.handlers h.depth
  weaken := Balanced.stranded
  trans_fail h h' := h.stranded.trans h'

/-- The law that frames are left behind at most. -/
def stranding : Law :=
  .ofRel Machine.WellNested Stranded (fun m => (Balanced.refl m).stranded) .trans
    (fun hm h => hm.congr h.handlers h.depth)

instance : balanced.Exact := ⟨fun _ => id⟩

instance : stranding.Exact := ⟨fun _ => id⟩

theorem bottomOf_of_suffix {a b : List α} (h : a <:+ b) : bottomOf a.length b = a := by
  obtain ⟨left, rfl⟩ := h
  exact bottomOf_append left a

instance : balanced.Aside := ⟨Outside.balanced⟩

instance : balanced.Guard where
  restore _ h := ⟨h.handlers, h.depth, bottomOf_of_suffix h.frames, rfl, h.halted⟩
  refs _ _ := Outside.balanced {}

instance : stranding.Strict := ⟨id⟩

instance : stranding.Aside := ⟨fun h => h.balanced.stranded⟩

instance : stranding.Guard where
  restore _ h := Balanced.stranded ⟨h.handlers, h.depth, bottomOf_of_suffix h.frames, rfl, h.halted⟩
  refs _ _ := Law.Aside.aside {}

/-- Nested entries are balanced, and those that evaluate source text are so when they succeed. -/
structure Nests (enter : Enter) : Prop where
  strict : ∀ e, e.evaluates = false → Heeds balanced.strict (enter e)
  evaluate : ∀ e, Heeds balanced (enter e)

theorem Obeys.stranding {x y : VM α} (h : Obeys balanced x y) : Obeys stranding x y :=
  h.mono id (fun _ => Balanced.stranded) (fun _ => id) id

theorem fails_runHost {fuel : Nat} (hb : b.Fails) (m : Machine) (v : Value) (m' : Machine) :
    runHost enter fuel b m ≠ .ok v m' := by
  induction hb generalizing m with
  | done f => intro h; cases h
  | ask _ ih =>
    intro h
    obtain ⟨a, m₁, _, hrest⟩ := bind_eq_ok.mp h
    exact ih a m₁ hrest
  | makeNative _ ih =>
    intro h
    obtain ⟨realm, m₁, _, hrest⟩ := bind_eq_ok.mp h
    obtain ⟨o, m₂, _, hrest⟩ := bind_eq_ok.mp hrest
    exact ih o m₂ hrest

/-- Host functions that propagate obey a law that nested entries obey strictly, but for those that evaluate source text:
once an evaluation has failed, all that is done before the failure of the host function is a failure by that law. -/
theorem obeys_propagating {L F : Law} [L.Guard] [L.Iterators] [F.Guard] [F.Iterators] [F.Strict]
    (hstrict : ∀ e, e.evaluates = false → Heeds L.strict (enter e)) (hobeys : ∀ e, Heeds L (enter e))
    (hafter : ∀ e, Heeds F (enter e)) (hpre : ∀ {m m'}, L.pre m → L.fail m m' → F.pre m')
    (hfail : ∀ {a b c}, L.fail a b → F.fail b c → L.fail a c) (fuel : Nat) (hb : b.Propagates) :
    Heeds L (runHost enter fuel b) := by
  induction hb with
  | done outcome => exact obeys_ofOutcome _
  | ask hop _ ih =>
    have hop := obeys_perform (fun e he => (hstrict e he).when _) fuel hop
    exact hop.weaken.bind ih
  | @evaluate source direct strict this next hfails _ ih =>
    refine obeys_self fun m hm => ?_
    have heval := (hobeys (.evaluate source direct strict this) m hm).2
    have hrun : runHost enter fuel (.ask (.evaluate source direct strict this) next) m =
        (attempt (enter (.evaluate source direct strict this)) >>= fun a => runHost enter fuel (next a)) m := rfl
    rw [hrun]
    rcases hx : enter (.evaluate source direct strict this) m with ⟨v, m₁⟩ | ⟨f | _, m₁⟩
    · rw [hx] at heval
      rw [bind_ok (attempt_ok hx)]
      exact (ih v m₁ (L.keeps hm heval)).2.trans heval
    · rw [hx] at heval
      rw [bind_ok (attempt_fault hx)]
      have hrest := (obeys_runHost (fun e => (hafter e).when _) fuel (next (.error f)) m₁ (hpre hm heval)).2
      rcases hy : runHost enter fuel (next (.error f)) m₁ with ⟨v, m₂⟩ | ⟨f' | _, m₂⟩
      · exact absurd hy (fails_runHost (hfails f) m₁ v m₂)
      · rw [hy] at hrest
        exact hfail heval hrest
      · trivial
    · rw [bind_error (attempt_outOfFuel hx)]
      trivial
  | makeNative _ ih => exact obeys_realm.bind fun _ => (obeys_onStore _).bind ih

theorem balanced_runHost (he : Nests enter) (fuel : Nat) (hb : b.Propagates) : Heeds balanced (runHost enter fuel b) :=
  obeys_propagating he.strict he.evaluate (fun e => (he.evaluate e).stranding)
    (fun hm h => hm.congr h.handlers h.depth) Stranded.trans fuel hb

end VM

end ScriptMachine
