import ScriptMachine.Machine.Guard
import ScriptMachine.Proofs.Evolution

/-!
# What computations leave alone

A `Law` says what a computation may do to the machine: one relation between the states before and after a
computation that succeeds, reflexive and transitive, and a wider one for a computation that fails.  It speaks of the
states that meet a condition which the first relation keeps.  Of computations that run out of fuel it says nothing.

* `Obeys L x y` — from every such state `x` and `y` do the same, and what they do is allowed.  With `x = y` this says
  that `x` obeys the law; with two copies of a computation, whose nested entries are carried out by two functions, it
  says that the copies cannot be told apart, unless the first is stopped and the law admits this.
* Laws are grouped by what they allow at least (`Law.Store`, `Law.Quiet`, `Law.Control`, `Law.Calm`, …), so that what a
  function does is shown once, for all laws that allow it.
-/

namespace ScriptMachine.VM

variable {m m₁ m' : Machine} {e : Abort} {L : Law}

/-! ### Sequences of computations -/

theorem bind_ok {x : VM α} {f : α → VM β} {a : α} (h : x m = .ok a m₁) : (x >>= f) m = f a m₁ := by
  show EStateM.bind x f m = _
  simp [EStateM.bind, h]

theorem get_bind (f : Machine → VM α) (m : Machine) : ((get : VM Machine) >>= f) m = f m m := rfl

theorem regs_bind (f : Activation → VM α) (m : Machine) : (regs >>= f) m = f m.regs m := rfl

theorem realm_bind (f : Realm → VM α) (m : Machine) : (realm >>= f) m = f m.realm m := rfl

theorem top_bind (f : Nat → VM α) (m : Machine) : (top >>= f) m = f m.stack.top m := rfl

theorem iterator_bind (i : IteratorId) (f : IteratorRecord → VM α) (m : Machine) :
    (iterator i >>= f) m = f (m.iterator i) m := rfl

theorem bind_error {x : VM α} {f : α → VM β} (h : x m = .error e m₁) : (x >>= f) m = .error e m₁ := by
  show EStateM.bind x f m = _
  simp [EStateM.bind, h]

theorem bind_congr_at {x y : VM α} {f : α → VM β} (h : x m = y m') : (x >>= f) m = (y >>= f) m' := by
  show EStateM.bind x f m = EStateM.bind y f m'
  simp only [EStateM.bind, h]

theorem bind_congr_ok {x : VM α} {f g : α → VM β} (h : ∀ a m₁, x m = .ok a m₁ → f a m₁ = g a m₁) :
    (x >>= f) m = (x >>= g) m := by
  cases hx : x m with
  | ok a m₁ => rw [bind_ok hx, bind_ok hx, h a m₁ hx]
  | error e m₁ => rw [bind_error hx, bind_error hx]

theorem bind_eq_ok {x : VM α} {f : α → VM β} {b : β} :
    (x >>= f) m = .ok b m' ↔ ∃ a m₁, x m = .ok a m₁ ∧ f a m₁ = .ok b m' := by
  constructor
  · intro h
    cases hx : x m with
    | ok a m₁ => exact ⟨a, m₁, rfl, (bind_ok hx).symm.trans h⟩
    | error e m₁ => rw [bind_error hx] at h; cases h
  · rintro ⟨a, m₁, hx, hf⟩
    rw [bind_ok hx, hf]

theorem bind_eq_error {x : VM α} {f : α → VM β} :
    (x >>= f) m = .error e m' ↔
      x m = .error e m' ∨ ∃ a m₁, x m = .ok a m₁ ∧ f a m₁ = .error e m' := by
  constructor
  · intro h
    cases hx : x m with
    | ok a m₁ => exact .inr ⟨a, m₁, rfl, (bind_ok hx).symm.trans h⟩
    | error e' m₁ =>
      rw [bind_error hx] at h
      cases h
      exact .inl rfl
  · rintro (hx | ⟨a, m₁, hx, hf⟩)
    · exact bind_error hx
    · rw [bind_ok hx, hf]

theorem attempt_ok {x : VM α} {a : α} (h : x m = .ok a m') : attempt x m = .ok (.ok a) m' := by
  simp [attempt, h]

theorem attempt_fault {x : VM α} {f : Fault} (h : x m = .error (.fault f) m') : attempt x m = .ok (.error f) m' := by
  simp [attempt, h]

theorem attempt_outOfFuel {x : VM α} (h : x m = .error .outOfFuel m') : attempt x m = .error .outOfFuel m' := by
  simp [attempt, h]

theorem attempt_eq_error {x : VM α} :
    attempt x m = .error e m' ↔ e = .outOfFuel ∧ x m = .error .outOfFuel m' := by
  unfold attempt
  cases hx : x m with
  | ok a m₁ => simp
  | error e₁ m₁ => cases e₁ <;> simp [eq_comm]

section Guarded

variable {x : VM α} {m m₁ : Machine}

theorem guarded_of_ok (enter : Enter) {a : α} (h : x m = .ok a m₁) : guarded enter x m = .ok a m₁ := by
  unfold guarded
  rw [get_bind, bind_ok (attempt_ok h)]
  rfl

theorem guarded_of_fault (enter : Enter) {f : Fault} (h : x m = .error (.fault f) m₁) :
    guarded enter x m = (do raise (← rollBack enter m.snapshot (← settle f)) : VM α) m₁ := by
  unfold guarded
  rw [get_bind, bind_ok (attempt_fault h)]
  rfl

theorem guarded_of_outOfFuel (enter : Enter) (h : x m = .error .outOfFuel m₁) :
    guarded enter x m = .error .outOfFuel m₁ := by
  unfold guarded
  rw [get_bind, bind_error (attempt_outOfFuel h)]

end Guarded

/-! ### Laws -/

/-- What computations may do to the machine. -/
structure Law where
  /-- The states it speaks of. -/
  pre : Machine → Prop
  /-- The changes it allows. -/
  rel : Machine → Machine → Prop
  /-- The changes it allows to computations that fail. -/
  fail : Machine → Machine → Prop
  /-- The stores with which, of two computations compared, the first may run out of fuel where the second does not. -/
  stops : Store → Prop
  refl : ∀ m, rel m m
  trans : ∀ {a b c}, rel a b → rel b c → rel a c
  keeps : ∀ {a b}, pre a → rel a b → pre b
  weaken : ∀ {a b}, rel a b → fail a b
  trans_fail : ∀ {a b c}, rel a b → fail b c → fail a c

/-- What a law allows a computation that started from `m` to end with, if it may do `R` when it succeeds. -/
def Law.Admits (L : Law) (R : Machine → Machine → Prop) (m : Machine) : EStateM.Result Abort Machine α → Prop
  | .ok _ m' => R m m'
  | .error (.fault _) m' => L.fail m m'
  | .error .outOfFuel _ => True

/-- What a law allows a computation that started from `m` to end with. -/
abbrev Law.Allows (L : Law) (m : Machine) (r : EStateM.Result Abort Machine α) : Prop := L.Admits L.rel m r

/-- How the results of two computations compare. -/
def Law.Matches (L : Law) (r r' : EStateM.Result Abort Machine α) : Prop :=
  r = r' ∨ ∃ m, L.stops m.store ∧ r = .error .outOfFuel m

/-- A computation started from `m` ends in `m'`, with a value or a fault. -/
def Ends (x : VM α) (m m' : Machine) : Prop := (∃ a, x m = .ok a m') ∨ ∃ f, x m = .error (.fault f) m'

/-- Two computations do the same, and what they do is allowed. -/
def Obeys (L : Law) (x y : VM α) : Prop := ∀ m, L.pre m → L.Matches (x m) (y m) ∧ L.Allows m (x m)

/-- What a computation does is allowed. -/
abbrev Heeds (L : Law) (x : VM α) : Prop := Obeys L x x

/-- Two computations do the same, and what they do is allowed, if they may do `R` when they succeed. -/
def Lands (L : Law) (R : Machine → Machine → Prop) (x y : VM α) : Prop :=
  ∀ m, L.pre m → L.Matches (x m) (y m) ∧ L.Admits R m (x m)

abbrev Arrives (L : Law) (R : Machine → Machine → Prop) (x : VM α) : Prop := Lands L R x x

/-- The same, from the states that also meet a condition. -/
def LandsWhen (L : Law) (p : Machine → Prop) (R : Machine → Machine → Prop) (x y : VM α) : Prop :=
  ∀ m, L.pre m → p m → L.Matches (x m) (y m) ∧ L.Admits R m (x m)

/-- From the states that also meet a condition, two computations do the same, and what they do is allowed. -/
abbrev ObeysWhen (L : Law) (p : Machine → Prop) (x y : VM α) : Prop := LandsWhen L p L.rel x y

namespace Law

/-- A law that makes no difference between success and failure. -/
def ofRel (pre : Machine → Prop) (rel : Machine → Machine → Prop) (refl : ∀ m, rel m m)
    (trans : ∀ {a b c}, rel a b → rel b c → rel a c) (keeps : ∀ {a b}, pre a → rel a b → pre b) : Law where
  pre; rel; fail := rel; stops := fun _ => False; refl; trans; keeps; weaken := id; trans_fail := trans

/-- The law that a condition once met stays met. -/
def keeping (inv : Machine → Prop) : Law :=
  ofRel inv (fun a b => inv a → inv b) (fun _ => id) (fun h h' => h' ∘ h) (fun h h' => h' h)

/-- The law that allows failures no more than successes. -/
def strict (L : Law) : Law := { L with fail := L.rel, weaken := id, trans_fail := L.trans }

/-- The same law, about the states that can be reached from one state on. -/
def since (L : Law) (m₀ : Machine) : Law :=
  { L with pre := fun m => L.pre m ∧ L.rel m₀ m, keeps := fun hm h => ⟨L.keeps hm.1 h, L.trans hm.2 h⟩ }

/-- Failures are allowed no more than successes. -/
class Strict (L : Law) : Prop where
  strict : ∀ {a b}, L.fail a b → L.rel a b

/-- Computations compared do the same throughout. -/
class Exact (L : Law) : Prop where
  exact : ∀ σ, ¬ L.stops σ

/-- The store may evolve. -/
class Store (L : Law) : Prop where
  store : ∀ m {σ}, m.store.Persists σ → L.rel m { m with store := σ }

/-- What the holder of the machine sets may be changed too: interrupt, limits, compiler. -/
class Host (L : Law) : Prop extends Store L where
  interrupt : ∀ m i, L.rel m { m with interrupt := i }
  limits : ∀ m l, L.rel m { m with limits := l }
  compiler : ∀ m c, L.rel m { m with compiler := c }

end Law

/-- What only calls, returns and try statements change, what the holder of the machine sets, and the realm are the same.
The rest is free: store, operand stack, loops, references, and of the registers those of the running code. -/
structure SameControl (m m' : Machine) : Prop where
  handlers : m'.handlers = m.handlers := by rfl
  frames : m'.frames = m.frames := by rfl
  depth : m'.depth = m.depth := by rfl
  halted : m'.halted = m.halted := by rfl
  limits : m'.limits = m.limits := by rfl
  program : m'.regs.program = m.regs.program := by rfl
  native : m'.regs.native = m.regs.native := by rfl
  constructing : m'.regs.constructing = m.regs.constructing := by rfl
  realm : m'.realm = m.realm := by rfl

/-- Control, the base of the running code, and loops with what they go through are the same, and the store evolves. -/
structure Local (m m' : Machine) : Prop extends SameControl m m', m.Advances m' where
  base : m'.regs.base = m.regs.base := by rfl
  loops : m'.loops = m.loops := by rfl
  iterators : m'.iterators = m.iterators := by rfl

theorem Local.of_advances {store : Store} {stack : OperandStack} {refs : List Reference} {scope : ScopeId}
    {pc args scopesMade : Nat} {result : Value}
    (h : m.Advances { m with store, stack, refs, scopesMade, regs := { m.regs with scope, pc, args, result } }) :
    Local m { m with store, stack, refs, scopesMade, regs := { m.regs with scope, pc, args, result } } :=
  ⟨⟨rfl, rfl, rfl, rfl, rfl, rfl, rfl, rfl, rfl⟩, h, rfl, rfl, rfl⟩

theorem Local.operands {stack : OperandStack} {pc args : Nat} {result : Value} :
    Local m { m with stack, regs := { m.regs with pc, args, result } } :=
  .of_advances (.of_handlers (fun _ => .handler) .current)

theorem Local.refs {refs : List Reference} (h : ∀ r ∈ refs, ∀ s, r.record? = some s → m.Sees s) :
    Local m { m with refs } :=
  .of_advances (Machine.Looks.advances ⟨rfl, rfl, rfl, .current, fun _ => .frame, fun _ => .handler, h⟩)

/-- Handlers, frames, registers and operands are the same, and the store evolves. -/
structure Outside (m m' : Machine) : Prop where
  handlers : m'.handlers = m.handlers := by rfl
  depth : m'.depth = m.depth := by rfl
  frames : m'.frames = m.frames := by rfl
  regs : m'.regs = m.regs := by rfl
  halted : m'.halted = m.halted := by rfl
  stack : m'.stack = m.stack := by rfl
  store : m.store.Persists m'.store := by exact .refl _

namespace Law

/-- All may be changed but handlers, frames, registers and operands. -/
class Aside (L : Law) : Prop where
  aside : ∀ {m m'}, Outside m m' → L.rel m m'

/-- All may be changed but control, the base of the running code, and loops with what they go through. -/
class Quiet (L : Law) : Prop where
  quiet : ∀ {m m'}, Local m m' → L.rel m m'

/-- All may be changed but control, the base of the running code, the instruction it is at, and loops with what they go
through. -/
class Operands (L : Law) : Prop where
  operands : ∀ {m m'}, Local m m' → m'.regs.pc = m.regs.pc → L.rel m m'

/-- Computations that obey a law until they are about to succeed may then also move the running code on, and do `R` all in
all. -/
class Landing (L : Law) (R : Machine → Machine → Prop) : Prop where
  allowed : ∀ {m m'}, L.rel m m' → R m m'
  after : ∀ {a b c}, L.rel a b → R b c → R a c
  quiet : ∀ {m m'}, Local m m' → R m m'

/-- The base of the running code may be moved. -/
class Base (L : Law) : Prop where
  base : ∀ m b, L.rel m { m with regs := { m.regs with base := b } }

/-- Loops may be left. -/
class Drops (L : Law) : Prop where
  drops : ∀ m n, L.rel m { m with loops := bottomOf n m.loops }

/-- Loops may be opened and left. -/
class Loops (L : Law) : Prop where
  loops : ∀ m l, L.rel m { m with loops := l }

/-- Iterators may be opened, those that are active may be closed, and all may end. -/
class Iterators (L : Law) : Prop where
  opens : ∀ m r, r.iterator.isObject = true → r.status = .active → L.rel m { m with iterators := m.iterators.push r }
  closes : ∀ m i, (m.iterator i).status = .active → L.rel m (m.setStatus i .closing)
  ends : ∀ m i, L.rel m (m.setStatus i .ended)

/-- All but control may be changed, and the store may evolve. -/
class Control (L : Law) : Prop where
  control : ∀ {m m'}, SameControl m m' → m.Advances m' → L.rel m m'

/-- A failed computation may be undone, and loops and references dropped. -/
class Guard (L : Law) : Prop extends Host L, Drops L where
  restore : ∀ {m₀ m σ}, m.store.Persists σ → L.fail m₀ m → L.rel m₀ ({ m with store := σ }.restore m₀.snapshot)
  refs : ∀ m n, L.rel m { m with refs := bottomOf n m.refs }

/-- All may be changed but the realm, handlers, the number of dispatch loops, and loops with what they go through. -/
class Mild (L : Law) : Prop extends Strict L where
  mild : ∀ {m m'}, m'.handlers = m.handlers → m'.depth = m.depth → m'.loops = m.loops → m'.iterators = m.iterators →
    m'.realm = m.realm → m.Advances m' → L.rel m m'

/-- All but the realm, loops and what they go through may be changed. -/
class Lax (L : Law) : Prop extends Strict L where
  lax : ∀ {m m'}, m'.loops = m.loops → m'.iterators = m.iterators → m'.realm = m.realm → m.Advances m' → L.rel m m'

/-- Of what only calls, returns and the holder of the machine change, registers may be set and frames dropped, and a
dispatch loop may be ended. -/
class Falling (L : Law) : Prop where
  falling : ∀ {m m'}, m'.handlers = m.handlers → m'.depth = m.depth → m'.loops = m.loops → m'.iterators = m.iterators →
    m'.realm = m.realm → m'.limits = m.limits → m'.frames.length ≤ m.frames.length → m.Advances m' → L.rel m m'

/-- All but the realm, limits, loops and what they go through may be changed, but no frame may be added. -/
class Easing (L : Law) : Prop extends Strict L where
  eases : ∀ {m m'}, m'.loops = m.loops → m'.iterators = m.iterators → m'.realm = m.realm → m'.limits = m.limits →
    m'.frames.length ≤ m.frames.length → m.Advances m' → L.rel m m'

/-- All but handlers and the number of dispatch loops may be changed. -/
class Calm (L : Law) : Prop extends Strict L where
  calm : ∀ {m m'}, m'.handlers = m.handlers → m'.depth = m.depth → m.store.Grows m'.store → L.rel m m'

/-- Global names may be declared and forgotten. -/
class Names (L : Law) : Prop where
  names : ∀ m {σ} names, m.store.Grows σ → m.store.Links σ → L.rel m { m with store := σ, varNames := names }

/-- Moreover the current record may be replaced. -/
class Declares (L : Law) : Prop where
  declares : ∀ m {σ} names scope n, m.store.Grows σ →
    L.rel m { m with store := σ, varNames := names, regs := { m.regs with scope }, scopesMade := n }

instance (priority := low) [Declares L] : Names L := ⟨fun m _ names h _ => Declares.declares m names _ _ h⟩

instance (inv : Machine → Prop) : Exact (keeping inv) := ⟨fun _ => id⟩

instance (L : Law) : Strict L.strict := ⟨id⟩

instance [Exact L] : Exact L.strict := ⟨Exact.exact (L := L)⟩

instance [Store L] : Store L.strict := ⟨fun m _ h => Store.store (L := L) m h⟩

instance [Quiet L] : Quiet L.strict := ⟨Quiet.quiet (L := L)⟩

instance [Operands L] : Operands L.strict := ⟨Operands.operands (L := L)⟩

instance [Base L] : Base L.strict := ⟨fun m b => Base.base (L := L) m b⟩

instance [Loops L] : Loops L.strict := ⟨fun m l => Loops.loops (L := L) m l⟩

instance [Iterators L] : Iterators L.strict where
  opens m r hr ha := Iterators.opens (L := L) m r hr ha
  closes m i h := Iterators.closes (L := L) m i h
  ends m i := Iterators.ends (L := L) m i

instance [Declares L] : Declares L.strict := ⟨Declares.declares (L := L)⟩

instance [Guard L] : Guard L.strict where
  store m _ h := Store.store (L := L) m h
  interrupt m i := Host.interrupt (L := L) m i
  limits m l := Host.limits (L := L) m l
  compiler m c := Host.compiler (L := L) m c
  drops m n := Drops.drops (L := L) m n
  restore hσ h := Guard.restore (L := L) hσ (L.weaken h)
  refs m r := Guard.refs (L := L) m r

instance [Strict L] (m₀ : Machine) : Strict (L.since m₀) := ⟨Strict.strict (L := L)⟩

instance [Exact L] (m₀ : Machine) : Exact (L.since m₀) := ⟨Exact.exact (L := L)⟩

instance [Operands L] (m₀ : Machine) : Operands (L.since m₀) := ⟨Operands.operands (L := L)⟩

instance [Base L] (m₀ : Machine) : Base (L.since m₀) := ⟨fun m b => Base.base (L := L) m b⟩

instance [Loops L] (m₀ : Machine) : Loops (L.since m₀) := ⟨fun m l => Loops.loops (L := L) m l⟩

instance [Declares L] (m₀ : Machine) : Declares (L.since m₀) := ⟨Declares.declares (L := L)⟩

instance [Iterators L] (m₀ : Machine) : Iterators (L.since m₀) where
  opens m r hr ha := Iterators.opens (L := L) m r hr ha
  closes m i h := Iterators.closes (L := L) m i h
  ends m i := Iterators.ends (L := L) m i

instance [Guard L] (m₀ : Machine) : Guard (L.since m₀) where
  store m _ h := Store.store (L := L) m h
  interrupt m i := Host.interrupt (L := L) m i
  limits m l := Host.limits (L := L) m l
  compiler m c := Host.compiler (L := L) m c
  drops m n := Drops.drops (L := L) m n
  restore hσ h := Guard.restore (L := L) hσ h
  refs m r := Guard.refs (L := L) m r

instance (priority := low) [Aside L] : Host L where
  store _ _ h := Aside.aside { store := h }
  interrupt _ _ := Aside.aside {}
  limits _ _ := Aside.aside {}
  compiler _ _ := Aside.aside {}

instance (priority := low) [Aside L] : Loops L := ⟨fun _ _ => Aside.aside {}⟩

instance (priority := low) [Aside L] : Iterators L where
  opens _ _ _ _ := Aside.aside {}
  closes _ _ _ := Aside.aside {}
  ends _ _ := Aside.aside {}

instance (priority := low) [Quiet L] : Operands L := ⟨fun h _ => Quiet.quiet h⟩

instance [Quiet L] : Landing L L.rel := ⟨id, L.trans, Quiet.quiet⟩

instance : Landing L fun _ _ => True := ⟨fun _ => trivial, fun _ _ => trivial, fun _ => trivial⟩

instance (priority := low) [Operands L] : Store L where
  store _ _ h := Operands.operands (.of_advances (.of_store h)) rfl

instance (priority := low) [Control L] : Quiet L := ⟨fun h => Control.control h.toSameControl h.toAdvances⟩

instance (priority := low) [Control L] : Base L where
  base _ _ := Control.control {} {}

instance (priority := low) [Control L] : Loops L where
  loops _ _ := Control.control {} {}

instance (priority := low) [Loops L] : Drops L where
  drops m _ := Loops.loops m _

instance (priority := low) [Control L] : Iterators L where
  opens _ _ _ _ := Control.control {} {}
  closes _ _ _ := Control.control {} {}
  ends _ _ := Control.control {} {}

instance (priority := low) [Mild L] : Quiet L where
  quiet h := Mild.mild h.handlers h.depth h.loops h.iterators h.realm h.toAdvances

instance (priority := low) [Mild L] : Base L where
  base _ _ := Mild.mild rfl rfl rfl rfl rfl {}

instance (priority := low) [Mild L] : Host L where
  interrupt _ _ := Mild.mild rfl rfl rfl rfl rfl {}
  limits _ _ := Mild.mild rfl rfl rfl rfl rfl {}
  compiler _ _ := Mild.mild rfl rfl rfl rfl rfl {}

instance (priority := low) [Lax L] : Mild L where
  mild _ _ hl hi hr hm := Lax.lax hl hi hr hm

instance (priority := low) [Mild L] : Falling L where
  falling hh hd hl hi hr _ _ hm := Mild.mild hh hd hl hi hr hm

instance (priority := low) [Lax L] : Easing L where
  eases hl hi hr _ _ hm := Lax.lax hl hi hr hm

instance (priority := low) [Easing L] : Falling L where
  falling _ _ hl hi hr hlim hf hm := Easing.eases hl hi hr hlim hf hm

instance (priority := low) [Calm L] : Mild L where
  mild hh hd _ _ _ hm := Calm.calm hh hd hm.store.toGrows

instance (priority := low) [Calm L] : Control L where
  control h hm := Calm.calm h.handlers h.depth hm.store.toGrows

instance (priority := low) [Calm L] : Guard L where
  drops _ _ := Calm.calm rfl rfl (.refl _)
  restore hσ h := L.trans (Strict.strict h) (Calm.calm rfl rfl hσ.toGrows)
  refs _ _ := Calm.calm rfl rfl (.refl _)

instance (priority := low) [Calm L] : Declares L where
  declares _ _ _ _ _ hσ := Calm.calm rfl rfl hσ

end Law

/-! ### Rules -/

section Rules

variable {L : Law} {p q : Machine → Prop} {R : Machine → Machine → Prop}

theorem obeys_self {x : VM α} (h : ∀ m, L.pre m → L.Allows m (x m)) : Heeds L x := fun m hm => ⟨.inl rfl, h m hm⟩

theorem Obeys.when {x y : VM α} (h : Obeys L x y) (p : Machine → Prop) : ObeysWhen L p x y := fun m hm _ => h m hm

theorem ObeysWhen.now {x y : VM α} (h : ObeysWhen L (fun _ => True) x y) : Obeys L x y := fun m hm => h m hm trivial

@[grind ←] theorem obeys_pure (a : α) : Heeds L (pure a : VM α) := obeys_self fun m _ => L.refl m

@[grind ←] theorem obeys_raise (f : Fault) : Heeds L (raise f : VM α) := obeys_self fun m _ => L.weaken (L.refl m)

@[grind ←] theorem obeys_outOfFuel : Heeds L (outOfFuel : VM α) := obeys_self fun _ _ => trivial

theorem Law.Admits.trans {r : EStateM.Result Abort Machine α} (h : L.rel m m₁) (h' : L.Allows m₁ r) : L.Allows m r := by
  rcases r with _ | ⟨_ | _, _⟩
  · exact L.trans h h'
  · exact L.trans_fail h h'
  · trivial

theorem Obeys.after {x y : VM α} (h : Obeys L x y) (hm : L.rel m m₁) (hm₁ : L.pre m₁) :
    L.Matches (x m₁) (y m₁) ∧ L.Allows m (x m₁) := ⟨(h m₁ hm₁).1, (h m₁ hm₁).2.trans hm⟩

/-- Two computations that do the same after all that is allowed from a state on obey a law there that one of them
obeys. -/
theorem Obeys.since {x y : VM α} (h : Heeds L y) {m₀ : Machine} (heq : ∀ m, L.pre m → L.rel m₀ m → x m = y m) :
    Obeys (L.since m₀) x y := by
  intro m hm
  rw [heq m hm.1 hm.2]
  exact ⟨.inl rfl, (h m hm.1).2⟩

theorem Obeys.bind_congr {x : VM α} {f g : α → VM β} (h : Heeds L x) (hrest : ∀ a m, L.pre m → f a m = g a m)
    (hm : L.pre m) : (x >>= f) m = (x >>= g) m := by
  refine bind_congr_ok fun a m₁ hx => ?_
  have hallows := (h m hm).2
  rw [hx] at hallows
  exact hrest a m₁ (L.keeps hm hallows)

theorem LandsWhen.imp {x y : VM α} (h : LandsWhen L p R x y) (hq : ∀ m, q m → p m) :
    LandsWhen L q R x y := fun m hm hp => h m hm (hq m hp)

theorem Lands.when {x y : VM α} (h : Lands L R x y) (p : Machine → Prop) : LandsWhen L p R x y := fun m hm _ => h m hm

theorem LandsWhen.now {x y : VM α} (h : LandsWhen L (fun _ => True) R x y) : Lands L R x y := fun m hm => h m hm trivial

/-- What is done after a computation may depend on what the computation has found. -/
theorem ObeysWhen.lands {x y : VM α} {f g : α → VM β} {q : α → Machine → Prop}
    (after : ∀ {a b c}, L.rel a b → R b c → R a c) (h : ObeysWhen L p x y)
    (hq : ∀ {m a m'}, p m → x m = .ok a m' → q a m') (k : ∀ a, LandsWhen L (q a) R (f a) (g a)) :
    LandsWhen L p R (x >>= f) (y >>= g) := by
  intro m hm hp
  obtain ⟨he | ⟨m', hs, hx⟩, hr⟩ := h m hm hp
  · cases hx : x m with
    | ok a m₁ =>
      rw [hx] at hr
      obtain ⟨he', hr'⟩ := k a m₁ (L.keeps hm hr) (hq hp hx)
      rw [bind_ok hx, bind_ok (he ▸ hx)]
      refine ⟨he', ?_⟩
      generalize f a m₁ = r at hr'
      rcases r with _ | ⟨_ | _, _⟩
      · exact after hr hr'
      · exact L.trans_fail hr hr'
      · trivial
    | error e m₁ =>
      rw [hx] at hr
      rw [bind_error hx, bind_error (he ▸ hx)]
      refine ⟨.inl rfl, ?_⟩
      cases e with
      | fault _ => exact hr
      | outOfFuel => trivial
  · rw [bind_error hx]
    exact ⟨.inr ⟨m', hs, rfl⟩, trivial⟩

theorem Obeys.landsStill [L.Landing R] {x y : VM α} {f g : α → VM β} (h : Obeys L x y)
    (hp : ∀ {m a m'}, p m → x m = .ok a m' → p m') (k : ∀ a, LandsWhen L p R (f a) (g a)) :
    LandsWhen L p R (x >>= f) (y >>= g) := (h.when p).lands Law.Landing.after hp k

theorem ObeysWhen.seq {x y : VM α} {f g : α → VM β} {q : α → Machine → Prop} (h : ObeysWhen L p x y)
    (hq : ∀ {m a m'}, p m → x m = .ok a m' → q a m') (k : ∀ a, ObeysWhen L (q a) (f a) (g a)) :
    ObeysWhen L p (x >>= f) (y >>= g) := h.lands L.trans hq k

theorem ObeysWhen.bind {x y : VM α} {f g : α → VM β} (h : ObeysWhen L p x y)
    (k : ∀ a, Obeys L (f a) (g a)) : ObeysWhen L p (x >>= f) (y >>= g) :=
  h.seq (fun _ _ => trivial) fun a => (k a).when _

theorem Obeys.bind {x y : VM α} {f g : α → VM β} (h : Obeys L x y) (k : ∀ a, Obeys L (f a) (g a)) :
    Obeys L (x >>= f) (y >>= g) := ((h.when fun _ => True).bind k).now

@[grind ←] theorem obeys_bind {x : VM α} {f : α → VM β} (h : Heeds L x) (k : ∀ a, Heeds L (f a)) :
    Heeds L (x >>= f) := h.bind k

theorem ObeysWhen.landsWith [L.Landing R] {x y : VM α} {f g : α → VM β} (h : ObeysWhen L p x y)
    (k : ∀ a, Lands L R (f a) (g a)) : LandsWhen L p R (x >>= f) (y >>= g) :=
  h.lands (q := fun _ _ => True) Law.Landing.after (fun _ _ => trivial) fun a m hm _ => k a m hm

theorem Obeys.lands [L.Landing R] {x y : VM α} {f g : α → VM β} (h : Obeys L x y)
    (k : ∀ a, Lands L R (f a) (g a)) : Lands L R (x >>= f) (y >>= g) := ((h.when fun _ => True).landsWith k).now

@[grind ←] theorem lands_bind [L.Landing R] {x : VM α} {f : α → VM β} (h : Heeds L x)
    (k : ∀ a, Arrives L R (f a)) : Arrives L R (x >>= f) := h.lands k

theorem Lands.obeys {x y : VM α} (h : Lands L L.rel x y) : Obeys L x y := h

theorem Obeys.landed [L.Landing R] {x y : VM α} (h : Obeys L x y) : Lands L R x y := by
  intro m hm
  obtain ⟨he, hr⟩ := h m hm
  refine ⟨he, ?_⟩
  generalize x m = r at hr
  rcases r with _ | ⟨_ | _, _⟩
  · exact Law.Landing.allowed hr
  · exact hr
  · trivial

@[grind ←] theorem lands_raise [L.Landing R] (f : Fault) :
    Arrives L R (raise f : VM α) := (obeys_raise f).landed

theorem ObeysWhen.attempt [L.Strict] {x y : VM α} (h : ObeysWhen L p x y) :
    ObeysWhen L p (attempt x) (attempt y) := by
  intro m hm hp
  obtain ⟨he, hr⟩ := h m hm hp
  constructor
  · rcases he with he | ⟨m', hs, hx⟩
    · exact .inl (by simp [VM.attempt, he])
    · exact .inr ⟨m', hs, attempt_outOfFuel hx⟩
  · unfold VM.attempt
    generalize x m = r at hr ⊢
    rcases r with _ | ⟨_ | _, _⟩
    · exact hr
    · exact Law.Strict.strict hr
    · trivial

theorem Obeys.attempt [L.Strict] {x y : VM α} (h : Obeys L x y) : Obeys L (attempt x) (attempt y) :=
  (h.when fun _ => True).attempt.now

theorem Obeys.mono {L' : Law} {x y : VM α} (h : Obeys L x y) (hpre : ∀ {m}, L'.pre m → L.pre m)
    (hrel : ∀ {m m'}, L'.pre m → L.rel m m' → L'.rel m m')
    (hfail : ∀ {m m'}, L'.pre m → L.fail m m' → L'.fail m m') (hstops : ∀ {σ}, L.stops σ → L'.stops σ) : Obeys L' x y := by
  intro m hm
  obtain ⟨he, hr⟩ := h m (hpre hm)
  refine ⟨he.imp id fun ⟨m', hs, hx⟩ => ⟨m', hstops hs, hx⟩, ?_⟩
  generalize x m = r at hr ⊢
  rcases r with _ | ⟨_ | _, _⟩
  · exact hrel hm hr
  · exact hfail hm hr
  · trivial

theorem ObeysWhen.ends [L.Strict] {x y : VM α} (h : ObeysWhen L p x y) (hm : L.pre m) (hp : p m)
    (he : Ends x m m') : L.rel m m' := by
  have hallows := (h m hm hp).2
  rcases he with ⟨a, hx⟩ | ⟨f, hx⟩ <;> rw [hx] at hallows
  · exact hallows
  · exact Law.Strict.strict hallows

theorem Obeys.ends [L.Strict] {x y : VM α} (h : Obeys L x y) (hm : L.pre m) (he : Ends x m m') : L.rel m m' := (h.when fun _ => True).ends hm trivial he

theorem Obeys.allows {x : VM α} (h : Heeds L x) (hm : L.pre m) : L.Allows m (x m) := (h m hm).2

theorem LandsWhen.rel_of_ok {x y : VM α} (h : ObeysWhen L p x y) {a : α} (hm : L.pre m) (hp : p m) (hx : x m = .ok a m') :
    L.rel m m' := by
  have hallows := (h m hm hp).2
  rw [hx] at hallows
  exact hallows

theorem Obeys.rel_of_ok {x y : VM α} (h : Obeys L x y) {a : α} (hm : L.pre m) (hx : x m = .ok a m') : L.rel m m' :=
  (h.when fun _ => True).rel_of_ok hm trivial hx

theorem Obeys.exact [L.Exact] {x y : VM α} (h : Obeys L x y) (hm : L.pre m) : x m = y m ∧ L.Allows m (x m) := by
  obtain ⟨he | ⟨_, hs, _⟩, hr⟩ := h m hm
  · exact ⟨he, hr⟩
  · exact absurd hs (Law.Exact.exact _)

theorem Obeys.right [L.Exact] {x y : VM α} (h : Obeys L x y) : Heeds L y :=
  obeys_self fun _ hm => (h.exact hm).1 ▸ (h.exact hm).2

theorem ObeysWhen.weaken {x y : VM α} (h : ObeysWhen L.strict p x y) : ObeysWhen L p x y := by
  intro m hm hp
  obtain ⟨he, hr⟩ := h m hm hp
  refine ⟨he, ?_⟩
  generalize x m = r at hr ⊢
  rcases r with _ | ⟨_ | _, _⟩
  · exact hr
  · exact L.weaken hr
  · trivial

theorem Obeys.weaken {x y : VM α} (h : Obeys L.strict x y) : Obeys L x y := (h.when fun _ => True).weaken.now

theorem Obeys.strict [L.Strict] {x y : VM α} (h : Obeys L x y) : Obeys L.strict x y :=
  h.mono id (fun _ => id) (fun _ => Law.Strict.strict) id

@[grind ←] theorem obeys_ofOutcome (r : Outcome α) : Heeds L (ofOutcome r) := by
  cases r
  · exact obeys_raise _
  · exact obeys_pure _

@[grind ←] theorem obeys_get : Heeds L (get : VM Machine) := obeys_self fun m _ => L.refl m

theorem obeys_modify {f : Machine → Machine} (h : ∀ m, L.rel m (f m)) :
    Heeds L (modify f : VM Unit) := obeys_self fun m _ => h m

theorem modifies_when {f : Machine → Machine} (h : ∀ m, p m → L.rel m (f m)) :
    ObeysWhen L p (modify f : VM Unit) (modify f) := fun m _ hp => ⟨.inl rfl, h m hp⟩

theorem obeys_get_bind {f : Machine → VM α} (h : ∀ m, L.pre m → L.Allows m (f m m)) :
    Heeds L (get >>= f) := obeys_self h

/-- The law that nothing is changed. -/
def reading : Law :=
  .ofRel (fun _ => True) (fun m m' => m' = m) (fun _ => rfl) (fun h h' => h'.trans h) (fun _ _ => trivial)

/-- A computation that obeys every law changes nothing. -/
theorem LandsWhen.read {x : VM α} {f g : α → VM β} (hx : ∀ L : Law, Heeds L x)
    (k : ∀ a, LandsWhen L p R (f a) (g a)) : LandsWhen L p R (x >>= f) (x >>= g) := by
  intro m hm hp
  have hsame := (hx reading m trivial).2
  have hallows := (hx L m hm).2
  cases h : x m with
  | ok a m₁ =>
    rw [h] at hsame
    obtain rfl : m₁ = m := hsame
    rw [bind_ok h, bind_ok h]
    exact k a m₁ hm hp
  | error e m₁ =>
    rw [h] at hallows
    rw [bind_error h, bind_error h]
    refine ⟨.inl rfl, ?_⟩
    cases e with
    | fault _ => exact hallows
    | outOfFuel => trivial

theorem obeys_reading {f g : Machine → VM α} (h : ∀ s, ObeysWhen L (fun m => m = s) (f s) (g s)) :
    Obeys L (get >>= f) (get >>= g) := fun m hm => h m m hm rfl

theorem lands_regs_bind {f g : Activation → VM α} (h : ∀ r, LandsWhen L (fun m => m.regs = r) R (f r) (g r)) :
    Lands L R (regs >>= f) (regs >>= g) := fun m hm => h m.regs m hm rfl

theorem obeys_iterator_bind {i : IteratorId} {f g : IteratorRecord → VM α}
    (h : ∀ r, ObeysWhen L (fun m => m.iterator i = r) (f r) (g r)) : Obeys L (iterator i >>= f) (iterator i >>= g) :=
  fun m hm => h (m.iterator i) m hm rfl

end Rules

/-! ### Reading the state -/

section Reading

variable {L : Law}

@[grind ←] theorem obeys_realm : Heeds L realm := obeys_get.bind fun _ => obeys_pure _

@[grind ←] theorem obeys_regs : Heeds L regs := obeys_get.bind fun _ => obeys_pure _

@[grind ←] theorem obeys_top : Heeds L top := obeys_get.bind fun _ => obeys_pure _

@[grind ←] theorem obeys_trace : Heeds L trace := obeys_get.bind fun _ => obeys_pure _

@[grind ←] theorem obeys_display (v : Value) : Heeds L (display v) := obeys_get.bind fun _ => obeys_pure _

@[grind ←] theorem obeys_scopeRecord (s : ScopeId) : Heeds L (scopeRecord s) := obeys_get.bind fun _ => obeys_pure _

@[grind ←] theorem obeys_iterator (i : IteratorId) : Heeds L (iterator i) := obeys_get.bind fun _ => obeys_pure _

@[grind ←] theorem obeys_readStack (f : OperandStack → Outcome α) : Heeds L (readStack f) :=
  obeys_get.bind fun _ => obeys_ofOutcome _

@[grind ←] theorem obeys_peek (depth : Nat) : Heeds L (peek depth) := obeys_readStack _

@[grind ←] theorem obeys_slot (i : Nat) : Heeds L (slot i) := obeys_readStack _

@[grind ←] theorem obeys_slots (first last : Nat) : Heeds L (slots first last) := obeys_readStack _

@[grind ←] theorem obeys_frameBase : Heeds L frameBase := by
  refine obeys_regs.bind fun r => ?_
  split
  · exact obeys_pure _
  · exact obeys_raise _

@[grind ←] theorem obeys_receiver : Heeds L receiver := by
  refine obeys_regs.bind fun r => ?_
  split
  · exact obeys_slot _
  · exact obeys_realm.bind fun _ => obeys_pure _

@[grind ←] theorem obeys_topRef : Heeds L topRef := by
  refine obeys_get.bind fun m => ?_
  split
  · exact obeys_raise _
  · exact obeys_pure _

end Reading

/-! ### Changing the store -/

section Store

variable {L : Law} [L.Store]

@[grind ←] theorem obeys_onStore (op : Store.Op α) [Store.Evolving op] : Heeds L (onStore op) :=
  obeys_self fun m _ => Law.Store.store m (Store.persists_run op m.store)

@[grind ←] theorem obeys_demand (op : Store.Op (Outcome α)) [Store.Evolving op] : Heeds L (demand op) :=
  (obeys_onStore op).bind fun _ => obeys_ofOutcome _

theorem obeys_modifyScope (s : ScopeId) {f : Scope → Scope} (hf : ∀ x name, (f x).lexical? name = x.lexical? name)
    (houter : ∀ x, (f x).outer = x.outer) : Heeds L (modifyScope s f) :=
  obeys_self fun m _ => Law.Store.store m (.modifyScope m.store s (hf _) (houter _))

end Store

/-! ### Changing registers and stacks -/

section Operands

variable {L : Law} [L.Operands]

theorem obeys_modifyRegsInPlace {f : Activation → Activation}
    (hf : ∀ m : Machine, Local m { m with regs := f m.regs }) (hpc : ∀ r, (f r).pc = r.pc) : Heeds L (modifyRegs f) :=
  obeys_modify fun m => Law.Operands.operands (hf m) (hpc m.regs)

@[grind ←] theorem obeys_modifyStack (f : OperandStack → OperandStack) : Heeds L (modifyStack f) :=
  obeys_modify fun _ => Law.Operands.operands .operands rfl

@[grind ←] theorem obeys_onStack (f : OperandStack → Outcome (α × OperandStack)) : Heeds L (onStack f) := by
  refine obeys_self fun m _ => ?_
  unfold onStack
  split
  · exact Law.Operands.operands .operands rfl
  · exact L.weaken (L.refl m)

@[grind ←] theorem obeys_writeStack (f : OperandStack → Outcome OperandStack) : Heeds L (writeStack f) :=
  obeys_onStack _

@[grind ←] theorem obeys_push (v : Value) : Heeds L (push v) := obeys_modifyStack _

@[grind ←] theorem obeys_pushAll (vs : List Value) : Heeds L (pushAll vs) := obeys_modifyStack _

@[grind ←] theorem obeys_pop : Heeds L pop := obeys_onStack _

@[grind ←] theorem obeys_popMany (n : Nat) : Heeds L (popMany n) := obeys_onStack _

@[grind ←] theorem obeys_setSlot (i : Nat) (v : Value) : Heeds L (setSlot i v) := obeys_writeStack _

@[grind ←] theorem obeys_replaceTop (v : Value) : Heeds L (replaceTop v) := obeys_writeStack _

@[grind ←] theorem obeys_setTop (n : Nat) : Heeds L (setTop n) := obeys_modifyStack _

@[grind ←] theorem obeys_reserve (n : Nat) : Heeds L (reserve n) := obeys_modifyStack _

@[grind ←] theorem obeys_takeTop (popped : Bool) : Heeds L (takeTop popped) := by
  unfold takeTop
  split
  · exact obeys_pop
  · exact obeys_peek 0

theorem obeys_pushRef (r : Reference) : ObeysWhen L (fun m => ∀ s, r.record? = some s → m.Sees s) (pushRef r) (pushRef r) := by
  refine fun m _ hr => ⟨.inl rfl, Law.Operands.operands (.refs ?_) rfl⟩
  intro r' hr' s hs
  rcases List.mem_cons.mp hr' with rfl | hmem
  · exact hr s hs
  · exact .ref hmem hs

@[grind ←] theorem obeys_popRef : Heeds L popRef := by
  refine obeys_get_bind fun m _ => ?_
  cases hrefs : m.refs with
  | nil => exact L.weaken (L.refl m)
  | cons l rest =>
    refine Law.Operands.operands (.refs fun r hr s hs => ?_) rfl
    exact .ref (hrefs ▸ List.mem_cons_of_mem l hr) hs

end Operands

section Landing

variable {L : Law} {R : Machine → Machine → Prop} [L.Landing R]

theorem lands_modifyRegs {f : Activation → Activation} (hf : ∀ m : Machine, Local m { m with regs := f m.regs }) :
    Arrives L R (modifyRegs f) := fun m _ => ⟨.inl rfl, Law.Landing.quiet (L := L) (hf m)⟩

@[grind ←] theorem lands_advance : Arrives L R advance := lands_modifyRegs fun _ => .operands

variable [L.Operands]

@[grind ←] theorem lands_pushNext (v : Value) : Arrives L R (pushNext v) := (obeys_push v).lands fun _ => lands_advance

@[grind ←] theorem lands_replaceNext (v : Value) : Arrives L R (replaceNext v) :=
  (obeys_replaceTop v).lands fun _ => lands_advance

end Landing

section Quiet

variable {L : Law} [L.Quiet]

@[grind ←] theorem obeys_advance : Heeds L advance := lands_advance.obeys

@[grind ←] theorem obeys_pushNext (v : Value) : Heeds L (pushNext v) := (lands_pushNext v).obeys

@[grind ←] theorem obeys_replaceNext (v : Value) : Heeds L (replaceNext v) := (lands_replaceNext v).obeys

end Quiet

@[grind ←] theorem obeys_popLoop [L.Drops] : Heeds L popLoop := by
  refine obeys_get_bind fun m _ => ?_
  have hdrops : L.rel m { m with loops := bottomOf (m.loops.length - 1) m.loops } := Law.Drops.drops m _
  cases hl : m.loops with
  | nil => exact L.weaken (L.refl m)
  | cons l rest =>
    rw [hl, List.length_cons, Nat.add_sub_cancel, ← List.singleton_append, bottomOf_append] at hdrops
    exact hdrops

@[grind ←] theorem obeys_pushLoop [L.Loops] (l : OpenLoop) : Heeds L (pushLoop l) :=
  obeys_modify fun m => Law.Loops.loops m _

section Iterators

variable {L : Law} [L.Iterators]

theorem obeys_newIterator {r : IteratorRecord} (hr : r.iterator.isObject = true) (ha : r.status = .active) :
    Heeds L (newIterator r) :=
  obeys_self fun m _ => Law.Iterators.opens m r hr ha

@[grind ←] theorem obeys_endIterator (i : IteratorId) : Heeds L (setStatus i .ended) :=
  obeys_modify fun m => Law.Iterators.ends m i

end Iterators

/-! ### Guarded computations -/

theorem settle_eq_ok (f : Fault) (m : Machine) :
    ∃ g σ, m.store.Persists σ ∧ settle f m = .ok g { m with store := σ } := by
  unfold settle
  split
  · split <;> exact ⟨_, m.store, .refl _, rfl⟩
  · split <;> exact ⟨_, m.store, .refl _, rfl⟩
  · exact ⟨_, _, Store.persists_run (m.realm.errorValue f) m.store, rfl⟩

section Guard

variable {L : Law} [L.Guard] {e₁ e₂ : Enter}

section Closing

variable (hclose : ∀ r, Obeys L.strict (e₁ (.close r)) (e₂ (.close r)))

include hclose

omit [L.Guard] in
theorem obeys_closeEach (f : Fault) (opened : List OpenLoop) :
    Obeys L (closeEach e₁ f opened) (closeEach e₂ f opened) := by
  induction opened generalizing f with
  | nil => exact obeys_pure _
  | cons l rest ih =>
    unfold closeEach
    split
    · exact ih f
    · refine (hclose _).attempt.weaken.bind fun r => ?_
      split
      · exact ih f
      · exact ih _

theorem obeys_closeLoops (n : Nat) (f : Fault) : Obeys L (closeLoops e₁ n f) (closeLoops e₂ n f) := by
  refine obeys_get.bind fun m => ?_
  exact (obeys_modify fun m => Law.Drops.drops m _).bind fun _ => obeys_closeEach hclose f _

theorem obeys_dropOpened (s : Snapshot) (f : Fault) : Obeys L (dropOpened e₁ s f) (dropOpened e₂ s f) := by
  refine (obeys_closeLoops hclose s.loops f).bind fun f => ?_
  exact (obeys_modify fun m => Law.Guard.refs m _).bind fun _ => obeys_pure f

end Closing

/-- A guarded computation obeys a law that it obeys unguarded, and in failure no less than in success, if going back
to its start is allowed. -/
theorem ObeysWhen.guarded (hclose : ∀ r, Obeys L.strict (e₁ (.close r)) (e₂ (.close r))) {p : Machine → Prop}
    {x y : VM α} (h : ObeysWhen L p x y) : ObeysWhen L.strict p (guarded e₁ x) (guarded e₂ y) := by
  intro m hm hp
  unfold VM.guarded
  rw [get_bind, get_bind]
  obtain ⟨he | ⟨m', hs, hx⟩, hr⟩ := h m hm hp
  case inr =>
    rw [bind_error (attempt_outOfFuel hx)]
    exact ⟨.inr ⟨m', hs, rfl⟩, trivial⟩
  rcases hx : x m with ⟨a, m₁⟩ | ⟨f | _, m₁⟩
  · rw [hx] at he hr
    rw [bind_ok (attempt_ok hx), bind_ok (attempt_ok he.symm)]
    exact ⟨.inl rfl, hr⟩
  · rw [hx] at he hr
    rw [bind_ok (attempt_fault hx), bind_ok (attempt_fault he.symm)]
    -- the fault is settled, then the rest runs from a state that is allowed
    obtain ⟨g, σ, hσ, hg⟩ := settle_eq_ok f m₁
    have hback : L.rel m ({ m₁ with store := σ }.restore m.snapshot) := Law.Guard.restore hσ hr
    have hrest := (obeys_dropOpened (L := L.strict) hclose m.snapshot g).bind fun g => obeys_raise (α := α) g
    obtain ⟨he', hr'⟩ := hrest _ (L.keeps hm hback)
    have hundo : ∀ e : Enter, (undo e m.snapshot f : VM α) m₁
        = (dropOpened e m.snapshot g >>= fun g => raise g) ({ m₁ with store := σ }.restore m.snapshot) :=
      fun e => (bind_ok hg).trans rfl
    dsimp only
    rw [hundo, hundo]
    exact ⟨he', hr'.trans hback⟩
  · rw [hx] at he
    rw [bind_error (attempt_outOfFuel hx), bind_error (attempt_outOfFuel he.symm)]
    exact ⟨.inl rfl, trivial⟩

theorem obeys_guarded (hclose : ∀ r, Obeys L.strict (e₁ (.close r)) (e₂ (.close r))) {x y : VM α}
    (h : Obeys L x y) : Obeys L.strict (guarded e₁ x) (guarded e₂ y) :=
  ((h.when fun _ => True).guarded hclose).now

end Guard

end ScriptMachine.VM
