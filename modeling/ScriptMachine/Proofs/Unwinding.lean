import ScriptMachine.Proofs.Handlers

/-!
# Unwinding

A fault raised in a dispatch loop is handed to the handlers of the loop, innermost first.  For each of them the machine
goes back to the start of the statement and closes the iterators opened since, which runs arbitrary code.

* `Unwound` — how unwinding ends: a catch or a finally section is entered, or the fault leaves the loop.
-/

namespace ScriptMachine.VM

/-! ### Going back -/

/-- Close the iterators among some loops: the faults of those that fail to be closed. -/
def closingFaults (enter : Enter) : List OpenLoop → VM (List Fault)
  | [] => return []
  | l :: rest => do
    match l.source with
    | .keys _ => closingFaults enter rest
    | .items i =>
      match ← attempt (enter (.close i)) with
      | .ok _ => closingFaults enter rest
      | .error f => return f :: (← closingFaults enter rest)

/-- Go back to a snapshot, drop the loops and references above those of the snapshot and close the iterators among
them: the faults of those that fail to be closed. -/
def backTo (enter : Enter) (s : Snapshot) : VM (List Fault) := do
  modify fun m => m.restore s
  let opened := aboveBottom s.loops (← get).loops
  modify fun m => { m with loops := bottomOf s.loops m.loops }
  let closing ← closingFaults enter opened
  modify fun m => { m with refs := bottomOf s.refs m.refs }
  return closing

/-- The fault that goes on when iterators that had to be closed because of it fail to be closed. -/
def after (f : Fault) (closing : List Fault) : Fault := closing.foldl Fault.afterClosing f

theorem after_append (f : Fault) (cs cs' : List Fault) : after f (cs ++ cs') = after (after f cs) cs' :=
  List.foldl_append

theorem closeEach_eq (enter : Enter) (f : Fault) (opened : List OpenLoop) :
    closeEach enter f opened = (do return after f (← closingFaults enter opened)) := by
  induction opened generalizing f with
  | nil => simp [closeEach, closingFaults, after]
  | cons l rest ih =>
    obtain ⟨value, source⟩ := l
    cases source with
    | keys cursor => exact ih f
    | items record =>
      unfold closeEach closingFaults
      rw [bind_assoc]
      refine bind_congr fun r => ?_
      cases r with
      | ok _ => exact ih f
      | error c => simp [ih, after]

theorem rollBack_eq (enter : Enter) (s : Snapshot) (f : Fault) :
    rollBack enter s f = (do return after f (← backTo enter s)) := by
  simp [rollBack, dropOpened, closeLoops, backTo, closeEach_eq]

section Reaction

variable {h : Handler} {rest : List Handler} {f : Fault} {pc : Nat} {v : Value}

theorem Reaction.of_eq_catching (hr : Reaction.of h f = .catching pc v) :
    h.part = .body ∧ h.catchPc = some pc ∧ ∃ e, f = .thrown e ∧ v = e.value := by
  unfold Reaction.of at hr
  split at hr <;> grind

theorem Reaction.of_eq_finishing (hr : Reaction.of h f = .finishing pc) :
    h.part ≠ .finishing ∧ h.finallyPc = some pc := by
  unfold Reaction.of at hr
  split at hr <;> grind

theorem Reaction.of_eq_leaving (hr : Reaction.of h f = .leaving) : h.finallyPc = none ∨ h.part = .finishing := by
  unfold Reaction.of at hr
  cases hpart : h.part <;> cases hfin : h.finallyPc <;> grind

theorem react_of_catching (hr : Reaction.of h f = .catching pc v) (m : Machine) :
    react h rest f m = .ok true { m with
      handlers := { h with part := .catching } :: rest, regs := { m.regs with pc }, stack := m.stack.push v } := by
  unfold react
  rw [hr]
  rfl

theorem react_of_finishing (hr : Reaction.of h f = .finishing pc) (m : Machine) :
    react h rest f m = .ok true { m with
      handlers := { h with part := .finishing, pending := some f } :: rest, regs := { m.regs with pc } } := by
  unfold react
  rw [hr]
  rfl

theorem react_of_leaving (hr : Reaction.of h f = .leaving) (m : Machine) :
    react h rest f m = .ok false { m with handlers := rest } := by
  unfold react
  rw [hr]
  rfl

end Reaction

section Law

variable {L : Law} {e₁ e₂ : Enter} (hclose : ∀ r, Obeys L (e₁ (.close r)) (e₂ (.close r)))

include hclose

theorem obeys_closingFaults [L.Strict] (opened : List OpenLoop) :
    Obeys L (closingFaults e₁ opened) (closingFaults e₂ opened) := by
  induction opened with
  | nil => exact obeys_pure _
  | cons l rest ih =>
    unfold closingFaults
    split
    · exact ih
    · refine (hclose _).attempt.bind fun r => ?_
      split
      · exact ih
      · exact ih.bind fun _ => obeys_pure _

theorem obeys_backTo [L.Calm] (s : Snapshot) : Obeys L (backTo e₁ s) (backTo e₂ s) := by
  refine Obeys.bind (obeys_modify fun _ => Law.Calm.calm rfl rfl (.refl _)) fun _ => obeys_get.bind fun m => ?_
  refine Obeys.bind (obeys_modify fun m => Law.Drops.drops m _) fun _ => ?_
  refine (obeys_closingFaults hclose _).bind fun closing => ?_
  exact Obeys.bind (obeys_modify fun m => Law.Guard.refs m _) fun _ => obeys_pure _

end Law

/-! ### Unwinding -/

/-- The handlers on top have been left that have nothing to do with a fault, which is settled in `m`: the faults of the
iterators closed meanwhile, and the state after that. -/
inductive Passed (enter : Enter) (f : Fault) (m : Machine) : List Fault → Machine → Prop where
  | none : Passed enter f m [] m
  | more {cs cs' : List Fault} {m₁ m₂ : Machine} {h : Handler} {rest : List Handler} :
      Passed enter f m cs m₁ → m₁.handlers = h :: rest → h.depth = m₁.depth → backTo enter h.snapshot m₁ = .ok cs' m₂ →
      Reaction.of h (after f (cs ++ cs')) = .leaving → Passed enter f m (cs ++ cs') { m₂ with handlers := rest }

/-- A handler of the running loop is asked after the machine went back to the start of its statement. -/
structure Asked (enter : Enter) (f : Fault) (m : Machine) (cs : List Fault) (h : Handler) (rest : List Handler)
    (m' : Machine) : Prop where
  owned : h.depth = m.depth
  asked : ∃ cs₁ cs₂ m₁, Passed enter f m cs₁ m₁ ∧ m₁.handlers = h :: rest ∧
    backTo enter h.snapshot m₁ = .ok cs₂ m' ∧ cs = cs₁ ++ cs₂

/-- How the unwinding of a fault ends, which is settled in `m`. -/
inductive Unwound (enter : Enter) (f : Fault) (m : Machine) : EStateM.Result Abort Machine Unit → Prop where
  /-- The fault leaves the loop. -/
  | goesOn {cs : List Fault} {m' : Machine} :
      Passed enter f m cs m' → (∀ h ∈ m'.handlers.head?, h.depth ≠ m'.depth) →
      Unwound enter f m (.error (.fault (after f cs)) m')
  /-- A catch section is started with what was thrown. -/
  | catches {cs : List Fault} {h : Handler} {rest : List Handler} {m' : Machine} {pc : Nat} {v : Value} :
      Asked enter f m cs h rest m' → Reaction.of h (after f cs) = .catching pc v →
      Unwound enter f m (.ok () { m' with
        handlers := { h with part := .catching } :: rest, regs := { m'.regs with pc }, stack := m'.stack.push v })
  /-- A finally section is started, which will raise the fault again. -/
  | finishes {cs : List Fault} {h : Handler} {rest : List Handler} {m' : Machine} {pc : Nat} :
      Asked enter f m cs h rest m' → Reaction.of h (after f cs) = .finishing pc →
      Unwound enter f m (.ok () { m' with
        handlers := { h with part := .finishing, pending := some (after f cs) } :: rest
        regs := { m'.regs with pc } })
  | outOfFuel {m' : Machine} : Unwound enter f m (.error .outOfFuel m')

section Unwind

variable {m m₁ : Machine} {h : Handler} {rest : List Handler} {f g : Fault} {e : Abort} {enter : Enter} {s : Snapshot}
  {cs : List Fault}

theorem unwindWithin_of_not_owned (enter : Enter) (n : Nat) (f : Fault)
    (ho : ∀ h ∈ m.handlers.head?, h.depth ≠ m.depth) : unwindWithin enter n f m = .error (.fault f) m := by
  cases n with
  | zero => rfl
  | succ n =>
    unfold unwindWithin
    rw [get_bind]
    cases hh : m.handlers with
    | nil => rfl
    | cons h rest =>
      dsimp only
      rw [if_neg (ho h (by simp [hh]))]
      rfl

/-- The innermost handler of the running loop reacts to the fault that going back to its snapshot leaves. -/
theorem unwindWithin_of_owned (enter : Enter) (n : Nat) (hh : m.handlers = h :: rest) (hd : h.depth = m.depth)
    (hback : rollBack enter h.snapshot f m = .ok g m₁) (hh₁ : m₁.handlers = h :: rest) :
    unwindWithin enter (n + 1) f m =
      (do if ← react h rest g then return () else unwindWithin enter n g : VM Unit) m₁ := by
  rw [unwindWithin, get_bind, hh]
  dsimp only
  rw [if_pos hd, bind_ok hback, get_bind, hh₁]

theorem unwindWithin_of_abort (enter : Enter) (n : Nat) (hh : m.handlers = h :: rest)
    (hd : h.depth = m.depth) (hback : rollBack enter h.snapshot f m = .error e m₁) :
    unwindWithin enter (n + 1) f m = .error e m₁ := by
  rw [unwindWithin, get_bind, hh]
  dsimp only
  rw [if_pos hd, bind_error hback]

theorem rollBack_of_backTo (hb : backTo enter s m = .ok cs m₁) :
    rollBack enter s f m = .ok (after f cs) m₁ := by
  rw [rollBack_eq, bind_ok hb]
  rfl

theorem rollBack_of_abort (hb : backTo enter s m = .error e m₁) :
    rollBack enter s f m = .error e m₁ := by
  rw [rollBack_eq, bind_error hb]

theorem backTo_ne_fault (enter : Enter) (s : Snapshot) (m m' : Machine) (f : Fault) :
    backTo enter s m ≠ .error (.fault f) m' := by
  have hclosing : ∀ opened m m', closingFaults enter opened m ≠ .error (.fault f) m' := by
    intro opened
    induction opened with
    | nil => intro m m' h; cases h
    | cons l rest ih =>
      intro m m' h
      obtain ⟨value, source⟩ := l
      cases source with
      | keys cursor => exact ih m m' h
      | items record =>
        rcases bind_eq_error.mp h with h | ⟨r, m₁, _, h⟩
        · cases (attempt_eq_error.mp h).1
        · cases r with
          | ok _ => exact ih m₁ m' h
          | error c =>
            rcases bind_eq_error.mp h with h | ⟨_, _, _, h⟩
            · exact ih m₁ m' h
            · cases h
  intro h
  obtain h | ⟨_, m₁, _, h⟩ := bind_eq_error.mp h
  · cases h
  rw [get_bind] at h
  obtain h | ⟨_, m₂, _, h⟩ := bind_eq_error.mp h
  · cases h
  obtain h | ⟨_, m₃, _, h⟩ := bind_eq_error.mp h
  · exact hclosing _ _ _ h
  · cases h

variable {e₁ e₂ : Enter} (hclose : ∀ r, Obeys isolating (e₁ (.close r)) (e₂ (.close r)))

include hclose

/-- **Unwinding leaves the handlers that have nothing to do with a fault, and asks the first one that has.** -/
theorem unwound_unwindWithin (hpassed : Passed e₂ f m cs m₁) (hdepth : m₁.depth = m.depth)
    (hm : m₁.WellNested) {n : Nat} (hn : m₁.handlers.length ≤ n) :
    unwindWithin e₁ n (after f cs) m₁ = unwindWithin e₂ n (after f cs) m₁ ∧
      Unwound e₂ f m (unwindWithin e₁ n (after f cs) m₁) := by
  induction n generalizing cs m₁ with
  | zero =>
    have hnil : m₁.handlers = [] := List.length_eq_zero_iff.mp (by omega)
    exact ⟨rfl, .goesOn hpassed (by simp [hnil])⟩
  | succ n ih =>
    by_cases ho : ∀ h ∈ m₁.handlers.head?, h.depth ≠ m₁.depth
    · rw [unwindWithin_of_not_owned _ _ _ ho, unwindWithin_of_not_owned _ _ _ ho]
      exact ⟨rfl, .goesOn hpassed ho⟩
    · obtain ⟨h, rest, hh, hd⟩ := exists_head_of_not_forall ho
      obtain ⟨heq, hallows⟩ := (obeys_backTo hclose h.snapshot).exact hm
      rcases hback : backTo e₁ h.snapshot m₁ with ⟨cs', m₂⟩ | ⟨e, m₂⟩
      · rw [hback] at heq hallows
        have hh₂ : m₂.handlers = h :: rest := hallows.1.trans hh
        rw [unwindWithin_of_owned e₁ n hh hd (rollBack_of_backTo hback) hh₂,
          unwindWithin_of_owned e₂ n hh hd (rollBack_of_backTo heq.symm) hh₂, ← after_append]
        have hasked : Asked e₂ f m (cs ++ cs') h rest m₂ :=
          ⟨hd.trans hdepth, cs, cs', m₁, hpassed, hh, heq.symm, rfl⟩
        cases hr : Reaction.of h (after f (cs ++ cs')) with
        | catching pc v =>
          rw [bind_ok (react_of_catching hr m₂), bind_ok (react_of_catching hr m₂)]
          exact ⟨rfl, .catches hasked hr⟩
        | finishing pc =>
          rw [bind_ok (react_of_finishing hr m₂), bind_ok (react_of_finishing hr m₂)]
          exact ⟨rfl, .finishes hasked hr⟩
        | leaving =>
          rw [bind_ok (react_of_leaving hr m₂), bind_ok (react_of_leaving hr m₂)]
          have hm₂ : m₂.WellNested := hm.congr hallows.1 hallows.2
          have hlen : rest.length ≤ n := by
            rw [hh, List.length_cons] at hn
            omega
          exact ih (hpassed.more hh hd heq.symm hr) (hallows.2.trans hdepth) (hm₂.tail hh₂ rfl) hlen
      · rw [hback] at heq
        rw [unwindWithin_of_abort e₁ n hh hd (rollBack_of_abort hback),
          unwindWithin_of_abort e₂ n hh hd (rollBack_of_abort heq.symm)]
        cases e with
        | fault g => exact absurd hback (backTo_ne_fault _ _ _ _ _)
        | outOfFuel => exact ⟨rfl, .outOfFuel⟩

theorem unwound_unwind (f : Fault) (hm : m.WellNested) :
    unwind e₁ f m = unwind e₂ f m ∧
      ∃ g σ, settle f m = .ok g { m with store := σ } ∧ Unwound e₂ g { m with store := σ } (unwind e₁ f m) := by
  obtain ⟨g, σ, _, hg⟩ := settle_eq_ok f m
  have hm' : { m with store := σ }.WellNested := hm.congr rfl rfl
  have hunwind : ∀ e : Enter, unwind e f m = unwindWithin e (m.handlers.length + 1) g { m with store := σ } :=
    fun e => (bind_ok hg).trans rfl
  obtain ⟨heq, hunwound⟩ := unwound_unwindWithin hclose (.none) rfl hm'
    (Nat.le_succ _)
  rw [hunwind, hunwind]
  exact ⟨heq, g, σ, hg, hunwound⟩

end Unwind

end ScriptMachine.VM
