import ScriptMachine.Proofs.Unwinding

/-!
# Turns

What a turn of a dispatch loop does to handlers.  A turn executes one instruction; if this fails, it goes on to unwind.

* `Stepped` — an instruction starts a try statement, leaves handlers, or goes on to a finally section.
* `Took` — a turn does this, or fails and unwinds; `took_turn` says that every turn is one of these, if nested entries
  leave handlers alone.
-/

namespace ScriptMachine

variable {m : Machine}

/-- The handler of a try statement that is started. -/
def Machine.opened (m : Machine) (catchOffset finallyOffset : Int) : Handler where
  catchPc := VM.sectionStart? m.regs.pc catchOffset
  finallyPc := VM.sectionStart? m.regs.pc finallyOffset
  part := .body
  resume := m.regs.pc + 1
  pending := none
  depth := m.depth
  snapshot := m.advanced.snapshot

namespace VM

/-- What the execution of `i` does to handlers. -/
inductive Stepped (i : Option Instruction) (m : Machine) : Machine → Prop where
  /-- A try statement is started. -/
  | opens {catchOffset finallyOffset : Int} :
      i = some (.guard catchOffset finallyOffset) →
      Stepped i m { m.advanced with handlers := m.opened catchOffset finallyOffset :: m.handlers }
  | drops {m' : Machine} : Dropped i m.frames.length m m' → Stepped i m m'
  /-- A body or catch section ends, and the finally section is started. -/
  | completes {h : Handler} {rest : List Handler} {pc : Nat} :
      i = some .halt → m.handlers = h :: rest → owns m h = true → h.part ≠ .finishing → h.finallyPc = some pc →
      Stepped i m { m with
        handlers := { h with part := .finishing, resume := m.regs.pc + 1 } :: rest, regs := { m.regs with pc } }

/-- What a turn does to handlers. -/
inductive Took (enter : Enter) (fuel : Nat) (m : Machine) : EStateM.Result Abort Machine Unit → Prop where
  | steps {m₁ m' : Machine} :
      takeInterrupt m = .ok () m₁ → step enter fuel m = .ok () m' → Stepped (next? m) m₁ m' →
      Took enter fuel m (.ok () m')
  | unwinds {f g : Fault} {m₁ m₂ : Machine} {r : EStateM.Result Abort Machine Unit} :
      step enter fuel m = .error (.fault f) m₁ → Dropped (next? m) m.frames.length m m₁ →
      settle f m₁ = .ok g m₂ → Unwound enter g m₂ r → Took enter fuel m r
  | outOfFuel {m' : Machine} : Took enter fuel m (.error .outOfFuel m')

theorem takeInterrupt_of_none (h : m.interrupt = none) : takeInterrupt m = .ok () m := by
  unfold takeInterrupt
  rw [get_bind, h]
  rfl

section Taken

variable {m m₁ : Machine} (ht : takeInterrupt m = .ok () m₁)

include ht

theorem taken_handlers : m₁.handlers = m.handlers := by
  rcases takeInterrupt_ok ht with rfl | ⟨lines, rfl⟩ <;> rfl

theorem taken_depth : m₁.depth = m.depth := by
  rcases takeInterrupt_ok ht with rfl | ⟨lines, rfl⟩ <;> rfl

theorem taken_frames : m₁.frames = m.frames := by
  rcases takeInterrupt_ok ht with rfl | ⟨lines, rfl⟩ <;> rfl

theorem taken_regs : m₁.regs = m.regs := by
  rcases takeInterrupt_ok ht with rfl | ⟨lines, rfl⟩ <;> rfl

theorem taken_stack : m₁.stack = m.stack := by
  rcases takeInterrupt_ok ht with rfl | ⟨lines, rfl⟩ <;> rfl

end Taken

/-! ### Instructions -/

/-- What an instruction may end with. -/
def Steps (i : Option Instruction) (m : Machine) : EStateM.Result Abort Machine Unit → Prop
  | .ok _ m' => Stepped i m m'
  | .error (.fault _) m' => Dropped i m.frames.length m m'
  | .error .outOfFuel _ => True

theorem steps_of_allows {i : Option Instruction} {r : EStateM.Result Abort Machine Unit}
    (h : (dropping i m.frames.length).Allows m r) : Steps i m r := by
  rcases r with _ | ⟨_ | _, _⟩
  · exact .drops h
  · exact h
  · trivial

theorem steps_endSection {h : Handler} {rest : List Handler} (hm : m.WellNested) (hh : m.handlers = h :: rest)
    (ho : owns m h = true) : Steps (some .halt) m (endSection h rest m.advanced) := by
  have hd : h.depth = m.depth := (owns_iff.mp ho).1
  have hadvanced : Dropped (some .halt) m.frames.length m m.advanced := .calm rfl rfl
  by_cases hpart : h.part = .finishing
  · rw [endSection_of_finishing hpart]
    have hleft : Dropped (some .halt) m.frames.length m.advanced { m.advanced with handlers := rest } :=
      .single hh rfl hd (.inr (.inl hpart))
    have hm' : { m.advanced with handlers := rest }.WellNested := (hadvanced.trans hleft).wellNested hm
    exact steps_of_allows ((obeys_leaveFinally h _ hm').2.trans (hadvanced.trans hleft))
  · rw [endSection_of_not_finishing hpart]
    split
    case h_1 hfin => exact .completes rfl hh ho hpart hfin
    case h_2 hfin => exact .drops (hadvanced.trans (.single hh rfl hd (.inl hfin)))

theorem steps_halt (hm : m.WellNested) : Steps (some .halt) m (halt m) := by
  by_cases ho : ∀ h ∈ m.handlers.head?, owns m h = false
  · rw [halt_of_not_owned ho]
    exact .drops (.calm rfl rfl)
  · obtain ⟨h, rest, hh, ho⟩ := exists_head_of_not_forall (by simpa using ho)
    rw [halt_of_owned hh ho]
    exact steps_endSection hm hh ho

theorem steps_ret (hm : m.WellNested) : Steps (some .ret) m (ret m) := by
  have hback : controlling.Allows m (handBack m) := (obeys_handBack m trivial).2
  apply steps_of_allows
  unfold ret
  rcases h : handBack m with ⟨⟨⟩, m₁⟩ | ⟨e, m₁⟩
  · rw [h] at hback
    rw [bind_ok h]
    have hsame : Dropped (some .ret) m.frames.length m m₁ := .calm hback.handlers hback.depth
    have hleave := allows_leaveFrame (hsame.wellNested hm)
    rw [hback.frames] at hleave
    exact hleave.trans hsame
  · rw [h] at hback
    rw [bind_error h]
    cases e with
    | fault f => exact .calm hback.handlers hback.depth
    | outOfFuel => trivial

/-! ### Turns -/

section Turn

variable {e₁ e₂ : Enter} (he : ∀ e, Obeys isolating (e₁ e) (e₂ e))

include he

theorem steps_execute (fuel : Nat) (i : Instruction) (hm : m.WellNested) :
    execute e₁ fuel i m = execute e₂ fuel i m ∧ Steps (some i) m (execute e₁ fuel i m) := by
  have he' : ∀ e, ObeysWhen (dropping (some i) m.frames.length) e.Due (e₁ e) (e₂ e) := fun e =>
    ((he e).dropping _ _).when _
  have hobeys : Obeys (dropping (some i) m.frames.length) (execute e₁ fuel i) (execute e₂ fuel i) →
      execute e₁ fuel i m = execute e₂ fuel i m ∧ Steps (some i) m (execute e₁ fuel i m) :=
    fun h => ⟨(h.exact hm).1, steps_of_allows (h.exact hm).2⟩
  cases hi : i.isTransfer with
  | false => exact hobeys (obeys_execute (fun e _ => he' e) fuel hi)
  | true =>
    rcases Instruction.transfer_cases hi with rfl | ⟨catchOffset, finallyOffset, rfl⟩ | rfl | hcall
    · exact ⟨rfl, steps_halt hm⟩
    · exact ⟨rfl, .opens rfl⟩
    · exact ⟨rfl, steps_ret hm⟩
    · exact hobeys (passes_execute he' fuel hcall).obeys

theorem steps_step (fuel : Nat) (hm : m.WellNested) :
    step e₁ fuel m = step e₂ fuel m ∧
      (∀ m', step e₁ fuel m = .ok () m' → ∃ m₁, takeInterrupt m = .ok () m₁ ∧ Stepped (next? m) m₁ m') ∧
      ∀ f m', step e₁ fuel m = .error (.fault f) m' → Dropped (next? m) m.frames.length m m' := by
  have htake : isolating.Allows m (takeInterrupt m) := (obeys_takeInterrupt m hm).2
  rcases ht : takeInterrupt m with ⟨⟨⟩, m₁⟩ | ⟨e, m₁⟩
  · rw [ht] at htake
    have hsame : ∀ i, Dropped i m.frames.length m m₁ := fun _ => .calm htake.1 htake.2
    cases hi : next? m with
    | none =>
      obtain ⟨f, hstep⟩ : ∃ f, ∀ e : Enter, step e fuel m = .error (.fault f) m₁ := by
        rcases fetch_eq m₁ with ⟨i, hs, _⟩ | ⟨f, _, hf⟩
        · rw [next_of_takeInterrupt ht, hi] at hs
          cases hs
        · refine ⟨f, fun e => ?_⟩
          unfold step
          rw [bind_ok ht, bind_error hf]
      rw [hstep, hstep]
      refine ⟨rfl, fun m' h => (nomatch h), fun f' m' h => ?_⟩
      cases h
      exact hsame none
    | some i =>
      obtain ⟨heq, hsteps⟩ := steps_execute he fuel i (hm.congr htake.1 htake.2)
      rw [step_eq e₁ fuel ht hi, step_eq e₂ fuel ht hi]
      refine ⟨heq, fun m' h => ?_, fun f m' h => ?_⟩
      · rw [h] at hsteps
        exact ⟨m₁, rfl, hsteps⟩
      · rw [h] at hsteps
        exact (hsame _).trans (taken_frames ht ▸ hsteps)
  · have hstep : ∀ e' : Enter, step e' fuel m = .error e m₁ := fun e' => by
      unfold step
      rw [bind_error ht]
    rw [ht] at htake
    rw [hstep, hstep]
    refine ⟨rfl, fun m' h => (nomatch h), fun f m' h => ?_⟩
    cases h
    exact .calm htake.1 htake.2

/-- **A turn does to handlers what `Took` says**, if nested entries leave handlers alone. -/
theorem took_turn (fuel : Nat) (hm : m.WellNested) :
    turn e₁ fuel m = turn e₂ fuel m ∧ Took e₂ fuel m (turn e₁ fuel m) := by
  obtain ⟨heq, hok, hfault⟩ := steps_step he fuel hm
  unfold turn
  rcases hs : step e₁ fuel m with ⟨⟨⟩, m₁⟩ | ⟨f | _, m₁⟩
  · rw [hs] at heq
    rw [bind_ok (attempt_ok hs), bind_ok (attempt_ok heq.symm)]
    obtain ⟨m₀, htake, hstepped⟩ := hok m₁ hs
    exact ⟨rfl, .steps htake heq.symm hstepped⟩
  · rw [hs] at heq
    rw [bind_ok (attempt_fault hs), bind_ok (attempt_fault heq.symm)]
    have hdropped := hfault f m₁ hs
    obtain ⟨heq', g, σ, hsettle, hunwound⟩ := unwound_unwind (fun r => he _) f (hdropped.wellNested hm)
    exact ⟨heq', .unwinds heq.symm hdropped hsettle hunwound⟩
  · rw [hs] at heq
    rw [bind_error (attempt_outOfFuel hs), bind_error (attempt_outOfFuel heq.symm)]
    exact ⟨rfl, .outOfFuel⟩

end Turn

/-! ### What becomes of the handlers -/

section Handlers

variable {enter : Enter} (he : ∀ e, Heeds isolating (enter e)) {i : Option Instruction} {frames : Nat}
  {f : Fault} {m m' : Machine} {cs : List Fault}

theorem settle_dropped {g : Fault} (hs : settle f m = .ok g m') : Dropped i frames m m' := by
  obtain ⟨_, σ, _, h⟩ := settle_eq_ok f m
  cases hs.symm.trans h
  exact .calm rfl rfl

include he

theorem backTo_same {s : Snapshot} (hm : m.WellNested) (hb : backTo enter s m = .ok cs m') :
    m'.handlers = m.handlers ∧ m'.depth = m.depth := by
  have hallows := ((obeys_backTo (fun r => he (.close r)) s).exact hm).2
  rw [hb] at hallows
  exact hallows

theorem Passed.dropped (hp : Passed enter f m cs m') (hm : m.WellNested) : Dropped i frames m m' := by
  induction hp with
  | none => exact .refl m
  | @more cs cs' m₁ m₂ h rest hpassed hh hd hback hleaves ih =>
    have hsame := backTo_same he (ih.wellNested hm) hback
    have hcalm : Dropped i frames m₁ m₂ := .calm hsame.1 hsame.2
    have hleave : Leavable i frames h := (Reaction.of_eq_leaving hleaves).imp_right .inl
    exact (ih.trans hcalm).trans (.single (hsame.1.trans hh) rfl (hd.trans hsame.2.symm) hleave)

theorem Asked.dropped {h : Handler} {rest : List Handler} (ha : Asked enter f m cs h rest m') (hm : m.WellNested) :
    m'.handlers = h :: rest ∧ Dropped i frames m m' := by
  obtain ⟨cs₁, cs₂, m₁, hpassed, hh, hback, _⟩ := ha.asked
  have hdropped : Dropped i frames m m₁ := hpassed.dropped he hm
  have hsame := backTo_same he (hdropped.wellNested hm) hback
  exact ⟨hsame.1.trans hh, hdropped.trans (.calm hsame.1 hsame.2)⟩

end Handlers

end VM

end ScriptMachine
