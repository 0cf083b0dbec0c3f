import ScriptMachine.Proofs.Watch

/-!
# The ceiling on saved frames

Frames are saved by calls, by host code, by evaluations and by programs, and each time the limit is looked up anew.  As
long as it stays the same, there are fewer frames than it says.
-/

namespace ScriptMachine.VM

/-! ### The laws -/

/-- There are fewer frames than a number says. -/
def Below (cap : Nat) (m : Machine) : Prop := m.frames.length < cap

/-- There are fewer frames than a number says, which is the limit. -/
structure Held (cap : Nat) (m : Machine) : Prop where
  below : Below cap m
  limit : m.limits.maxFrames = cap

/-- The law that there are fewer frames than a number says. -/
def bounded (cap : Nat) (stops : Store → Prop) : Law := { Law.keeping (Below cap) with stops }

/-- The law that there are fewer frames than a number says, which is the limit. -/
def capped (cap : Nat) (stops : Store → Prop) : Law := { Law.keeping (Held cap) with stops }

variable {cap : Nat} {stops : Store → Prop} {m m' s : Machine}

theorem Below.of_le (h : Below cap m) (hle : m'.frames.length ≤ m.frames.length) : Below cap m' :=
  Nat.lt_of_le_of_lt hle h

theorem Held.of_le (h : Held cap m) (hlimits : m'.limits = m.limits)
    (hle : m'.frames.length ≤ m.frames.length) : Held cap m' :=
  ⟨h.below.of_le hle, hlimits ▸ h.limit⟩

instance : (bounded cap stops).Easing where
  strict := id
  eases _ _ _ _ hf _ h := h.of_le hf

instance : (bounded cap stops).Control where
  control hsame _ h := h.of_le (Nat.le_of_eq (congrArg List.length hsame.frames))

instance : (bounded cap stops).Declares := ⟨fun _ _ _ _ _ _ => id⟩

instance : (bounded cap stops).Guard where
  interrupt _ _ := id
  limits _ _ := id
  compiler _ _ := id
  restore {m₀ m _} _ h h₀ := by
    refine (h h₀).of_le ?_
    show (m.frames.drop _).length ≤ m.frames.length
    rw [List.length_drop]
    exact Nat.sub_le _ _
  refs _ _ := id

instance : (capped cap stops).Easing where
  strict := id
  eases _ _ _ hl hf _ h := h.of_le hl hf

instance : (capped cap stops).Control where
  control hsame _ h := h.of_le hsame.limits (Nat.le_of_eq (congrArg List.length hsame.frames))

/-- What keeps the limit too keeps the bound. -/
instance : (capped cap stops).Within (bounded cap stops) where
  within {α p x y} h := by
    intro m _ hm
    obtain ⟨hmatches, hallows⟩ := h m hm.1 hm.2
    refine ⟨hmatches, ?_⟩
    generalize x m = r at hallows ⊢
    rcases r with _ | ⟨_ | _, _⟩
    · exact fun _ => (hallows hm.1).below
    · exact fun _ => (hallows hm.1).below
    · trivial

/-- A frame is saved only if there is room for it. -/
instance : (capped cap stops).Saves where
  saves := by
    refine obeys_get_bind fun m hm => ?_
    split
    · exact id
    · intro _
      rename_i hroom
      have hlimit := hm.limit
      have hbelow : m.frames.length < cap := hm.below
      refine ⟨?_, hlimit⟩
      show m.frames.length + 1 < cap
      omega

/-! ### Turns -/

section Turns

variable {e₁ e₂ : Enter} (he : ∀ e, Obeys (bounded cap stops) (e₁ e) (e₂ e)) (fuel : Nat)

include he

theorem held_execute (i : Instruction) :
    Passes (capped cap stops) (bounded cap stops) (execute e₁ fuel i) (execute e₂ fuel i) := by
  have he' : ∀ e, ObeysWhen (bounded cap stops) e.Due (e₁ e) (e₂ e) := fun e => (he e).when _
  cases hi : i.isTransfer with
  | false => exact (obeys_execute (fun e _ => he' e) fuel hi).when _
  | true =>
    rcases Instruction.transfer_cases hi with rfl | ⟨catchOffset, finallyOffset, rfl⟩ | rfl | hcall
    · exact lax_halt.when _
    · exact (lax_startTry _ _).when _
    · exact lax_ret.when _
    · exact passes_execute he' fuel hcall

theorem held_step : Passes (capped cap stops) (bounded cap stops) (step e₁ fuel) (step e₂ fuel) := by
  have htake : Heeds (capped cap stops) takeInterrupt :=
    obeys_takeInterrupt_of fun _ => Law.Easing.eases rfl rfl rfl rfl (Nat.le_refl _) {}
  have hfetch : Heeds (capped cap stops) fetch := by
    refine obeys_self fun m _ => ?_
    rcases fetch_eq m with ⟨i, _, h⟩ | ⟨f, _, h⟩ <;> rw [h] <;> exact id
  exact htake.passTo fun _ => hfetch.passTo fun i => held_execute he fuel i

theorem held_turn : Passes (capped cap stops) (bounded cap stops) (turn e₁ fuel) (turn e₂ fuel) := by
  refine (held_step he fuel).attempt.bind fun r => ?_
  split
  · exact obeys_pure _
  · refine (lax_settle _).bind fun f => obeys_get.bind fun m => ?_
    exact lax_unwindWithin (fun e => (he e).when _) _ f

end Turns

/-! ### Runs -/

variable (cap stops) in
/-- A run that is stopped where the limit is changed goes the same way as one that is watched for frames. -/
theorem bounded_watched (hs : stops s.store) (alarm : VM Unit) (fuel : Nat) (e : Entry) :
    Obeys (bounded cap stops) (watched (.always fun m => m.limits.maxFrames = cap) (stopAt s) fuel e)
      (watched (.always (Below cap)) alarm fuel e) := by
  have hchecks : ∀ {α} {x y : VM α}, ObeysWhen (bounded cap stops) (Held cap) x y →
      Obeys (bounded cap stops) (do check (fun m => m.limits.maxFrames = cap) (stopAt s); x)
        (do check (Below cap) alarm; y) :=
    fun h m hm => obeys_checks (d := Below cap) (h.imp fun _ hm => ⟨hm.1, hm.2⟩) (fun _ hm _ => hm)
      (fun _ => ⟨s, hs, rfl⟩) alarm m hm hm
  induction fuel generalizing e with
  | zero => exact obeys_outOfFuel
  | succ fuel ih =>
    have hturns : Obeys (bounded cap stops) _ _ :=
      dispatch_of_turns (fun _ _ _ => id) (fun _ _ => id) (fun _ => hchecks (held_turn ih fuel)) fuel
    have hstart : Passes (capped cap stops) (bounded cap stops) _ _ := passes_start (fun e => (ih e).when _) hturns fuel e
    exact hchecks hstart

/-- **Saved frames stay below the ceiling**: a run throughout which the limit is the same has fewer frames than it says,
throughout and at its end. -/
theorem below_throughout {fuel : Nat} {e : Entry} (hm : Below cap m)
    (hheld : Throughout (fun m => m.limits.maxFrames = cap) fuel e m) :
    Throughout (Below cap) fuel e m ∧ ∀ m', Ends (enter fuel e) m m' → Below cap m' := by
  obtain ⟨hbelow, hallows⟩ := silent_of_stopped (L := Law.keeping (Below cap)) (p := Below cap)
    (fun _ _ hs alarm => (bounded_watched cap _ hs alarm fuel e).when _) hm hm hheld
  refine ⟨hbelow, fun m' h => ?_⟩
  rcases h with ⟨_, hx⟩ | ⟨_, hx⟩ <;> rw [hx] at hallows <;> exact hallows hm

end ScriptMachine.VM
