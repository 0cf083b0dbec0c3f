import ScriptMachine.Proofs.Footprint.Instructions

/-!
# Handlers of try statements

The handlers on the stack belong to the running dispatch loop and to the loops around it.
-/

namespace ScriptMachine

variable {m' : Machine} {h : Handler}

/-- The handlers belong to the running loop and to those around it, inner loops first. -/
structure Machine.WellNested (m : Machine) : Prop where
  below : ∀ h ∈ m.handlers, h.depth ≤ m.depth
  ordered : m.handlers.Pairwise fun inner outer => outer.depth ≤ inner.depth

namespace Machine.WellNested

variable {m : Machine}

theorem congr (hm : m.WellNested) (hh : m'.handlers = m.handlers) (hd : m'.depth = m.depth) : m'.WellNested := ⟨hh ▸ hd ▸ hm.below, hh ▸ hm.ordered⟩

theorem tail (hm : m.WellNested) (hh : m.handlers = h :: m'.handlers) (hd : m'.depth = m.depth) : m'.WellNested := by
  obtain ⟨hb, ho⟩ := hm
  rw [hh] at hb ho
  exact ⟨fun x hx => hd ▸ hb x (.tail _ hx), ho.of_cons⟩

theorem cons (hm : m.WellNested) (hh : m'.handlers = h :: m.handlers) (hd : m'.depth = m.depth)
    (hdepth : h.depth = m.depth) : m'.WellNested := by
  obtain ⟨hb, ho⟩ := hm
  refine ⟨fun x hx => ?_, hh ▸ List.pairwise_cons.mpr ⟨fun x hx => hdepth ▸ hb x hx, ho⟩⟩
  rcases List.mem_cons.mp (hh ▸ hx) with rfl | hx
  · exact Nat.le_of_eq (hdepth.trans hd.symm)
  · exact hd ▸ hb x hx

theorem replace (hm : m.WellNested) {h' : Handler} {rest : List Handler} (hh : m.handlers = h :: rest)
    (hh' : m'.handlers = h' :: rest) (hd : m'.depth = m.depth) (hdepth : h'.depth = m.depth) : m'.WellNested :=
  have hrest : { m with handlers := rest }.WellNested := hm.tail hh rfl
  hrest.cons hh' hd hdepth

end Machine.WellNested

/-- The state in which the instruction after the running one is next. -/
def Machine.advanced (m : Machine) : Machine := { m with regs := { m.regs with pc := m.regs.pc + 1 } }

namespace VM

theorem advance_bind (f : Unit → VM α) (m : Machine) : (advance >>= f) m = f () m.advanced := rfl

/-! ### Leaving handlers -/

/-- Why a handler is left in a turn that executes `i` with `frames` frames saved: it has no finally section to run any
more, or a function returns that the try statement is in. -/
def Leavable (i : Option Instruction) (frames : Nat) (h : Handler) : Prop :=
  h.finallyPc = none ∨ h.part = .finishing ∨ i = some .ret ∧ frames ≤ h.snapshot.frames

/-- Handlers of the running loop have been left, and nothing else has happened to handlers. -/
structure Dropped (i : Option Instruction) (frames : Nat) (m m' : Machine) : Prop where
  depth : m'.depth = m.depth
  handlers : ∃ left, m.handlers = left ++ m'.handlers ∧ ∀ h ∈ left, h.depth = m.depth ∧ Leavable i frames h

namespace Dropped

variable {i : Option Instruction} {frames : Nat} {m m₁ m' : Machine}

theorem calm (hh : m'.handlers = m.handlers) (hd : m'.depth = m.depth) : Dropped i frames m m' :=
  ⟨hd, [], by simp [hh], by simp⟩

theorem refl (m : Machine) : Dropped i frames m m := calm rfl rfl

theorem trans (h : Dropped i frames m m₁) (h' : Dropped i frames m₁ m') : Dropped i frames m m' := by
  obtain ⟨left, hleft, hall⟩ := h.handlers
  obtain ⟨left', hleft', hall'⟩ := h'.handlers
  refine ⟨h'.depth.trans h.depth, left ++ left', by rw [hleft, hleft', List.append_assoc], fun x hx => ?_⟩
  rcases List.mem_append.mp hx with hx | hx
  · exact hall x hx
  · exact h.depth ▸ hall' x hx

theorem single (hh : m.handlers = h :: m'.handlers) (hd : m'.depth = m.depth) (hdepth : h.depth = m.depth)
    (hleave : Leavable i frames h) : Dropped i frames m m' :=
  ⟨hd, [h], hh, by simp [hdepth, hleave]⟩

theorem wellNested (h : Dropped i frames m m') (hm : m.WellNested) : m'.WellNested := by
  obtain ⟨left, hleft, _⟩ := h.handlers
  obtain ⟨hb, ho⟩ := hm
  rw [hleft] at hb ho
  exact ⟨fun x hx => h.depth ▸ hb x (List.mem_append_right _ hx), (List.pairwise_append.mp ho).2.1⟩

end Dropped

/-! ### Laws -/

/-- The law that handlers and the number of loops stay as they are. -/
def isolating : Law :=
  .ofRel Machine.WellNested (fun a b => b.handlers = a.handlers ∧ b.depth = a.depth) (fun _ => ⟨rfl, rfl⟩)
    (fun h h' => ⟨h'.1.trans h.1, h'.2.trans h.2⟩) (fun hm h => hm.congr h.1 h.2)

/-- The law that handlers are left alone or left. -/
def dropping (i : Option Instruction) (frames : Nat) : Law :=
  .ofRel Machine.WellNested (Dropped i frames) .refl .trans (fun hm h => h.wellNested hm)

instance : isolating.Exact := ⟨fun _ => id⟩

instance : isolating.Calm where
  strict := id
  calm hh hd _ := ⟨hh, hd⟩

instance (i : Option Instruction) (frames : Nat) : (dropping i frames).Exact := ⟨fun _ => id⟩

instance (i : Option Instruction) (frames : Nat) : (dropping i frames).Calm where
  strict := id
  calm hh hd _ := .calm hh hd

theorem Obeys.dropping {x y : VM α} (h : Obeys isolating x y) (i : Option Instruction) (frames : Nat) :
    Obeys (dropping i frames) x y :=
  h.mono id (fun _ h => .calm h.1 h.2) (fun _ h => .calm h.1 h.2) id

/-! ### Sections that end -/

section Halt

variable {m : Machine} {h : Handler} {rest : List Handler}

theorem owns_iff : owns m h = true ↔ h.depth = m.depth ∧ h.snapshot.frames = m.frames.length := by
  simp [owns]

theorem exists_head_of_not_forall {p : Handler → Prop} [DecidablePred p] (h : ¬ ∀ h ∈ m.handlers.head?, ¬ p h) :
    ∃ h rest, m.handlers = h :: rest ∧ p h := by
  cases hl : m.handlers with
  | nil => simp [hl] at h
  | cons h' rest => exact ⟨h', rest, rfl, by simpa [hl] using h⟩

theorem halt_of_owned (hh : m.handlers = h :: rest) (ho : owns m h = true) : halt m = endSection h rest m.advanced := by
  have hh' : m.advanced.handlers = h :: rest := hh
  unfold halt
  rw [advance_bind, get_bind, hh']
  exact congrFun (if_pos ho) _

theorem halt_of_not_owned (ho : ∀ h ∈ m.handlers.head?, owns m h = false) : halt m = endLoop m.advanced := by
  unfold halt
  rw [advance_bind, get_bind]
  cases hh : m.handlers with
  | nil =>
    have hh' : m.advanced.handlers = [] := hh
    rw [hh']
  | cons h rest =>
    have hh' : m.advanced.handlers = h :: rest := hh
    have hnot : ¬ owns m.advanced h = true := by
      have hfalse : owns m.advanced h = false := ho h (by simp [hh])
      simp [hfalse]
    rw [hh']
    exact congrFun (if_neg hnot) _

theorem endSection_of_finishing (hpart : h.part = .finishing) :
    endSection h rest = (do
      modify fun m => { m with handlers := rest }
      leaveFinally h) := by
  unfold endSection
  rw [hpart]

theorem endSection_of_not_finishing (hpart : h.part ≠ .finishing) :
    endSection h rest m = match h.finallyPc with
      | some pc => .ok () { m with
          handlers := { h with part := .finishing, resume := m.regs.pc } :: rest, regs := { m.regs with pc } }
      | none => .ok () { m with handlers := rest } := by
  obtain ⟨_, finallyPc, part, _, _, _, _⟩ := h
  cases part with
  | finishing => contradiction
  | body | catching => cases finallyPc <;> rfl

end Halt

/-! ### Returns -/

theorem dropped_dropHandlers (m : Machine) : Dropped (some .ret) m.frames.length m { m with
    handlers := m.handlers.dropWhile fun h => h.depth = m.depth && (m.frames.length ≤ h.snapshot.frames : Bool) } := by
  refine ⟨rfl, _, (List.takeWhile_append_dropWhile).symm, fun h hh => ?_⟩
  have hdrop := List.all_eq_true.mp List.all_takeWhile h hh
  simp only [Bool.and_eq_true, decide_eq_true_eq] at hdrop
  exact ⟨hdrop.1, .inr (.inr ⟨rfl, hdrop.2⟩)⟩

theorem allows_leaveFrame {m : Machine} (hm : m.WellNested) :
    (dropping (some .ret) m.frames.length).Allows m (leaveFrame m) := by
  have hdropped := dropped_dropHandlers m
  unfold leaveFrame
  rw [get_bind]
  split
  · exact ((obeys_popFrame.bind fun _ => obeys_endLoop) _ (hdropped.wellNested hm)).2.trans hdropped
  · exact ((obeys_popFrame.bind fun _ => obeys_pure _) _ (hdropped.wellNested hm)).2.trans hdropped

def controlling : Law :=
  .ofRel (fun _ => True) SameControl (fun _ => {})
    (fun h h' => ⟨h'.handlers.trans h.handlers, h'.frames.trans h.frames, h'.depth.trans h.depth,
      h'.halted.trans h.halted, h'.limits.trans h.limits, h'.program.trans h.program, h'.native.trans h.native,
      h'.constructing.trans h.constructing, h'.realm.trans h.realm⟩)
    (fun _ _ => trivial)

instance : controlling.Control := ⟨fun h _ => h⟩

instance : controlling.Declares := ⟨fun _ _ _ _ _ _ => {}⟩

end VM

end ScriptMachine
