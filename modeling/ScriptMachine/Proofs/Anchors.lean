import ScriptMachine.Proofs.Frames

/-!
# Handlers and frames

A handler remembers how many frames were saved at the start of its statement.  While a dispatch loop runs, the handlers
of the loop are anchored: an outer one at no more frames than an inner one, and none at more frames than there are.

* `backTo_spec`, `Passed.frames`, `Asked.frames` — unwinding goes back to frames that were there.
* `Anchored` — kept by every turn (`Anchored.stepped`, `Anchored.returned`, `Asked.anchored`).
* `Running`, `Ended` — a dispatch loop under way, and one that has ended; `stays_turn` says that a turn which keeps the
  discipline leads from the first to one of them, and `stays_loop` says the same of the loop.
-/

namespace ScriptMachine

/-! ### The bottom of a stack -/

section Bottom

variable {a b : List α} {n : Nat}

theorem bottomOf_suffix (n : Nat) (l : List α) : bottomOf n l <:+ l := List.drop_suffix _ _

theorem length_bottomOf (n : Nat) (l : List α) : (bottomOf n l).length = min n l.length := by
  unfold bottomOf
  rw [List.length_drop]
  omega

theorem bottomOf_eq_of_suffix (h : a <:+ b) (hn : n ≤ a.length) : bottomOf n b = bottomOf n a := by
  have hlen := length_bottomOf n a
  have hlen' := length_bottomOf n b
  have hle := h.length_le
  have hsuffix : bottomOf n a <:+ bottomOf n b :=
    List.suffix_of_suffix_length_le ((bottomOf_suffix n a).trans h) (bottomOf_suffix n b) (by omega)
  exact (hsuffix.eq_of_length (by omega)).symm

end Bottom

namespace VM

/-! ### Unwinding -/

theorem backTo_eq (enter : Enter) (s : Snapshot) (m : Machine) :
    backTo enter s m = (do
      let closing ← closingFaults enter (aboveBottom s.loops m.loops)
      modify fun m => { m with refs := bottomOf s.refs m.refs }
      return closing : VM (List Fault)) { m.restore s with loops := bottomOf s.loops m.loops } := rfl

section Unwinding

variable {enter : Enter} (he : Nests enter) {m m' : Machine} {cs : List Fault}

include he

theorem backTo_spec {s : Snapshot} (hm : m.WellNested) (hb : backTo enter s m = .ok cs m') :
    Balanced { m.restore s with loops := bottomOf s.loops m.loops } m' := by
  rw [backTo_eq] at hb
  obtain ⟨closing, m₂, hclosing, hrest⟩ := bind_eq_ok.mp hb
  cases hrest
  have hstrict := obeys_closingFaults (fun r => he.strict (.close r) rfl) (aboveBottom s.loops m.loops)
  have hallows := hstrict.allows (m := { m.restore s with loops := bottomOf s.loops m.loops }) (hm.congr rfl rfl)
  rw [hclosing] at hallows
  exact ⟨hallows.handlers, hallows.depth, hallows.frames, hallows.regs, hallows.halted⟩

theorem Passed.frames {f : Fault} (hp : Passed enter f m cs m') (hm : m.WellNested) :
    m'.frames <:+ m.frames ∧ (m.halted = false → m'.halted = false) ∧
      ∃ left, m.handlers = left ++ m'.handlers ∧ (∀ x ∈ left, x.depth = m.depth) ∧
        ∀ n ≤ m.frames.length, (∀ x ∈ left, n ≤ x.snapshot.frames) → n ≤ m'.frames.length := by
  induction hp with
  | none => exact ⟨List.suffix_refl _, id, [], rfl, by simp, fun n hn _ => hn⟩
  | @more cs cs' m₁ m₂ h rest hpassed hh hd hback hleaves ih =>
    obtain ⟨hsuffix, hhalted, left, hleft, hown, hlen⟩ := ih
    have hdropped : Dropped .none 0 m m₁ := hpassed.dropped he.isolates hm
    have hspec := backTo_spec he (hdropped.wellNested hm) hback
    have hframes : m₂.frames = bottomOf h.snapshot.frames m₁.frames := hspec.frames
    refine ⟨?_, fun hr => hspec.halted (hhalted hr), left ++ [h], ?_, ?_, fun n hn hall => ?_⟩
    · rw [hframes]
      exact (bottomOf_suffix _ _).trans hsuffix
    · rw [hleft, hh, List.append_assoc]
      rfl
    · intro x hx
      rcases List.mem_append.mp hx with hx | hx
      · exact hown x hx
      · rw [List.mem_singleton.mp hx, hd, hdropped.depth]
    · have hn₁ := hlen n hn fun x hx => hall x (List.mem_append_left _ hx)
      have hn₂ := hall h (List.mem_append_right _ (.head _))
      rw [hframes, length_bottomOf]
      omega

end Unwinding

/-! ### Anchors -/

/-- The handlers of the running loop are anchored at frames that are there, from a number of frames on and in order. -/
structure Anchored (base : Nat) (m : Machine) : Prop where
  above : ∀ h ∈ m.handlers, h.depth = m.depth → base ≤ h.snapshot.frames
  below : ∀ h ∈ m.handlers, h.depth = m.depth → h.snapshot.frames ≤ m.frames.length
  ordered : m.handlers.Pairwise fun inner outer =>
    outer.depth = m.depth → outer.snapshot.frames ≤ inner.snapshot.frames

namespace Anchored

variable {base : Nat} {m m' : Machine}

theorem suffix (h : Anchored base m) (hh : m'.handlers <:+ m.handlers) (hd : m'.depth = m.depth)
    (hlen : ∀ x ∈ m'.handlers, x.depth = m.depth → x.snapshot.frames ≤ m'.frames.length) : Anchored base m' where
  above x hx hdepth := h.above x (hh.subset hx) (hdepth.trans hd)
  below x hx hdepth := hlen x hx (hdepth.trans hd)
  ordered := by
    rw [hd]
    exact h.ordered.sublist hh.sublist

theorem mono (h : Anchored base m) (hh : m'.handlers <:+ m.handlers) (hd : m'.depth = m.depth)
    (hlen : m.frames.length ≤ m'.frames.length) : Anchored base m' :=
  h.suffix hh hd fun x hx hdepth => Nat.le_trans (h.below x (hh.subset hx) hdepth) hlen

theorem cons (h : Anchored base m) {x : Handler} (hh : m'.handlers = x :: m.handlers) (hd : m'.depth = m.depth)
    (hbase : base ≤ x.snapshot.frames)
    (hrest : ∀ y ∈ m.handlers, y.depth = m.depth → y.snapshot.frames ≤ x.snapshot.frames)
    (hlen : x.snapshot.frames ≤ m'.frames.length) : Anchored base m' := by
  refine ⟨?_, ?_, ?_⟩ <;> rw [hh, hd]
  · exact List.forall_mem_cons.mpr ⟨fun _ => hbase, h.above⟩
  · exact List.forall_mem_cons.mpr ⟨fun _ => hlen, fun y hy hdepth => Nat.le_trans (hrest y hy hdepth) hlen⟩
  · exact List.pairwise_cons.mpr ⟨hrest, h.ordered⟩

theorem replace (h : Anchored base m) {x x' : Handler} {rest : List Handler} (hh : m.handlers = x :: rest)
    (hx : x.depth = m.depth) (hh' : m'.handlers = x' :: rest) (hd : m'.depth = m.depth)
    (hsnapshot : x'.snapshot = x.snapshot) (hlen : x.snapshot.frames ≤ m'.frames.length) : Anchored base m' := by
  have hrest : Anchored base { m with handlers := rest } := h.mono ⟨[x], hh.symm⟩ rfl (Nat.le_refl _)
  refine hrest.cons hh' hd ?_ ?_ ?_ <;> rw [hsnapshot]
  · exact h.above x (hh ▸ .head _) hx
  · exact (List.pairwise_cons.mp (hh ▸ h.ordered)).1
  · exact hlen

theorem stepped (h : Anchored base m) (hbase : base ≤ m.frames.length) {i : Option Instruction} (hs : Stepped i m m')
    (hlen : m.frames.length ≤ m'.frames.length) : Anchored base m' := by
  cases hs with
  | opens => exact h.cons rfl rfl hbase h.below (Nat.le_refl _)
  | drops hd =>
    obtain ⟨left, hleft, _⟩ := hd.handlers
    exact h.mono ⟨left, hleft.symm⟩ hd.depth hlen
  | completes _ hh ho =>
    obtain ⟨hdepth, hframes⟩ := owns_iff.mp ho
    exact h.replace hh hdepth rfl rfl rfl (Nat.le_of_eq hframes)

/-- The innermost of the handlers is anchored highest, and is of the running loop if any of them is. -/
theorem head (h : Anchored base m) (hm : m.WellNested) {x y : Handler} {rest : List Handler}
    (hs : y :: rest <:+ m.handlers) (hx : x ∈ y :: rest) (hdepth : x.depth = m.depth) :
    y.depth = m.depth ∧ x.snapshot.frames ≤ y.snapshot.frames := by
  rcases List.mem_cons.mp hx with rfl | hx
  · exact ⟨hdepth, Nat.le_refl _⟩
  · have hyx := (List.pairwise_cons.mp (hm.ordered.sublist hs.sublist)).1 x hx
    have hym := hm.below y (hs.subset (.head _))
    exact ⟨by omega, (List.pairwise_cons.mp (h.ordered.sublist hs.sublist)).1 x hx hdepth⟩

theorem returned (h : Anchored base m) (hm : m.WellNested) {a : Activation} (hf : m.frames = a :: m'.frames)
    (hh : m'.handlers = keptHandlers m) (hd : m'.depth = m.depth) : Anchored base m' := by
  have hsuffix : m'.handlers <:+ m.handlers := hh ▸ List.dropWhile_suffix _
  refine h.suffix hsuffix hd fun x hx hdepth => ?_
  have hlen : m.frames.length = m'.frames.length + 1 := by rw [hf, List.length_cons]
  cases hkept : m'.handlers with
  | nil =>
    rw [hkept] at hx
    cases hx
  | cons y rest =>
    -- the innermost handler kept is of an outer loop, or anchored below the frame dropped
    have hy : ¬ (y.depth = m.depth ∧ m.frames.length ≤ y.snapshot.frames) := by
      have hhead := List.head?_dropWhile_not
        (fun h => decide (h.depth = m.depth) && decide (m.frames.length ≤ h.snapshot.frames)) m.handlers
      unfold keptHandlers at hh
      rw [← hh, hkept] at hhead
      simpa using hhead
    rw [hkept] at hsuffix hx
    have hhead := h.head hm hsuffix hx hdepth
    omega

theorem owns_head (h : Anchored base m) (hm : m.WellNested) {x : Handler} (hx : x ∈ m.handlers)
    (ho : owns m x = true) : ∃ y ∈ m.handlers.head?, owns m y = true := by
  obtain ⟨hdepth, hframes⟩ := owns_iff.mp ho
  obtain ⟨y, rest, hh⟩ := List.exists_cons_of_ne_nil (List.ne_nil_of_mem hx)
  obtain ⟨hy, hle⟩ := h.head hm (hh ▸ List.suffix_refl _) (hh ▸ hx) hdepth
  have hlen := h.below y (hh ▸ .head _) hy
  exact ⟨y, hh ▸ rfl, owns_iff.mpr ⟨hy, by omega⟩⟩

end Anchored

section Asked

variable {enter : Enter} (he : Nests enter) {base : Nat} {f : Fault} {m m' : Machine} {cs : List Fault} {h : Handler}
  {rest : List Handler} (ha : Asked enter f m cs h rest m') (hm : m.WellNested) (hanchored : Anchored base m)

include he ha hm hanchored

theorem Asked.passed :
    h ∈ m.handlers ∧ ∃ cs₂ m₁, m₁.WellNested ∧ m₁.frames <:+ m.frames ∧ h.snapshot.frames ≤ m₁.frames.length ∧
      (m.halted = false → m₁.halted = false) ∧ backTo enter h.snapshot m₁ = .ok cs₂ m' := by
  obtain ⟨cs₁, cs₂, m₁, hpassed, hh, hback, _⟩ := ha.asked
  obtain ⟨hsuffix, hhalted, left, hleft, hown, hlen⟩ := hpassed.frames he hm
  have hdropped : Dropped none 0 m m₁ := hpassed.dropped he.isolates hm
  rw [hh] at hleft
  have hmem : h ∈ m.handlers := hleft ▸ List.mem_append_right _ (.head _)
  refine ⟨hmem, cs₂, m₁, hdropped.wellNested hm, hsuffix, ?_, hhalted, hback⟩
  refine hlen _ (hanchored.below h hmem ha.owned) fun x hx => ?_
  have hordered := hanchored.ordered
  rw [hleft] at hordered
  exact (List.pairwise_append.mp hordered).2.2 x hx h (.head _) ha.owned

theorem Asked.frames : m'.frames = bottomOf h.snapshot.frames m.frames ∧ (m.halted = false → m'.halted = false) := by
  obtain ⟨_, cs₂, m₁, hm₁, hsuffix, hle, hhalted, hback⟩ := ha.passed he hm hanchored
  have hspec := backTo_spec he hm₁ hback
  refine ⟨?_, fun hr => hspec.halted (hhalted hr)⟩
  rw [bottomOf_eq_of_suffix hsuffix hle]
  exact hspec.frames

theorem Asked.regs : m'.regs = h.snapshot.regs := by
  obtain ⟨_, cs₂, m₁, hm₁, _, _, _, hback⟩ := ha.passed he hm hanchored
  exact (backTo_spec he hm₁ hback).regs

theorem Asked.anchored {m'' : Machine} {h' : Handler} (hh : m''.handlers = h' :: rest) (hd : m''.depth = m'.depth)
    (hsnapshot : h'.snapshot = h.snapshot) (hframes : m''.frames = m'.frames) : Anchored base m'' := by
  obtain ⟨hmem, _⟩ := ha.passed he hm hanchored
  obtain ⟨hback, _⟩ := ha.frames he hm hanchored
  obtain ⟨hh', hdropped⟩ : m'.handlers = h :: rest ∧ Dropped none 0 m m' := ha.dropped he.isolates hm
  obtain ⟨left, hleft, _⟩ := hdropped.handlers
  rw [hh'] at hleft
  have hrest : Anchored base { m with handlers := h :: rest } := hanchored.mono ⟨left, hleft.symm⟩ rfl (Nat.le_refl _)
  refine hrest.replace rfl ha.owned hh (hd.trans hdropped.depth) hsnapshot ?_
  have hle := hanchored.below h hmem ha.owned
  rw [hframes, hback, length_bottomOf]
  omega

end Asked

/-! ### Loops under way -/

/-- A dispatch loop started from `s` is under way: above the frames of `s` are those of script functions. -/
structure Running (s m : Machine) : Prop where
  inside : Inside s m
  frames : ∃ own, m.frames = own ++ s.frames ∧ ∀ a ∈ own, a.program.isSome
  anchored : Anchored s.frames.length m
  halted : m.halted = false

/-- A dispatch loop started from `s` has ended: a program leaves the frames of `s`, and a function has returned to the
boundary among them. -/
structure Ended (e : Entry) (s m : Machine) : Prop where
  inside : Inside s m
  frames : m.frames = if e.runsProgram then s.frames else s.frames.tail
  halted : m.halted = true

/-- What a turn of a dispatch loop started from `s` may end with. -/
def Stays (e : Entry) (s : Machine) : EStateM.Result Abort Machine Unit → Prop
  | .ok _ m' => Running s m' ∨ Ended e s m'
  | .error (.fault _) m' => Inside s m' ∧ s.frames <:+ m'.frames
  | .error .outOfFuel _ => True

/-- The loop of a function is started above a boundary, to which the function returns. -/
def Bounded (e : Entry) (s : Machine) : Prop := e.runsProgram = false → ∃ a ∈ s.frames.head?, a.isBoundary = true

/-- When the loop of a function has ended, a frame of its start is gone. -/
theorem Ended.length_lt {e : Entry} {s m : Machine} (h : Ended e s m) (hbound : Bounded e s)
    (he : e.runsProgram = false) : m.frames.length < s.frames.length := by
  obtain ⟨a, ha, _⟩ := hbound he
  have hpos : s.frames.length ≠ 0 := fun hz => by simp [List.length_eq_zero_iff.mp hz] at ha
  rw [h.frames, if_neg (by simp [he]), List.length_tail]
  omega

theorem own_bottomOf (own : List α) {base : List α} {n : Nat} (hn : base.length ≤ n) :
    ∃ own', bottomOf n (own ++ base) = own' ++ base ∧ ∀ a ∈ own', a ∈ own := by
  have hle : (own ++ base).length - n ≤ own.length := by
    rw [List.length_append]
    omega
  exact ⟨own.drop ((own ++ base).length - n), List.drop_append_of_le_length hle, fun a ha => List.mem_of_mem_drop ha⟩

section Turn

variable {enter : Enter} (he : Nests enter) {e : Entry} {s m m' : Machine} (hs : s.WellNested)

theorem Running.length_le (hm : Running s m) : s.frames.length ≤ m.frames.length := by
  obtain ⟨own, hown, _⟩ := hm.frames
  rw [hown, List.length_append]
  omega

include hs

theorem Running.framed (hm : Running s m) (hbound : Bounded e s) (hkeeps : Keeps e s m) (hin : Inside s m')
    {i : Option Instruction} {m₁ : Machine} (ht : takeInterrupt m = .ok () m₁) (hstepped : Stepped i m₁ m')
    (hframed : Framed m m') : Running s m' ∨ Ended e s m' := by
  obtain ⟨own, hown, hprogram⟩ := hm.frames
  have hm' : m.WellNested := hm.inside.wellNested hs
  have hanchored : m.frames.length ≤ m'.frames.length → Anchored s.frames.length m' := by
    have htaken : Anchored s.frames.length m₁ :=
      hm.anchored.mono (taken_handlers ht ▸ List.suffix_refl _) (taken_depth ht) (Nat.le_of_eq (taken_frames ht ▸ rfl))
    intro hlen
    exact htaken.stepped (taken_frames ht ▸ hm.length_le) hstepped (taken_frames ht ▸ hlen)
  cases hframed with
  | steady hframes hhalted =>
    exact .inl ⟨hin, ⟨own, hframes.trans hown, hprogram⟩, hanchored (Nat.le_of_eq (hframes ▸ rfl)), hhalted hm.halted⟩
  | @pushes a ha hframes hhalted =>
    refine .inl ⟨hin, ⟨a :: own, ?_, List.forall_mem_cons.mpr ⟨ha, hprogram⟩⟩, hanchored ?_, hhalted hm.halted⟩
    · rw [hframes, hown, List.cons_append]
    · rw [hframes, List.length_cons]
      omega
  | @pops a hi hframes hkept hdepth hhalted =>
    cases own with
    | nil =>
      rw [List.nil_append] at hown
      cases hrun : e.runsProgram with
      | true => exact absurd (hown ▸ rfl) (hkeeps.returns hi hrun)
      | false =>
        obtain ⟨b, hb, hboundary⟩ := hbound hrun
        rw [← hown, hframes] at hb
        cases hb
        refine .inr ⟨hin, ?_, (hhalted hm.halted).trans hboundary⟩
        rw [hrun, ← hown, hframes]
        rfl
    | cons b own =>
      rw [hframes, List.cons_append, List.cons.injEq] at hown
      obtain ⟨rfl, hown⟩ := hown
      obtain ⟨ha, hprogram⟩ := List.forall_mem_cons.mp hprogram
      have hboundary : a.isBoundary = false := by
        unfold Activation.isBoundary
        cases hp : a.program with
        | none => simp [hp] at ha
        | some p => rfl
      exact .inl ⟨hin, ⟨own, hown, hprogram⟩, hm.anchored.returned hm' hframes hkept hdepth,
        (hhalted hm.halted).trans hboundary⟩
  | halts hi howned hframes hhalted =>
    rcases hkeeps.halts hi with ⟨h, hh, ho⟩ | ⟨hrun, hlen⟩
    · obtain ⟨y, hy, hyo⟩ := hm.anchored.owns_head hm' hh ho
      rw [howned y hy] at hyo
      cases hyo
    · have hnil : own = [] := by
        rw [hown, List.length_append] at hlen
        exact List.length_eq_zero_iff.mp (by omega)
      refine .inr ⟨hin, ?_, hhalted⟩
      rw [hrun, hframes, hown, hnil]
      rfl

section Failed

variable {i : Option Instruction} {n : Nat} {m₂ : Machine} (hm : Running s m) (hdropped : Dropped i n m m₂)
  (hsuffix : m.frames <:+ m₂.frames)

include hm hdropped hsuffix

omit hs in
theorem Running.anchored_of_dropped : Anchored s.frames.length m₂ := by
  obtain ⟨left, hleft, _⟩ := hdropped.handlers
  exact hm.anchored.mono ⟨left, hleft.symm⟩ hdropped.depth hsuffix.length_le

include he

theorem Running.asked {f : Fault} {cs : List Fault} {h : Handler} {rest : List Handler} {m₃ : Machine}
    (ha : Asked enter f m₂ cs h rest m₃) :
    s.frames.length ≤ h.snapshot.frames ∧ m₃.frames = bottomOf h.snapshot.frames m.frames ∧
      (m₂.halted = false → m₃.halted = false) := by
  have hm₂ : m₂.WellNested := hdropped.wellNested (hm.inside.wellNested hs)
  have hanchored := hm.anchored_of_dropped hdropped hsuffix
  obtain ⟨hmem, _⟩ := ha.passed he hm₂ hanchored
  obtain ⟨hframes, hrunning⟩ := ha.frames he hm₂ hanchored
  have hmem' : h ∈ m.handlers := by
    obtain ⟨left, hleft, _⟩ := hdropped.handlers
    exact hleft ▸ List.mem_append_right _ hmem
  have hle := hm.anchored.below h hmem' (ha.owned.trans hdropped.depth)
  exact ⟨hanchored.above h hmem ha.owned, hframes.trans (bottomOf_eq_of_suffix hsuffix hle), hrunning⟩

/-- Unwinding goes on with the loop, or leaves it with the frames of `s` there. -/
theorem Running.unwound {f : Fault} {r : EStateM.Result Abort Machine Unit}
    (hin : (Law.keeping (Inside s)).Allows m r) (hhalted : m₂.halted = false) (hu : Unwound enter f m₂ r) :
    Stays e s r := by
  obtain ⟨own, hown, hprogram⟩ := hm.frames
  have hm₂ : m₂.WellNested := hdropped.wellNested (hm.inside.wellNested hs)
  have hanchored := hm.anchored_of_dropped hdropped hsuffix
  have hback : ∀ {cs h rest m₃}, Asked enter f m₂ cs h rest m₃ →
      (∃ own', m₃.frames = own' ++ s.frames ∧ ∀ a ∈ own', a.program.isSome) ∧ m₃.halted = false := by
    intro cs h rest m₃ ha
    obtain ⟨hbase, hframes, hrunning⟩ := hm.asked he hs hdropped hsuffix ha
    obtain ⟨own', hown', hall⟩ := own_bottomOf own hbase
    rw [hown, hown'] at hframes
    exact ⟨⟨own', hframes, fun a ha => hprogram a (hall a ha)⟩, hrunning hhalted⟩
  cases hu with
  | goesOn hpassed _ =>
    have hbase : s.frames <:+ m₂.frames :=
      (hown ▸ List.suffix_append own s.frames).trans hsuffix
    obtain ⟨hsuffix', _, left, hleft, hdepth, hlen⟩ := hpassed.frames he hm₂
    refine ⟨hin hm.inside, List.suffix_of_suffix_length_le hbase hsuffix' ?_⟩
    exact hlen _ hbase.length_le fun x hx => hanchored.above x (hleft ▸ List.mem_append_left _ hx) (hdepth x hx)
  | catches ha | finishes ha =>
    obtain ⟨hframes, hrunning⟩ := hback ha
    exact .inl ⟨hin hm.inside, hframes, ha.anchored he hm₂ hanchored rfl rfl rfl rfl, hrunning⟩
  | outOfFuel => trivial

end Failed

include he

/-- **A turn that keeps the discipline** goes on with the loop or ends it; if it fails, the frames of `s` are there. -/
theorem stays_turn (fuel : Nat) (hm : Running s m) (hbound : Bounded e s) (hkeeps : Keeps e s m) :
    Stays e s (turn enter fuel m) := by
  have hm' : m.WellNested := hm.inside.wellNested hs
  have hin := hm.inside.took he.isolates hs (took_turn he.isolates fuel hm').2
  have hturn := frames_turn he fuel ⟨hm', hkeeps.host⟩
  generalize turn enter fuel m = r at hin hturn ⊢
  cases hturn with
  | steps htake _ hstepped hframed => exact hm.framed hs hbound hkeeps (hin hm.inside) htake hstepped hframed
  | unwinds hdropped hsuffix hhalted hunwound =>
    exact hm.unwound he hs hdropped hsuffix hin (hhalted hm.halted) hunwound
  | outOfFuel => trivial

/-- A turn that goes on leaves frames behind that were there, or pushes the caller, which goes on after its instruction. -/
theorem Running.turned (fuel : Nat) (hm : Running s m) (hhost : m.store.Propagates)
    (ht : turn enter fuel m = .ok () m') :
    m'.frames <:+ m.frames ∨
      ∃ a, m'.frames = a :: m.frames ∧ a.program = m.regs.program ∧ a.pc = m.regs.pc + 1 ∧ handsOver m = true := by
  have hturn := frames_turn he fuel ⟨hm.inside.wellNested hs, hhost⟩
  rw [ht] at hturn
  cases hturn with
  | steps _ _ _ hframed =>
    cases hframed with
    | steady hframes | halts _ _ hframes => exact .inl (hframes ▸ List.suffix_refl _)
    | pushes _ hframes _ _ _ hprogram hpc hpassed => exact .inr ⟨_, hframes, hprogram, hpc, hpassed⟩
    | pops _ hframes => exact .inl (hframes ▸ List.suffix_cons _ _)
  | unwinds hdropped hsuffix _ hunwound =>
    cases hunwound with
    | catches ha | finishes ha =>
      have hback := (hm.asked he hs hdropped hsuffix ha).2.1
      exact .inl (hback ▸ bottomOf_suffix _ _)

theorem Running.suffix (fuel : Nat) (hm : Running s m) (hhost : m.store.Propagates) {bottom : List Activation}
    (hbottom : bottom <:+ m.frames) (ht : turn enter fuel m = .ok () m') (hlen : bottom.length ≤ m'.frames.length) :
    bottom <:+ m'.frames := by
  rcases hm.turned he hs fuel hhost ht with hsuffix | ⟨a, hframes, _⟩
  · exact List.suffix_of_suffix_length_le hbottom hsuffix hlen
  · exact hframes ▸ hbottom.trans (List.suffix_cons _ _)

end Turn

theorem stays_loop {x : VM Unit} {e : Entry} {s : Machine} (hx : ∀ m, Running s m → Stays e s (x m)) (n : Nat)
    {m : Machine} (hm : Running s m ∨ Ended e s m) : Stays e s (loop x n m) := by
  induction n generalizing m with
  | zero => trivial
  | succ n ih =>
    rcases hm with hm | hm
    · rw [loop_of_running x n hm.halted]
      have hturn := hx m hm
      rcases h : x m with ⟨⟨⟩, m₁⟩ | ⟨f | _, m₁⟩
      · rw [h] at hturn
        rw [bind_ok h]
        exact ih hturn
      · rw [h] at hturn
        rw [bind_error h]
        exact hturn
      · rw [bind_error h]
        trivial
    · rw [loop_of_halted x n hm.halted]
      exact .inr hm

end VM

end ScriptMachine
