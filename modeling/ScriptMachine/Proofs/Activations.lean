import ScriptMachine.Proofs.Balance

/-!
# Activations under way

The activation that runs above `n` frames may call others, which run above more frames, and go back to the start of a
try statement of its own.  As long as it has not returned, base and kind of it, saved in a frame or in a snapshot at
times, change by its own instructions only, and it runs the same program.
-/

namespace ScriptMachine.VM

/-- What is said of an activation depends on its base, its kind and its program only. -/
def Lasting (P : Activation → Prop) : Prop :=
  ∀ r r' : Activation, r'.base = r.base → r'.constructing = r.constructing → r'.program = r.program → P r → P r'

/-- The activation above `n` frames satisfies a condition, whether it runs or is saved in a frame, and so do all
snapshots that were taken while it ran. -/
structure Abides (P : Activation → Prop) (n : Nat) (m : Machine) : Prop where
  running : m.frames.length = n → P m.regs
  saved : ∀ own a rest, m.frames = own ++ a :: rest → rest.length = n → P a
  handlers : ∀ h ∈ m.handlers, h.depth = m.depth → h.snapshot.frames = n → P h.snapshot.regs

theorem abides_nested {P : Activation → Prop} {s : Machine} (hs : s.WellNested) (h : P s.regs) :
    Abides P s.frames.length (nested s) := by
  refine ⟨fun _ => h, fun own a rest hsplit hrest => ?_, fun x hx hdepth => ?_⟩
  · have hlength : s.frames.length = (own ++ a :: rest).length := congrArg List.length hsplit
    rw [List.length_append, List.length_cons] at hlength
    omega
  · have hle := hs.below x hx
    have hdepth : x.depth = s.depth + 1 := hdepth
    omega

section Turn

variable {P : Activation → Prop} {enter : Enter} {fuel n : Nat} {s m m' : Machine} (habides : Abides P n m)
  (hP : Lasting P)

include habides hP

/-- An instruction starts a statement with the registers of the activation that runs, or keeps snapshots as they are. -/
theorem Abides.handlers_of_stepped {m₁ : Machine} (ht : takeInterrupt m = .ok () m₁) {i : Option Instruction}
    (hstepped : Stepped i m₁ m') :
    ∀ h ∈ m'.handlers, h.depth = m'.depth → h.snapshot.frames = n → P h.snapshot.regs := by
  have hhandlers := taken_handlers ht
  have hdepth := taken_depth ht
  cases hstepped with
  | @opens c f =>
    intro h hh hd hframes
    rcases List.mem_cons.mp hh with rfl | hh
    · have hrunning : m.frames.length = n := (congrArg List.length (taken_frames ht)).symm.trans hframes
      refine hP m₁.regs _ rfl rfl rfl ?_
      rw [taken_regs ht]
      exact habides.running hrunning
    · exact habides.handlers h (hhandlers ▸ hh) (hd.trans hdepth) hframes
  | drops hdropped =>
    obtain ⟨left, hleft, _⟩ := hdropped.handlers
    intro h hh hd hframes
    have hmem : h ∈ m₁.handlers := hleft ▸ List.mem_append_right left hh
    exact habides.handlers h (hhandlers ▸ hmem) (hd.trans (hdropped.depth.trans hdepth)) hframes
  | @completes x rest pc _ hx ho =>
    intro h hh hd hframes
    rcases List.mem_cons.mp hh with rfl | hh
    · exact habides.handlers x (hhandlers ▸ hx ▸ .head _) (hd.trans hdepth) hframes
    · exact habides.handlers h (hhandlers ▸ hx ▸ .tail _ hh) (hd.trans hdepth) hframes

/-- A step that goes on with the loop, unless it is one of the activation itself and does not keep the condition. -/
theorem Abides.framed (hlevel : n ≤ m.frames.length) (hrunning : m'.halted = false) (hframed : Framed m m')
    (hown : m.frames.length = n → ((∀ i ∈ next? m, i.beginsFrame = false) → m'.regs.base = m.regs.base) →
      m'.regs.constructing = m.regs.constructing → m'.regs.program = m.regs.program → P m.regs → P m'.regs)
    (hhandlers : ∀ h ∈ m'.handlers, h.depth = m'.depth → h.snapshot.frames = n → P h.snapshot.regs) :
    Abides P n m' := by
  cases hframed with
  | steady hframes _ hplain hconstructing hprogram =>
    refine ⟨fun hlen => ?_, fun own a rest hsplit => habides.saved own a rest (hframes ▸ hsplit), hhandlers⟩
    rw [hframes] at hlen
    exact hown hlen hplain hconstructing hprogram (habides.running hlen)
  | @pushes a _ hframes _ hbase hconstructing hprogram =>
    refine ⟨fun hlen => ?_, fun own c rest hsplit hrest => ?_, hhandlers⟩
    · rw [hframes, List.length_cons] at hlen
      omega
    · rw [hframes] at hsplit
      cases own with
      | nil =>
        -- the activation is the one that calls
        rw [List.nil_append, List.cons.injEq] at hsplit
        rw [← hsplit.1]
        exact hP _ _ hbase hconstructing hprogram (habides.running (hsplit.2 ▸ hrest))
      | cons d own =>
        rw [List.cons_append, List.cons.injEq] at hsplit
        exact habides.saved own c rest hsplit.2 hrest
  | @pops a _ hframes _ _ _ hregs =>
    refine ⟨fun hlen => ?_, fun own c rest hsplit => ?_, hhandlers⟩
    · rw [hregs]
      exact habides.saved [] a m'.frames hframes hlen
    · exact habides.saved (a :: own) c rest (by rw [hframes, hsplit, List.cons_append])
  | halts _ _ _ hhalted =>
    rw [hrunning] at hhalted
    cases hhalted

variable (hs : s.WellNested) (hm : Running s m) (he : Nests enter)

include hs hm he

theorem Abides.asked {i : Option Instruction} {d : Nat} {m₂ m₃ : Machine} {f : Fault} {cs : List Fault}
    {h h' : Handler} {rest : List Handler} (hdropped : Dropped i d m m₂) (hsuffix : m.frames <:+ m₂.frames)
    (ha : Asked enter f m₂ cs h rest m₃) (hh : m'.handlers = h' :: rest) (hd : m'.depth = m₃.depth)
    (hdepth : h'.depth = h.depth) (hsnapshot : h'.snapshot = h.snapshot) (hframes : m'.frames = m₃.frames)
    (hbase : m'.regs.base = m₃.regs.base) (hconstructing : m'.regs.constructing = m₃.regs.constructing)
    (hprogram : m'.regs.program = m₃.regs.program) :
    Abides P n m' := by
  have hm₂ : m₂.WellNested := hdropped.wellNested (hm.inside.wellNested hs)
  have hanchored := hm.anchored_of_dropped hdropped hsuffix
  obtain ⟨_, hback, _⟩ := hm.asked he hs hdropped hsuffix ha
  have hregs : m₃.regs = h.snapshot.regs := ha.regs he hm₂ hanchored
  obtain ⟨hh₃, hdropped'⟩ : m₃.handlers = h :: rest ∧ Dropped none 0 m₂ m₃ := ha.dropped he.isolates hm₂
  -- the handlers that are left were there before
  have hmem : ∀ x ∈ h :: rest, x ∈ m.handlers := by
    obtain ⟨left, hleft, _⟩ := hdropped.handlers
    obtain ⟨left', hleft', _⟩ := hdropped'.handlers
    intro x hx
    rw [hleft, hleft', hh₃]
    exact List.mem_append_right _ (List.mem_append_right _ hx)
  have hsame : m'.depth = m.depth := hd.trans (hdropped'.depth.trans hdropped.depth)
  have howned : h.depth = m.depth := ha.owned.trans hdropped.depth
  have hbelow := hm.anchored.below h (hmem h (.head _)) howned
  refine ⟨fun hlen => ?_, fun own a below hsplit => ?_, fun x hx hx' hxf => ?_⟩
  · refine hP _ _ hbase hconstructing hprogram ?_
    rw [hregs]
    refine habides.handlers h (hmem h (.head _)) howned ?_
    rw [hframes, hback, length_bottomOf] at hlen
    omega
  · obtain ⟨left, hleft⟩ := bottomOf_suffix h.snapshot.frames m.frames
    rw [← hback, ← hframes, hsplit, ← List.append_assoc] at hleft
    exact habides.saved _ a below hleft.symm
  · rw [hh] at hx
    rw [hsame] at hx'
    rcases List.mem_cons.mp hx with rfl | hx
    · rw [hsnapshot] at hxf ⊢
      exact habides.handlers h (hmem h (.head _)) (hdepth.symm.trans hx') hxf
    · exact habides.handlers x (hmem x (.tail _ hx)) hx' hxf

/-- **A turn leaves the activation above a number of frames as it was**, unless it is one of the activation itself or
ends the loop. -/
theorem Abides.turn (hlevel : n ≤ m.frames.length) (hhost : m.store.Propagates)
    (ht : VM.turn enter fuel m = .ok () m') (hrunning : m'.halted = false)
    (hown : m.frames.length = n → step enter fuel m = .ok () m' →
      ((∀ i ∈ next? m, i.beginsFrame = false) → m'.regs.base = m.regs.base) →
      m'.regs.constructing = m.regs.constructing → m'.regs.program = m.regs.program → P m.regs → P m'.regs) :
    Abides P n m' := by
  have hturn := frames_turn he fuel ⟨hm.inside.wellNested hs, hhost⟩
  rw [ht] at hturn
  cases hturn with
  | steps htake hstep hstepped hframed =>
    exact habides.framed hP hlevel hrunning hframed (fun hlen => hown hlen hstep)
      (habides.handlers_of_stepped hP htake hstepped)
  | unwinds hdropped hsuffix _ hunwound =>
    cases hunwound with
    | catches ha | finishes ha =>
      exact habides.asked hP hs hm he hdropped hsuffix ha rfl rfl rfl rfl rfl rfl rfl rfl

end Turn

theorem Running.returned {enter : Enter} {fuel : Nat} {s m m' : Machine} (hm : Running s m) (hs : s.WellNested)
    (he : Nests enter) (hhost : m.store.Propagates) (ht : VM.turn enter fuel m = .ok () m')
    (hlen : m'.frames.length < s.frames.length) :
    m.frames.length = s.frames.length ∧ next? m = some .ret ∧
      ∃ m₁, takeInterrupt m = .ok () m₁ ∧ ret m₁ = .ok () m' := by
  have hturn := frames_turn he fuel ⟨hm.inside.wellNested hs, hhost⟩
  have hle := hm.length_le
  rw [ht] at hturn
  cases hturn with
  | @steps m₁ _ htake hstep _ hframed =>
    cases hframed with
    | steady hframes | halts _ _ hframes =>
      rw [hframes] at hlen
      omega
    | pushes _ hframes =>
      rw [hframes, List.length_cons] at hlen
      omega
    | pops hi hframes =>
      rw [hframes, List.length_cons] at hle ⊢
      exact ⟨by omega, hi, m₁, htake, (step_eq enter fuel htake hi).symm.trans hstep⟩
  | unwinds hdropped hsuffix _ hunwound =>
    cases hunwound with
    | catches ha | finishes ha =>
      obtain ⟨habove, hback, _⟩ := hm.asked he hs hdropped hsuffix ha
      rw [hback, length_bottomOf] at hlen
      omega

end ScriptMachine.VM
