import ScriptMachine.Proofs.Restore
import ScriptMachine.Proofs.Sites

/-!
# Traces

To say what traces show, a run is charted: before each turn of each dispatch loop the place of the running activation is
noted, and where a trace is taken of a fault it is compared with the places noted.

* `step_congr`, `unwindWithin_congr`, `start_congr` — the parts of a run do not depend on how nested entries are carried
  out, as long as there is no difference where the places noted agree with the machine.
* `charted_eq` — places noted agree with the machine and tests succeed, whatever were done where they fail.

Main result: `traces_show_return_addresses`.
-/

namespace ScriptMachine

variable {f : Fault} {m m' : Machine} {S : Sites}

def Fault.trace : Fault → Trace
  | .thrown e => e.trace
  | .uncatchable u => u.trace
  | _ => []

namespace VM

theorem settle_trace {g : Fault} (h : settle f m = .ok g m') (hf : f.trace = []) : g.trace = m'.trace := by
  cases f with
  | thrown e | uncatchable e =>
    have hempty : e.trace.isEmpty = true := List.isEmpty_iff.mpr hf
    unfold settle at h
    dsimp only at h
    rw [if_pos hempty] at h
    cases h
    rfl
  | _ =>
    cases h
    rfl

theorem takeInterrupt_trace (h : takeInterrupt m = .error (.fault f) m') :
    f.trace = m'.trace ∧ m'.frames = m.frames ∧ m'.regs = m.regs := by
  unfold takeInterrupt at h
  rw [get_bind] at h
  rcases hi : m.interrupt with _ | i
  · rw [hi] at h
    cases h
  · rw [hi] at h
    cases i with
    | callback lines failure =>
      cases failure with
      | none => cases h
      | some e =>
        cases h
        exact ⟨rfl, rfl, rfl⟩
    | error | data =>
      cases h
      exact ⟨rfl, rfl, rfl⟩

/-! ### Charted runs -/

/-- The instruction at which a trace shows the activation that runs in `m` and whose turn has failed with `f`, if it still
runs in `m'`. -/
inductive Raised (f : Fault) (m m' : Machine) (pc : Nat) : Prop where
  /-- The one that has failed. -/
  | there : pc = m.regs.pc → Raised f m m' pc
  /-- The next one: there was no room for the frame of a host function that was called, or no place for its result. -/
  | past : handsOver m = true → pc = m.regs.pc + 1 →
      (f = .range .callDepth ∧ m'.limits.maxFrames ≠ 0 ∧ m'.limits.maxFrames ≤ m'.frames.length + 1) ∨
        (∃ i, f = .internal i) →
      Raised f m m' pc
  /-- The one after a try statement: its finally section has ended, and the fault that was pending is raised again. -/
  | again {h : Handler} :
      next? m = some .halt → m.handlers.head? = some h → h.pending = some f → pc = h.resume → Raised f m m' pc

section Charted

variable (alarm : VM Unit)

/-- Carry out an entry after the place of the running activation is noted. -/
def noting (enter : Sites → Enter) (S : Sites) : Enter := fun e => do enter (S.put (← get) false) e

/-- A turn from a state with places noted, in which the trace is tested that is taken of a fault.  While handlers close
iterators, the place is that to which the running activation has gone back. -/
noncomputable def chartedTurn (enter : Sites → Enter) (fuel : Nat) (S : Sites) : VM Unit := do
  let m ← get
  match ← attempt (step (enter S) fuel) with
  | .ok _ => return ()
  | .error f =>
    let g ← settle f
    check (fun m' => ∃ pc, Raised f m m' pc ∧ S.Shows m' pc) alarm
    unwindWithin (noting enter S) ((← get).handlers.length + 1) g

/-- Take turns until the loop is halted, and note before each where the running activation is. -/
noncomputable def chartedLoop (turn : Sites → VM Unit) : Nat → Sites → VM Unit
  | 0, _ => outOfFuel
  | n + 1, S => do
    let m ← get
    if m.halted then return ()
    else
      turn (S.put m (handsOver m))
      chartedLoop turn n (S.put m (handsOver m))

/-- Run a nested dispatch loop whose turns are noted, as far as the discipline is kept. -/
noncomputable def chartedDispatch (enter : Sites → Enter) (fuel : Nat) (S : Sites) (e : Entry) : VM Unit := fun s =>
  if s.limits.maxLoops < s.depth + 1 then dispatch (pure ()) fuel s
  else
    let turn (S : Sites) : VM Unit := do
      check (discipline.turn e s) outOfFuel
      chartedTurn alarm enter fuel S
    leavingLoop s (chartedLoop turn fuel S (nested s))

/-- Carry out an entry with places noted, as far as the discipline is kept. -/
noncomputable def charted : Nat → Sites → Enter
  | 0, _, _ => outOfFuel
  | fuel + 1, S, e => do
    check (discipline.entry e) outOfFuel
    check (S.Hold false) alarm
    start (charted fuel S) fuel (chartedDispatch alarm (charted fuel) fuel S e) e

end Charted

/-! ### Computations from places noted -/

theorem Law.Matches.eq {L : Law} [L.Exact] {r r' : EStateM.Result Abort Machine α} (h : L.Matches r r') : r = r' := by
  rcases h with h | ⟨_, hstops, _⟩
  · exact h
  · exact absurd hstops (Law.Exact.exact _)

section Entries

variable {S : Sites} {e₁ e₂ : Enter} (h : ∀ e m, m.WellNested → S.Hold false m → e₁ e m = e₂ e m) (he : Nests e₂)
  (fuel : Nat) {m : Machine} (hm : m.WellNested)

include h he hm

/-- Host code that goes on after a failure leaves frames behind at most. -/
theorem runHost_congr (b : Behaviour) (hS : S.Hold false m) : runHost e₁ fuel b m = runHost e₂ fuel b m := by
  have hentries : ∀ e, Obeys (stranding.since m) (e₁ e) (e₂ e) := fun e =>
    (he.evaluate e).stranding.since fun m₁ hm₁ hstranded => h e m₁ hm₁ (hS.stranded hstranded)
  exact ((obeys_runHost (fun e => (hentries e).when _) fuel b).exact ⟨hm, stranding.refl m⟩).1

theorem behindNative_congr (name : Text) (b : Behaviour) (hsaved : S.Saved (m.regs :: m.frames))
    (habove : ∀ k, m.frames.length < k → S k = none) :
    behindNative name (runHost e₁ fuel b) m = behindNative name (runHost e₂ fuel b) m := by
  unfold behindNative
  rcases pushFrame_spec m with hpush | ⟨hpush, _⟩
  · rw [bind_ok hpush, bind_ok hpush]
    obtain ⟨m₁, henter, hframes, hm₁⟩ : ∃ m₁, enterNative name { m with frames := m.regs :: m.frames } = .ok () m₁ ∧
        m₁.frames = m.regs :: m.frames ∧ m₁.WellNested := ⟨_, rfl, rfl, hm.congr rfl rfl⟩
    rw [bind_ok henter, bind_ok henter]
    have hS : S.Hold false m₁ := by
      refine Sites.hold_above (hframes ▸ hsaved) fun k hk => habove k ?_
      rwa [hframes] at hk
    exact bind_congr_at (runHost_congr h he fuel hm₁ b hS)
  · rw [bind_error hpush, bind_error hpush]

theorem nativeInLoop_congr (name : Text) (b : Behaviour) (hS : S.Hold true m) :
    nativeInLoop name (runHost e₁ fuel b) m = nativeInLoop name (runHost e₂ fuel b) m := by
  have hsaved : S.Saved (m.advanced.regs :: m.advanced.frames) := hS.push rfl rfl
  exact behindNative_congr h he fuel (m := m.advanced) (hm.congr rfl rfl) name b hsaved hS.above

theorem callWithin_congr (k n : Nat) (hS : S.Hold true m) : callWithin e₁ fuel k n m = callWithin e₂ fuel k n m := by
  induction k generalizing n m with
  | zero => rfl
  | succ k ih =>
    have hstart : (staying.since m).pre m := ⟨hm, staying.refl m⟩
    refine Obeys.bind_congr obeys_checkDepth (fun _ m₁ hm₁ => ?_) hstart
    refine Obeys.bind_congr (obeys_callBase n) (fun first m₁ hm₁ => ?_) hm₁
    refine Obeys.bind_congr (obeys_slot _) (fun v m₁ hm₁ => ?_) hm₁
    refine Obeys.bind_congr (obeys_calleeOf v) (fun found m₁ hm₁ => ?_) hm₁
    obtain ⟨o, callee⟩ := found
    have hnative : ∀ name b m₁, (staying.since m).pre m₁ →
        (nativeInLoop name (runHost e₁ fuel b) >>= finishCall first) m₁ =
          (nativeInLoop name (runHost e₂ fuel b) >>= finishCall first) m₁ := fun name b m₁ hm₁ =>
      bind_congr_at (nativeInLoop_congr h he fuel hm₁.1 name b (hS.placed hm₁.2))
    cases callee with
    | script f => rfl
    | native | proxy =>
      refine Obeys.bind_congr (obeys_slot _) (fun this m₁ hm₁ => ?_) hm₁
      refine Obeys.bind_congr obeys_top (fun top m₁ hm₁ => ?_) hm₁
      exact Obeys.bind_congr (obeys_slots _ _) (fun args m₁ hm₁ => hnative _ _ m₁ hm₁) hm₁
    | bound f =>
      refine Obeys.bind_congr (obeys_setSlot _ _) (fun _ m₁ hm₁ => ?_) hm₁
      refine Obeys.bind_congr (obeys_setSlot _ _) (fun _ m₁ hm₁ => ?_) hm₁
      refine Obeys.bind_congr (obeys_writeStack _) (fun _ m₁ hm₁ => ?_) hm₁
      exact ih hm₁.1 _ (hS.placed hm₁.2)

theorem call_congr (n : Nat) (hS : S.Hold true m) : call e₁ fuel n m = call e₂ fuel n m :=
  callWithin_congr h he fuel hm _ n hS

omit he in
theorem construct_congr (n : Nat) (hS : S.Hold (constructsScript m n) m) : construct e₁ n m = construct e₂ n m := by
  unfold construct
  refine Obeys.bind_congr (L := (preparing fun m₁ => m₁ = m)) obeys_checkDepth (fun _ m₁ hm₁ => ?_) rfl
  rw [hm₁, top_bind, top_bind]
  split
  case isTrue => rfl
  case isFalse hoperands =>
    rcases slot_spec (m.stack.top - (n + 1)) m with ⟨callee, hget, hslot⟩ | ⟨f, hslot⟩
    · have hpassed := constructsScript_of_get hoperands hget
      rw [bind_ok hslot, bind_ok hslot, bind_ok (scriptConstructor_eq callee m), bind_ok (scriptConstructor_eq callee m)]
      cases hfound : m.store.constructor? callee with
      | some f => rfl
      | none =>
        rw [hpassed, hfound] at hS
        have hseen : (staying.since m).pre { m with store := m.store.seen callee } :=
          ⟨hm.congr rfl rfl, ⟨rfl, rfl, rfl, id⟩, rfl, rfl⟩
        refine Obeys.bind_congr (obeys_popMany _) (fun args m₁ hm₁ => ?_) hseen
        exact bind_congr_at (h _ m₁ hm₁.1 (hS.placed hm₁.2))
    · rw [bind_error hslot, bind_error hslot]

theorem callEval_congr (n : Nat) (strict : Bool) (hS : S.Hold (!callsEval m n) m) :
    callEval e₁ fuel n strict m = callEval e₂ fuel n strict m := by
  unfold callEval
  rcases callBase_spec n m with ⟨hoperands, hbase⟩ | ⟨f, hbase⟩
  · rw [bind_ok hbase, bind_ok hbase]
    rcases slot_spec (m.stack.top - (n + 2) + 1) m with ⟨callee, hget, hslot⟩ | ⟨f, hslot⟩
    · rw [bind_ok hslot, bind_ok hslot]
      cases callee with
      | object o =>
        have hpassed := callsEval_of_get hoperands hget
        dsimp only
        rw [realm_bind, realm_bind]
        by_cases heval : o = m.realm.eval
        · rw [if_pos heval, if_pos heval]
          rw [hpassed, decide_eq_true heval] at hS
          by_cases hn : n = 0
          · rw [if_pos hn, if_pos hn]
          · rw [if_neg hn, if_neg hn]
            have hstart : (staying.since m).pre m := ⟨hm, staying.refl m⟩
            refine Obeys.bind_congr (obeys_slot _) (fun source m₁ hm₁ => ?_) hstart
            cases source with
            | text source =>
              refine Obeys.bind_congr obeys_receiver (fun this m₁ hm₁ => ?_) hm₁
              exact bind_congr_at (h _ m₁ hm₁.1 (hS.placed hm₁.2))
            | _ => rfl
        · rw [if_neg heval, if_neg heval]
          rw [hpassed, decide_eq_false heval] at hS
          exact call_congr h he fuel hm n hS
      | unresolved name member => cases member <;> rfl
      | _ => rfl
    · rw [bind_error hslot, bind_error hslot]
  · rw [bind_error hbase, bind_error hbase]

theorem execute_congr {i : Instruction} (hi : next? m = some i) (hS : S.Hold (handsOver m) m) :
    execute e₁ fuel i m = execute e₂ fuel i m := by
  have hcount : ∀ fixed (k₁ k₂ : Nat → VM Unit), (∀ n, variadicCount fixed m = .ok n m → k₁ n m = k₂ n m) →
      (variadicCount fixed >>= k₁) m = (variadicCount fixed >>= k₂) m := by
    intro fixed k₁ k₂ hk
    rcases variadicCount_spec fixed m with ⟨n, hn⟩ | ⟨f, hf⟩
    · rw [bind_ok hn, bind_ok hn]
      exact hk n hn
    · rw [bind_error hf, bind_error hf]
  unfold handsOver at hS
  rw [hi] at hS
  cases htransfer : i.isTransfer with
  | false =>
    have hstays : S.Hold false m := by
      cases i with
      | call | callVariadic | callEval | callEvalVariadic | construct | constructVariadic => cases htransfer
      | _ => exact hS
    have hentries : ∀ e, e.evaluates = false → Obeys (staying.strict.since m) (e₁ e) (e₂ e) := fun e he' =>
      (he.strict e he').placed.since fun m₁ hm₁ hplaced => h e m₁ hm₁ (hstays.placed hplaced)
    have hlands : Lands (staying.strict.since m) (fun _ _ => True) (execute e₁ fuel i) (execute e₂ fuel i) :=
      lands_execute (fun e he' => (hentries e he').when _) fuel htransfer
    exact (hlands m ⟨hm, staying.refl m⟩).1.eq
  | true =>
    cases i with
    | halt | guard | ret => rfl
    | call n => exact call_congr h he fuel hm n hS
    | callVariadic => exact hcount 2 _ _ fun n _ => call_congr h he fuel hm n hS
    | callEval n strict => exact callEval_congr h he fuel hm n strict hS
    | callEvalVariadic strict =>
      refine hcount 2 _ _ fun n hn => callEval_congr h he fuel hm n strict ?_
      rwa [counted_of_ok hn] at hS
    | construct n => exact construct_congr h hm n hS
    | constructVariadic =>
      refine hcount 1 _ _ fun n hn => construct_congr h hm n ?_
      rwa [counted_of_ok hn] at hS
    | _ => cases htransfer

theorem step_congr (hS : S.Hold (handsOver m) m) : step e₁ fuel m = step e₂ fuel m := by
  unfold step
  have htake : balanced.strict.Allows m (takeInterrupt m) := obeys_takeInterrupt.allows hm
  refine bind_congr_ok fun _ m₁ ht => ?_
  rw [ht] at htake
  have hS₁ : S.Hold (handsOver m₁) m₁ := handsOver_taken ht ▸ hS.placed htake.placed
  rcases fetch_eq m₁ with ⟨i, hi, hfetch⟩ | ⟨f, _, hfetch⟩
  · rw [bind_ok hfetch, bind_ok hfetch]
    exact execute_congr h he fuel (balanced.keeps hm htake) hi hS₁
  · rw [bind_error hfetch, bind_error hfetch]

end Entries

/-! ### Charted turns -/

theorem Stopped.shows {m₁ : Machine} (h : Stopped f m m₁) (hS : S.Hold (handsOver m) m) (σ : Store) :
    S.Saved m₁.frames ∧ ∃ pc, Raised f m { m₁ with store := σ } pc ∧ S.Shows { m₁ with store := σ } pc := by
  have hrunning : m₁.frames = m.frames → m₁.regs.program = m.regs.program → Raised f m { m₁ with store := σ } m₁.regs.pc →
      S.Saved m₁.frames ∧ ∃ pc, Raised f m { m₁ with store := σ } pc ∧ S.Shows { m₁ with store := σ } pc :=
    fun hframes hprogram hraised => ⟨hframes ▸ hS.saved, _, hraised, hS.shows hframes hprogram σ⟩
  cases h with
  | stops h =>
    cases h with
    | running hframes hprogram hpc => exact hrunning hframes hprogram (.there hpc)
    | past hpassed hframes hprogram hpc hwhy => exact hrunning hframes hprogram (.past hpassed hpc hwhy)
    | saved hprogram hpc hsaved =>
      exact ⟨hS.saving hprogram hpc hsaved, _, .there rfl, hS.shows_saved hprogram hpc hsaved σ _⟩
  | again hi hh hpending hframes hprogram hpc => exact hrunning hframes hprogram (.again hi hh hpending hpc)

section Unwinding

variable {S : Sites} {e₁ e₂ : Enter} (h : ∀ e m, m.WellNested → S.Saved m.frames → e₁ e m = e₂ e m) (he : Nests e₂)
  {m : Machine} (hm : m.WellNested) (hS : S.Saved m.frames)

include h he hm hS

theorem rollBack_congr (s : Snapshot) (f : Fault) :
    rollBack e₁ s f m = rollBack e₂ s f m ∧ balanced.Allows (m.restore s) (rollBack e₂ s f m) := by
  have hclose : ∀ i, Obeys (balanced.since (m.restore s)).strict (e₁ (.close i)) (e₂ (.close i)) := fun i =>
    (he.strict (.close i) rfl).since fun m₁ hm₁ hback => by
      have hframes : m₁.frames = bottomOf s.frames m.frames := hback.frames
      exact h _ m₁ hm₁ (hframes ▸ hS.suffix (bottomOf_suffix _ _))
  have hrestored : (balanced.since (m.restore s)).pre (m.restore s) := ⟨hm.congr rfl rfl, .refl _⟩
  obtain ⟨heq, hallows⟩ := (obeys_dropOpened hclose s f).exact hrestored
  rw [heq] at hallows
  exact ⟨heq, hallows⟩

theorem unwindWithin_congr (n : Nat) (f : Fault) : unwindWithin e₁ n f m = unwindWithin e₂ n f m := by
  induction n generalizing f m with
  | zero => rfl
  | succ n ih =>
    unfold unwindWithin
    rw [get_bind, get_bind]
    cases hh : m.handlers with
    | nil => rfl
    | cons x rest =>
      dsimp only
      by_cases hd : x.depth = m.depth
      · rw [if_pos hd, if_pos hd]
        obtain ⟨heq, hallows⟩ := rollBack_congr h he hm hS x.snapshot f
        rcases hback : rollBack e₂ x.snapshot f m with ⟨g, m₁⟩ | ⟨er, m₁⟩
        · rw [hback] at hallows
          rw [bind_ok hback, bind_ok (heq.trans hback), get_bind, get_bind]
          have hframes : m₁.frames = bottomOf x.snapshot.frames m.frames := hallows.frames
          have hrestored : (m.restore x.snapshot).WellNested := hm.congr rfl rfl
          have hm₁ : m₁.WellNested := balanced.keeps hrestored hallows
          cases hh₁ : m₁.handlers with
          | nil => rfl
          | cons y rest =>
            dsimp only
            unfold react
            split
            case h_3 =>
              -- the statement is left
              have hrest : { m₁ with handlers := rest }.WellNested := hm₁.tail hh₁ rfl
              exact ih hrest (hframes ▸ hS.suffix (bottomOf_suffix _ _)) g
            all_goals rfl
        · rw [bind_error hback, bind_error (heq.trans hback)]
      · rw [if_neg hd, if_neg hd]

end Unwinding

section Turns

variable {enter : Sites → Enter} {e₂ : Enter}
  (h : ∀ S e m, m.WellNested → Sites.Hold S false m → enter S e m = e₂ e m) (he : Nests e₂)

include h he

variable (alarm : VM Unit) (fuel : Nat)

theorem chartedTurn_eq (hm : m.WellNested) (hhost : m.store.Propagates) (hS : S.Hold (handsOver m) m) :
    chartedTurn alarm enter fuel S m = turn e₂ fuel m := by
  have hstep : step (enter S) fuel m = step e₂ fuel m := step_congr (h S) he fuel hm hS
  have hframes := frames_step he fuel ⟨hm, hhost⟩
  unfold chartedTurn turn
  rw [get_bind]
  rcases hx : step e₂ fuel m with ⟨⟨⟩, m₁⟩ | ⟨f | _, m₁⟩
  · rw [bind_ok (attempt_ok hx), bind_ok (attempt_ok (hstep.trans hx))]
  · rw [hx] at hframes
    rw [bind_ok (attempt_fault hx), bind_ok (attempt_fault (hstep.trans hx))]
    obtain ⟨g, σ, _, hsettle⟩ := settle_eq_ok f m₁
    obtain ⟨hsaved, hshows⟩ := hframes.2.2.shows hS σ
    have hm₁ : { m₁ with store := σ }.WellNested :=
      (((steps_step he.isolates fuel hm).2.2 f m₁ hx).wellNested hm).congr rfl rfl
    dsimp only
    unfold unwind
    rw [bind_ok hsettle, bind_ok hsettle, bind_ok (check_of_true hshows)]
    have hnoting : ∀ e m, m.WellNested → S.Saved m.frames → noting enter S e m = e₂ e m := fun e m hm hS =>
      h _ e m hm (Sites.hold_put hS false)
    exact unwindWithin_congr hnoting he hm₁ hsaved _ g
  · rw [bind_error (attempt_outOfFuel hx), bind_error (attempt_outOfFuel (hstep.trans hx))]

section Dispatch

variable {e : Entry} {s : Machine} (hs : s.WellNested) (hbound : Bounded e s)

include hs hbound

theorem chartedLoop_eq (n : Nat) (hm : Running s m ∨ Ended e s m) (hS : S.Saved m.frames) :
    chartedLoop (fun S => do check (discipline.turn e s) outOfFuel; chartedTurn alarm enter fuel S) n S m =
      loop (disciplinedTurn e₂ fuel e s) n m := by
  induction n generalizing S m with
  | zero => rfl
  | succ n ih =>
    unfold chartedLoop
    rw [get_bind]
    rcases hm with hm | hm
    · rw [if_neg (by simp [hm.halted]), loop_of_running _ n hm.halted]
      unfold disciplinedTurn
      by_cases hkeeps : Keeps e s m
      · have hcheck : check (discipline.turn e s) outOfFuel m = .ok () m := check_of_true hkeeps
        have hturn := chartedTurn_eq h he alarm fuel (hm.inside.wellNested hs) hkeeps.host
          (Sites.hold_put hS (handsOver m))
        have hstays := stays_turn he hs fuel hm hbound hkeeps
        rcases ht : turn e₂ fuel m with ⟨⟨⟩, m₁⟩ | ⟨er, m₁⟩
        · rw [ht] at hstays
          rw [bind_ok ((bind_ok hcheck).trans (hturn.trans ht)), bind_ok ((bind_ok hcheck).trans ht)]
          refine ih hstays ?_
          rcases hm.turned he hs fuel hkeeps.host ht with hsuffix | ⟨a, hframes, hprogram, hpc, hpassed⟩
          · exact (Sites.saved_put hS _).suffix hsuffix
          · rw [hframes]
            exact (Sites.hold_put hS (handsOver m)).push hprogram (by rw [hpc, hpassed]; rfl)
        · rw [bind_error ((bind_ok hcheck).trans (hturn.trans ht)), bind_error ((bind_ok hcheck).trans ht)]
      · have hcheck : check (discipline.turn e s) outOfFuel m = .error .outOfFuel m := check_of_false hkeeps
        rw [bind_error (bind_error hcheck), bind_error (bind_error hcheck)]
    · rw [if_pos hm.halted, loop_of_halted _ n hm.halted]
      rfl

theorem chartedDispatch_eq (hS : S.Saved s.frames) :
    chartedDispatch alarm enter fuel S e s = watchedDispatch discipline outOfFuel e₂ fuel e s := by
  have hwatched : watchedDispatch discipline outOfFuel e₂ fuel e s = dispatch (disciplinedTurn e₂ fuel e s) fuel s := rfl
  rw [hwatched]
  unfold chartedDispatch
  by_cases hdeep : s.limits.maxLoops < s.depth + 1
  · rw [if_pos hdeep, dispatch_of_deep _ _ hdeep, dispatch_of_deep _ _ hdeep]
  · rw [if_neg hdeep, dispatch_of_not_deep _ _ hdeep]
    exact congrArg (leavingLoop s) (chartedLoop_eq h he alarm fuel hs hbound fuel (.inl (running_nested hs)) hS)

end Dispatch

end Turns

/-! ### Charted entries -/

section Starting

variable {S : Sites} {e : Entry} {run₁ run₂ : VM Unit} (h : ∀ s, Begins e s → S.Saved s.frames → run₁ s = run₂ s)
  {m : Machine} (hm : m.WellNested) (hS : S.Hold false m)

include h hm hS

theorem runScript_congr (hrun : e.runsProgram = false) (callee : ObjectId) (f : Closure) (this : Value)
    (args : List Value) (newTarget : Value) :
    runScript run₁ callee f this args newTarget m = runScript run₂ callee f this args newTarget m := by
  unfold runScript
  refine bind_congr_ok fun _ s henter => ?_
  obtain ⟨_, _, a, _, hframes⟩ := enterFromOutside_spec henter
  have hsaved : S.Saved s.frames := hframes ▸ hS.saving rfl rfl (List.suffix_cons a _)
  exact bind_congr_at (h s (.function hrun hm henter) hsaved)

theorem program_congr (hrun : e.runsProgram = true) {x : VM α} (hx : Heeds steady x) (p : ProgramId) (this : α → Value)
    (top : Nat) : (do pushFrame; let a ← x; startProgram p (this a); run₁; endProgram top : VM Value) m =
      (do pushFrame; let a ← x; startProgram p (this a); run₂; endProgram top : VM Value) m := by
  rcases pushFrame_spec m with hpush | ⟨hpush, _⟩
  · rw [bind_ok hpush, bind_ok hpush]
    generalize hm₁ : { m with frames := m.regs :: m.frames } = m₁
    have hsaved : S.Saved m₁.frames := hm₁ ▸ hS.push rfl rfl
    have hstart : (steady.since m₁).pre m₁ := ⟨hm₁ ▸ hm.congr rfl rfl, steady.refl m₁⟩
    have hsince : ∀ {β : Type} {y : VM β}, Heeds steady y → Heeds (steady.since m₁) y := fun hy =>
      hy.since fun _ _ _ => rfl
    refine (hsince hx).bind_congr (fun a m₂ hm₂ => ?_) hstart
    refine (hsince (steady_startProgram p (this a))).bind_congr (fun _ m₂ hm₂ => ?_) hm₂
    exact bind_congr_at (h m₂ (.program hrun hm₂.1) (hm₂.2.frames ▸ hsaved))
  · rw [bind_error hpush, bind_error hpush]

theorem runGlobally_congr (hrun : e.runsProgram = true) (p : ProgramId) : runGlobally run₁ p m = runGlobally run₂ p m := by
  rw [runGlobally_eq]
  exact program_congr h hm hS hrun steady_enterGlobally p (fun realm => .object realm.global) m.stack.top

theorem evaluate_congr (hrun : e.runsProgram = true) (source : Text) (direct strict : Bool) (this : Value) :
    evaluate run₁ source direct strict this m = evaluate run₂ source direct strict this m := by
  have hstart : (balanced.since m).pre m := ⟨hm, .refl m⟩
  cases direct with
  | true =>
    refine Obeys.bind_congr obeys_inFunction (fun _ m₁ hm₁ => ?_) hstart
    refine Obeys.bind_congr (obeys_compile _ _) (fun p m₁ hm₁ => ?_) hm₁
    refine Obeys.bind_congr obeys_top (fun top m₁ hm₁ => ?_) hm₁
    exact program_congr h hm₁.1 (hS.placed hm₁.2.placed) hrun (obeys_pure PUnit.unit) p (fun _ => this) top
  | false =>
    refine Obeys.bind_congr (obeys_pure _) (fun _ m₁ hm₁ => ?_) hstart
    refine Obeys.bind_congr (obeys_compile _ _) (fun p m₁ hm₁ => ?_) hm₁
    refine Obeys.bind_congr obeys_top (fun top m₁ hm₁ => ?_) hm₁
    exact program_congr h hm₁.1 (hS.placed hm₁.2.placed) hrun steady_toGlobalScope p (fun _ => this) top

theorem start_congr {e₁ : Enter} {fuel : Nat}
    (hentries : ∀ e m, m.WellNested → S.Hold false m → e₁ e m = disciplined fuel e m) (hhost : m.store.Propagates)
    (hrun₂ : run₂ = watchedDispatch discipline outOfFuel (disciplined fuel) fuel e) :
    start e₁ fuel run₁ e m = start (disciplined fuel) fuel run₂ e m := by
  subst hrun₂
  have he := nests_disciplined fuel
  cases hevaluates : e.evaluates with
  | true =>
    cases e with
    | evaluate source direct strict this => exact evaluate_congr h hm hS rfl source direct strict this
    | _ => cases hevaluates
  | false =>
    have hnested : ∀ e, e.evaluates = false → Obeys (balanced.since m).strict (e₁ e) (disciplined fuel e) := fun e he' =>
      (he.strict e he').since fun m₁ hm₁ hback => hentries e m₁ hm₁ (hS.placed hback.placed)
    have hnative : ∀ name {b : Behaviour}, b.Propagates → Obeys (balanced.since m)
        (behindNative name (runHost e₁ fuel b)) (behindNative name (runHost (disciplined fuel) fuel b)) := fun name b hb =>
      (balanced_behindNative name (balanced_runHost he fuel hb)).since fun m₁ hm₁ hback => by
        have hS₁ := hS.placed hback.placed
        exact behindNative_congr hentries he fuel hm₁ name b (hS₁.push rfl rfl) hS₁.above
    have hstart := strict_start fuel hnested hnative hevaluates
      (fun hrun callee f this args newTarget => (balanced_runScript he fuel hrun callee f this args newTarget).since
        fun m₁ hm₁ hback => runScript_congr h hm₁ (hS.placed hback.placed) hrun callee f this args newTarget)
      (fun hrun p => (balanced_runGlobally (steady_program he fuel hrun) p).since
        fun m₁ hm₁ hback => runGlobally_congr h hm₁ (hS.placed hback.placed) hrun p)
    exact (hstart m ⟨hm, .refl m⟩ hhost).1.eq

end Starting

/-- **Places noted agree with the machine, and traces show them**, in every run that keeps the discipline. -/
theorem charted_eq (alarm : VM Unit) (fuel : Nat) (S : Sites) (e : Entry) (hm : m.WellNested) (hS : S.Hold false m) :
    charted alarm fuel S e m = disciplined fuel e m := by
  induction fuel generalizing S e m with
  | zero => rfl
  | succ fuel ih =>
    have hdisciplined : disciplined (fuel + 1) e = (do
      check (discipline.entry e) outOfFuel
      start (disciplined fuel) fuel (watchedDispatch discipline outOfFuel (disciplined fuel) fuel e) e) := rfl
    unfold charted
    rw [hdisciplined]
    by_cases hhost : discipline.entry e m
    · rw [bind_ok (check_of_true hhost), bind_ok (check_of_true hS), bind_ok (check_of_true hhost)]
      have hrun : ∀ s, Begins e s → S.Saved s.frames → chartedDispatch alarm (charted alarm fuel) fuel S e s =
          watchedDispatch discipline outOfFuel (disciplined fuel) fuel e s := fun s hbegins hsaved =>
        chartedDispatch_eq (fun S e m => ih S e) (nests_disciplined fuel) alarm fuel hbegins.wellNested hbegins.bounded hsaved
      exact start_congr hrun hm hS (fun e m => ih S e) hhost rfl
    · have hstop : check (discipline.entry e) outOfFuel m = .error .outOfFuel m := check_of_false hhost
      rw [bind_error hstop, bind_error hstop]

theorem shows_of_stranded (hS : S.Hold false m) (h : Stranded m m') (σ : Store) :
    S.Shows { m' with store := σ } m.regs.pc := by
  rcases h.saved with ⟨hframes, hregs⟩ | hsaved
  · rw [← hregs]
    exact hS.shows hframes (by rw [hregs]) σ
  · exact hS.shows_saved rfl rfl hsaved σ _

/-- **Traces show return addresses**, in every run that keeps the discipline.  The machine is in a state with places
noted, which may be none.

* The run of an entry can be charted, to the end and into every nested entry, without any difference: before each turn of
  each dispatch loop the place of the running activation is noted, and a trace that is taken when the turn fails shows
  all places noted.  Saved activations are shown at their instruction if that hands over to its callee, else at the one
  before.  The activation whose turn has failed is shown at its instruction, but for host calls that are refused for lack
  of room and for faults raised again.
* The run is that of the machine as it is.  A trace that is taken when the entry has failed, or something that is guarded,
  shows all places noted, and the running activation where it is.
* A trace has the lines of all activations but boundaries, innermost first, up to the limit. -/
theorem traces_show_return_addresses (fuel : Nat) {S : Sites} {m : Machine} (hm : m.WellNested) (hS : S.Hold false m) :
    (∀ e alarm, charted alarm fuel S e m = disciplined fuel e m) ∧
    (∀ e, ended? (disciplined fuel e m) = true → enter fuel e m = disciplined fuel e m) ∧
    (∀ e f m', disciplined fuel e m = .error (.fault f) m' → S.Shows m' m.regs.pc) ∧
    (∀ {α : Type} {x y : VM α}, Body fuel x y → ∀ f m₁, x m = .error (.fault f) m₁ →
      y m = .error (.fault f) m₁ ∧ ∀ g m', settle f m₁ = .ok g m' → S.Shows m' m.regs.pc) ∧
    (∀ f g m₁ m', settle f m₁ = .ok g m' → f.trace = [] →
      g.trace = (m'.lines.filterMap id).take m'.limits.traceLength) ∧
    (∀ f m₁ m', takeInterrupt m₁ = .error (.fault f) m' →
      f.trace = (m'.lines.filterMap id).take m'.limits.traceLength ∧ m'.frames = m₁.frames ∧ m'.regs = m₁.regs) ∧
    ∀ (a : Activation) σ pc, a.traceFrame? σ pc = none ↔ a.isBoundary = true := by
  refine ⟨fun e alarm => charted_eq alarm fuel S e hm hS, fun e hended => ?_, fun e f m' hfails => ?_, ?_,
    fun f g m₁ m' hsettle hf => settle_trace hsettle hf, fun f m₁ m' htake => takeInterrupt_trace htake,
    fun a σ pc => Activation.traceFrame_eq_none⟩
  · exact (follows_watched discipline fuel e).eq_of_ended hended
  · have hallows := ((nests_disciplined fuel).evaluate e).allows hm
    rw [hfails] at hallows
    exact shows_of_stranded hS hallows m'.store
  · intro α x y hbody f m₁ hfails
    have hallows := hbody.balanced.allows hm
    rw [hfails] at hallows
    refine ⟨hbody.follows.fault_of_following hfails, fun g m' hsettle => ?_⟩
    obtain ⟨_, σ, _, hσ⟩ := settle_eq_ok f m₁
    cases hsettle.symm.trans hσ
    exact shows_of_stranded hS hallows σ

/-- A host function that throws. -/
def failing : NativeFunction :=
  { name := Text.ofString "fail", length := 0, construct := none, call := fun _ => .done (.error (.throwing .undefined)) }

/-- A machine about to construct with that function.  The place where the function is loaded is on line 2, and that of the
construction is on line 1. -/
def constructing : Machine :=
  let p : Program :=
    { code := #[.loadConstant 0, .construct 0, .halt], constants := #[.object ⟨0⟩], name := Text.ofString "main"
      source := some ⟨"f.js", "new\nf\n"⟩, marks := [⟨0, 4⟩, ⟨1, 0⟩] }
  let m := Machine.new .default
  { m with
    store := { m.store with programs := #[p], objects := #[⟨.new none, .native failing⟩] }
    regs := { m.regs with program := some ⟨0⟩, pc := 1 }
    stack := m.stack.push (.object ⟨0⟩) }

theorem propagates_constructing : constructing.store.Propagates := by
  refine Store.propagates_of fun x hx callee hcallee => ?_
  obtain rfl : x = ⟨.new none, .native failing⟩ := by simpa [constructing] using hx
  cases hcallee
  exact ⟨fun c => .done _, nofun⟩

/-- The state in which the function has thrown. -/
def constructingFailed : Machine := { constructing with
  frames := [constructing.regs], regs := { constructing.regs with program := none, native := some failing.name } }

/-- What constructs is shown at the instruction before. -/
theorem traces_show_return_addresses_constructing :
    constructing.WellNested ∧ (Sites.put (fun _ => none) constructing false).Hold false constructing ∧
      (∀ alarm, charted alarm 9 (Sites.put (fun _ => none) constructing false) (.construct (.object ⟨0⟩) [] none)
        constructing = enter 9 (.construct (.object ⟨0⟩) [] none) constructing) ∧
      behindNative failing.name (runHost (enter 9) 9 (.done (.error (.throwing .undefined)))) constructing =
        .error (.fault (.throwing .undefined)) constructingFailed ∧
      constructingFailed.lines.reverse[0]? = some (some (constructing.store.lineAt ⟨0⟩ 0)) ∧
      (constructing.store.lineAt ⟨0⟩ 0).line = 2 ∧ (constructing.store.lineAt ⟨0⟩ 1).line = 1 := by
  have hm : constructing.WellNested := (wellNested_new .default).congr rfl rfl
  have hnone : Sites.Saved (fun _ => none) constructing.frames := trivial
  have hS := Sites.hold_put hnone false
  obtain ⟨hcharted, henter, _, hbody, _⟩ := traces_show_return_addresses 9 hm hS
  obtain ⟨hfails, hshows⟩ := hbody (.native failing.name (.done (.error (.throwing .undefined)))) _ constructingFailed rfl
  refine ⟨hm, hS, fun alarm => ?_, hfails, ?_, by decide +kernel, by decide +kernel⟩
  · have hstart : disciplined 9 (.construct (.object ⟨0⟩) [] none) constructing =
        start (disciplined 8) 8 (watchedDispatch discipline outOfFuel (disciplined 8) 8 (.construct (.object ⟨0⟩) [] none))
          (.construct (.object ⟨0⟩) [] none) constructing := bind_ok (check_of_true propagates_constructing)
    rw [hcharted, henter]
    rw [hstart]
    rfl
  · exact hshows _ constructingFailed rfl 0 ⟨⟨0⟩, 1, false⟩ rfl

end VM

end ScriptMachine
