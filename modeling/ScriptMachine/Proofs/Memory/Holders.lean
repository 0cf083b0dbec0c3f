import ScriptMachine.Proofs.Memory.Walk
import ScriptMachine.Proofs.NamePlaces

/-!
# What the running machine holds on to

Ten parts of the machine hold on to objects, scope records and programs.  The estimate starts from seven of them.  It
overlooks what only a loop over keys, a pending fault, or the registers that a try statement goes back to hold on to;
such an object can grow without the estimate.

* `leads_roots` — the estimate starts from what the parts that are not overlooked hold.
* `memory_setObject` — an object that the estimate does not count has no influence on it.

Main result: `counted_unless_overlooked`.
-/

namespace ScriptMachine.Memory

/-! ### Holders -/

/-- What an activation, running or saved, holds on to. -/
inductive KeptBy (a : Activation) : Node → Prop where
  | scope : KeptBy a (.scope a.scope)
  | program {p} (h : a.program = some p) : KeptBy a (.program p)
  | result {o} (h : a.result = .object o) : KeptBy a (.object o)
  | newTarget {o} (h : a.newTarget = .object o) : KeptBy a (.object o)

/-- The parts of the machine that hold on to something. -/
inductive Holder where
  | operands
  /-- The registers of the running activation. -/
  | registers
  | frames
  /-- The values of open loops, and the iterators they go through. -/
  | loops
  | references
  | globalObject
  | globalScope
  /-- The cursors of open loops over keys. -/
  | cursors
  /-- The faults that finally sections will raise again. -/
  | pendingFaults
  /-- The registers that try statements go back to. -/
  | snapshots
  deriving DecidableEq

/-- Whether the estimate passes a holder by. -/
def Holder.overlooked : Holder → Bool
  | .cursors | .pendingFaults | .snapshots => true
  | _ => false

/-- What the parts of the machine hold on to. -/
inductive Held (m : Machine) : Holder → Node → Prop where
  | operand {o} (h : .object o ∈ m.stack.toList) : Held m .operands (.object o)
  | register {n} (h : KeptBy m.regs n) : Held m .registers n
  | frame {a n} (ha : a ∈ m.frames) (h : KeptBy a n) : Held m .frames n
  | loopValue {l o} (hl : l ∈ m.loops) (h : l.value = .object o) : Held m .loops (.object o)
  | iterator {l i o} (hl : l ∈ m.loops) (hi : l.source = .items i) (h : (m.iterator i).iterator = .object o) :
      Held m .loops (.object o)
  | nextMethod {l i o} (hl : l ∈ m.loops) (hi : l.source = .items i) (h : (m.iterator i).next = .object o) :
      Held m .loops (.object o)
  | scopeReference {name s index kind} (h : .scope name s index kind ∈ m.refs) : Held m .references (.scope s)
  | propertyReference {o key strict binding} (h : .property o key strict binding ∈ m.refs) :
      Held m .references (.object o)
  | globalObject : Held m .globalObject (.object m.realm.global)
  | globalScope : Held m .globalScope (.scope m.realm.globalScope)
  | cursor {l c o} (hl : l ∈ m.loops) (hc : l.source = .keys c) (h : c.current = some o) : Held m .cursors (.object o)
  | screen {l c o} (hl : l ∈ m.loops) (hc : l.source = .keys c) (h : c.screen = some o) : Held m .cursors (.object o)
  | pendingFault {h e o} (hh : h ∈ m.handlers) (hp : h.pending = some (.thrown e)) (hv : e.value = .object o) :
      Held m .pendingFaults (.object o)
  | snapshot {h n} (hh : h ∈ m.handlers) (hn : KeptBy h.snapshot.regs n) : Held m .snapshots n

section Roots

variable {m : Machine} {n : Node}

theorem leads_ofActivation {a : Activation} : Leads (ofActivation a) n ↔ KeptBy a n := by
  constructor
  · intro h
    obtain rfl | ⟨p, hp, rfl⟩ | ⟨o, ho, rfl⟩ | ⟨o, ho, rfl⟩ := by simpa [ofActivation] using h
    · exact .scope
    · exact .program hp
    · exact .result ho
    · exact .newTarget ho
  · intro h
    cases h with
    | scope => simp [ofActivation]
    | program h | result h | newTarget h => simp [ofActivation, h]

theorem leads_ofLoop {l : OpenLoop} (hl : l ∈ m.loops) (h : Leads (ofLoop m l) n) : Held m .loops n := by
  unfold ofLoop at h
  split at h
  case h_1 =>
    obtain ⟨o, ho, rfl⟩ := by simpa using h
    exact .loopValue hl ho
  case h_2 i hi =>
    obtain ⟨o, ho, rfl⟩ | ⟨o, ho, rfl⟩ | ⟨o, ho, rfl⟩ := by simpa using h
    · exact .loopValue hl ho
    · exact .iterator hl hi ho
    · exact .nextMethod hl hi ho

theorem leads_ofReference {r : Reference} (hr : r ∈ m.refs) (h : Leads (ofReference r) n) : Held m .references n := by
  cases r with
  | scope =>
    obtain rfl := by simpa [ofReference] using h
    exact .scopeReference hr
  | property =>
    obtain rfl := by simpa [ofReference] using h
    exact .propertyReference hr
  | slot | unresolved => simp [ofReference] at h

/-- **The roots** of the estimate are what the holders keep that it does not pass by. -/
theorem leads_roots : Leads (roots m).links n ↔ ∃ h : Holder, h.overlooked = false ∧ Held m h n := by
  constructor
  · intro h
    simp only [roots, leads_append, leads_cons, leads_flatMap, List.mem_reverse, leads_ofActivation] at h
    obtain ((((h | h) | ⟨a, ha, h⟩) | ⟨l, hl, h⟩) | ⟨r, hr, h⟩) | h | h | h := h
    · obtain ⟨o, ho, rfl⟩ := leads_links.mp h
      exact ⟨.operands, rfl, .operand ho⟩
    · exact ⟨.registers, rfl, .register h⟩
    · exact ⟨.frames, rfl, .frame ha h⟩
    · exact ⟨.loops, rfl, leads_ofLoop hl h⟩
    · exact ⟨.references, rfl, leads_ofReference hr h⟩
    · cases h
      exact ⟨.globalObject, rfl, .globalObject⟩
    · cases h
      exact ⟨.globalScope, rfl, .globalScope⟩
    · exact absurd h leads_nil
  · rintro ⟨holder, hseen, h⟩
    simp only [roots, leads_append, leads_cons, leads_flatMap, List.mem_reverse, leads_ofActivation]
    cases h with
    | operand h => exact .inl (.inl (.inl (.inl (.inl (leads_links.mpr ⟨_, h, rfl⟩)))))
    | register h => exact .inl (.inl (.inl (.inl (.inr h))))
    | frame ha h => exact .inl (.inl (.inl (.inr ⟨_, ha, h⟩)))
    | loopValue hl h =>
      refine .inl (.inl (.inr ⟨_, hl, ?_⟩))
      unfold ofLoop
      split <;> simp [h]
    | iterator hl hi h | nextMethod hl hi h => exact .inl (.inl (.inr ⟨_, hl, by simp [ofLoop, hi, h]⟩))
    | scopeReference h | propertyReference h => exact .inl (.inr ⟨_, h, by simp [ofReference]⟩)
    | globalObject => exact .inr (.inl rfl)
    | globalScope => exact .inr (.inr (.inl rfl))
    | cursor | screen | pendingFault | snapshot => cases hseen

end Roots

/-! ### Objects that are not counted -/

theorem reachable_iff_exists {σ : Store} {p : ι → Prop} {start : ι → Node → Prop} {n : Node} :
    Reachable σ (fun n => ∃ i, p i ∧ start i n) n ↔ ∃ i, p i ∧ Reachable σ (start i) n := by
  constructor
  · intro h
    induction h with
    | start h hn =>
      obtain ⟨i, hi, h⟩ := h
      exact ⟨i, hi, .start h hn⟩
    | refers _ hr hn ih =>
      obtain ⟨i, hi, h⟩ := ih
      exact ⟨i, hi, .refers h hr hn⟩
  · rintro ⟨i, hi, h⟩
    exact h.mono fun n hn => ⟨i, hi, hn⟩

section Uncounted

variable {σ : Store} {o : ObjectId} {x : Object} {start : Node → Prop} {n : Node}

theorem exists_setObject : n.exists (σ.setObject o x) = n.exists σ := by
  cases n with
  | object p => simp [Node.exists, Store.setObject]
  | scope s => rfl
  | program q => rfl

theorem entry_setObject (h : n ≠ .object o) : n.entry (σ.setObject o x) = n.entry σ := by
  cases n with
  | object p =>
    have hne : o.index ≠ p.index := fun heq => h (by cases o; cases p; cases heq; rfl)
    simp [Node.entry, Store.object, Store.setObject, Array.getElem?_setIfInBounds_ne hne]
  | scope s => rfl
  | program q => rfl

theorem reachable_setObject (h : ¬ Reachable σ start (.object o)) :
    Reachable (σ.setObject o x) start n ↔ Reachable σ start n := by
  constructor
  · intro hr
    induction hr with
    | start hs hn => exact .start hs (exists_setObject ▸ hn)
    | refers _ hr hn ih =>
      rw [refers_iff, entry_setObject fun heq => h (heq ▸ ih)] at hr
      exact .refers ih (refers_iff.mpr hr) (exists_setObject ▸ hn)
  · intro hr
    induction hr with
    | start hs hn => exact .start hs (exists_setObject.trans hn)
    | refers hreached hr hn ih =>
      rw [refers_iff, ← entry_setObject fun heq => h (heq ▸ hreached)] at hr
      exact .refers ih (refers_iff.mpr hr) (exists_setObject.trans hn)

theorem memory_setObject {m : Machine} (h : .object o ∉ reachable m.store (Leads (roots m).links)) :
    ({ m with store := m.store.setObject o x } : Machine).memory none = m.memory none := by
  rw [mem_reachable] at h
  have hsame : totalOf { m with store := m.store.setObject o x } = totalOf m := by
    have hset : reachable (m.store.setObject o x) (Leads (roots m).links) =
        reachable m.store (Leads (roots m).links) := by
      ext
      simp only [mem_reachable, reachable_setObject h]
    show (roots m).weight + ∑ n ∈ reachable (m.store.setObject o x) (Leads (roots m).links), _ = _
    rw [hset]
    refine congrArg _ (Finset.sum_congr rfl fun n hn => ?_)
    rw [Node.weight, entry_setObject fun heq => h (heq ▸ mem_reachable.mp hn), Node.weight]
  rw [memory_none, memory_none, hsame]

end Uncounted

/-- **What is counted**: the nodes that can be reached from a holder that the estimate does not pass by, each once.  An
object that is not among them has no influence on the estimate, whatever it is. -/
theorem counted_unless_overlooked (m : Machine) :
    let counted := reachable m.store (Leads (roots m).links)
    m.memory none = .ok ((roots m).weight + ∑ n ∈ counted, n.weight m.store) ∧
    (∀ n, n ∈ counted ↔ ∃ h : Holder, h.overlooked = false ∧ Reachable m.store (Held m h) n) ∧
    ∀ o x, .object o ∉ counted → ({ m with store := m.store.setObject o x } : Machine).memory none = m.memory none := by
  refine ⟨memory_none m, fun n => ?_, fun o x h => memory_setObject h⟩
  rw [mem_reachable, ← reachable_iff_exists]
  exact ⟨(·.mono fun _ => leads_roots.mp), (·.mono fun _ => leads_roots.mpr)⟩

/-- In a loop over the keys of an object that nothing else refers to. -/
def inKeyLoop : Machine :=
  { VM.emptyWorld with
    store := { VM.emptyWorld.store with objects := #[.ofKind none .ordinary, .ofKind none .ordinary] }
    loops := [⟨.undefined, .keys ⟨some ⟨1⟩, [], [], none⟩⟩] }

/-- The loop keeps the object, and the estimate is the same whatever the object holds. -/
theorem counted_unless_overlooked_inKeyLoop :
    Reachable inKeyLoop.store (Held inKeyLoop .cursors) (.object ⟨1⟩) ∧
    ∀ x, ({ inKeyLoop with store := inKeyLoop.store.setObject ⟨1⟩ x } : Machine).memory none = inKeyLoop.memory none := by
  refine ⟨.start (.cursor (List.mem_singleton.mpr rfl) rfl rfl) (by decide), fun x => ?_⟩
  refine (counted_unless_overlooked inKeyLoop).2.2 ⟨1⟩ x fun h => ?_
  -- The roots lead to the global object and the global record only, and these refer to nothing.
  have hroots : (roots inKeyLoop).links = [.value (.bool true), .scope ⟨0⟩, .value .undefined, .value .undefined,
      .value .undefined, .value (.object ⟨0⟩), .scope ⟨0⟩] := rfl
  have hends : ∀ n, Reachable inKeyLoop.store (Leads (roots inKeyLoop).links) n → n = .object ⟨0⟩ ∨ n = .scope ⟨0⟩ := by
    intro n hn
    induction hn with
    | start hs =>
      obtain rfl | rfl | rfl := by simpa [hroots] using hs
      · exact .inr rfl
      · exact .inl rfl
      · exact .inr rfl
    | refers _ hr _ ih =>
      rw [refers_iff] at hr
      obtain rfl | rfl := ih <;> exact absurd hr leads_nil
  simpa using hends _ (mem_reachable.mp h)

end ScriptMachine.Memory
