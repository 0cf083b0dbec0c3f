import ScriptMachine.Dispatch
import ScriptMachine.Proofs.NamePlaces
import ScriptMachine.Proofs.OperandLists

/-!
# Bindings that are not initialised

The value of a lexical binding stands in a slot of the operand stack or of a scope record, and the slot is empty until the
binding is initialised.  Instructions come to it by a fixed address, by a name, by a name with a fixed address for the
case that no inner record provides the name, or by a reference that was resolved before.  Whichever way they take, they
find the empty slot, say so, and leave it as it is.
-/

namespace ScriptMachine

/-! ### Operands -/

namespace OperandStack

/-- The stack after its top value was looked at, or removed. -/
def taken (s : OperandStack) (popped : Bool) : OperandStack :=
  if popped then { s with slots := s.slots.setIfInBounds (s.top - 1) .empty, top := s.top - 1 } else s

theorem taken_of_pop {s s' : OperandStack} {v : Value} (h : s.pop = .ok (v, s')) : s' = s.taken true := by
  unfold pop at h
  split at h
  · cases h
  · split at h <;> cases h
    rfl

theorem get_taken {s : OperandStack} {i : Nat} (h : i + 1 < s.top) (popped : Bool) :
    (s.taken popped).get i = s.get i := by
  unfold taken
  split
  case isTrue =>
    unfold get
    rw [if_neg (show ¬ s.top - 1 ≤ i by omega), if_neg (show ¬ s.top ≤ i by omega),
      Array.getElem?_setIfInBounds_ne (show s.top - 1 ≠ i by omega)]
  case isFalse => rfl

end OperandStack

namespace VM

open Store (Makes)

/-! ### Bindings -/

/-- Where the value of a binding is. -/
inductive Site where
  /-- A slot of the operand stack. -/
  | stack (i : Nat)
  | record (s : ScopeId) (i : Nat)

def Site.value? (m : Machine) : Site → Option Value
  | .stack i => (m.stack.get i).toOption
  | .record s i => (m.store.scope s).slots[i]?

/-- A name, how it may be used, and where its value is. -/
structure Binding where
  name : Text
  kind : BindingKind
  site : Site

def Binding.reference (b : Binding) (strict : Bool) : Reference :=
  match b.site with
  | .stack i => .slot b.name i (b.kind.foldStrict strict)
  | .record s i => .scope b.name s i (b.kind.foldStrict strict)

/-- The first record that provides the name is some links out, and provides the binding. -/
structure Nearest (m : Machine) (b : Binding) (n : Nat) (s : ScopeId) (i : Nat) : Prop where
  site : b.site = .record s i
  reached : m.store.outward n m.regs.scope = some s
  slotBacked : (m.store.scope s).object = none
  bound : (m.store.scope s).find? b.name = some ⟨i, b.kind⟩
  absent : AbsentBelow m b.name n

/-- The global record provides the binding. -/
structure IsGlobal (m : Machine) (b : Binding) (i : Nat) : Prop where
  site : b.site = .record m.realm.globalScope i
  slotBacked : (m.store.scope m.realm.globalScope).object = none
  bound : (m.store.scope m.realm.globalScope).find? b.name = some ⟨i, b.kind⟩

/-- There is an operand, above the slot of the binding. -/
structure HasOperand (m : Machine) (b : Binding) : Prop where
  present : ∃ v s, m.stack.pop = .ok (v, s)
  above : ∀ i, b.site = .stack i → i + 1 < m.stack.top

/-- Instructions that read a lexical binding. -/
inductive ReadsBinding (m : Machine) (b : Binding) : Instruction → Prop where
  | slot {a i} (site : b.site = .stack i) (addressed : slotIndex a m = .ok (some i) m) :
      ReadsBinding m b (.loadSlot a true)
  | scope {a s} (site : b.site = .record s a.index) (reached : m.store.outward a.level m.regs.scope = some s) :
      ReadsBinding m b (.loadScope a true)
  | near {read index n s i} (name : read.target.name = b.name) (nearest : Nearest m b n s i)
      (within : n < read.target.level) : ReadsBinding m b (.loadMixed read index)
  | nearSlot {read a n s i} (name : read.target.name = b.name) (nearest : Nearest m b n s i)
      (within : n < read.target.level) : ReadsBinding m b (.loadMixedSlot read a)
  | mixed {read index s} (name : read.target.name = b.name) (lexical : read.lexical = true)
      (site : b.site = .record s index) (reached : m.store.outward read.target.level m.regs.scope = some s)
      (absent : AbsentBelow m b.name read.target.level) : ReadsBinding m b (.loadMixed read index)
  | mixedSlot {read a i s} (name : read.target.name = b.name) (lexical : read.lexical = true)
      (site : b.site = .stack i) (addressed : slotIndex a m = .ok (some i) m)
      (reached : m.store.outward read.target.level m.regs.scope = some s)
      (absent : AbsentBelow m b.name read.target.level) : ReadsBinding m b (.loadMixedSlot read a)
  | name {n s i} (nearest : Nearest m b n s i) : ReadsBinding m b (.loadName b.name)
  | nameOrMarker {n s i} (nearest : Nearest m b n s i) : ReadsBinding m b (.loadNameOrMarker b.name)
  | nameCallee {n s i} (nearest : Nearest m b n s i) : ReadsBinding m b (.loadNameCallee b.name)
  | reference {strict rest} (resolved : m.refs = b.reference strict :: rest) : ReadsBinding m b .getValue

/-- Instructions that assign to a lexical binding. -/
inductive WritesBinding (m : Machine) (b : Binding) : Instruction → Prop where
  | slot {a i popped} (site : b.site = .stack i) (addressed : slotIndex a m = .ok (some i) m)
      (proper : a.index ≠ 0) : WritesBinding m b (.storeSlot a true popped)
  | scope {a s popped} (site : b.site = .record s a.index) (reached : m.store.outward a.level m.regs.scope = some s)
      (operand : HasOperand m b) : WritesBinding m b (.storeScope a true popped)
  | reference {strict rest popped} (resolved : m.refs = b.reference strict :: rest) (operand : HasOperand m b) :
      WritesBinding m b (.putValue popped)
  | global {strict i} (isGlobal : IsGlobal m b i) (operand : HasOperand m b) :
      WritesBinding m b (.setGlobal b.name strict)

/-! ### At the slot -/

section Slot

variable {m : Machine} {b : Binding} {v : Value} {i : Nat}

theorem get_of_value? (h : (Site.stack i).value? m = some v) : m.stack.get i = .ok v := by
  change (m.stack.get i).toOption = some v at h
  cases hget : m.stack.get i with
  | ok w =>
    rw [hget] at h
    exact congrArg Except.ok (Option.some.inj h)
  | error f =>
    rw [hget] at h
    cases h

theorem value?_withStore {σ : Store} (h : Makes m.store σ) (site : Site) :
    site.value? (withStore m σ) = site.value? m := by
  cases site with
  | stack i => rfl
  | record s i => exact congrArg (fun x : Scope => x.slots[i]?) (h.scope s)

theorem HasOperand.value?_taken (h : HasOperand m b) (popped : Bool) (refs : List Reference) :
    b.site.value? { m with refs, stack := m.stack.taken popped } = b.site.value? m := by
  cases hsite : b.site with
  | stack i => exact congrArg Except.toOption (OperandStack.get_taken (h.above i hsite) popped)
  | record s i => rfl

theorem HasOperand.peek (h : HasOperand m b) : ∃ v, VM.peek 0 m = .ok v m := by
  obtain ⟨v, s, hpop⟩ := h.present
  exact ⟨v, readStack_of_ok (OperandStack.pop_eq_ok hpop)⟩

theorem HasOperand.takeTop (h : HasOperand m b) (popped : Bool) (refs : List Reference) :
    ∃ v, VM.takeTop popped { m with refs } = .ok v { m with refs, stack := m.stack.taken popped } := by
  obtain ⟨v, s, hpop⟩ := h.present
  refine ⟨v, ?_⟩
  cases popped with
  | true =>
    rw [← OperandStack.taken_of_pop hpop]
    exact onStack_of_ok hpop
  | false => exact readStack_of_ok (g := (·.peek 0)) (OperandStack.pop_eq_ok hpop)

theorem read_empty {kind : BindingKind} (h : kind.isLexical = true) (name : Text) :
    kind.read name .empty = .error (.uninitialized (some name)) := by
  simp [BindingKind.read, h]

theorem admits_empty {kind : BindingKind} (h : kind.isLexical = true) (strict : Bool) (name : Text) :
    (kind.foldStrict strict).admits name .empty = .error (.uninitialized (some name)) := by
  cases kind with
  | hoisted => cases h
  | lexical | constant => rfl

theorem readReference_eq (hv : b.site.value? m = some v) (strict : Bool) :
    readReference (b.reference strict) m = (do return some (← ofOutcome (b.kind.read b.name v)) : VM (Option Value)) m := by
  unfold Binding.reference
  cases hsite : b.site with
  | stack i =>
    rw [hsite] at hv
    have hslot : slot i m = .ok v m := readStack_of_ok (get_of_value? hv)
    rw [readReference, bind_ok hslot, read_foldStrict]
  | record s i =>
    rw [hsite] at hv
    rw [readReference, scopeRecord_bind, show (m.store.scope s).slots[i]? = some v from hv, read_foldStrict]
    rfl

theorem writeReference_of_refused {strict : Bool} {o : Outcome Bool} (hv : b.site.value? m = some v)
    (h : (b.kind.foldStrict strict).admits b.name v = o) (ho : o ≠ .ok true) (w : Value) :
    writeReference (b.reference strict) w m = (do let _ ← ofOutcome o : VM Unit) m := by
  unfold Binding.reference
  cases hsite : b.site with
  | stack i =>
    rw [hsite] at hv
    have hslot : slot i m = .ok v m := readStack_of_ok (get_of_value? hv)
    rw [writeReference, bind_ok hslot, h]
    rcases o with _ | _ | _ <;> first | rfl | exact absurd rfl ho
  | record s i =>
    rw [hsite] at hv
    rw [writeReference, scopeRecord_bind, show (m.store.scope s).slots[i]? = some v from hv]
    dsimp only
    rw [h]
    rcases o with _ | _ | _ <;> first | rfl | exact absurd rfl ho

end Slot

/-! ### On the way to the slot -/

section Way

variable {m : Machine} {b : Binding} {n i : Nat} {s : ScopeId} {name : Text} {level : Nat} {a : SlotAddress}

theorem scan_of_first {look : ScopeId → VM (Option α)} (h : Looks look name) {t : ScopeId} (hn : n < level)
    (ht : m.store.outward n s = some t)
    (habsent : ∀ j < n, ∀ u, m.store.outward j s = some u → ¬ m.store.Provides name u) :
    ∃ σ rest, Makes m.store σ ∧ scan look level s m = scan look (rest + 1) t (withStore m σ) := by
  obtain ⟨rest, rfl⟩ : ∃ rest, level = rest + 1 + n := ⟨level - (n + 1), by omega⟩
  obtain ⟨σ, hσ, hscan⟩ := scan_past h (rest + 1) ht habsent
  exact ⟨σ, rest, hσ, hscan⟩

theorem Nearest.withStore (h : Nearest m b n s i) {σ : Store} (hσ : Makes m.store σ) :
    Nearest (VM.withStore m σ) b n s i where
  site := h.site
  reached := (hσ.outward_eq _ _).trans h.reached
  slotBacked := by rw [← h.slotBacked]; exact congrArg _ (hσ.scope s)
  bound := by rw [← h.bound]; exact congrArg (Scope.find? · b.name) (hσ.scope s)
  absent j hj u hu hp := h.absent j hj u ((hσ.outward_eq _ _).symm.trans hu) (hσ.provides_iff.mp hp)

theorem IsGlobal.referenceIn (h : IsGlobal m b i) (strict : Bool) :
    referenceIn? b.name strict m.realm.globalScope m = .ok (some (b.reference strict)) m := by
  rw [referenceIn_of_slots strict h.slotBacked, h.bound, Binding.reference, h.site]
  rfl

theorem Nearest.found (h : Nearest m b n s i) : Found m b.name (.slot s ⟨i, b.kind⟩) := by
  refine .slot ⟨n, h.reached, ?_, h.absent⟩ h.slotBacked h.bound
  rw [Store.Provides, Store.recordProvides_of_slots h.slotBacked, h.bound]
  rfl

theorem Nearest.readIn_uninitialized (h : Nearest m b n s i) (hkind : b.kind.isLexical = true)
    (hempty : b.site.value? m = some .empty) :
    readIn? b.name s m = .error (.fault (.uninitialized (some b.name))) m := by
  rw [h.site] at hempty
  rw [readIn_of_bound h.slotBacked h.bound, show (m.store.scope s).slots[i]? = some .empty from hempty,
    Option.getD_some, read_empty hkind]
  rfl

theorem Nearest.scan_uninitialized (h : Nearest m b n s i) (hkind : b.kind.isLexical = true)
    (hempty : b.site.value? m = some .empty) (hn : n < level) :
    ∃ σ, Makes m.store σ ∧ scan (readIn? b.name) level m.regs.scope m =
      .error (.fault (.uninitialized (some b.name))) (VM.withStore m σ) := by
  obtain ⟨σ, rest, hσ, hscan⟩ := scan_of_first (looks_readIn b.name) hn h.reached h.absent
  refine ⟨σ, hσ, hscan.trans ?_⟩
  have hread := (h.withStore hσ).readIn_uninitialized hkind ((value?_withStore hσ _).trans hempty)
  rw [scan, bind_error hread]

theorem Nearest.lookup_uninitialized (h : Nearest m b n s i) (hkind : b.kind.isLexical = true)
    (hempty : b.site.value? m = some .empty) :
    ∃ σ, Makes m.store σ ∧ lookup? b.name m = .error (.fault (.uninitialized (some b.name))) (VM.withStore m σ) := by
  obtain ⟨σ, hσ, hlookup⟩ := h.found.lookup
  refine ⟨σ, hσ, hlookup.trans ?_⟩
  rw [h.site] at hempty
  rw [Place.read, show (m.store.scope s).slots[i]? = some .empty from hempty, Option.getD_some, read_empty hkind]
  rfl

theorem slotIndex_congr (h : slotIndex a m = .ok (some i) m) {m' : Machine}
    (hregs : m'.regs = m.regs) : slotIndex a m' = .ok (some i) m' := by
  cases hbase : m.regs.base with
  | none =>
    have houtside : frameBase m = .error (.fault (.internal .outsideFunction)) m := by
      rw [frameBase, regs_bind, hbase]
      rfl
    rw [slotIndex, bind_error houtside] at h
    cases h
  | some base =>
    rw [slotIndex, bind_ok (frameBase_of_base hbase), regs_bind] at h
    rw [slotIndex, bind_ok (frameBase_of_base (by rw [hregs]; exact hbase)), regs_bind, hregs]
    by_cases hlocal : 0 < a.index
    · rw [if_pos hlocal] at h ⊢
      cases h
      rfl
    · rw [if_neg hlocal] at h ⊢
      by_cases hpassed : a.index.natAbs ≤ m.regs.args
      · rw [if_pos hpassed] at h ⊢
        cases h
        rfl
      · rw [if_neg hpassed] at h
        cases h

theorem readSlot_uninitialized (haddress : slotIndex a m = .ok (some i) m)
    (hempty : (Site.stack i).value? m = some .empty) (name : Option Text) :
    readSlot a true name m = .error (.fault (.uninitialized name)) m := by
  have hslot : slot i m = .ok .empty m := readStack_of_ok (get_of_value? hempty)
  rw [readSlot, bind_ok haddress]
  dsimp only
  rw [bind_ok hslot]
  rfl

end Way

/-! ### The instructions -/

section Instructions

variable {m : Machine} {b : Binding} {instr : Instruction}

theorem ReadsBinding.uninitialized (h : ReadsBinding m b instr) (hkind : b.kind.isLexical = true)
    (hempty : b.site.value? m = some .empty) (enter : Enter) (fuel : Nat) :
    ∃ name σ, Makes m.store σ ∧
      execute enter fuel instr m = .error (.fault (.uninitialized name)) (withStore m σ) := by
  cases h with
  | @slot a i site addressed =>
    rw [site] at hempty
    exact ⟨none, m.store, .refl _, bind_error (readSlot_uninitialized addressed hempty none)⟩
  | @scope a s site reached =>
    rw [site] at hempty
    refine ⟨(m.store.scope s).nameOf? a.index, m.store, .refl _, ?_⟩
    show loadScope a true m = _
    rw [loadScope, bind_ok (show scopeAt a.level m = .ok s m from outerScope_eq reached), scopeRecord_bind,
      show (m.store.scope s).slots[a.index]? = some .empty from hempty]
    rfl
  | @near read index n s i name nearest within =>
    obtain ⟨σ, hσ, hscan⟩ := nearest.scan_uninitialized hkind hempty within
    rw [← name] at hscan
    refine ⟨some read.target.name, σ, hσ, ?_⟩
    show loadMixed read index m = _
    rw [loadMixed, regs_bind, bind_error hscan]
  | @nearSlot read a n s i name nearest within =>
    obtain ⟨σ, hσ, hscan⟩ := nearest.scan_uninitialized hkind hempty within
    rw [← name] at hscan
    refine ⟨some read.target.name, σ, hσ, ?_⟩
    show loadMixedSlot read a m = _
    rw [loadMixedSlot, regs_bind, bind_error hscan]
  | @mixed read index s name lexical site reached absent =>
    rw [← name] at absent
    rw [site] at hempty
    obtain ⟨σ, hσ, hscan⟩ := scan_of_absent (looks_readIn read.target.name) reached absent
    refine ⟨some read.target.name, σ, hσ, ?_⟩
    have hslot : (σ.scope s).slots[index]? = some .empty := (value?_withStore hσ (.record s index)).trans hempty
    show loadMixed read index m = _
    rw [loadMixed, regs_bind, bind_ok hscan]
    dsimp only
    rw [scopeRecord_bind, show ((withStore m σ).store.scope s).slots[index]? = some .empty from hslot, lexical]
    rfl
  | @mixedSlot read a i s name lexical site addressed reached absent =>
    rw [← name] at absent
    rw [site] at hempty
    obtain ⟨σ, hσ, hscan⟩ := scan_of_absent (looks_readIn read.target.name) reached absent
    refine ⟨some read.target.name, σ, hσ, ?_⟩
    have haddress : slotIndex a (withStore m σ) = .ok (some i) (withStore m σ) := slotIndex_congr addressed rfl
    show loadMixedSlot read a m = _
    rw [loadMixedSlot, regs_bind, bind_ok hscan]
    rw [lexical]
    exact bind_error (readSlot_uninitialized haddress hempty _)
  | name nearest | nameOrMarker nearest | nameCallee nearest =>
    obtain ⟨σ, hσ, hlookup⟩ := nearest.lookup_uninitialized hkind hempty
    exact ⟨_, σ, hσ, bind_error hlookup⟩
  | @reference strict rest resolved =>
    refine ⟨some b.name, m.store, .refl _, ?_⟩
    have htop : topRef m = .ok (b.reference strict) m := by
      rw [topRef, get_bind, resolved]
      rfl
    have hread := readReference_eq hempty strict
    rw [read_empty hkind] at hread
    show getValue m = _
    rw [getValue, bind_ok htop]
    exact bind_error hread

theorem WritesBinding.uninitialized (h : WritesBinding m b instr) (hkind : b.kind.isLexical = true)
    (hempty : b.site.value? m = some .empty) (enter : Enter) (fuel : Nat) :
    ∃ name m', execute enter fuel instr m = .error (.fault (.uninitialized name)) m' ∧
      b.site.value? m' = some .empty := by
  cases h with
  | @slot a i popped site addressed proper =>
    refine ⟨none, m, ?_, hempty⟩
    rw [site] at hempty
    have hslot : VM.slot i m = .ok .empty m := readStack_of_ok (get_of_value? hempty)
    have haddress : slotOrFault a .missingArgumentStore m = .ok i m := by
      rw [slotOrFault, bind_ok addressed]
      rfl
    show storeSlot a true popped m = _
    rw [storeSlot, if_neg proper, bind_ok haddress]
    exact bind_ok hslot
  | @scope a s popped site reached operand =>
    obtain ⟨v, htake⟩ := operand.takeTop popped m.refs
    refine ⟨(m.store.scope s).nameOf? a.index, { m with stack := m.stack.taken popped }, ?_,
      (operand.value?_taken popped m.refs).trans hempty⟩
    rw [site] at hempty
    show storeScope a true popped m = _
    rw [storeScope, bind_ok (show scopeAt a.level m = .ok s m from outerScope_eq reached), bind_ok htake,
      scopeRecord_bind]
    rw [show (m.store.scope s).slots[a.index]? = some .empty from hempty]
    rfl
  | @reference strict rest popped resolved operand =>
    obtain ⟨v, htake⟩ := operand.takeTop popped rest
    have hempty' := (operand.value?_taken popped rest).trans hempty
    refine ⟨some b.name, { m with refs := rest, stack := m.stack.taken popped }, ?_, hempty'⟩
    have hpop : popRef m = .ok (b.reference strict) { m with refs := rest } := by
      rw [popRef, get_bind, resolved]
      rfl
    show putValue popped m = _
    rw [putValue, bind_ok hpop, bind_ok htake]
    exact bind_error (writeReference_of_refused hempty' (admits_empty hkind strict b.name) nofun v)
  | @global strict i isGlobal operand =>
    obtain ⟨v, hpeek⟩ := operand.peek
    refine ⟨some b.name, m, ?_, hempty⟩
    have hassign : assignGlobal b.name v strict m = .error (.fault (.uninitialized (some b.name))) m := by
      rw [assignGlobal, realm_bind, bind_ok (isGlobal.referenceIn strict)]
      exact writeReference_of_refused hempty (admits_empty hkind strict b.name) nofun v
    show setGlobal b.name strict m = _
    rw [setGlobal, bind_ok hpeek]
    exact bind_error hassign

end Instructions

end VM

end ScriptMachine
