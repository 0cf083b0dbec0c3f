import ScriptMachine.Proofs.Chains
import ScriptMachine.Proofs.Footprint.Instructions
import ScriptMachine.Proofs.NameWalk
import ScriptMachine.Proofs.Parameters
import ScriptMachine.Proofs.ReadBack

/-!
# Arguments that stand for parameters

An element of an arguments object may stand for a slot of the record of its function.  The object says of each index
whether it does; the table of properties is asked for the other ones.  What an index stands for is looked up by every
operation anew, and an index that was defined or deleted stands for nothing from then on.

Main result: `VM.parameters_aliased`.
-/

namespace ScriptMachine

namespace Object

/-! ### Indices that no longer stand for a parameter -/

/-- The list after the index that a key spells was taken out. -/
def unmapAt (mapped : List Bool) (key : PropertyKey) : List Bool :=
  match key.index? with
  | some i => mapped.set i false
  | none => mapped

section Unmap

variable {x y : Object} {key : PropertyKey} {mapped : List Bool} {s : ScopeId} {v : Value} {p : Property} {i : Nat}

theorem length_unmapAt (mapped : List Bool) (key : PropertyKey) : (unmapAt mapped key).length = mapped.length := by
  unfold unmapAt
  split
  · exact List.length_set
  · rfl

theorem unmapAt_of_mapped (h : mappedIndex? mapped key = some i) : unmapAt mapped key = mapped.set i false := by
  rw [unmapAt, (mappedIndex?_eq_some.mp h).1]

theorem unmapAt_of_unmapped (h : mappedIndex? mapped key = none) : unmapAt mapped key = mapped := by
  unfold unmapAt
  split
  case h_2 => rfl
  case h_1 i hindex =>
    have hi : mapped[i]? ≠ some true := fun hi => by simp [mappedIndex?_eq_some.mpr ⟨hindex, hi⟩] at h
    refine List.ext_getElem? fun j => ?_
    rcases hvalue : mapped[i]? with _ | _ | _ <;> grind

theorem getElem?_unmapAt (mapped : List Bool) (key : PropertyKey) (i : Nat) :
    (unmapAt mapped key)[i]? = some true ↔ mapped[i]? = some true ∧ key.index? ≠ some i := by
  unfold unmapAt
  split
  case h_2 hnone => simp [hnone]
  case h_1 j hindex =>
    rw [List.getElem?_set, hindex]
    by_cases hij : j = i
    · subst hij
      simp
    · simp [hij]

theorem Assigned.kind_arguments (h : x.Assigned key v y) (hkind : x.kind = .arguments s mapped) :
    y.kind = .arguments s mapped := by
  cases h with
  | element kind | length kind =>
    rw [kind] at hkind
    cases hkind
  | written | added => exact hkind

theorem Defined.kind_arguments (h : x.Defined key p y) (hkind : x.kind = .arguments s mapped) :
    y.kind = .arguments s (unmapAt mapped key) := by
  cases h with
  | element kind | length kind =>
    rw [kind] at hkind
    cases hkind
  | @unmapped s' mapped' i kind index =>
    rw [kind] at hkind
    cases hkind
    rw [unmapAt_of_mapped index]
  | stored noItem unmapped =>
    rw [unmapAt_of_unmapped (unmapped _ _ hkind)]
    exact hkind

theorem kind_deletion (hkind : x.kind = .arguments s mapped) (key : PropertyKey) :
    (Store.deletion x key).2.kind = .arguments s (unmapAt mapped key) := by
  cases hindex : mappedIndex? mapped key with
  | some i =>
    rw [unmapAt_of_mapped hindex]
    simp [Store.deletion, Store.deleteByKind, hkind, hindex]
  | none =>
    rw [unmapAt_of_unmapped hindex, Store.deletion, Store.deleteByKind, hkind]
    dsimp only
    rw [hindex, Option.map_none]
    dsimp only
    split
    · split
      · rfl
      · exact hkind
    · exact hkind

end Unmap

end Object

namespace Store

/-! ### Records under operations on objects -/

section Records

variable {σ : Store} {s t : ScopeId} {i j : Nat} {v : Value}

theorem scope_writeSlot_ne (h : s ≠ t) : (σ.perform (.writeSlot t j v)).scope s = σ.scope s := by
  have hindex : t.index ≠ s.index := by
    intro heq
    exact h (congrArg ScopeId.mk heq.symm)
  show ((σ.scopes.modify t.index _)[s.index]?).getD default = _
  rw [Array.getElem?_modify, if_neg hindex]
  rfl

theorem size_slots_writeSlot (σ : Store) (s t : ScopeId) (j : Nat) (v : Value) :
    ((σ.perform (.writeSlot t j v)).scope s).slots.size = (σ.scope s).slots.size := by
  by_cases hs : s = t
  · subst hs
    show (((σ.scopes.modify s.index _)[s.index]?).getD default).slots.size = _
    rw [Array.getElem?_modify, if_pos rfl, scope]
    cases σ.scopes[s.index]? with
    | none => rfl
    | some x => exact Array.size_setIfInBounds
  · rw [scope_writeSlot_ne hs]

theorem scopes_assign_of_unmapped {o : ObjectId} {key : PropertyKey} {mapped : List Bool}
    (hkind : (σ.settled o).kind = .arguments s mapped) (hindex : Object.mappedIndex? mapped key = none) (v : Value)
    (strict : Bool) : ((assign o key v strict).run σ).2.scopes = σ.scopes := by
  have h := assigning σ o key v strict
  generalize (assign o key v strict).run σ = r at h ⊢
  cases h with
  | done _ updates => exact updates.scopes
  | parameter kind index =>
    rw [kind] at hkind
    cases hkind
    rw [index] at hindex
    cases hindex
  | refused made | invalid _ _ _ made => exact made.scopes

/-- The object and the key that an operation defines anew or deletes. -/
def Operation.redefined? : Operation → Option (ObjectId × PropertyKey)
  | .define p key _ _ | .put p key _ | .delete p key _ => some (p, key)
  | _ => none

theorem scopes_perform (σ : Store) (op : Operation) :
    (σ.perform op).scopes = σ.scopes ∨
      op.redefined? = none ∧ ∃ t j v, (σ.perform op).scopes = (σ.perform (.writeSlot t j v)).scopes := by
  have heffect := effect σ op
  generalize σ.perform op = σ' at heffect ⊢
  cases heffect with
  | assigned _ updates | defined _ _ _ updates | deleted _ updates | pushed _ _ updates | inherits _ _ updates
  | closed updates => exact .inl updates.scopes
  | written asked made => rcases asked with ⟨_, _, _, rfl⟩ | rfl <;> exact .inr ⟨rfl, _, _, _, made.scopes⟩
  | kept made => exact .inl made.scopes

theorem scope_perform_of_redefined (σ : Store) (op : Operation) (h : op.redefined? ≠ none) (s : ScopeId) :
    (σ.perform op).scope s = σ.scope s := by
  rw [scope, (scopes_perform σ op).resolve_right fun hnone => h hnone.1]
  rfl

theorem size_slots_perform (σ : Store) (op : Operation) (s : ScopeId) :
    ((σ.perform op).scope s).slots.size = (σ.scope s).slots.size := by
  rcases scopes_perform σ op with hsame | ⟨-, t, j, v, hwritten⟩
  · rw [scope, hsame]
    rfl
  · rw [scope, hwritten]
    exact size_slots_writeSlot σ s t j v

end Records

/-! ### Objects that stand for slots -/

/-- The object is an arguments object of the record, and the indices that the list marks stand for slots of it. -/
structure Linked (σ : Store) (o : ObjectId) (s : ScopeId) (mapped : List Bool) : Prop where
  kind : (σ.settled o).kind = .arguments s mapped
  room : mapped.length ≤ (σ.scope s).slots.size

/-- The indices that stand for slots after an operation. -/
def Operation.unmap (o : ObjectId) (mapped : List Bool) (op : Operation) : List Bool :=
  match op.redefined? with
  | some (p, key) => if p = o then Object.unmapAt mapped key else mapped
  | none => mapped

/-- The operation defines or deletes an index of the object. -/
def Operation.Unmaps (o : ObjectId) (i : Nat) (op : Operation) : Prop :=
  ∃ key, op.redefined? = some (o, key) ∧ key.index? = some i

theorem Operation.length_unmap (o : ObjectId) (mapped : List Bool) (op : Operation) :
    (op.unmap o mapped).length = mapped.length := by
  unfold Operation.unmap
  split
  · split
    · exact Object.length_unmapAt _ _
    · rfl
  · rfl

theorem Operation.getElem?_unmap (o : ObjectId) (mapped : List Bool) (op : Operation) (i : Nat) :
    (op.unmap o mapped)[i]? = some true ↔ mapped[i]? = some true ∧ ¬ op.Unmaps o i := by
  unfold Operation.unmap Operation.Unmaps
  cases op.redefined? with
  | none => simp
  | some redefined =>
    obtain ⟨p, key⟩ := redefined
    by_cases hp : p = o
    · simp [hp, Object.getElem?_unmapAt]
    · simp [hp]

theorem getElem?_unmapAll (o : ObjectId) (mapped : List Bool) (ops : List Operation) (i : Nat) :
    (ops.foldl (Operation.unmap o) mapped)[i]? = some true ↔ mapped[i]? = some true ∧ ∀ op ∈ ops, ¬ op.Unmaps o i := by
  induction ops generalizing mapped with
  | nil => simp
  | cons op ops ih => rw [List.foldl_cons, ih, Operation.getElem?_unmap, List.forall_mem_cons, and_assoc]

section Linked

variable {σ σ' : Store} {o p : ObjectId} {s : ScopeId} {mapped : List Bool} {key : PropertyKey} {i : Nat} {x : Object}

theorem Linked.known (h : Linked σ o s mapped) : o.index < σ.objects.size := by
  refine Nat.lt_of_not_le fun hge => ?_
  have hkind := h.kind
  rw [settled_of_size_le hge] at hkind
  cases hkind

theorem Linked.elsewhere (h : Linked σ o s mapped) (hobject : σ'.settled o = σ.settled o)
    (hslots : (σ'.scope s).slots = (σ.scope s).slots) : Linked σ' o s mapped where
  kind := by rw [hobject]; exact h.kind
  room := by rw [hslots]; exact h.room

theorem Linked.makes (h : Linked σ o s mapped) (hmade : Makes σ σ') : Linked σ' o s mapped :=
  h.elsewhere (hmade.settled_eq o) (by rw [hmade.scope])

theorem Linked.kind_updates (h : Linked σ o s mapped) (hupdates : Updates σ p x σ') {mapped' : List Bool}
    (hother : p ≠ o → mapped' = mapped) (hself : p = o → x.kind = .arguments s mapped') :
    (σ'.settled o).kind = .arguments s mapped' := by
  rw [hupdates.objects]
  by_cases hp : p = o
  · subst hp
    rw [if_pos ⟨rfl, h.known⟩]
    exact hself rfl
  · rw [if_neg fun hsame => hp hsame.1.symm, hother hp]
    exact h.kind

theorem Linked.kind_define (h : Linked σ o s mapped) (p : ObjectId) (key : PropertyKey) (q : Property) (strict : Bool) :
    ((((define p key q strict).run σ).2).settled o).kind =
      .arguments s (if p = o then Object.unmapAt mapped key else mapped) := by
  have hdefining := defining σ p key q strict
  generalize (define p key q strict).run σ = r at hdefining ⊢
  cases hdefining with
  | done allowed defined updates =>
    refine h.kind_updates updates (fun hp => if_neg hp) ?_
    rintro rfl
    rw [if_pos rfl]
    exact defined.kind_arguments h.kind
  | refused forbidden made =>
    rw [made.settled_eq, h.kind]
    split
    case isFalse => rfl
    case isTrue hp =>
      -- A parameter can always be defined anew.
      subst hp
      cases hindex : Object.mappedIndex? mapped key with
      | none => rw [Object.unmapAt_of_unmapped hindex]
      | some i =>
        rw [own_eq, Object.ownProperty?_mapped h.kind hindex] at forbidden
        cases forbidden
  | invalid kind isLength invalid made =>
    rw [made.settled_eq, h.kind, if_neg]
    rintro rfl
    rw [h.kind] at kind
    cases kind

theorem Linked.kind_delete (h : Linked σ o s mapped) (p : ObjectId) (key : PropertyKey) (strict : Bool) :
    ((((delete p key strict).run σ).2).settled o).kind =
      .arguments s (if p = o then Object.unmapAt mapped key else mapped) := by
  obtain ⟨hmade, hobject⟩ := run_materialize p σ
  have hmadeKind : (σ.settled p).kind.isLazy = false := Object.isLazy_settled _
  have hlazy : (deletion (σ.settled p) key).2.kind.isLazy = false := by
    obtain ⟨x, hdeleted, hrun⟩ | hrun := deletion_cases (σ.settled p) key
    · rw [hrun]
      exact hdeleted.isLazy hmadeKind
    · rw [hrun]
      exact hmadeKind
  rw [run_delete, hobject]
  refine h.kind_updates (.of_setObject hmade hlazy) (fun hp => if_neg hp) ?_
  rintro rfl
  rw [if_pos rfl]
  exact Object.kind_deletion h.kind key

theorem Linked.kind_perform (h : Linked σ o s mapped) {op : Operation} (hop : op.redefined? = none) :
    ((σ.perform op).settled o).kind = .arguments s mapped := by
  have heffect := effect σ op
  generalize σ.perform op = σ' at heffect ⊢
  cases heffect with
  | assigned assigned updates =>
    refine h.kind_updates updates (fun _ => rfl) ?_
    rintro rfl
    exact assigned.kind_arguments h.kind
  | defined asked => rcases asked with ⟨_, rfl⟩ | rfl <;> cases hop
  | deleted => cases hop
  | pushed kind _ updates =>
    refine h.kind_updates updates (fun _ => rfl) ?_
    rintro rfl
    cases kind.symm.trans h.kind
  | inherits _ _ updates | closed updates => exact h.kind_updates updates (fun _ => rfl) fun hp => hp ▸ h.kind
  | written _ made => exact (congrArg Object.kind (made.settled_eq o)).trans h.kind
  | kept made => exact (h.makes made).kind

/-- **An index stands for its slot until it is defined or deleted**: of all operations on objects, only these two change
what the indices of an arguments object stand for. -/
theorem Linked.perform (h : Linked σ o s mapped) (op : Operation) : Linked (σ.perform op) o s (op.unmap o mapped) := by
  have hroom : (op.unmap o mapped).length ≤ ((σ.perform op).scope s).slots.size := by
    rw [op.length_unmap, size_slots_perform]
    exact h.room
  refine ⟨?_, hroom⟩
  cases op with
  | define p key q strict => exact h.kind_define p key q strict
  | put p key v => exact h.kind_define p key (.plain v) false
  | delete p key strict => exact h.kind_delete p key strict
  | _ => exact h.kind_perform rfl

theorem Linked.lt_size (h : Linked σ o s mapped) (hi : mapped[i]? = some true) : i < (σ.scope s).slots.size :=
  Nat.lt_of_lt_of_le (List.getElem?_eq_some_iff.mp hi).1 h.room

theorem Linked.own_mapped (h : Linked σ o s mapped) (hindex : key.index? = some i) (hi : mapped[i]? = some true) :
    ∃ v, (σ.scope s).slots[i]? = some v ∧ σ.own o key = some (.plain v.orUndefined) := by
  have hslot := Array.getElem?_eq_getElem (h.lt_size hi)
  refine ⟨_, hslot, ?_⟩
  rw [own_eq, Object.ownProperty?_mapped h.kind (Object.mappedIndex?_eq_some.mpr ⟨hindex, hi⟩)]
  show some (Property.plain (Option.getD ((σ.scope s).slots[i]?) _).orUndefined) = _
  rw [hslot]
  rfl

theorem Linked.assign_mapped (h : Linked σ o s mapped) (hindex : key.index? = some i) (hi : mapped[i]? = some true)
    (v : Value) (strict : Bool) :
    ∃ σ', (assign o key v strict).run σ = (.ok true, σ') ∧ (σ'.scope s).slots[i]? = some v := by
  obtain ⟨hmade, hobject⟩ := run_materialize o σ
  have hkind := h.kind
  rw [settled, ← hobject] at hkind
  have hby : assignByKind ((materialize o).run σ).2 o key v = .ok (some true,
      ((materialize o).run σ).2.modifyScope s fun x => { x with slots := x.slots.setIfInBounds i v }) := by
    simp only [assignByKind, hkind, Object.mappedIndex?_eq_some.mpr ⟨hindex, hi⟩]
  rw [run_assign, hby]
  refine ⟨_, rfl, ?_⟩
  rw [slots_modifyScope, hmade.scope, if_pos ⟨rfl, h.lt_size hi⟩]

theorem Linked.own_unmapped (h : Linked σ o s mapped) (hindex : key.index? = some i) (hi : mapped[i]? ≠ some true) :
    σ.own o key = (σ.settled o).properties.find? key := by
  have hnone : Object.mappedIndex? mapped key = none := by
    simp [Object.mappedIndex?, hindex, hi]
  simp only [own_eq, Object.ownProperty?, h.kind, hnone]

end Linked

end Store

namespace VM

open Store

/-! ### Instructions that use slots and references -/

/-- The law that an arguments object goes on to stand for slots as it does. -/
def linkKept (o : ObjectId) (s : ScopeId) (mapped : List Bool) : Law := .keeping fun m => m.store.Linked o s mapped

section Kept

variable {o : ObjectId} {s : ScopeId} {mapped : List Bool}

theorem linkKept_modify {f : Machine → Machine} (h : ∀ m, (f m).store = m.store) :
    Heeds (linkKept o s mapped) (modify f : VM Unit) := by
  refine obeys_modify fun m hm => ?_
  show (f m).store.Linked o s mapped
  rw [h]
  exact hm

theorem linkKept_onStack (f : OperandStack → Outcome (α × OperandStack)) :
    Heeds (linkKept o s mapped) (onStack f) := by
  refine obeys_self fun m _ => ?_
  unfold onStack
  split
  · exact fun hm => hm
  · exact (linkKept o s mapped).refl m

@[grind ←] theorem linkKept_takeTop (popped : Bool) : Heeds (linkKept o s mapped) (takeTop popped) := by
  cases popped with
  | true => exact linkKept_onStack _
  | false => exact obeys_peek 0

@[grind ←] theorem linkKept_advance : Heeds (linkKept o s mapped) advance := linkKept_modify fun _ => rfl

@[grind ←] theorem linkKept_pushNext (v : Value) : Heeds (linkKept o s mapped) (pushNext v) :=
  Obeys.bind (linkKept_modify fun _ => rfl) fun _ => linkKept_advance

@[grind ←] theorem linkKept_pop : Heeds (linkKept o s mapped) pop := linkKept_onStack _

@[grind ←] theorem linkKept_setSlot (i : Nat) (v : Value) : Heeds (linkKept o s mapped) (setSlot i v) :=
  linkKept_onStack fun stack => (stack.set i v).map ((), ·)

@[grind ←] theorem linkKept_popRef : Heeds (linkKept o s mapped) popRef := by
  refine obeys_get_bind fun m _ => ?_
  cases m.refs with
  | nil => exact (linkKept o s mapped).refl m
  | cons r refs => exact fun hm => hm

theorem linkKept_reads {op : Store.Op α} (h : Reads op) : Heeds (linkKept o s mapped) (onStore op) :=
  obeys_self fun m _ hm => hm.makes (h m.store).1

@[grind ←] theorem linkKept_assign (p : ObjectId) (key : PropertyKey) (v : Value) (strict : Bool) :
    Heeds (linkKept o s mapped) (demand (assign p key v strict)) := by
  refine Obeys.bind (obeys_self fun m _ hm => ?_) fun _ => obeys_ofOutcome _
  exact hm.perform (.assign p key v strict)

@[grind ←] theorem linkKept_writeScopeSlot (t : ScopeId) (j : Nat) (v : Value) :
    Heeds (linkKept o s mapped) (writeScopeSlot t j v) := by
  refine (obeys_scopeRecord t).bind fun x => ?_
  split
  · exact obeys_self fun _ _ hm => hm.perform (.writeSlot t j v)
  · exact obeys_raise _

theorem updateScope_writeSlot (t : ScopeId) (name : Text) (j : Nat) (v : Value) (m : Machine) :
    updateScope t (·.writeSlot name j v) m =
      if j < (m.store.scope t).slots.size then .ok () (withStore m (m.store.perform (.writeSlot t j v)))
      else .error (.fault (.internal (.bindingSlot name.display))) m := by
  show (ofOutcome (if j < (m.store.scope t).slots.size then _ else _) >>= fun x => modifyScope t fun _ => x) m = _
  split
  case isFalse => rfl
  case isTrue hlt =>
    exact congrArg (fun σ => EStateM.Result.ok () (withStore m σ))
      (modifyScope_const m.store t fun x => { x with slots := x.slots.setIfInBounds j v })

theorem linkKept_updateScope (t : ScopeId) (name : Text) (j : Nat) (v : Value) :
    Heeds (linkKept o s mapped) (updateScope t (·.writeSlot name j v)) := by
  refine obeys_self fun m hm => ?_
  rw [updateScope_writeSlot]
  split
  · exact fun hm => hm.perform (.writeSlot t j v)
  · exact (linkKept o s mapped).refl m

@[grind ←] theorem linkKept_get (p : ObjectId) (key : PropertyKey) :
    Heeds (linkKept o s mapped) (onStore (Store.get? p key)) := linkKept_reads (reads_get p key)

@[grind ←] theorem linkKept_hasOwn (p : ObjectId) (key : PropertyKey) :
    Heeds (linkKept o s mapped) (onStore (hasOwn p key)) :=
  linkKept_reads ((reads_ownProperty p key).bind fun _ => .pure _)

@[grind ←] theorem linkKept_readReference (r : Reference) : Heeds (linkKept o s mapped) (readReference r) := by
  cases r <;> grind [readReference]

@[grind ←] theorem linkKept_writeReference (r : Reference) (v : Value) :
    Heeds (linkKept o s mapped) (writeReference r v) := by
  cases r with
  | scope name t i kind =>
    have hwrite : Heeds (linkKept o s mapped) _ := linkKept_updateScope t name i v
    grind [writeReference]
  | _ => grind [writeReference]

@[grind ←] theorem linkKept_initReference (r : Reference) (v : Value) :
    Heeds (linkKept o s mapped) (initReference r v) := by
  cases r with
  | scope name t i kind => exact linkKept_updateScope t name i v
  | _ => grind [initReference]

end Kept

/-- Instructions that read or write slots of records by their address, or what a reference was resolved to. -/
def usesSlots : Instruction → Bool
  | .loadScope .. | .storeScope .. | .initScope _ | .getValue | .putValue _ | .initValue => true
  | _ => false

theorem linkKept_execute {o : ObjectId} {s : ScopeId} {mapped : List Bool} {instr : Instruction} (h : usesSlots instr = true)
    (enter : Enter) (fuel : Nat) :
    Heeds (linkKept o s mapped) (execute enter fuel instr) := by
  cases instr with
  | loadScope a lexical => grind [execute, loadScope]
  | storeScope a lexical popped => grind [execute, storeScope]
  | initScope a => grind [execute, initScope]
  | getValue => grind [execute, getValue]
  | putValue popped => grind [execute, putValue]
  | initValue => grind [execute, initValue]
  | _ => cases h

/-! ### Writing slots -/

/-- Instructions that write a slot of a record, by its address or through a reference to it. -/
inductive WritesSlot (m : Machine) (s : ScopeId) (i : Nat) : Instruction → Prop where
  | store {level : Nat} {lexical popped : Bool} (reached : m.store.outward level m.regs.scope = some s)
      (initialized : lexical = true → (m.store.scope s).slots[i]? ≠ some .empty) :
      WritesSlot m s i (.storeScope ⟨level, i⟩ lexical popped)
  | init {level : Nat} (reached : m.store.outward level m.regs.scope = some s) : WritesSlot m s i (.initScope ⟨level, i⟩)
  | put {name : Text} {kind : BindingKind} {rest : List Reference} {popped : Bool}
      (resolved : m.refs = .scope name s i kind :: rest)
      (admitted : ∀ v, (m.store.scope s).slots[i]? = some v → kind.admits name v = .ok true) :
      WritesSlot m s i (.putValue popped)
  | initReference {name : Text} {kind : BindingKind} {rest : List Reference}
      (resolved : m.refs = .scope name s i kind :: rest) : WritesSlot m s i .initValue

section Writes

variable {m : Machine} {s : ScopeId} {i : Nat} {v : Value} {stack : OperandStack} {instr : Instruction}

theorem takeTop_of_pop (hpop : m.stack.pop = .ok (v, stack)) (popped : Bool) :
    ∃ rest, takeTop popped m = .ok v { m with stack := rest } := by
  cases popped with
  | true => exact ⟨stack, onStack_of_ok hpop⟩
  | false => exact ⟨m.stack, readStack_of_ok (g := (·.peek 0)) (OperandStack.pop_eq_ok hpop)⟩

theorem popRef_of_cons {r : Reference} {rest : List Reference} (h : m.refs = r :: rest) :
    popRef m = .ok r { m with refs := rest } := by
  rw [popRef, get_bind, h]
  rfl

theorem writeScopeSlot_of_lt (hi : i < (m.store.scope s).slots.size) (v : Value) :
    writeScopeSlot s i v m = .ok () (withStore m (m.store.perform (.writeSlot s i v))) := by
  unfold writeScopeSlot
  rw [scopeRecord_bind, if_pos hi]
  rfl

theorem WritesSlot.execute (h : WritesSlot m s i instr) (hi : i < (m.store.scope s).slots.size)
    (hpop : m.stack.pop = .ok (v, stack)) (enter : Enter) (fuel : Nat) :
    ∃ m', VM.execute enter fuel instr m = .ok () m' ∧ (m'.store.scope s).slots[i]? = some v ∧
      m'.store = m.store.perform (.writeSlot s i v) := by
  have hslot := Array.getElem?_eq_getElem hi
  have hwritten : ((m.store.perform (.writeSlot s i v)).scope s).slots[i]? = some v :=
    (slots_modifyScope m.store s i i v).trans (if_pos ⟨rfl, hi⟩)
  cases h with
  | @store level lexical popped reached initialized =>
    obtain ⟨rest, htake⟩ := takeTop_of_pop hpop popped
    have hadmitted : ¬ (lexical && ((m.store.scope s).slots[i]?).any Value.isEmpty) = true := by
      rw [hslot] at initialized ⊢
      cases lexical with
      | false => simp
      | true =>
        generalize (m.store.scope s).slots[i] = w at initialized
        cases w with
        | empty => exact absurd rfl (initialized rfl)
        | _ => simp [Value.isEmpty]
    have hrun : storeScope ⟨level, i⟩ lexical popped m =
        advance (withStore { m with stack := rest } (m.store.perform (.writeSlot s i v))) := by
      rw [storeScope, bind_ok (show scopeAt level m = .ok s m from outerScope_eq reached), bind_ok htake, scopeRecord_bind,
        if_neg hadmitted]
      exact bind_ok (writeScopeSlot_of_lt (m := { m with stack := rest }) hi v)
    exact ⟨_, hrun, hwritten, rfl⟩
  | @init level reached =>
    have hrun : initScope ⟨level, i⟩ m = advance (withStore { m with stack } (m.store.perform (.writeSlot s i v))) := by
      rw [initScope, bind_ok (show scopeAt level m = .ok s m from outerScope_eq reached),
        bind_ok (show pop m = .ok v { m with stack } from onStack_of_ok hpop)]
      exact bind_ok (writeScopeSlot_of_lt (m := { m with stack }) hi v)
    exact ⟨_, hrun, hwritten, rfl⟩
  | @put name kind refs popped resolved admitted =>
    obtain ⟨rest, htake⟩ := takeTop_of_pop (m := { m with refs }) hpop popped
    have hwrite : writeReference (.scope name s i kind) v { m with refs, stack := rest } =
        .ok () (withStore { m with refs, stack := rest } (m.store.perform (.writeSlot s i v))) := by
      unfold writeReference
      dsimp only
      rw [scopeRecord_bind, hslot]
      dsimp only
      rw [admitted _ hslot]
      refine (updateScope_writeSlot s name i v { m with refs, stack := rest }).trans (if_pos hi)
    have hrun : putValue popped m =
        advance (withStore { m with refs, stack := rest } (m.store.perform (.writeSlot s i v))) := by
      rw [putValue, bind_ok (popRef_of_cons resolved), bind_ok htake]
      exact bind_ok hwrite
    exact ⟨_, hrun, hwritten, rfl⟩
  | @initReference name kind refs resolved =>
    have hwrite : VM.initReference (.scope name s i kind) v { m with refs, stack } =
        .ok () (withStore { m with refs, stack } (m.store.perform (.writeSlot s i v))) :=
      (updateScope_writeSlot s name i v { m with refs, stack }).trans (if_pos hi)
    have hrun : initValue m = advance (withStore { m with refs, stack } (m.store.perform (.writeSlot s i v))) := by
      rw [initValue, bind_ok (popRef_of_cons resolved),
        bind_ok (show pop { m with refs } = .ok v { m with refs, stack } from onStack_of_ok hpop)]
      exact bind_ok hwrite
    exact ⟨_, hrun, hwritten, rfl⟩

end Writes

/-! ### From the creation of the object on -/

section Create

variable {m m₁ : Machine} {n : Nat} {mapped : Bool}

theorem callee_of_createArguments (h : createArguments n true m = .ok () m₁) : ∃ callee, calleeOfFrame m = .ok callee m := by
  rw [createArguments_eq] at h
  obtain ⟨callee, m₂, hcallee, -⟩ := bind_eq_ok.mp h
  obtain rfl := (calleeOfFrame_eq_ok.mp hcallee).1
  exact ⟨callee, calleeOfFrame_congr hcallee rfl rfl⟩

theorem linked_of_createArguments (hroom : n ≤ (m.store.scope m.regs.scope).slots.size)
    (h : createArguments n mapped m = .ok () m₁) :
    m₁.stack = m.stack.push (.object m.store.fresh) ∧
      m₁.store.Linked m.store.fresh m.regs.scope (if mapped then List.replicate (min n m.regs.args) true else []) := by
  have hcallee : ∃ callee, mapped = true → calleeOfFrame m = .ok callee m := by
    cases mapped with
    | false => exact ⟨.undefined, nofun⟩
    | true =>
      obtain ⟨callee, hcallee⟩ := callee_of_createArguments h
      exact ⟨callee, fun _ => hcallee⟩
  obtain ⟨callee, hcallee⟩ := hcallee
  obtain ⟨t, hcreate, -, -⟩ := createArguments_of_callee _ hcallee n
  rw [hcreate] at h
  cases h
  refine ⟨rfl, ?_, ?_⟩
  · show ((m.store.added _).settled m.store.fresh).kind = _
    rw [settled, object_added]
    rfl
  · show (if mapped then List.replicate (min n m.regs.args) true else []).length ≤ (m.store.scope m.regs.scope).slots.size
    cases mapped with
    | false => exact Nat.zero_le _
    | true =>
      simp only [if_true, List.length_replicate]
      omega

end Create

/-- Parameters and arguments used in turn: instructions that use slots and references, whether they succeed or fail, and
operations on any objects.  In between the machine may do whatever leaves the arguments object and the slots of the record
as they are.  The list tells of the operations. -/
inductive Interleaved (enter : Enter) (fuel : Nat) (o : ObjectId) (s : ScopeId) (m : Machine) :
    List Operation → Machine → Prop where
  | start : Interleaved enter fuel o s m [] m
  | use {ops m₁ m₂ instr} (before : Interleaved enter fuel o s m ops m₁) (uses : usesSlots instr = true)
      (ends : Ends (execute enter fuel instr) m₁ m₂) : Interleaved enter fuel o s m ops m₂
  | operate {ops m₁} (before : Interleaved enter fuel o s m ops m₁) (op : Operation) :
      Interleaved enter fuel o s m (ops ++ [op]) (withStore m₁ (m₁.store.perform op))
  | elsewhere {ops m₁ m₂} (before : Interleaved enter fuel o s m ops m₁)
      (object : m₂.store.settled o = m₁.store.settled o)
      (slots : (m₂.store.scope s).slots = (m₁.store.scope s).slots) : Interleaved enter fuel o s m ops m₂

section Main

variable {enter : Enter} {fuel : Nat} {o : ObjectId} {s : ScopeId} {m m' : Machine} {ops : List Operation}
  {mapped : List Bool} {key : PropertyKey} {i : Nat}

instance : (linkKept o s mapped).Strict := ⟨id⟩

theorem Interleaved.linked (h : Interleaved enter fuel o s m ops m') (hlinked : m.store.Linked o s mapped) :
    m'.store.Linked o s (ops.foldl (Operation.unmap o) mapped) := by
  induction h with
  | start => exact hlinked
  | use _ uses ends ih => exact (linkKept_execute uses enter fuel).ends ih ends ih
  | operate _ op ih =>
    rw [List.foldl_append]
    exact ih.perform op
  | elsewhere _ object slots ih => exact ih.elsewhere object slots

/-- The index of the object and the slot of the record are one. -/
structure Aliased (enter : Enter) (fuel : Nat) (m : Machine) (o : ObjectId) (key : PropertyKey) (s : ScopeId) (i : Nat) :
    Prop where
  current : ∃ v, (m.store.scope s).slots[i]? = some v ∧ m.store.own o key = some (.plain v.orUndefined)
  assigned : ∀ v strict, ∃ σ, (assign o key v strict).run m.store = (.ok true, σ) ∧ (σ.scope s).slots[i]? = some v
  written : ∀ instr v stack, WritesSlot m s i instr → m.stack.pop = .ok (v, stack) →
    ∃ m', execute enter fuel instr m = .ok () m' ∧ (m'.store.scope s).slots[i]? = some v ∧
      m'.store.own o key = some (.plain v.orUndefined)

/-- Nothing that is done to the index of the object changes the slot of the record, nor the other way round. -/
structure Apart (enter : Enter) (fuel : Nat) (m : Machine) (o : ObjectId) (key : PropertyKey) (s : ScopeId) (i : Nat) :
    Prop where
  assigned : ∀ v strict, (((assign o key v strict).run m.store).2.scope s).slots[i]? = (m.store.scope s).slots[i]?
  defined : ∀ p strict, (((define o key p strict).run m.store).2.scope s).slots[i]? = (m.store.scope s).slots[i]?
  deleted : ∀ strict, (((delete o key strict).run m.store).2.scope s).slots[i]? = (m.store.scope s).slots[i]?
  written : ∀ instr v stack, WritesSlot m s i instr → i < (m.store.scope s).slots.size → m.stack.pop = .ok (v, stack) →
    ∃ m', execute enter fuel instr m = .ok () m' ∧ (m'.store.scope s).slots[i]? = some v ∧
      m'.store.own o key = m.store.own o key

theorem aliased_of_linked (h : m.store.Linked o s mapped) (hindex : key.index? = some i) (hi : mapped[i]? = some true) :
    Aliased enter fuel m o key s i where
  current := h.own_mapped hindex hi
  assigned := h.assign_mapped hindex hi
  written instr v stack hwrites hpop := by
    obtain ⟨m', hrun, hslot, hstore⟩ := hwrites.execute (h.lt_size hi) hpop enter fuel
    obtain ⟨w, hw, hown⟩ := (hstore ▸ h.perform (.writeSlot s i v) : m'.store.Linked o s mapped).own_mapped hindex hi
    rw [hslot] at hw
    cases hw
    exact ⟨m', hrun, hslot, hown⟩

theorem apart_of_linked (h : m.store.Linked o s mapped) (hindex : key.index? = some i) (hi : mapped[i]? ≠ some true) :
    Apart enter fuel m o key s i where
  assigned v strict := by
    have hnone : Object.mappedIndex? mapped key = none := by simp [Object.mappedIndex?, hindex, hi]
    rw [scope, scopes_assign_of_unmapped h.kind hnone]
    rfl
  defined p strict := congrArg (·.slots[i]?) (scope_perform_of_redefined m.store (.define o key p strict) nofun s)
  deleted strict := congrArg (·.slots[i]?) (scope_perform_of_redefined m.store (.delete o key strict) nofun s)
  written instr v stack hwrites hlt hpop := by
    obtain ⟨m', hrun, hslot, hstore⟩ := hwrites.execute hlt hpop enter fuel
    refine ⟨m', hrun, hslot, ?_⟩
    rw [hstore, (h.perform (.writeSlot s i v)).own_unmapped hindex hi, h.own_unmapped hindex hi]
    rfl

/-- **Arguments stand for parameters until they are defined or deleted.**  However the parameters of a function and its
arguments object are used in turn: an index of a mapped object that was passed, and has not been defined or deleted since,
is one with the slot of its parameter.  Any other index and the slot of its number are apart: one that was not passed, one
that has been defined or deleted, and all indices of an object that is not mapped. -/
theorem parameters_aliased {m m₁ : Machine} {n : Nat} {mapped : Bool}
    (hroom : n ≤ (m.store.scope m.regs.scope).slots.size) (hcreate : createArguments n mapped m = .ok () m₁) :
    ∃ o, m₁.stack = m.stack.push (.object o) ∧
      ∀ enter fuel ops m', Interleaved enter fuel o m.regs.scope m₁ ops m' → ∀ key i, key.index? = some i →
        ((mapped = true ∧ i < min n m.regs.args ∧ ∀ op ∈ ops, ¬ op.Unmaps o i) →
          Aliased enter fuel m' o key m.regs.scope i) ∧
        (¬ (mapped = true ∧ i < min n m.regs.args ∧ ∀ op ∈ ops, ¬ op.Unmaps o i) →
          Apart enter fuel m' o key m.regs.scope i) := by
  obtain ⟨hstack, hlinked⟩ := linked_of_createArguments hroom hcreate
  refine ⟨m.store.fresh, hstack, fun enter fuel ops m' hm' key i hindex => ?_⟩
  have hstands : (ops.foldl (Operation.unmap m.store.fresh)
      (if mapped then List.replicate (min n m.regs.args) true else []))[i]? = some true ↔
        mapped = true ∧ i < min n m.regs.args ∧ ∀ op ∈ ops, ¬ op.Unmaps m.store.fresh i := by
    rw [Store.getElem?_unmapAll]
    cases mapped with
    | false => simp
    | true => simp [List.getElem?_replicate]
  have hlinked' := hm'.linked hlinked
  exact ⟨fun h => aliased_of_linked hlinked' hindex (hstands.mpr h),
    fun h => apart_of_linked hlinked' hindex fun hi => h (hstands.mp hi)⟩

/-- In a function of two parameters, called with one argument. -/
def onePassed : Machine :=
  { Machine.new .default with
    store := { Store.empty with
      objects := #[.ofKind none .ordinary]
      scopes := #[{ Scope.new none with slots := #[.int 1, .undefined] }] }
    stack := ((OperandStack.new.push .null).push .undefined).push (.int 7)
    regs := { Activation.idle ⟨0⟩ with base := some 1, args := 1 } }

theorem createArguments_onePassed (mapped : Bool) :
    createArguments 2 mapped onePassed = .ok () (endOf (createArguments 2 mapped onePassed)) := by
  cases mapped <;> rfl

theorem index?_ofNat_zero : (PropertyKey.ofNat 0).index? = some 0 := PropertyKey.index?_ofNat (by decide)

/-- The argument is one with the first parameter, until it is deleted. -/
theorem parameters_aliased_onePassed :
    let m := endOf (createArguments 2 true onePassed)
    ∃ o, m.stack = onePassed.stack.push (.object o) ∧
      Aliased (fun _ => outOfFuel) 0 m o (.ofNat 0) ⟨0⟩ 0 ∧
      Apart (fun _ => outOfFuel) 0 (withStore m (m.store.perform (.delete o (.ofNat 0) true))) o (.ofNat 0) ⟨0⟩ 0 := by
  obtain ⟨o, hstack, hlife⟩ := parameters_aliased (Nat.le_refl 2) (createArguments_onePassed true)
  refine ⟨o, hstack, ?_, ?_⟩
  · exact (hlife _ 0 [] _ .start _ 0 index?_ofNat_zero).1 ⟨rfl, by decide, by simp⟩
  · refine (hlife _ 0 _ _ (.operate .start (.delete o (.ofNat 0) true)) _ 0 index?_ofNat_zero).2 ?_
    rintro ⟨-, -, hops⟩
    exact hops (.delete o (.ofNat 0) true) (by simp) ⟨.ofNat 0, rfl, index?_ofNat_zero⟩

/-- The second parameter has a slot, but no argument stands for it. -/
theorem unpassed_parameter_not_aliased :
    let m := endOf (createArguments 2 true onePassed)
    createArguments 2 true onePassed = .ok () m ∧ 2 ≤ (onePassed.store.scope onePassed.regs.scope).slots.size ∧
      m.stack = onePassed.stack.push (.object ⟨1⟩) ∧
      ¬ Aliased (fun _ => outOfFuel) 0 m ⟨1⟩ (.ofNat 1) onePassed.regs.scope 1 := by
  refine ⟨createArguments_onePassed true, Nat.le_refl 2, rfl, fun h => ?_⟩
  obtain ⟨v, -, hown⟩ := h.current
  cases show none = some (Property.plain v.orUndefined) from hown

end Main

end VM

end ScriptMachine
