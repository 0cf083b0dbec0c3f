import ScriptMachine.Proofs.GlobalDeclarations
import ScriptMachine.Proofs.Handlers
import ScriptMachine.Proofs.InheritedProperties

/-!
# Assignments to global names

A global name is assigned by one instruction, or resolved by one and assigned by the next.  The one instruction asks
whether the global object has the name itself.  The two ask first, to resolve the name, whether it has it at all, and
again, to assign, whether it has it itself.  On the way they may make other lazy objects, but what becomes of the name is
the same.

Main result: `global_assignments_agree`.
-/

namespace ScriptMachine

/-! ### Assignments to an ordinary object -/

/-- What an assignment makes of an object that inherits a property, if the table of the object holds its properties:
whether it is carried out, and the object after it. -/
def Object.withAssigned (x : Object) (inherited : Option Property) (key : PropertyKey) (v : Value) : Bool × Object :=
  match x.properties.find? key with
  | some p =>
    if p.writable then (true, { x with properties := x.properties.insert key { p with value := v } }) else (false, x)
  | none =>
    if (inherited.any fun p => !p.writable) || !x.extensible then (false, x)
    else (true, { x with properties := x.properties.insert key (.plain v) })

theorem Object.withAssigned_refused {x : Object} {inherited : Option Property} {key : PropertyKey} {v : Value}
    (h : (x.withAssigned inherited key v).1 = false) : (x.withAssigned inherited key v).2 = x := by
  revert h
  unfold withAssigned
  split <;> split <;> intro h <;> first | rfl | cases h

namespace Store

def inherited? (x : Object) (key : PropertyKey) : Op (Option Property) :=
  match x.prototype with
  | some p => find? p key
  | none => return none

theorem reads_inherited (x : Object) (key : PropertyKey) : Reads (inherited? x key) := by
  unfold inherited?
  split
  · exact reads_find _ key
  · exact .pure none

variable {σ : Store} {o : ObjectId}

/-- The assignment is carried out as the table of the object and the inherited property say; of the other objects some
may be made. -/
theorem run_assignInTable (hknown : o.index < σ.objects.size) (hmade : (σ.object o).settled = σ.object o)
    (key : PropertyKey) (v : Value) :
    ∃ σ', (assignInTable o key v).run σ =
        (((σ.object o).withAssigned ((inherited? (σ.object o) key).run σ).1 key v).1, σ') ∧
      σ'.object o = ((σ.object o).withAssigned ((inherited? (σ.object o) key).run σ).1 key v).2 ∧
      σ'.scopes = σ.scopes := by
  unfold Object.withAssigned
  cases hcurrent : (σ.object o).properties.find? key with
  | some p =>
    rw [run_assignInTable_of_some hcurrent]
    dsimp only
    split
    · exact ⟨_, rfl, by rw [object_setObject hknown, if_pos rfl], rfl⟩
    · exact ⟨σ, rfl, rfl, rfl⟩
  | none =>
    have hreads := (reads_inherited (σ.object o) key σ).1
    have hobject : ((inherited? (σ.object o) key).run σ).2.object o = σ.object o := hreads.object_eq hmade
    have hrun : (assignInTable o key v).run σ =
        if (((inherited? (σ.object o) key).run σ).1.any fun p => !p.writable) || !(σ.object o).extensible then
          (false, ((inherited? (σ.object o) key).run σ).2)
        else (true, ((inherited? (σ.object o) key).run σ).2.modifyObject o fun x =>
          { x with properties := x.properties.insert key (.plain v) }) := by
      unfold assignInTable inherited?
      rw [run_get_bind]
      dsimp only
      rw [hcurrent]
      cases (σ.object o).prototype <;> dsimp only <;> rw [run_bind] <;> split <;> rfl
    rw [hrun]
    split
    · exact ⟨_, rfl, hobject, hreads.scopes⟩
    · refine ⟨_, rfl, ?_, hreads.scopes⟩
      rw [modifyObject_eq, object_setObject (by rw [hreads.size]; exact hknown), if_pos rfl, hobject]

end Store

/-! ### Globals -/

namespace Machine

/-- The scope of the running code is the global record, which has slots and is the outermost one. -/
structure AtTopLevel (m : Machine) : Prop extends m.HasGlobals where
  scope : m.regs.scope = m.realm.globalScope
  slotBacked : m.globalRecord.object = none
  outermost : m.globalRecord.outer = none

/-- The machines have the same global record and the same global object. -/
structure SameGlobals (m m' : Machine) : Prop where
  record : m'.globalRecord = m.globalRecord
  object : m'.globalObject = m.globalObject

theorem SameGlobals.refl (m : Machine) : m.SameGlobals m := ⟨rfl, rfl⟩

theorem atTopLevel_new (limits : Limits) : (new limits).AtTopLevel := ⟨hasGlobals_new limits, rfl, rfl, rfl⟩

end Machine

namespace VM

open Store
open Machine (HasGlobals AtTopLevel SameGlobals)

/-- What becomes of the globals by two assignments that start from `m`: both leave the same operands and the same
globals, or both fail with errors of the same kind and message and leave the globals as they were. -/
def AssignsAlike (m : Machine) : EStateM.Result Abort Machine Unit → EStateM.Result Abort Machine Unit → Prop
  | .ok _ m₁, .ok _ m₂ => m₂.stack = m₁.stack ∧ m₁.SameGlobals m₂
  | .error (.fault f₁) m₁, .error (.fault f₂) m₂ => f₁.report = f₂.report ∧ m.SameGlobals m₁ ∧ m.SameGlobals m₂
  | _, _ => False

section Assigning

variable {m m' : Machine} {name : Text} {v : Value} {info : SlotInfo} {strict : Bool}

theorem AssignsAlike.advance {x y : VM Unit} (h : AssignsAlike m (x m) (y m')) :
    AssignsAlike m ((do x; VM.advance : VM Unit) m) ((do y; VM.advance : VM Unit) m') := by
  cases hx : x m with
  | ok a m₁ =>
    cases hy : y m' with
    | ok b m₂ =>
      rw [hx, hy] at h
      rw [bind_ok hx, bind_ok hy]
      exact ⟨h.1, ⟨h.2.record, h.2.object⟩⟩
    | error e m₂ =>
      rw [hx, hy] at h
      exact h.elim
  | error e m₁ =>
    cases hy : y m' with
    | ok b m₂ =>
      rw [hx, hy] at h
      cases e <;> exact h.elim
    | error e' m₂ =>
      rw [bind_error hx, bind_error hy, ← hx, ← hy]
      exact h

/-! ### A property of the global object -/

/-- The machine has the same globals, and differs in lazy objects that have been made, and in nothing else an assignment
looks at. -/
structure Ready (m m' : Machine) : Prop where
  stack : m'.stack = m.stack
  realm : m'.realm = m.realm
  made : Makes m.store m'.store

theorem Ready.object (h : Ready m m') (hm : m.HasGlobals) : m'.globalObject = m.globalObject := by
  unfold Machine.globalObject
  rw [h.realm]
  exact h.made.object_eq hm.settled

theorem Ready.record (h : Ready m m') : m'.globalRecord = m.globalRecord := by
  unfold Machine.globalRecord
  rw [h.realm, h.made.scope]

theorem Ready.sameGlobals (h : Ready m m') (hm : m.HasGlobals) : m.SameGlobals m' := ⟨h.record, h.object hm⟩

theorem Ready.hasGlobals (h : Ready m m') (hm : m.HasGlobals) : m'.HasGlobals where
  object := by
    rw [h.realm, h.made.size]
    exact hm.object
  ordinary := by
    have hkind := hm.ordinary
    rw [← Machine.globalObject] at hkind ⊢
    rw [h.object hm]
    exact hkind
  record := by
    rw [h.realm, h.made.scopes]
    exact hm.record

def assignedGlobal (m : Machine) (name : Text) (v : Value) : Bool × Object :=
  m.globalObject.withAssigned ((Store.inherited? m.globalObject (.text name)).run m.store).1 (.text name) v

theorem Ready.assignedGlobal_eq (h : Ready m m') (hm : m.HasGlobals) (name : Text) (v : Value) :
    assignedGlobal m' name v = assignedGlobal m name v := by
  unfold assignedGlobal
  rw [h.object hm, (reads_inherited _ _).answer h.made]

theorem demand_assign_global (hm : m.HasGlobals) (name : Text) (v : Value) (strict : Bool) :
    ∃ m₁, m₁.stack = m.stack ∧ m₁.globalRecord = m.globalRecord ∧
      m₁.globalObject = (assignedGlobal m name v).2 ∧
      (do let _ ← demand (assign m.realm.global (.text name) v strict) : VM Unit) m =
        match granted (assignedGlobal m name v).1 strict (.readOnly name.display) with
        | .ok _ => .ok () m₁
        | .error f => .error (.fault f) m₁ := by
  have htable : (m.store.object m.realm.global).InTable (.text name) := by
    simp only [Object.InTable, hm.ordinary]
  obtain ⟨σ', hrun, hobject, hscopes⟩ := run_assignInTable hm.object hm.settled (.text name) v
  have hassign : (assign m.realm.global (.text name) v strict).run m.store =
      (granted (assignedGlobal m name v).1 strict (.readOnly name.display), σ') := by
    rw [run_assign, run_materialize_of_settled hm.settled, assignByKind_of_inTable htable]
    rw [hrun]
    rfl
  refine ⟨withStore m σ', rfl, ?_, hobject, ?_⟩
  · show σ'.scope m.realm.globalScope = m.store.scope m.realm.globalScope
    rw [scope, scope, hscopes]
  · unfold demand
    rw [bind_assoc, bind_ok (onStore_of_run hassign)]
    cases granted (assignedGlobal m name v).1 strict (.readOnly name.display) <;> rfl

theorem alike_assign_global (hm : m.HasGlobals) (h : Ready m m') (name : Text) (v : Value) (strict : Bool) :
    AssignsAlike m ((do let _ ← demand (assign m.realm.global (.text name) v strict) : VM Unit) m)
      ((do let _ ← demand (assign m.realm.global (.text name) v strict) : VM Unit) m') := by
  obtain ⟨m₁, hstack₁, hrecord₁, hobject₁, hassign₁⟩ := demand_assign_global hm name v strict
  obtain ⟨m₂, hstack₂, hrecord₂, hobject₂, hassign₂⟩ := demand_assign_global (h.hasGlobals hm) name v strict
  rw [h.realm] at hassign₂
  rw [h.assignedGlobal_eq hm] at hobject₂ hassign₂
  rw [hassign₁, hassign₂]
  cases hgranted : granted (assignedGlobal m name v).1 strict (.readOnly name.display) with
  | ok b =>
    exact ⟨hstack₂.trans (h.stack.trans hstack₁.symm), hrecord₂.trans (h.record.trans hrecord₁.symm),
      hobject₂.trans hobject₁.symm⟩
  | error f =>
    -- a fault says that the assignment was not carried out
    have hrefused : (assignedGlobal m name v).1 = false := by
      cases hb : (assignedGlobal m name v).1 with
      | false => rfl
      | true =>
        rw [hb] at hgranted
        cases hgranted
    have hsame : (assignedGlobal m name v).2 = m.globalObject := Object.withAssigned_refused hrefused
    exact ⟨rfl, ⟨hrecord₁, hobject₁.trans hsame⟩, ⟨hrecord₂.trans h.record, hobject₂.trans hsame⟩⟩

theorem hasOwn_global_eq (hm : m.HasGlobals) (name : Text) :
    onStore (hasOwn m.realm.global (.text name)) m = .ok (m.globalOwn? name).isSome m := by
  have hmade := run_materialize_of_settled hm.settled
  have hrun : ((hasOwn m.realm.global (.text name)).run m.store).2 = m.store := congrArg Prod.snd hmade
  rw [onStore_eq, hrun]
  rfl

/-- In strict mode a name of the global object has to be its own: this is tested before the assignment, and what is found
missing is reported under the name. -/
theorem writeReference_global (hm : m.HasGlobals) (name : Text) (v : Value) (strict : Bool) :
    writeReference (.property m.realm.global (.text name) strict true) v m =
      if strict && (m.globalOwn? name).isNone then .error (.fault (.unresolved (Text.ofString name.display))) m
      else (do let _ ← demand (assign m.realm.global (.text name) v strict) : VM Unit) m := by
  cases strict with
  | false => rfl
  | true =>
    show (onStore (hasOwn m.realm.global (.text name)) >>= _) m = _
    rw [bind_ok (hasOwn_global_eq hm name)]
    cases m.globalOwn? name <;> rfl

theorem assignGlobal_of_unbound (hm : m.AtTopLevel) (hname : m.globalRecord.find? name = none) (v : Value)
    (strict : Bool) :
    assignGlobal name v strict m =
      if strict && (m.globalOwn? name).isNone then .error (.fault (.unresolved name)) m
      else (do let _ ← demand (assign m.realm.global (.text name) v strict) : VM Unit) m := by
  have hnone : referenceIn? name strict m.realm.globalScope m = .ok none m := by
    rw [referenceIn_of_slots strict hm.slotBacked, ← Machine.globalRecord, hname]
    rfl
  unfold assignGlobal
  rw [realm_bind, bind_ok hnone]
  cases strict with
  | false => rfl
  | true =>
    show (onStore (hasOwn m.realm.global (.text name)) >>= _) m = _
    rw [bind_ok (hasOwn_global_eq hm.toHasGlobals name)]
    cases m.globalOwn? name <;> rfl

/-- The one instruction and a reference to the name assign alike.  They name what is missing in different spellings, which
are reported the same. -/
theorem alike_assignGlobal (hm : m.AtTopLevel) (h : Ready m m') (hname : m.globalRecord.find? name = none) (v : Value)
    (strict : Bool) :
    AssignsAlike m (assignGlobal name v strict m)
      (writeReference (.property m.realm.global (.text name) strict true) v m') := by
  have hglobals := hm.toHasGlobals
  have hown : m'.globalOwn? name = m.globalOwn? name := by
    rw [(h.hasGlobals hglobals).globalOwn?_eq, hglobals.globalOwn?_eq, h.object hglobals]
  have hwrite := writeReference_global (h.hasGlobals hglobals) name v strict
  rw [h.realm, hown] at hwrite
  rw [assignGlobal_of_unbound hm hname, hwrite]
  split
  · have hreport : (Fault.unresolved name).report = (Fault.unresolved (Text.ofString name.display)).report := by
      simp only [Fault.report, Text.display_ofString]
    exact ⟨hreport, .refl m, h.sameGlobals hglobals⟩
  · exact alike_assign_global hglobals h name v strict

/-! ### A slot of the global record -/

def withGlobalRecord (m : Machine) (x : Scope) : Machine :=
  withStore m (m.store.modifyScope m.realm.globalScope fun _ => x)

theorem globalRecord_withGlobalRecord (hm : m.HasGlobals) (x : Scope) : (withGlobalRecord m x).globalRecord = x :=
  scope_modifyScope hm.record _

theorem alike_updateScope (hm : m.HasGlobals) (h : Ready m m') (f : Scope → Outcome Scope) :
    AssignsAlike m (updateScope m.realm.globalScope f m) (updateScope m.realm.globalScope f m') := by
  have hupdate : ∀ n : Machine, n.realm = m.realm → updateScope m.realm.globalScope f n =
      match f n.globalRecord with
      | .ok x => .ok () (withGlobalRecord n x)
      | .error f => .error (.fault f) n := by
    intro n hn
    unfold updateScope withGlobalRecord Machine.globalRecord
    rw [scopeRecord_bind, hn]
    cases f (n.store.scope m.realm.globalScope) <;> rfl
  rw [hupdate m rfl, hupdate m' h.realm, h.record]
  cases f m.globalRecord with
  | ok x =>
    refine ⟨h.stack, ?_, h.object hm⟩
    rw [globalRecord_withGlobalRecord hm, globalRecord_withGlobalRecord (h.hasGlobals hm)]
  | error f => exact ⟨rfl, .refl m, h.sameGlobals hm⟩

/-- A slot of the global record is written alike: constants and what is not initialised are told by the record. -/
theorem alike_writeReference_record (hm : m.HasGlobals) (h : Ready m m') (name : Text) (i : Nat) (kind : BindingKind)
    (v : Value) :
    AssignsAlike m (writeReference (.scope name m.realm.globalScope i kind) v m)
      (writeReference (.scope name m.realm.globalScope i kind) v m') := by
  have hrecord : m'.store.scope m.realm.globalScope = m.globalRecord := h.made.scope _
  unfold writeReference
  dsimp only
  rw [scopeRecord_bind, scopeRecord_bind, hrecord, ← Machine.globalRecord]
  cases m.globalRecord.slots[i]? with
  | none => exact ⟨rfl, .refl m, h.sameGlobals hm⟩
  | some current =>
    dsimp only
    cases kind.admits name current with
    | error f => exact ⟨rfl, .refl m, h.sameGlobals hm⟩
    | ok admitted =>
      cases admitted with
      | false => exact ⟨h.stack, h.sameGlobals hm⟩
      | true => exact alike_updateScope hm h (·.writeSlot name i v)

theorem assignGlobal_of_bound (hm : m.AtTopLevel) (hname : m.globalRecord.find? name = some info)
    (v : Value) (strict : Bool) :
    assignGlobal name v strict m =
      writeReference (.scope name m.realm.globalScope info.index (info.kind.foldStrict strict)) v m := by
  have hsome : referenceIn? name strict m.realm.globalScope m =
      .ok (some (.scope name m.realm.globalScope info.index (info.kind.foldStrict strict))) m := by
    rw [referenceIn_of_slots strict hm.slotBacked, ← Machine.globalRecord, hname]
    rfl
  unfold assignGlobal
  rw [realm_bind, bind_ok hsome]

/-! ### Where a name is found at top level -/

theorem provides_iff_bound (hm : m.AtTopLevel) :
    m.store.Provides name m.regs.scope ↔ (m.globalRecord.find? name).isSome = true := by
  unfold Provides
  rw [hm.scope, recordProvides_of_slots hm.slotBacked]
  rfl

theorem found_bound (hm : m.AtTopLevel) (hname : m.globalRecord.find? name = some info) :
    Found m name (.slot m.realm.globalScope info) := by
  have hprovides : m.store.Provides name m.regs.scope := (provides_iff_bound hm).mpr (by rw [hname]; rfl)
  exact .slot ⟨0, congrArg some hm.scope, hm.scope ▸ hprovides, fun j hj => absurd hj (Nat.not_lt_zero j)⟩ hm.slotBacked
    hname

theorem unprovided_of_unbound (hm : m.AtTopLevel) (hname : m.globalRecord.find? name = none) :
    m.store.Unprovided name m.regs.scope := by
  intro n t ht
  cases n with
  | zero =>
    cases ht
    rw [provides_iff_bound hm, hname]
    exact Bool.false_ne_true
  | succ n =>
    have houter : (m.store.scope m.regs.scope).outer = none := by
      rw [hm.scope]
      exact hm.outermost
    rw [outward, houter] at ht
    cases ht

theorem hasProperty_of_own {p : Property} (h : m.globalOwn? name = some p) :
    m.store.HasProperty m.realm.global (.text name) := by
  have hfind := (Store.Nearest.own h).answer_find
  exact congrArg Option.isSome hfind

/-! ### The two ways -/

theorem put_resolved {r : Reference} {σ : Store} (h : resolve name strict m = .ok r (withStore m σ)) :
    (do resolveName name strict; putValue false : VM Unit) m =
      (do
        writeReference r (← peek 0)
        advance : VM Unit) (withStore m σ).advanced := by
  have hresolve : resolveName name strict m = .ok () { (withStore m σ).advanced with refs := r :: m.refs } := bind_ok h
  rw [bind_ok hresolve]
  rfl

theorem alike_of_peek (hm : m.HasGlobals) (h : Ready m m') {x y : Value → VM Unit}
    (hassign : ∀ v, AssignsAlike m (x v m) (y v m')) :
    AssignsAlike m ((do x (← peek 0); advance : VM Unit) m) ((do y (← peek 0); advance : VM Unit) m') := by
  have hpeek : ∀ n : Machine, n.stack = m.stack → peek 0 n = ofOutcome (m.stack.peek 0) n := fun n hn => by rw [← hn]; rfl
  have hx := hpeek m rfl
  have hy := hpeek m' h.stack
  cases hv : m.stack.peek 0 with
  | ok v =>
    rw [hv] at hx hy
    rw [bind_ok hx, bind_ok hy]
    exact (hassign v).advance
  | error f =>
    rw [hv] at hx hy
    rw [bind_error hx, bind_error hy]
    exact ⟨rfl, .refl m, h.sameGlobals hm⟩

theorem alike_of_found (hm : m.HasGlobals) {place : Place} (hfound : Found m name place)
    (hassign : ∀ m', Ready m m' → ∀ v, AssignsAlike m (assignGlobal name v strict m)
      (writeReference (place.reference m.realm.global name strict) v m')) :
    AssignsAlike m (setGlobal name strict m) ((do resolveName name strict; putValue false : VM Unit) m) := by
  obtain ⟨σ, hσ, hresolve⟩ := hfound.resolve strict
  have hready : Ready m (withStore m σ).advanced := ⟨rfl, rfl, hσ⟩
  rw [put_resolved hresolve]
  exact alike_of_peek hm hready (hassign _ hready)

end Assigning

/-- **Assignments to a global name have one meaning.**  At top level, to set a global name and to resolve it and assign to
the reference leave the same operands, the same global record and the same global object, or both fail with an error of
the same kind and message and leave the globals as they were. -/
theorem global_assignments_agree (enter : Enter) (fuel : Nat) {m : Machine} (hm : m.AtTopLevel) (name : Text)
    (strict : Bool) :
    AssignsAlike m (execute enter fuel (.setGlobal name strict) m)
      ((do execute enter fuel (.resolveName name strict); execute enter fuel (.putValue false) : VM Unit) m) := by
  have hglobals := hm.toHasGlobals
  cases hname : m.globalRecord.find? name with
  | some info =>
    refine alike_of_found hglobals (found_bound hm hname) fun m' hready v => ?_
    rw [assignGlobal_of_bound hm hname]
    exact alike_writeReference_record hglobals hready name _ _ v
  | none =>
    have hunprovided := unprovided_of_unbound hm hname
    by_cases hknown : m.store.HasProperty m.realm.global (.text name)
    · exact alike_of_found hglobals (.global hunprovided hknown) fun m' hready v =>
        alike_assignGlobal hm hready hname v strict
    · refine alike_of_found hglobals (.nowhere hunprovided hknown) fun m' hready v => ?_
      cases strict with
      | false => exact alike_assignGlobal hm hready hname v false
      | true =>
        -- what the global object has not at all it has not itself
        have hown : m.globalOwn? name = none := by
          by_contra hsome
          obtain ⟨p, hp⟩ := Option.ne_none_iff_exists'.mp hsome
          exact hknown (hasProperty_of_own hp)
        rw [assignGlobal_of_unbound hm hname, hown]
        exact ⟨rfl, .refl m, hready.sameGlobals hglobals⟩

/-- A global object that inherits one property, and one operand. -/
def inheritingWorld : Machine :=
  let parent := Object.ofKind none .ordinary
  let named := { parent with properties := parent.properties.insert (.text (.ofUnits [120])) (.plain .null) }
  { emptyWorld with store := { emptyWorld.store with objects := #[.ofKind (some ⟨1⟩) .ordinary, named] } }

/-- A name that the global object inherits is found when it is resolved, and yet in strict mode neither way assigns it. -/
theorem global_assignments_agree_inherited :
    inheritingWorld.AtTopLevel ∧ Found inheritingWorld (.ofUnits [120]) .global ∧
    AssignsAlike inheritingWorld (execute (fun _ => outOfFuel) 0 (.setGlobal (.ofUnits [120]) true) inheritingWorld)
      ((do
        execute (fun _ => outOfFuel) 0 (.resolveName (.ofUnits [120]) true)
        execute (fun _ => outOfFuel) 0 (.putValue false) : VM Unit) inheritingWorld) ∧
    abortOf (execute (fun _ => outOfFuel) 0 (.setGlobal (.ofUnits [120]) true) inheritingWorld) =
      some (.fault (.unresolved (.ofUnits [120]))) := by
  have hm : inheritingWorld.AtTopLevel := ⟨⟨by decide, rfl, by decide⟩, rfl, rfl, rfl⟩
  have hfound : Found inheritingWorld (.ofUnits [120]) .global := .global (unprovided_of_unbound hm rfl) rfl
  exact ⟨hm, hfound, global_assignments_agree _ 0 hm (.ofUnits [120]) true, rfl⟩

end VM

end ScriptMachine
