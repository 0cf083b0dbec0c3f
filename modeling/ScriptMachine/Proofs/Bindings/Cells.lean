import ScriptMachine.Proofs.HoistedNames
import ScriptMachine.Proofs.MappedArguments

/-!
# Records as cells

A record keeps names and slots apart: a name that is deleted leaves its slot behind, and references lead to slots by number
long after the name was looked up.  Still every name has a cell of its own.

* `Scope.Neat` — names have slots of their own.
* `Scope.perform` — what a call does to the record it is about; `Call.endOf_run` sets it against the machine.
* `Scope.written` — what calls have left in the slot of a name.

Main result: `records_are_cells`.
-/

namespace ScriptMachine

namespace Scope

/-- Names have slots of their own. -/
structure Neat (x : Scope) : Prop where
  inRange : ∀ n i, x.find? n = some i → i.index < x.slots.size
  distinct : ∀ n n' i i', x.find? n = some i → x.find? n' = some i' → i.index = i'.index → n = n'

theorem neat_new (outer : Option ScopeId) : (new outer).Neat := ⟨nofun, nofun⟩

/-! ### Calls -/

/-- What is done to a record.  A reference has the name it was resolved for, a slot and a kind. -/
inductive Call where
  /-- Bind a name that is not bound, in a slot that holds `v`. -/
  | create (name : Text) (kind : BindingKind) (v : Value)
  | delete (name : Text)
  | init (name : Text) (v : Value)
  /-- Assign to a reference. -/
  | assign (name : Text) (index : Nat) (kind : BindingKind) (v : Value)
  /-- Initialise a reference. -/
  | fill (name : Text) (index : Nat) (kind : BindingKind) (v : Value)

namespace Call

def createVar (name : Text) (deletable : Bool) : Call := create name (.hoisted deletable) .undefined

def createLexical (name : Text) (isConstant : Bool) : Call :=
  create name (if isConstant then .constant true else .lexical) .empty

def deletes (n : Text) : Call → Bool
  | delete name => name = n
  | _ => false

/-- What a call writes to the slot `i` of a name when the slot holds `current`. -/
def writes? (n : Text) (i : Nat) (current : Value) : Call → Option Value
  | init name v => if name = n then some v else none
  | assign name index kind v =>
    match kind.admits name current with
    | .ok true => if index = i then some v else none
    | _ => none
  | fill _ index _ v => if index = i then some v else none
  | _ => none

/-- A call that neither deletes a name nor writes to its slot. -/
def Spares (call : Call) (n : Text) (i : Nat) : Prop := call.deletes n = false ∧ ∀ v, call.writes? n i v = none

end Call

/-- What the slot of a name holds after calls, none of which deletes it: what was written last. -/
def written (n : Text) (i : Nat) (v : Value) (calls : List Call) : Value :=
  calls.foldl (fun v call => (call.writes? n i v).getD v) v

def put (x : Scope) (index : Nat) (v : Value) : Scope := { x with slots := x.slots.setIfInBounds index v }

/-- A record after a call.  A call that fails leaves it as it is. -/
def perform (x : Scope) : Call → Scope
  | .create name kind v => x.create name kind v
  | .delete name => x.deleteBinding name
  | .init name v =>
    match x.find? name with
    | some info => x.put info.index v
    | none => x
  | .assign name index kind v =>
    match kind.admits name ((x.slots[index]?).getD .undefined) with
    | .ok true => x.put index v
    | _ => x
  | .fill _ index _ v => x.put index v

def performAll (x : Scope) (calls : List Call) : Scope := calls.foldl perform x

theorem performAll_append (x : Scope) (before after : List Call) :
    x.performAll (before ++ after) = (x.performAll before).performAll after := List.foldl_append

/-! ### One call -/

section Call

variable {x : Scope} {n : Text} {i : Nat} {info : SlotInfo} {v : Value} {call : Call}

theorem slot_put (hi : x.slots[i]? = some v) (index : Nat) (w : Value) :
    (x.put index w).slots[i]? = some (if index = i then w else v) := by
  obtain ⟨hlt, _⟩ := Array.getElem?_eq_some_iff.mp hi
  change (x.slots.setIfInBounds index w)[i]? = _
  rw [Array.getElem?_setIfInBounds]
  split
  case isTrue h =>
    subst h
    simp [hlt]
  case isFalse => exact hi

/-- No call takes slots away or gives the record an object. -/
theorem grows_perform (x : Scope) (call : Call) :
    x.slots.size ≤ (x.perform call).slots.size ∧ (x.perform call).object = x.object := by
  have hput : ∀ index v, x.slots.size ≤ (x.put index v).slots.size ∧ (x.put index v).object = x.object := fun _ _ =>
    ⟨Array.size_setIfInBounds.symm ▸ Nat.le_refl _, rfl⟩
  cases call with
  | create =>
    rw [perform, create]
    split
    · exact ⟨Nat.le_refl _, rfl⟩
    · exact ⟨(Array.size_push _).symm ▸ Nat.le_succ _, rfl⟩
  | delete =>
    rw [perform, deleteBinding]
    split <;> exact ⟨Nat.le_refl _, rfl⟩
  | init | assign =>
    rw [perform]
    split
    · exact hput _ _
    · exact ⟨Nat.le_refl _, rfl⟩
  | fill => exact hput _ _

/-- A name that is bound stays so until it is deleted. -/
theorem find?_perform_of_bound (hn : x.find? n = some info) (h : call.deletes n = false) :
    (x.perform call).find? n = some info := by
  cases call with
  | create name kind w =>
    rw [perform]
    by_cases hname : (x.find? name).isSome
    · rw [create_of_bound hname, hn]
    · have hfree : x.find? name = none := by simpa using hname
      have hne : n ≠ name := by
        rintro rfl
        rw [hn] at hfree
        cases hfree
      rw [find?_create hfree, if_neg hne, hn]
  | delete name =>
    have hne : n ≠ name := fun heq => of_decide_eq_false h heq.symm
    rw [perform, find?_deleteBinding, if_neg hne, hn]
  | init | assign =>
    rw [perform]
    split <;> exact hn
  | fill => exact hn

/-- A name that is bound after a call was bound before, or the call has bound it, in a new slot. -/
theorem of_find?_perform (h : (x.perform call).find? n = some info) :
    call.deletes n = false ∧
      (x.find? n = some info ∨ x.find? n = none ∧ ∃ v, call = .create n info.kind v ∧ info.index = x.slots.size) := by
  cases call with
  | create name kind w =>
    refine ⟨rfl, ?_⟩
    rw [perform] at h
    by_cases hname : (x.find? name).isSome
    · rw [create_of_bound hname] at h
      exact .inl h
    · have hfree : x.find? name = none := by simpa using hname
      rw [find?_create hfree] at h
      split at h
      case isTrue heq =>
        subst heq
        cases h
        exact .inr ⟨hfree, w, rfl, rfl⟩
      case isFalse => exact .inl h
  | delete name =>
    rw [perform, find?_deleteBinding] at h
    split at h
    case isTrue => cases h
    case isFalse hne => exact ⟨decide_eq_false (Ne.symm hne), .inl h⟩
  | init | assign =>
    rw [perform] at h
    split at h <;> exact ⟨rfl, .inl h⟩
  | fill => exact ⟨rfl, .inl h⟩

theorem slot_created (hn : x.find? n = none) (kind : BindingKind) (v : Value) :
    (x.perform (.create n kind v)).slots[x.slots.size]? = some v := by
  rw [perform, create, hn]
  exact Array.getElem?_push_size

/-- **What a call does to the slot of a name.** -/
theorem slot_perform (hx : x.Neat) (hn : x.find? n = some info) (hv : x.slots[info.index]? = some v) (call : Call) :
    (x.perform call).slots[info.index]? = some ((call.writes? n info.index v).getD v) := by
  cases call with
  | create =>
    rw [perform, create]
    split
    · exact hv
    · change (x.slots.push _)[info.index]? = _
      rw [Array.getElem?_push, if_neg (Nat.ne_of_lt (hx.inRange n info hn)), hv]
      rfl
  | delete =>
    rw [perform, deleteBinding]
    split <;> exact hv
  | init name w =>
    rw [perform]
    by_cases h : name = n
    · subst h
      rw [hn]
      simpa [Call.writes?] using slot_put hv info.index w
    · have hother : (Call.init name w).writes? n info.index v = none := if_neg h
      rw [hother]
      cases hname : x.find? name with
      | none => exact hv
      | some other =>
        -- the slot of another name is another slot
        have hne : other.index ≠ info.index := fun heq => h (hx.distinct name n other info hname hn heq)
        simpa [hne] using slot_put hv other.index w
  | assign name index kind w =>
    rw [perform, Call.writes?]
    by_cases h : index = info.index
    · subst h
      rw [hv, Option.getD_some]
      split
      · simpa using slot_put hv info.index w
      · exact hv
    · have hunwritten : (match kind.admits name v with
          | .ok true => if index = info.index then some w else none
          | _ => none) = none := by split <;> simp [h]
      rw [hunwritten]
      split
      · simpa [h] using slot_put hv index w
      · exact hv
  | fill name index kind w =>
    rw [perform, slot_put hv, Call.writes?]
    split <;> rfl

theorem Neat.perform (hx : x.Neat) (call : Call) : (x.perform call).Neat where
  inRange n i h := by
    obtain ⟨_, hold | ⟨hnone, v, rfl, hindex⟩⟩ := of_find?_perform h
    · exact Nat.lt_of_lt_of_le (hx.inRange n i hold) (grows_perform x call).1
    · obtain ⟨hlt, _⟩ := Array.getElem?_eq_some_iff.mp (slot_created hnone i.kind v)
      exact hindex ▸ hlt
  distinct n n' i i' h h' heq := by
    obtain ⟨_, hold | ⟨_, v, rfl, hindex⟩⟩ := of_find?_perform h <;>
      obtain ⟨_, hold' | ⟨_, v', hcall, hindex'⟩⟩ := of_find?_perform h'
    · exact hx.distinct n n' i i' hold hold' heq
    · have hlt := hx.inRange n i hold
      omega
    · have hlt := hx.inRange n' i' hold'
      omega
    · exact (Call.create.inj hcall).1

end Call

/-! ### Calls in sequence -/

section Calls

variable {x : Scope} {n : Text} {info : SlotInfo} {v : Value} {calls since : List Call}

theorem Neat.performAll (hx : x.Neat) (calls : List Call) : (x.performAll calls).Neat := by
  induction calls generalizing x with
  | nil => exact hx
  | cons call rest ih => exact ih (hx.perform call)

theorem object_performAll (x : Scope) (calls : List Call) : (x.performAll calls).object = x.object := by
  induction calls generalizing x with
  | nil => rfl
  | cons call rest ih => exact (ih _).trans (grows_perform x call).2

/-- **A name that is not deleted keeps its slot, and the slot has what was written last.** -/
theorem Neat.kept (hx : x.Neat) (hn : x.find? n = some info) (hv : x.slots[info.index]? = some v)
    (h : ∀ call ∈ calls, call.deletes n = false) :
    (x.performAll calls).find? n = some info ∧
      (x.performAll calls).slots[info.index]? = some (written n info.index v calls) := by
  induction calls generalizing x v with
  | nil => exact ⟨hn, hv⟩
  | cons call rest ih =>
    obtain ⟨hcall, hrest⟩ := List.forall_mem_cons.mp h
    exact ih (hx.perform call) (find?_perform_of_bound hn hcall) (slot_perform hx hn hv call) hrest

/-- A binding in an old slot is an old binding. -/
theorem find?_of_old (h : (x.performAll calls).find? n = some info) (hold : info.index < x.slots.size) :
    x.find? n = some info ∧ ∀ call ∈ calls, call.deletes n = false := by
  induction calls generalizing x with
  | nil => exact ⟨h, nofun⟩
  | cons call rest ih =>
    obtain ⟨hn, hrest⟩ := ih h (Nat.lt_of_lt_of_le hold (grows_perform x call).1)
    obtain ⟨hcall, hn | ⟨_, _, _, hindex⟩⟩ := of_find?_perform hn
    · exact ⟨hn, List.forall_mem_cons.mpr ⟨hcall, hrest⟩⟩
    · omega

/-- **Slots are not given again**: the slot that a name has had is another's at no later time, nor is it the name's once that
was deleted. -/
theorem Neat.not_given_again (hx : x.Neat) {n' : Text} {info' : SlotInfo} (hn : x.find? n = some info)
    (hn' : (x.performAll calls).find? n' = some info') (h : info'.index = info.index) :
    n' = n ∧ info' = info ∧ ∀ call ∈ calls, call.deletes n = false := by
  obtain ⟨hold, hkept⟩ := find?_of_old hn' (h ▸ hx.inRange n info hn)
  obtain rfl := hx.distinct n' n info' info hold hn h
  exact ⟨rfl, Option.some.inj (hold.symm.trans hn), hkept⟩

/-- A name has been bound in a slot that holds a value, and calls have followed: from the start on, or since one of the calls
made the binding. -/
inductive BoundSince (x : Scope) (n : Text) : List Call → SlotInfo → Value → List Call → Prop where
  | start {info : SlotInfo} {v : Value} {calls : List Call} (hn : x.find? n = some info)
      (hv : x.slots[info.index]? = some v) : BoundSince x n calls info v calls
  | made {before since : List Call} {kind : BindingKind} {v : Value} (hn : (x.performAll before).find? n = none) :
      BoundSince x n (before ++ .create n kind v :: since) ⟨(x.performAll before).slots.size, kind⟩ v since

/-- **A name is bound that has been bound and not been deleted since.** -/
theorem BoundSince.bound (h : BoundSince x n calls info v since) (hx : x.Neat)
    (hkept : ∀ call ∈ since, call.deletes n = false) :
    (x.performAll calls).find? n = some info ∧
      (x.performAll calls).slots[info.index]? = some (written n info.index v since) := by
  cases h with
  | start hn hv => exact hx.kept hn hv hkept
  | @made before _ kind _ hn =>
    have hfind : ((x.performAll before).perform (.create n kind v)).find? n = some ⟨(x.performAll before).slots.size, kind⟩ := by
      rw [perform, find?_create hn, if_pos rfl]
    rw [performAll_append]
    exact ((hx.performAll before).perform _).kept hfind (slot_created hn kind v) hkept

/-- **No other name is bound.** -/
theorem Neat.exists_boundSince (hx : x.Neat) (h : (x.performAll calls).find? n = some info) :
    ∃ v since, BoundSince x n calls info v since ∧ ∀ call ∈ since, call.deletes n = false := by
  induction calls generalizing x with
  | nil => exact ⟨_, _, .start h (Array.getElem?_eq_getElem (hx.inRange n info h)), nofun⟩
  | cons call rest ih =>
    obtain ⟨v, since, hbound, hkept⟩ := ih (hx.perform call) h
    cases hbound with
    | start hn hv =>
      obtain ⟨hcall, hold | ⟨hnone, w, rfl, hindex⟩⟩ := of_find?_perform hn
      · exact ⟨_, _, .start hold (Array.getElem?_eq_getElem (hx.inRange n info hold)), List.forall_mem_cons.mpr ⟨hcall, hkept⟩⟩
      · obtain ⟨index, kind⟩ := info
        obtain rfl : index = x.slots.size := hindex
        exact ⟨w, rest, @BoundSince.made x n [] rest kind w hnone, hkept⟩
    | @made before _ kind _ hn => exact ⟨v, since, @BoundSince.made x n (call :: before) since kind v hn, hkept⟩

theorem read?_of_bound (hn : x.find? n = some info) (hv : x.slots[info.index]? = some v) :
    x.read? n = (info.kind.read n v).map some := by
  simp only [read?, hn, hv, Option.getD_some]

theorem read?_of_unbound (hn : x.find? n = none) : x.read? n = .ok none := by
  rw [read?, hn]

theorem written_of_spared (h : ∀ call ∈ calls, call.Spares n info.index) : written n info.index v calls = v := by
  induction calls with
  | nil => rfl
  | cons call rest ih =>
    obtain ⟨hcall, hrest⟩ := List.forall_mem_cons.mp h
    show written n info.index ((call.writes? n info.index v).getD v) rest = v
    rw [hcall.2, Option.getD_none, ih hrest]

end Calls

/-! ### Calls to a machine -/

open VM

/-- Make a call to a record of a machine. -/
def Call.run (s : ScopeId) : Call → VM Unit
  | .create name kind v => modifyScope s (·.create name kind v)
  | .delete name => modifyScope s (·.deleteBinding name)
  | .init name v => updateScope s (·.init name v)
  | .assign name index kind v => writeReference (.scope name s index kind) v
  | .fill name index kind v => initReference (.scope name s index kind) v

/-- The machine after calls to a record, whether they fail or not. -/
def Call.runAll (s : ScopeId) (calls : List Call) (m : Machine) : Machine :=
  calls.foldl (fun m call => endOf (call.run s m)) m

section Run

variable {m : Machine} {s : ScopeId}

theorem put_of_size_le {x : Scope} {index : Nat} (h : x.slots.size ≤ index) (v : Value) : x.put index v = x := by
  rw [put, Array.setIfInBounds_eq_of_size_le h]

theorem withStore_of_same {f : Scope → Scope} (h : f (m.store.scope s) = m.store.scope s) :
    withStore m (m.store.modifyScope s f) = m := by
  rw [← modifyScope_const, h, modifyScope_const m.store s fun x => x, modifyScope_id]
  rfl

theorem endOf_updateScope_writeSlot (s : ScopeId) (name : Text) (index : Nat) (v : Value) (m : Machine) :
    endOf (updateScope s (·.writeSlot name index v) m) = withStore m (m.store.modifyScope s (·.put index v)) := by
  rw [updateScope_writeSlot]
  split
  case isTrue => rfl
  case isFalse h => exact (withStore_of_same (put_of_size_le (Nat.le_of_not_lt h) v)).symm

theorem Call.endOf_run (s : ScopeId) (call : Call) (m : Machine) :
    endOf (call.run s m) = withStore m (m.store.modifyScope s (·.perform call)) := by
  cases call with
  | create | delete => rfl
  | init name v =>
    cases hname : (m.store.scope s).find? name with
    | none =>
      rw [withStore_of_same (by rw [perform, hname]), run, updateScope, scopeRecord_bind, Scope.init, hname]
      rfl
    | some info =>
      have hperform : (m.store.scope s).perform (.init name v) = (m.store.scope s).put info.index v := by
        rw [perform, hname]
      rw [← modifyScope_const, hperform, modifyScope_const m.store s fun x => x.put info.index v,
        ← endOf_updateScope_writeSlot s name, run, updateScope, updateScope, scopeRecord_bind, scopeRecord_bind, Scope.init, hname]
  | assign name index kind v =>
    rw [run, writeReference, scopeRecord_bind]
    cases hslot : (m.store.scope s).slots[index]? with
    | none =>
      have hsame : (m.store.scope s).perform (.assign name index kind v) = m.store.scope s := by
        rw [perform]
        split
        · exact put_of_size_le (Array.getElem?_eq_none_iff.mp hslot) v
        · rfl
      rw [withStore_of_same hsame]
      rfl
    | some current =>
      have hperform : (m.store.scope s).perform (.assign name index kind v) =
          match kind.admits name current with
          | .ok true => (m.store.scope s).put index v
          | _ => m.store.scope s := by rw [perform, hslot, Option.getD_some]
      dsimp only
      cases hadmits : kind.admits name current with
      | error fault =>
        rw [withStore_of_same (by rw [hperform, hadmits])]
        rfl
      | ok admitted =>
        cases admitted with
        | false =>
          rw [withStore_of_same (by rw [hperform, hadmits])]
          rfl
        | true =>
          rw [← modifyScope_const, hperform, hadmits, modifyScope_const m.store s fun x => x.put index v]
          exact endOf_updateScope_writeSlot s name index v m
  | fill name index kind v => exact endOf_updateScope_writeSlot s name index v m

variable (hs : s.index < m.store.scopes.size)
include hs

theorem scope_runAll (calls : List Call) :
    ((Call.runAll s calls m).store.scope s) = (m.store.scope s).performAll calls := by
  induction calls generalizing m with
  | nil => rfl
  | cons call rest ih =>
    have hscope : (endOf (call.run s m)).store.scope s = (m.store.scope s).perform call := by
      rw [call.endOf_run]
      exact Store.scope_modifyScope hs _
    have hsize : s.index < (endOf (call.run s m)).store.scopes.size := by
      rw [call.endOf_run]
      exact (Array.size_modify ..).symm ▸ hs
    exact (ih hsize).trans (congrArg (·.performAll rest) hscope)

theorem readName_runAll (hslots : (m.store.scope s).object = none) (calls : List Call) (n : Text) :
    (Store.readName s n).run (Call.runAll s calls m).store =
      (((m.store.scope s).performAll calls).read? n, (Call.runAll s calls m).store) := by
  rw [readName_of_slots (by rw [scope_runAll hs, object_performAll, hslots]), scope_runAll hs]

/-- **A record is a map of cells that have nothing to do with each other.**  Take a record in which names have slots of their
own, such as an empty one, and any calls to it, those that fail among them.

* Names have slots of their own in the end.
* The slot that a name has had at some time is never the slot of another name later, nor that of a later binding of the name:
  what goes through a reference to a deleted binding does not go to another.
* A name is bound exactly if it was bound, at the start or by one of the calls, and no call has deleted it since.
* A name that is bound reads what was written to it last since it was bound, and else what it was bound with.
* A hoisted name to which nothing was written reads undefined, and a lexical one is not initialised. -/
theorem records_are_cells (hslots : (m.store.scope s).object = none) (hx : (m.store.scope s).Neat) (calls : List Call) :
    let x := m.store.scope s
    let σ := (Call.runAll s calls m).store
    (σ.scope s).Neat ∧
    (∀ before after n n' info info', calls = before ++ after →
      ((Call.runAll s before m).store.scope s).find? n = some info → (σ.scope s).find? n' = some info' →
      info'.index = info.index → n' = n ∧ info' = info ∧ ∀ call ∈ after, call.deletes n = false) ∧
    (∀ n info, (σ.scope s).find? n = some info ↔
      ∃ v since, x.BoundSince n calls info v since ∧ ∀ call ∈ since, call.deletes n = false) ∧
    (∀ n, (σ.scope s).find? n = none → (Store.readName s n).run σ = (.ok none, σ)) ∧
    (∀ n info v since, x.BoundSince n calls info v since → (∀ call ∈ since, call.deletes n = false) →
      (Store.readName s n).run σ = ((info.kind.read n (written n info.index v since)).map some, σ)) ∧
    (∀ before n deletable after, calls = before ++ .createVar n deletable :: after →
      (x.performAll before).find? n = none → (∀ call ∈ after, call.Spares n (x.performAll before).slots.size) →
      (Store.readName s n).run σ = (.ok (some .undefined), σ)) ∧
    (∀ before n isConstant after, calls = before ++ .createLexical n isConstant :: after →
      (x.performAll before).find? n = none → (∀ call ∈ after, call.Spares n (x.performAll before).slots.size) →
      (Store.readName s n).run σ = (.error (.uninitialized (some n)), σ)) := by
  intro x σ
  have hscope : ∀ calls, (Call.runAll s calls m).store.scope s = x.performAll calls := scope_runAll hs
  have hread : ∀ n info v since, x.BoundSince n calls info v since → (∀ call ∈ since, call.deletes n = false) →
      (Store.readName s n).run σ = ((info.kind.read n (written n info.index v since)).map some, σ) := by
    intro n info v since hsince hkept
    obtain ⟨hn, hv⟩ := hsince.bound hx hkept
    rw [readName_runAll hs hslots, read?_of_bound hn hv]
  refine ⟨?_, ?_, fun n info => ⟨fun hn => ?_, ?_⟩, fun n hn => ?_, hread, ?_, ?_⟩
  · rw [hscope]
    exact hx.performAll calls
  · rintro before after n n' info info' rfl hn hn' h
    rw [hscope] at hn hn'
    rw [performAll_append] at hn'
    exact (hx.performAll before).not_given_again hn hn' h
  · exact hx.exists_boundSince (hscope calls ▸ hn)
  · rintro ⟨v, since, hsince, hkept⟩
    rw [hscope]
    exact (hsince.bound hx hkept).1
  · rw [readName_runAll hs hslots, read?_of_unbound (hscope calls ▸ hn)]
  · rintro before n deletable after rfl hnone hspared
    rw [hread _ _ _ _ (.made hnone) fun call hcall => (hspared call hcall).1, written_of_spared hspared]
    rfl
  · rintro before n isConstant after rfl hnone hspared
    rw [hread _ _ _ _ (.made hnone) fun call hcall => (hspared call hcall).1, written_of_spared hspared]
    cases isConstant <;> rfl

end Run

/-- A machine whose one record is empty. -/
def oneRecord : Machine := { Machine.new .default with store := { Store.empty with scopes := #[.new none] } }

/-- Declare `a` and `b` and initialise `a`; delete `b`, make `c` and then assign to `b` through a reference of before; and
declare `d`. -/
def someCalls : List Call :=
  [.createLexical (.ofUnits [97]) false, .createVar (.ofUnits [98]) true, .fill (.ofUnits [97]) 0 .lexical (.int 1),
    .delete (.ofUnits [98]), .createVar (.ofUnits [99]) false, .assign (.ofUnits [98]) 1 (.hoisted true) (.int 7),
    .createLexical (.ofUnits [100]) true]

/-- What goes through the reference to `b` goes to nothing that can be read; `c` has another slot. -/
theorem records_are_cells_oneRecord :
    let σ := (Call.runAll ⟨0⟩ someCalls oneRecord).store
    (oneRecord.store.scope ⟨0⟩).Neat ∧ (σ.scope ⟨0⟩).Neat ∧
    (Store.readName ⟨0⟩ (.ofUnits [97])).run σ = (.ok (some (.int 1)), σ) ∧
    (Store.readName ⟨0⟩ (.ofUnits [98])).run σ = (.ok none, σ) ∧
    (Store.readName ⟨0⟩ (.ofUnits [99])).run σ = (.ok (some .undefined), σ) ∧
    (Store.readName ⟨0⟩ (.ofUnits [100])).run σ = (.error (.uninitialized (some (.ofUnits [100]))), σ) := by
  have hneat : (oneRecord.store.scope ⟨0⟩).Neat := neat_new none
  obtain ⟨hafter, -, -, hunbound, hbound, hvar, hlexical⟩ :=
    records_are_cells (by decide) rfl hneat someCalls
  refine ⟨hneat, hafter, ?_, hunbound _ (by decide), ?_, ?_⟩
  · exact hbound _ ⟨0, .lexical⟩ .empty (someCalls.drop 1) (@BoundSince.made _ _ [] _ _ _ rfl) (by decide)
  · refine hvar (someCalls.take 4) _ false (someCalls.drop 5) rfl (by decide) fun call hcall => ?_
    rcases hcall with _ | ⟨_, _ | ⟨_, hcall⟩⟩
    · exact ⟨rfl, fun _ => rfl⟩
    · exact ⟨rfl, fun _ => rfl⟩
    · cases hcall
  · exact hlexical (someCalls.take 6) _ true [] rfl (by decide) nofun

end Scope

end ScriptMachine
