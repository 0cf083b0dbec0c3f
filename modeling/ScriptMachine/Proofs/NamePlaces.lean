import ScriptMachine.Proofs.NameWalk

/-!
# Where a name is found

A name stands for a slot of the first record that provides it, for a property of the object that backs this record, for
a property of the global object, or for nothing.  Reading the name, resolving it and deleting it are different walks
along the records, and all of them arrive at this place.

Main result: `names_found_alike`.
-/

namespace ScriptMachine

namespace Store

/-! ### The first record that provides a name -/

def FirstProvider (σ : Store) (name : Text) (s t : ScopeId) : Prop :=
  ∃ n, σ.outward n s = some t ∧ σ.Provides name t ∧ ∀ j < n, ∀ u, σ.outward j s = some u → ¬ σ.Provides name u

/-- No record along a chain provides the name. -/
def Unprovided (σ : Store) (name : Text) (s : ScopeId) : Prop := ∀ n t, σ.outward n s = some t → ¬ σ.Provides name t

/-- The object has the property, itself or through its prototypes. -/
def HasProperty (σ : Store) (o : ObjectId) (key : PropertyKey) : Prop := ((has o key).run σ).1 = true

section Provider

variable {σ : Store} {name : Text} {s t : ScopeId}

theorem FirstProvider.provides (h : σ.FirstProvider name s t) : σ.Provides name t := by
  obtain ⟨_, -, hp, -⟩ := h
  exact hp

theorem firstProvider_or_unprovided (σ : Store) (name : Text) (s : ScopeId) :
    (∃ t, σ.FirstProvider name s t) ∨ σ.Unprovided name s := by
  classical
  by_cases hex : ∃ n t, σ.outward n s = some t ∧ σ.Provides name t
  · obtain ⟨t, ht, hp⟩ := Nat.find_spec hex
    exact .inl ⟨t, Nat.find hex, ht, hp, fun j hj u hu hpu => Nat.find_min hex hj ⟨u, hu, hpu⟩⟩
  · exact .inr fun n t ht hp => hex ⟨n, t, ht, hp⟩

theorem providerWithin_of_first {n k : Nat} (hk : k < n) (ht : σ.outward k s = some t) (hp : σ.Provides name t)
    (hbefore : ∀ j < k, ∀ u, σ.outward j s = some u → ¬ σ.Provides name u) :
    ∃ σ', Makes σ σ' ∧ (providerWithin name n s).run σ = (some t, σ') := by
  induction n generalizing σ s k with
  | zero => omega
  | succ n ih =>
    have hmade := (reads_recordProvides s name σ).1
    cases k with
    | zero =>
      cases ht
      exact ⟨_, hmade, run_providerWithin_of_provides hp⟩
    | succ k =>
      have hs : ¬ σ.Provides name s := hbefore 0 (by omega) s rfl
      obtain ⟨outer, ho, hrest⟩ := Option.bind_eq_some_iff.mp ht
      obtain ⟨σ', hσ', hrun⟩ := ih (k := k) (by omega)
        (by rw [hmade.outward_eq, hrest]) (hmade.provides_iff.mpr hp) fun j hj u hu hpu => by
          refine hbefore (j + 1) (by omega) u ?_ (hmade.provides_iff.mp hpu)
          rw [outward, ho, ← hu]
          exact (hmade.outward_eq _ _).symm
      refine ⟨σ', hmade.trans hσ', ?_⟩
      rw [run_providerWithin_of_not_provides hs, ho]
      exact hrun

theorem providerWithin_of_unprovided (n : Nat) (h : σ.Unprovided name s) :
    ∃ σ', Makes σ σ' ∧ (providerWithin name n s).run σ = (none, σ') := by
  induction n generalizing σ s with
  | zero => exact ⟨σ, .refl σ, rfl⟩
  | succ n ih =>
    have hmade := (reads_recordProvides s name σ).1
    rw [run_providerWithin_of_not_provides (h 0 s rfl)]
    cases ho : (σ.scope s).outer with
    | none => exact ⟨_, hmade, rfl⟩
    | some outer =>
      obtain ⟨σ', hσ', hrun⟩ := ih fun k t ht hp => by
        refine h (k + 1) t ?_ (hmade.provides_iff.mp hp)
        rw [outward, ho, ← ht]
        exact (hmade.outward_eq _ _).symm
      exact ⟨σ', hmade.trans hσ', hrun⟩

theorem FirstProvider.run_provider (h : σ.FirstProvider name s t) :
    ∃ σ', Makes σ σ' ∧ (providerWithin name σ.scopes.size s).run σ = (some t, σ') := by
  obtain ⟨k, ht, hp, hbefore⟩ := h
  -- The walk is bounded by the number of records; a first provider is not further away than that.
  obtain ⟨j, hj, hsize, u, hu, hpu⟩ := exists_near ht hp
  have hjk : j = k := by
    by_contra hne
    exact hbefore j (by omega) u hu hpu
  exact providerWithin_of_first (hjk ▸ hsize) ht hp hbefore

end Provider

/-! ### Properties that are there -/

section Property

variable {σ σ' : Store} {o : ObjectId} {key : PropertyKey} {name : Text}

theorem Makes.hasProperty_iff (h : Makes σ σ') : σ'.HasProperty o key ↔ σ.HasProperty o key := by
  unfold HasProperty
  rw [(reads_has o key).answer h]

def valueOf (σ : Store) (o : ObjectId) (key : PropertyKey) : Option Value := ((get? o key).run σ).1

theorem Makes.valueOf_eq (h : Makes σ σ') (o : ObjectId) (key : PropertyKey) : σ'.valueOf o key = σ.valueOf o key :=
  (reads_get o key).answer h

theorem run_get (σ : Store) (o : ObjectId) (key : PropertyKey) :
    (get? o key).run σ = (σ.valueOf o key, ((get? o key).run σ).2) := rfl

theorem valueOf_isSome : (σ.valueOf o key).isSome = true ↔ σ.HasProperty o key := by
  show (((find? o key).run σ).1.map (·.value)).isSome = true ↔ ((find? o key).run σ).1.isSome = true
  rw [Option.isSome_map]

theorem valueOf_eq_none (h : ¬ σ.HasProperty o key) : σ.valueOf o key = none := by
  rwa [← Option.not_isSome_iff_eq_none, valueOf_isSome]

theorem hasProperty_of_provides (h : ((provides o name).run σ).1 = true) : σ.HasProperty o (.text name) := by
  by_contra hno
  rw [provides, run_bind, show ((has o (.text name)).run σ).1 = false by simpa [HasProperty] using hno] at h
  cases h

end Property

end Store

namespace VM

open Store

/-! ### Places -/

/-- What a name stands for. -/
inductive Place where
  | slot (s : ScopeId) (info : SlotInfo)
  /-- A property of the object that backs a record. -/
  | member (o : ObjectId)
  /-- A property of the global object. -/
  | global
  | nowhere

/-- What a name stands for where the machine is: the first record that provides it decides, and when there is none, the
global object. -/
inductive Found (m : Machine) (name : Text) : Place → Prop where
  | slot {s : ScopeId} {info : SlotInfo} (first : m.store.FirstProvider name m.regs.scope s)
      (slotBacked : (m.store.scope s).object = none) (bound : (m.store.scope s).find? name = some info) :
      Found m name (.slot s info)
  | member {s : ScopeId} {o : ObjectId} (first : m.store.FirstProvider name m.regs.scope s)
      (backed : (m.store.scope s).object = some o) : Found m name (.member o)
  | global (unprovided : m.store.Unprovided name m.regs.scope) (known : m.store.HasProperty m.realm.global (.text name)) :
      Found m name .global
  | nowhere (unprovided : m.store.Unprovided name m.regs.scope)
      (unknown : ¬ m.store.HasProperty m.realm.global (.text name)) : Found m name .nowhere

theorem exists_found (m : Machine) (name : Text) : ∃ place, Found m name place := by
  rcases m.store.firstProvider_or_unprovided name m.regs.scope with ⟨s, hs⟩ | hnone
  · cases ho : (m.store.scope s).object with
    | some o => exact ⟨_, .member hs ho⟩
    | none =>
      have hp := hs.provides
      rw [Provides, recordProvides_of_slots ho] at hp
      obtain ⟨info, hinfo⟩ := Option.isSome_iff_exists.mp hp
      exact ⟨_, .slot hs ho hinfo⟩
  · by_cases hglobal : m.store.HasProperty m.realm.global (.text name)
    · exact ⟨_, .global hnone hglobal⟩
    · exact ⟨_, .nowhere hnone hglobal⟩

namespace Place

def read (m : Machine) (name : Text) : Place → Outcome (Option Value)
  | .slot s info => (info.kind.read name (((m.store.scope s).slots[info.index]?).getD .undefined)).map some
  | .member o => .ok (m.store.valueOf o (.text name))
  | .global => .ok (m.store.valueOf m.realm.global (.text name))
  | .nowhere => .ok none

def receiver : Place → Value
  | .member o => .object o
  | _ => .undefined

/-- The reference to a name found at a place.  Outside strict mode a name found nowhere can be assigned, and then
becomes a property of the global object. -/
def reference (global : ObjectId) (name : Text) (strict : Bool) : Place → Reference
  | .slot s info => .scope name s info.index (info.kind.foldStrict strict)
  | .member o => .property o (.text name) strict true
  | .global => .property global (.text name) strict true
  | .nowhere => if strict then .unresolved name else .property global (.text name) strict true

def delete (name : Text) : Place → VM Bool
  | .slot s info => do
    let deletable := decide (info.kind = .hoisted true)
    if deletable then modifyScope s (·.deleteBinding name)
    return deletable
  | .member o => demand (Store.delete o (.text name) false)
  | .global => do demand (Store.delete (← realm).global (.text name) false)
  | .nowhere => return true

end Place

/-! ### The walks -/

section Walks

variable {m : Machine} {name : Text} {s : ScopeId} {place : Place}

theorem lookAlong_of_first (look : ScopeId → VM (Option α)) (h : m.store.FirstProvider name m.regs.scope s) :
    ∃ σ, Makes m.store σ ∧ lookAlong look name m = look s (withStore m σ) := by
  obtain ⟨σ, hσ, hrun⟩ := h.run_provider
  refine ⟨σ, hσ, ?_⟩
  rw [lookAlong_eq, lookWithin, bind_ok (onStore_eq _ m), hrun]

theorem lookAlong_of_unprovided (look : ScopeId → VM (Option α)) (h : m.store.Unprovided name m.regs.scope) :
    ∃ σ, Makes m.store σ ∧ lookAlong look name m = .ok none (withStore m σ) := by
  obtain ⟨σ, hσ, hrun⟩ := providerWithin_of_unprovided m.store.scopes.size h
  refine ⟨σ, hσ, ?_⟩
  rw [lookAlong_eq, lookWithin, bind_ok (onStore_eq _ m), hrun]
  rfl

theorem readIn_of_bound {info : SlotInfo} (ho : (m.store.scope s).object = none)
    (hinfo : (m.store.scope s).find? name = some info) :
    readIn? name s m =
      ofOutcome ((info.kind.read name (((m.store.scope s).slots[info.index]?).getD .undefined)).map
        fun v => some (v, .undefined)) m := by
  rw [readIn_of_slots ho, Scope.read?, hinfo]
  dsimp only
  cases info.kind.read name (((m.store.scope s).slots[info.index]?).getD .undefined) <;> rfl

theorem readIn_of_object {o : ObjectId} (ho : (m.store.scope s).object = some o) (hp : m.store.Provides name s) :
    ∃ σ v, Makes m.store σ ∧ m.store.valueOf o (.text name) = some v ∧
      readIn? name s m = .ok (some (v, .object o)) (withStore m σ) := by
  rw [Provides, recordProvides_of_object ho] at hp
  have hmade := (reads_provides o name m.store).1
  have hmade' := (reads_get o (.text name) ((provides o name).run m.store).2).1
  obtain ⟨v, hv⟩ := Option.isSome_iff_exists.mp (valueOf_isSome.mpr (hasProperty_of_provides hp))
  have hread : (readName s name).run m.store =
      (.ok (some v), ((Store.get? o (.text name)).run ((provides o name).run m.store).2).2) := by
    rw [readName_of_object ho, run_bind, if_pos hp, run_bind, run_get, hmade.valueOf_eq, hv]
    rfl
  generalize ((Store.get? o (.text name)).run ((provides o name).run m.store).2).2 = σ at hmade' hread
  refine ⟨σ, v, hmade.trans hmade', hv, ?_⟩
  have hdemand : demand (readName s name) m = .ok (some v) (withStore m σ) := by
    rw [demand, bind_ok (onStore_eq _ m), hread]
    rfl
  have hreceiver : scopeReceiver s (withStore m σ) = .ok (.object o) (withStore m σ) := by
    have ho' : ((withStore m σ).store.scope s).object = some o := by
      rw [← ho]
      exact congrArg _ ((hmade.trans hmade').scope s)
    rw [scopeReceiver, scopeRecord_bind, ho']
    rfl
  rw [readIn?, bind_ok hdemand]
  exact bind_ok hreceiver

theorem lookup_of_unprovided (h : m.store.Unprovided name m.regs.scope) :
    ∃ σ, Makes m.store σ ∧
      lookup? name m = .ok ((m.store.valueOf m.realm.global (.text name)).map (·, .undefined)) (withStore m σ) := by
  obtain ⟨σ, hσ, hlook⟩ := lookAlong_of_unprovided (readIn? name) h
  refine ⟨_, hσ.trans (reads_get m.realm.global (.text name) σ).1, ?_⟩
  rw [← hσ.valueOf_eq, lookup?, bind_ok hlook]
  rfl

/-- **Reading** arrives at the place. -/
theorem Found.lookup (h : Found m name place) :
    ∃ σ, Makes m.store σ ∧
      lookup? name m = ofOutcome ((place.read m name).map (Option.map (·, place.receiver))) (withStore m σ) := by
  cases h with
  | @slot s info first slotBacked bound =>
    obtain ⟨σ, hσ, hlook⟩ := lookAlong_of_first (readIn? name) first
    refine ⟨σ, hσ, ?_⟩
    have hscope : (withStore m σ).store.scope s = m.store.scope s := hσ.scope s
    rw [readIn_of_bound (by rw [hscope, slotBacked]) (by rw [hscope, bound]), hscope] at hlook
    rw [lookup?, bind_congr_at hlook, Place.read]
    cases info.kind.read name (((m.store.scope s).slots[info.index]?).getD .undefined) <;> rfl
  | @member s o first backed =>
    obtain ⟨σ, hσ, hlook⟩ := lookAlong_of_first (readIn? name) first
    have hscope : (withStore m σ).store.scope s = m.store.scope s := hσ.scope s
    obtain ⟨σ', v, hσ', hv, hread⟩ := readIn_of_object (m := withStore m σ) (by rw [hscope, backed])
      (hσ.provides_iff.mpr first.provides)
    refine ⟨σ', hσ.trans hσ', ?_⟩
    have hvalue : m.store.valueOf o (.text name) = some v := (hσ.valueOf_eq o (.text name)).symm.trans hv
    rw [lookup?, bind_ok (hlook.trans hread), Place.read, hvalue]
    rfl
  | global unprovided known => exact lookup_of_unprovided unprovided
  | nowhere unprovided unknown =>
    obtain ⟨σ, hσ, hlook⟩ := lookup_of_unprovided unprovided
    rw [Store.valueOf_eq_none unknown] at hlook
    exact ⟨σ, hσ, hlook⟩

section Global

variable {known : Bool} (h : ((has m.realm.global (.text name)).run m.store).1 = known)

include h

theorem globalReference_of_has (strict : Bool) :
    ∃ σ, Makes m.store σ ∧ globalReference name strict m =
      .ok ((if known then Place.global else .nowhere).reference m.realm.global name strict) (withStore m σ) := by
  cases strict with
  | false => exact ⟨m.store, .refl _, by cases known <;> rfl⟩
  | true =>
    refine ⟨_, (reads_has m.realm.global (.text name) m.store).1, ?_⟩
    show EStateM.Result.ok (if ((has m.realm.global (.text name)).run m.store).1 then _ else _) _ = _
    rw [h]
    cases known <;> rfl

theorem deleteFromGlobal_of_has :
    deleteFromGlobal name m =
      (if known then demand (delete m.realm.global (.text name) false) else pure true : VM Bool)
        (withStore m ((has m.realm.global (.text name)).run m.store).2) := by
  rw [← h]
  rfl

end Global

theorem Found.receiver_of_absent (h : Found m name place) (habsent : place.read m name = .ok none) :
    place.receiver = .undefined := by
  cases h with
  | member first backed =>
    have hp := first.provides
    rw [Provides, recordProvides_of_object backed] at hp
    have hknown := valueOf_isSome.mpr (hasProperty_of_provides hp)
    rw [Except.ok.inj habsent] at hknown
    cases hknown
  | _ => rfl

/-- **Resolving** arrives at the place. -/
theorem Found.resolve (h : Found m name place) (strict : Bool) :
    ∃ σ, Makes m.store σ ∧
      VM.resolve name strict m = .ok (place.reference m.realm.global name strict) (withStore m σ) := by
  cases h with
  | @slot s info first slotBacked bound =>
    obtain ⟨σ, hσ, hlook⟩ := lookAlong_of_first (referenceIn? name strict) first
    refine ⟨σ, hσ, ?_⟩
    have hscope : (withStore m σ).store.scope s = m.store.scope s := hσ.scope s
    rw [referenceIn_of_slots strict (by rw [hscope, slotBacked]), hscope, bound] at hlook
    exact bind_ok hlook
  | @member s o first backed =>
    obtain ⟨σ, hσ, hlook⟩ := lookAlong_of_first (referenceIn? name strict) first
    have hscope : (withStore m σ).store.scope s = m.store.scope s := hσ.scope s
    have hp : ((recordProvides s name).run (withStore m σ).store).1 = true := hσ.provides_iff.mpr first.provides
    rw [referenceIn_of_object strict (by rw [hscope, backed]), if_pos hp] at hlook
    exact ⟨_, hσ.trans (reads_recordProvides s name σ).1, bind_ok hlook⟩
  | global unprovided known =>
    obtain ⟨σ, hσ, hlook⟩ := lookAlong_of_unprovided (referenceIn? name strict) unprovided
    obtain ⟨σ', hσ', hglobal⟩ := globalReference_of_has (m := withStore m σ) (hσ.hasProperty_iff.mpr known) strict
    exact ⟨σ', hσ.trans hσ', (bind_ok hlook).trans hglobal⟩
  | nowhere unprovided unknown =>
    obtain ⟨σ, hσ, hlook⟩ := lookAlong_of_unprovided (referenceIn? name strict) unprovided
    obtain ⟨σ', hσ', hglobal⟩ := globalReference_of_has (m := withStore m σ)
      (Bool.eq_false_iff.mpr fun known => unknown (hσ.hasProperty_iff.mp known)) strict
    exact ⟨σ', hσ.trans hσ', (bind_ok hlook).trans hglobal⟩

theorem deleteName_of_run {σ : Store} {found : Option ScopeId}
    (h : (providerWithin name m.store.scopes.size m.regs.scope).run m.store = (found, σ)) :
    deleteName name m = (do
      pushNext (.bool (← found.elim (deleteFromGlobal name) fun s => deleteFromScope s name)) : VM Unit)
        (withStore m σ) := by
  have hprovider : onStore (Store.provider? m.regs.scope name) m = .ok found (withStore m σ) := by
    rw [onStore_eq, show (Store.provider? m.regs.scope name).run m.store = (found, σ) from h]
  unfold deleteName
  rw [regs_bind, bind_ok hprovider]
  cases found <;> rfl

/-- **Deleting** arrives at the place. -/
theorem Found.delete (h : Found m name place) :
    ∃ σ, Makes m.store σ ∧
      deleteName name m = (do pushNext (.bool (← place.delete name)) : VM Unit) (withStore m σ) := by
  cases h with
  | @slot s info first slotBacked bound =>
    obtain ⟨σ, hσ, hrun⟩ := first.run_provider
    have hscope : (withStore m σ).store.scope s = m.store.scope s := hσ.scope s
    refine ⟨σ, hσ, (deleteName_of_run hrun).trans (bind_congr_at ?_)⟩
    rw [Option.elim_some, deleteFromScope, scopeRecord_bind, hscope, slotBacked, bound]
    rfl
  | @member s o first backed =>
    obtain ⟨σ, hσ, hrun⟩ := first.run_provider
    have hscope : (withStore m σ).store.scope s = m.store.scope s := hσ.scope s
    refine ⟨σ, hσ, (deleteName_of_run hrun).trans (bind_congr_at ?_)⟩
    rw [Option.elim_some, deleteFromScope, scopeRecord_bind, hscope, backed]
    rfl
  | global unprovided known =>
    obtain ⟨σ, hσ, hrun⟩ := providerWithin_of_unprovided m.store.scopes.size unprovided
    have hglobal := deleteFromGlobal_of_has (m := withStore m σ) (hσ.hasProperty_iff.mpr known)
    exact ⟨_, hσ.trans (reads_has _ _ σ).1, (deleteName_of_run hrun).trans (bind_congr_at hglobal)⟩
  | nowhere unprovided unknown =>
    obtain ⟨σ, hσ, hrun⟩ := providerWithin_of_unprovided m.store.scopes.size unprovided
    have hglobal := deleteFromGlobal_of_has (m := withStore m σ)
      (Bool.eq_false_iff.mpr fun known => unknown (hσ.hasProperty_iff.mp known))
    exact ⟨_, hσ.trans (reads_has _ _ σ).1, (deleteName_of_run hrun).trans (bind_congr_at hglobal)⟩

end Walks

/-! ### A reference and its value -/

/-- Both computations leave the same operands, or both fail with errors of the same kind and message. -/
def SameOutcome : EStateM.Result Abort Machine α → EStateM.Result Abort Machine α → Prop
  | .ok _ m, .ok _ m' => m.stack = m'.stack
  | .error (.fault f) _, .error (.fault f') _ => f.report = f'.report
  | _, _ => False

section References

variable {m : Machine} {name : Text} {place : Place}

theorem read_foldStrict (kind : BindingKind) (strict : Bool) (name : Text) (v : Value) :
    (kind.foldStrict strict).read name v = kind.read name v := by
  cases kind <;> rfl

theorem readReference_property (o : ObjectId) (strict : Bool) (m : Machine) :
    readReference (.property o (.text name) strict true) m =
      .ok (m.store.valueOf o (.text name)) (withStore m ((Store.get? o (.text name)).run m.store).2) := by
  have hget : onStore (Store.get? o (.text name)) m =
      .ok (m.store.valueOf o (.text name)) (withStore m ((Store.get? o (.text name)).run m.store).2) := rfl
  unfold readReference
  dsimp only
  rw [bind_ok hget]
  cases m.store.valueOf o (.text name) <;> rfl

theorem Found.readReference (h : Found m name place) {strict : Bool} (hstrict : place = .nowhere → strict = false)
    (m₁ : Machine) (hmade : Makes m.store m₁.store) :
    ∃ σ, Makes m₁.store σ ∧
      VM.readReference (place.reference m.realm.global name strict) m₁ =
        ofOutcome (place.read m name) (withStore m₁ σ) := by
  cases h with
  | @slot s info first slotBacked bound =>
    refine ⟨m₁.store, .refl _, ?_⟩
    show (ofOutcome ((info.kind.foldStrict strict).read name (((m₁.store.scope s).slots[info.index]?).getD .undefined))
      >>= fun v => pure (some v)) m₁ = _
    rw [read_foldStrict, hmade.scope, Place.read]
    cases info.kind.read name (((m.store.scope s).slots[info.index]?).getD .undefined) <;> rfl
  | @member s o first backed =>
    refine ⟨_, (reads_get o (.text name) m₁.store).1, ?_⟩
    rw [Place.reference, readReference_property, hmade.valueOf_eq]
    rfl
  | global unprovided known =>
    refine ⟨_, (reads_get m.realm.global (.text name) m₁.store).1, ?_⟩
    rw [Place.reference, readReference_property, hmade.valueOf_eq]
    rfl
  | nowhere unprovided unknown =>
    refine ⟨_, (reads_get m.realm.global (.text name) m₁.store).1, ?_⟩
    rw [hstrict rfl, Place.reference, if_neg Bool.false_ne_true, readReference_property, hmade.valueOf_eq,
      Store.valueOf_eq_none unknown]
    rfl

/-- A reference is reported under the name, whatever its place: units that are no characters are not shown. -/
theorem report_reference (place : Place) (global : ObjectId) (name : Text) (strict : Bool) :
    (Fault.unresolved (place.reference global name strict).name).report = (Fault.unresolved name).report := by
  have hshown : (Fault.unresolved (Text.ofString name.display)).report = (Fault.unresolved name).report := by
    simp only [Fault.report, Text.display_ofString]
  cases place with
  | slot s info => rfl
  | member o => exact hshown
  | global => exact hshown
  | nowhere =>
    cases strict with
    | true => rfl
    | false => exact hshown

def withRef (r : Reference) (m : Machine) : Machine :=
  { m with refs := r :: m.refs, regs := { m.regs with pc := m.regs.pc + 1 } }

theorem getValue_withRef (r : Reference) (m : Machine) :
    getValue (withRef r m) =
      (do
        match ← readReference r with
        | some v => pushNext v
        | none => raise (.unresolved r.name) : VM Unit) (withRef r m) := rfl

/-- **A name resolved and read** gives what a read of the name gives. -/
theorem Found.getValue (h : Found m name place) (strict : Bool) :
    SameOutcome (loadName name m) ((do resolveName name strict; VM.getValue : VM Unit) m) := by
  obtain ⟨σ, hσ, hlookup⟩ := h.lookup
  obtain ⟨σ', hσ', hresolve⟩ := h.resolve strict
  have hload : loadName name m = _ := bind_congr_at hlookup
  have hget : (do resolveName name strict; VM.getValue) m =
      VM.getValue (withRef (place.reference m.realm.global name strict) (withStore m σ')) :=
    bind_ok (bind_ok hresolve)
  rw [hload, hget, getValue_withRef]
  by_cases hstrict : place = .nowhere → strict = false
  · obtain ⟨σ'', -, hread⟩ := h.readReference hstrict
      (withRef (place.reference m.realm.global name strict) (withStore m σ')) hσ'
    rw [bind_congr_at hread]
    cases place.read m name with
    | error f => exact rfl
    | ok found =>
      cases found with
      | some v => exact rfl
      | none => exact (report_reference place m.realm.global name strict).symm
  · obtain ⟨rfl, hne⟩ := Classical.not_imp.mp hstrict
    obtain rfl : strict = true := by simpa using hne
    exact rfl

end References

/-- **One place for a name.**  A name stands for one place, which the first record that provides it decides, and else the
global object.  The three loads read there, and the receiver of a call is the object that backs the record, if there is
one; a reference is to this place, and so is a deletion.  Outside strict mode a name found nowhere is resolved as a
property of the global object that is not there.  To resolve a name and to get the value leaves the operands that a load
of the name leaves, or fails with an error of the same kind and message. -/
theorem names_found_alike (m : Machine) (name : Text) : ∃ place, Found m name place ∧
    (∃ σ, Makes m.store σ ∧
      loadName name m =
        (do
          match ← ofOutcome (place.read m name) with
          | some v => pushNext v
          | none => raise (.unresolved name) : VM Unit) (withStore m σ) ∧
      loadNameOrMarker name m =
        (do pushNext ((← ofOutcome (place.read m name)).getD (.unresolved name false)) : VM Unit) (withStore m σ) ∧
      loadNameCallee name m =
        (do
          let v := (← ofOutcome (place.read m name)).getD (.unresolved name false)
          push place.receiver
          pushNext v : VM Unit) (withStore m σ)) ∧
    (∀ strict, ∃ σ, Makes m.store σ ∧
      resolveName name strict m =
        (do pushRef (place.reference m.realm.global name strict); advance : VM Unit) (withStore m σ)) ∧
    (∃ σ, Makes m.store σ ∧
      deleteName name m = (do pushNext (.bool (← place.delete name)) : VM Unit) (withStore m σ)) ∧
    ∀ strict, SameOutcome (loadName name m) ((do resolveName name strict; getValue : VM Unit) m) := by
  obtain ⟨place, h⟩ := exists_found m name
  refine ⟨place, h, ?_, fun strict => ?_, h.delete, h.getValue⟩
  · obtain ⟨σ, hσ, hlookup⟩ := h.lookup
    refine ⟨σ, hσ, ?_, ?_, ?_⟩
    · rw [loadName, bind_congr_at hlookup]
      rcases place.read m name with f | _ | v <;> rfl
    · rw [loadNameOrMarker, bind_congr_at hlookup]
      rcases place.read m name with f | _ | v <;> rfl
    · rw [loadNameCallee, bind_congr_at hlookup]
      cases hread : place.read m name with
      | error f => rfl
      | ok found =>
        cases found with
        | some v => rfl
        | none =>
          rw [h.receiver_of_absent hread]
          rfl
  · obtain ⟨σ, hσ, hresolve⟩ := h.resolve strict
    exact ⟨σ, hσ, bind_ok hresolve⟩

/-- A global object without properties, and one operand. -/
def emptyWorld : Machine :=
  { Machine.new .default with
    store := { Store.empty with objects := #[.ofKind none .ordinary], scopes := #[.new none] }
    realm := ⟨⟨0⟩, ⟨0⟩, ⟨0⟩, ⟨0⟩, ⟨0⟩, ⟨0⟩, ⟨0⟩, ⟨0⟩, ⟨0⟩, ⟨0⟩, ⟨⟨0⟩, ⟨0⟩, ⟨0⟩, ⟨0⟩, ⟨0⟩⟩, ⟨0⟩, ⟨0⟩⟩
    regs := .idle ⟨0⟩
    stack := OperandStack.new.push (.bool true) }

/-- A name that nothing provides is found nowhere, and yet outside strict mode it is resolved to a property of the global
object, which an assignment adds. -/
theorem unknown_name_assignable :
    Found emptyWorld (.ofUnits [120]) .nowhere ∧
    resolve (.ofUnits [120]) true emptyWorld = .ok (.unresolved (.ofUnits [120])) emptyWorld ∧
    resolve (.ofUnits [120]) false emptyWorld = .ok (.property ⟨0⟩ (.text (.ofUnits [120])) false true) emptyWorld ∧
    (endOf ((do resolveName (.ofUnits [120]) false; putValue true : VM Unit) emptyWorld)).store.HasProperty ⟨0⟩
      (.text (.ofUnits [120])) := by
  refine ⟨.nowhere ?_ ?_, rfl, rfl, ?_⟩
  · intro n t ht
    cases n with
    | zero =>
      cases ht
      decide
    | succ n => cases ht
  · show ¬ _ = true
    decide
  · show _ = true
    decide

end VM

end ScriptMachine
