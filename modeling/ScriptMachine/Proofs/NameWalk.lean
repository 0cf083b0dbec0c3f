import Mathlib.Data.Nat.Find
import Mathlib.Order.Basic
import ScriptMachine.Proofs.Chains
import ScriptMachine.Proofs.Footprint

/-!
# Fixed addresses and the walk along the records

An instruction with a fixed address goes a number of links out and reads or writes a slot there; one with a name walks
along the records until one of them provides the name.  When the record at the address is backed by slots and binds
the name at this slot, the two agree.

Main result: `accessors_agree`.
-/

namespace ScriptMachine

namespace Store

variable {σ : Store} {name : Text} {s t : ScopeId} {n level : Nat}

/-! ### Chains of records -/

/-- The record some links out of another one. -/
def outward (σ : Store) : Nat → ScopeId → Option ScopeId
  | 0, s => some s
  | n + 1, s => (σ.scope s).outer.bind (σ.outward n)

theorem Makes.outward_eq {σ' : Store} (h : Makes σ σ') (n : Nat) (s : ScopeId) : σ'.outward n s = σ.outward n s := by
  induction n generalizing s with
  | zero => rfl
  | succ n ih => simp only [outward, h.scope, funext ih]

theorem Makes.scopes_modifyScope {σ' : Store} (h : Makes σ σ') (s : ScopeId) (f : Scope → Scope) :
    (σ'.modifyScope s f).scopes = (σ.modifyScope s f).scopes := by
  rw [modifyScope, modifyScope, h.scopes]

/-! ### Records that provide a name -/

def Provides (σ : Store) (name : Text) (s : ScopeId) : Prop := ((recordProvides s name).run σ).1 = true

instance (σ : Store) (name : Text) (s : ScopeId) : Decidable (σ.Provides name s) :=
  inferInstanceAs (Decidable (_ = true))

theorem Makes.provides_iff {σ' : Store} (h : Makes σ σ') : σ'.Provides name s ↔ σ.Provides name s := by
  unfold Provides
  rw [(reads_recordProvides s name).answer h]

theorem recordProvides_of_slots (h : (σ.scope s).object = none) (name : Text) :
    (recordProvides s name).run σ = (((σ.scope s).find? name).isSome, σ) := by
  simp only [recordProvides, run_get_bind, h]
  rfl

theorem run_providerWithin_of_provides (h : σ.Provides name s) :
    (providerWithin name (n + 1) s).run σ = (some s, ((recordProvides s name).run σ).2) := by
  rw [providerWithin, run_bind, if_pos (show ((recordProvides s name).run σ).1 = true from h)]
  rfl

theorem run_providerWithin_of_not_provides
    (h : ¬ σ.Provides name s) :
    (providerWithin name (n + 1) s).run σ =
      (match (σ.scope s).outer with
        | some outer => providerWithin name n outer
        | none => return none).run ((recordProvides s name).run σ).2 := by
  have hmade := (reads_recordProvides s name σ).1
  rw [providerWithin, run_bind, if_neg (show ¬ ((recordProvides s name).run σ).1 = true from h), run_get_bind]
  cases houter : (σ.scope s).outer <;> simp only [hmade.scope, houter]

theorem Provides.lt_size (h : σ.Provides name s) : s.index < σ.scopes.size := by
  by_contra hge
  have hscope := scope_of_size_le (Nat.le_of_not_lt hge)
  rw [Provides, recordProvides_of_slots (by rw [hscope]; rfl), hscope] at h
  cases h

theorem lt_size_of_outward (h : σ.outward (n + 1) s = some t) : s.index < σ.scopes.size := by
  by_contra hge
  rw [outward, scope_of_size_le (Nat.le_of_not_lt hge)] at h
  cases h

/-- **No record is too far out**: if one along a chain is as wanted, then one is that is less than the number of records
away. -/
theorem exists_near_of {P : ScopeId → Prop} (hknown : ∀ {t}, P t → t.index < σ.scopes.size)
    (ht : σ.outward level s = some t) (hp : P t) :
    ∃ k ≤ level, k < σ.scopes.size ∧ ∃ u, σ.outward k s = some u ∧ P u := by
  classical
  -- The way to the first record that is as wanted goes through no record twice.
  obtain ⟨l, hroute, hlevel, hall, u, hu, hpu⟩ : ∃ l,
      Route (fun t => if P t then none else (σ.scope t).outer) s (s :: l) ∧ l.length ≤ level ∧
        (∀ t ∈ s :: l, t.index < σ.scopes.size) ∧ ∃ u, σ.outward l.length s = some u ∧ P u := by
    induction level generalizing s with
    | zero =>
      cases ht
      exact ⟨[], .last (if_pos hp), Nat.le_refl _, List.forall_mem_singleton.mpr (hknown hp), t, rfl, hp⟩
    | succ level ih =>
      by_cases hs : P s
      · exact ⟨[], .last (if_pos hs), Nat.zero_le _, List.forall_mem_singleton.mpr (hknown hs), s, rfl, hs⟩
      · obtain ⟨outer, houter, hrest⟩ := Option.bind_eq_some_iff.mp ht
        obtain ⟨l, hroute, hlevel, hall, u, hu, hpu⟩ := ih hrest
        refine ⟨outer :: l, .step ((if_neg hs).trans houter) hroute, Nat.succ_le_succ hlevel,
          List.forall_mem_cons.mpr ⟨lt_size_of_outward ht, hall⟩, u, ?_, hpu⟩
        rw [List.length_cons, outward, houter]
        exact hu
  have hindex : Function.Injective ScopeId.index := fun ⟨_⟩ ⟨_⟩ h => congrArg ScopeId.mk h
  exact ⟨l.length, hlevel, length_le_of_nodup hindex hroute.nodup hall, u, hu, hpu⟩

/-- If a record along a chain provides a name, then one does that is less than the number of records away. -/
theorem exists_near (ht : σ.outward level s = some t) (hp : σ.Provides name t) :
    ∃ k ≤ level, k < σ.scopes.size ∧ ∃ u, σ.outward k s = some u ∧ σ.Provides name u :=
  exists_near_of (fun h => h.lt_size) ht hp

end Store

namespace VM

open Store

/-! ### Looking into records -/

def withStore (m : Machine) (σ : Store) : Machine := { m with store := σ }

theorem onStore_eq (op : Store.Op α) (m : Machine) :
    onStore op m = .ok (op.run m.store).1 (withStore m (op.run m.store).2) := rfl

theorem scopeRecord_bind (s : ScopeId) (f : Scope → VM α) (m : Machine) :
    (scopeRecord s >>= f) m = f (m.store.scope s) m := rfl

/-- A look into a record finds something exactly if the record provides the name; on the way it makes the objects that
have to be made to see this. -/
structure Looks (look : ScopeId → VM (Option α)) (name : Text) : Prop where
  absent : ∀ {s m}, ¬ m.store.Provides name s →
    look s m = .ok none (withStore m ((recordProvides s name).run m.store).2)
  again : ∀ {s m}, m.store.Provides name s →
    look s (withStore m ((recordProvides s name).run m.store).2) = look s m
  found : ∀ {s m}, m.store.Provides name s → ∀ m', look s m ≠ .ok none m'

/-- What a look finds in the first record that provides the name, within a number of records. -/
def lookWithin (look : ScopeId → VM (Option α)) (name : Text) (n : Nat) (s : ScopeId) : VM (Option α) := do
  match ← onStore (providerWithin name n s) with
  | some s => look s
  | none => return none

theorem lookAlong_eq (look : ScopeId → VM (Option α)) (name : Text) (m : Machine) :
    lookAlong look name m = lookWithin look name m.store.scopes.size m.regs.scope m := rfl

section Walk

variable {look : ScopeId → VM (Option α)} {name : Text} {s : ScopeId} {m : Machine} {n : Nat} {outer : ScopeId}

theorem lookWithin_of_provides (h : Looks look name) (hs : m.store.Provides name s) :
    lookWithin look name (n + 1) s m = look s m := by
  rw [lookWithin, bind_ok (onStore_eq _ m), run_providerWithin_of_provides hs]
  exact h.again hs

theorem lookWithin_of_not_provides (hs : ¬ m.store.Provides name s)
    (ho : (m.store.scope s).outer = some outer) :
    lookWithin look name (n + 1) s m =
      lookWithin look name n outer (withStore m ((recordProvides s name).run m.store).2) := by
  rw [lookWithin, bind_ok (onStore_eq _ m), run_providerWithin_of_not_provides hs, ho]
  rfl

theorem outerScope_one (ho : (m.store.scope s).outer = some outer) :
    outerScope s 1 m = .ok outer m := by
  rw [outerScope, scopeRecord_bind, ho]
  exact rfl

theorem scan_succ_of_not_provides (h : Looks look name) (hs : ¬ m.store.Provides name s)
    (ho : (m.store.scope s).outer = some outer) :
    scan look (n + 1) s m = scan look n outer (withStore m ((recordProvides s name).run m.store).2) := by
  have hmade := (reads_recordProvides s name m.store).1
  rw [scan, bind_ok (h.absent hs)]
  exact bind_ok (outerScope_one (by rw [← ho]; exact congrArg Scope.outer (hmade.scope s)))

/-- **The two walks**: to look into the records below a level, and at the level itself in some other way that comes to
the same, is to look into the first record that provides the name. -/
theorem scan_bind_eq (h : Looks look name) {k : Option α → VM β} {g : ScopeId → VM β}
    (ht : m.store.outward level s = some t) (hp : m.store.Provides name t)
    (hnear : ∃ j ≤ level, j < n ∧ ∃ u, m.store.outward j s = some u ∧ m.store.Provides name u)
    (hg : ∀ σ, Makes m.store σ → g t (withStore m σ) = (look t >>= k) (withStore m σ)) :
    (scan look level s >>= Sum.elim (k ∘ some) g) m = (lookWithin look name n s >>= k) m := by
  induction level generalizing s m n with
  | zero =>
    cases ht
    obtain ⟨n, rfl⟩ : ∃ n', n = n' + 1 := ⟨n - 1, by omega⟩
    have hlook := lookWithin_of_provides (n := n) h hp
    calc (scan look 0 t >>= Sum.elim (k ∘ some) g) m = g t m := rfl
      _ = (look t >>= k) m := hg m.store (.refl _)
      _ = (lookWithin look name (n + 1) t >>= k) m := (bind_congr_at hlook).symm
  | succ level ih =>
    obtain ⟨j, hj, hjn, u, hu, hpu⟩ := hnear
    obtain ⟨n, rfl⟩ : ∃ n', n = n' + 1 := ⟨n - 1, by omega⟩
    obtain ⟨outer, ho, hrest⟩ := Option.bind_eq_some_iff.mp ht
    by_cases hs : m.store.Provides name s
    · have hlook := lookWithin_of_provides (n := n) h hs
      cases hr : look s m with
      | error e m' =>
        rw [bind_error (hlook.trans hr)]
        exact bind_error (bind_error hr)
      | ok found m' =>
        cases found with
        | none => exact absurd hr (h.found hs m')
        | some a =>
          rw [bind_ok (hlook.trans hr)]
          have hscan : scan look (level + 1) s m = .ok (.inl a) m' := bind_ok hr
          exact bind_ok hscan
    · have hmade := (reads_recordProvides s name m.store).1
      have hj0 : j ≠ 0 := by
        rintro rfl
        cases hu
        exact hs hpu
      obtain ⟨j, rfl⟩ : ∃ j', j = j' + 1 := ⟨j - 1, by omega⟩
      have hu' : m.store.outward j outer = some u := by
        rw [outward, ho] at hu
        exact hu
      have hscan := scan_succ_of_not_provides (n := level) h hs ho
      have hlook : lookWithin look name (n + 1) s m = _ := lookWithin_of_not_provides hs ho
      have hih := ih (n := n) (m := withStore m ((recordProvides s name).run m.store).2)
        (by rw [← hrest]; exact hmade.outward_eq _ _) (hmade.provides_iff.mpr hp)
        ⟨j, by omega, by omega, u, by rw [← hu']; exact hmade.outward_eq _ _, hmade.provides_iff.mpr hpu⟩
        fun σ hσ => hg σ (hmade.trans hσ)
      exact (bind_congr_at hscan).trans (hih.trans (bind_congr_at hlook).symm)

/-- When none of the first records provides the name, a scan goes on past them. -/
theorem scan_past (h : Looks look name) (rest : Nat) (ht : m.store.outward n s = some t)
    (habsent : ∀ j < n, ∀ u, m.store.outward j s = some u → ¬ m.store.Provides name u) :
    ∃ σ, Makes m.store σ ∧ scan look (rest + n) s m = scan look rest t (withStore m σ) := by
  induction n generalizing s m with
  | zero =>
    cases ht
    exact ⟨m.store, .refl _, rfl⟩
  | succ n ih =>
    obtain ⟨outer, ho, hrest⟩ := Option.bind_eq_some_iff.mp ht
    have hs : ¬ m.store.Provides name s := habsent 0 (by omega) s rfl
    have hmade := (reads_recordProvides s name m.store).1
    obtain ⟨σ, hσ, hscan⟩ := ih (m := withStore m ((recordProvides s name).run m.store).2)
      (by rw [← hrest]; exact hmade.outward_eq _ _) fun j hj u hu hpu => by
        refine habsent (j + 1) (by omega) u ?_ (hmade.provides_iff.mp hpu)
        rw [outward, ho, ← hu]
        exact (hmade.outward_eq _ _).symm
    exact ⟨σ, hmade.trans hσ, (scan_succ_of_not_provides h hs ho).trans hscan⟩

theorem scan_of_absent (h : Looks look name) (ht : m.store.outward level s = some t)
    (habsent : ∀ j < level, ∀ u, m.store.outward j s = some u → ¬ m.store.Provides name u) :
    ∃ σ, Makes m.store σ ∧ scan look level s m = .ok (.inr t) (withStore m σ) := by
  obtain ⟨σ, hσ, hscan⟩ := scan_past h 0 ht habsent
  rw [Nat.zero_add] at hscan
  exact ⟨σ, hσ, hscan⟩

end Walk

/-! ### Looks for values and for references -/

section Looks

variable {s : ScopeId} {m : Machine} {name : Text} {σ : Store} {o : ObjectId}

theorem recordProvides_of_object (h : (σ.scope s).object = some o) :
    (recordProvides s name).run σ = (provides o name).run σ := by
  simp only [recordProvides, run_get_bind, h]

theorem readName_of_object (h : (σ.scope s).object = some o) :
    (readName s name).run σ = (do
      if ← provides o name then return .ok (some ((← Store.get? o (.text name)).getD .undefined))
      else return .ok none : Store.Op (Outcome (Option Value))).run σ := by
  simp only [readName, run_get_bind, h]

theorem readName_of_slots (h : (σ.scope s).object = none) :
    (readName s name).run σ = ((σ.scope s).read? name, σ) := by
  simp only [readName, run_get_bind, h]
  rfl

theorem readName_of_not_provides (h : ¬ σ.Provides name s) :
    (readName s name).run σ = (.ok none, ((recordProvides s name).run σ).2) := by
  cases ho : (σ.scope s).object with
  | none =>
    rw [Provides, recordProvides_of_slots ho] at h
    have hnone : (σ.scope s).find? name = none := by simpa using h
    rw [readName_of_slots ho, recordProvides_of_slots ho, Scope.read?, hnone]
  | some o =>
    rw [Provides, recordProvides_of_object ho] at h
    rw [readName_of_object ho, recordProvides_of_object ho]
    rw [run_bind, if_neg h]
    rfl

theorem readName_of_provides (h : σ.Provides name s) : ((readName s name).run σ).1 ≠ .ok none := by
  cases ho : (σ.scope s).object with
  | none =>
    rw [Provides, recordProvides_of_slots ho] at h
    obtain ⟨info, hinfo⟩ := Option.isSome_iff_exists.mp h
    rw [readName_of_slots ho, Scope.read?, hinfo]
    cases hread : info.kind.read name (((σ.scope s).slots[info.index]?).getD .undefined) <;> simp [hread, Except.map]
  | some o =>
    rw [Provides, recordProvides_of_object ho] at h
    rw [readName_of_object ho, run_bind, if_pos h]
    exact fun heq => nomatch heq

theorem readName_again (name : Text) (s : ScopeId) (σ : Store) :
    (readName s name).run ((recordProvides s name).run σ).2 = (readName s name).run σ := by
  have hmade := (reads_recordProvides s name σ).1
  cases ho : (σ.scope s).object with
  | none => rw [recordProvides_of_slots ho]
  | some o =>
    rw [readName_of_object (by rw [hmade.scope, ho]), readName_of_object ho, recordProvides_of_object ho,
      run_bind, run_bind, (reads_provides o name).again σ]

theorem looks_readIn (name : Text) : Looks (readIn? name) name where
  absent {s m} h := by
    refine bind_ok (a := none) ?_
    rw [demand, bind_ok (onStore_eq _ m), readName_of_not_provides h]
    rfl
  again {s m} h := by
    refine bind_congr_at (bind_congr_at ?_)
    exact congrArg (fun r => EStateM.Result.ok r.1 (withStore m r.2)) (readName_again name s m.store)
  found {s m} h m' := by
    intro heq
    obtain ⟨found, m₁, hfound, hrest⟩ := bind_eq_ok.mp heq
    rw [demand, bind_ok (onStore_eq _ m)] at hfound
    cases found with
    | none =>
      refine readName_of_provides h ?_
      cases hread : ((readName s name).run m.store).1 <;> rw [hread] at hfound <;> cases hfound
      rfl
    | some v =>
      obtain ⟨receiver, m₂, -, hpure⟩ := bind_eq_ok.mp hrest
      cases hpure

theorem readIn_of_slots (h : (m.store.scope s).object = none) :
    readIn? name s m = ofOutcome (((m.store.scope s).read? name).map (Option.map (·, Value.undefined))) m := by
  have honStore : onStore (readName s name) m = .ok ((m.store.scope s).read? name) m := by
    rw [onStore_eq, readName_of_slots h]
    rfl
  have hreceiver : scopeReceiver s m = .ok .undefined m := by
    rw [scopeReceiver, scopeRecord_bind, h]
    exact rfl
  cases hread : (m.store.scope s).read? name with
  | error f => exact bind_error ((bind_ok honStore).trans (by rw [hread]; rfl))
  | ok found =>
    have hdemand : demand (readName s name) m = .ok found m := (bind_ok honStore).trans (by rw [hread]; rfl)
    cases found with
    | none => exact bind_ok hdemand
    | some v => exact (bind_ok hdemand).trans (bind_ok hreceiver)

theorem referenceIn_of_slots (strict : Bool) (h : (m.store.scope s).object = none) :
    referenceIn? name strict s m =
      .ok (((m.store.scope s).find? name).map fun i => .scope name s i.index (i.kind.foldStrict strict)) m := by
  rw [referenceIn?, scopeRecord_bind, h]
  exact rfl

theorem referenceIn_of_object (strict : Bool) (h : (m.store.scope s).object = some o) :
    referenceIn? name strict s m =
      .ok (if ((recordProvides s name).run m.store).1 then some (.property o (.text name) strict true) else none)
        (withStore m ((recordProvides s name).run m.store).2) := by
  rw [referenceIn?, scopeRecord_bind, h, recordProvides_of_object h]
  dsimp only
  rw [bind_ok (onStore_eq _ m)]
  split <;> rfl

theorem looks_referenceIn (name : Text) (strict : Bool) : Looks (referenceIn? name strict) name where
  absent {s m} h := by
    cases ho : (m.store.scope s).object with
    | some o =>
      rw [Provides] at h
      rw [referenceIn_of_object strict ho, if_neg h]
    | none =>
      rw [Provides, recordProvides_of_slots ho] at h
      have hnone : (m.store.scope s).find? name = none := by simpa using h
      rw [referenceIn_of_slots strict ho, recordProvides_of_slots ho, hnone]
      rfl
  again {s m} h := by
    have hreads := reads_recordProvides s name
    have hmade := (hreads m.store).1
    cases ho : (m.store.scope s).object with
    | none =>
      rw [recordProvides_of_slots ho]
      rfl
    | some o =>
      have ho' : ((withStore m ((recordProvides s name).run m.store).2).store.scope s).object = some o :=
        (congrArg Scope.object (hmade.scope s)).trans ho
      rw [referenceIn_of_object strict ho, referenceIn_of_object strict ho']
      exact congrArg (fun r => EStateM.Result.ok (if r.1 then some (Reference.property o (.text name) strict true)
        else none) (withStore m r.2)) (hreads.again m.store)
  found {s m} h m' := by
    cases ho : (m.store.scope s).object with
    | some o =>
      rw [Provides] at h
      rw [referenceIn_of_object strict ho, if_pos h]
      exact fun heq => nomatch heq
    | none =>
      rw [Provides, recordProvides_of_slots ho] at h
      obtain ⟨info, hinfo⟩ := Option.isSome_iff_exists.mp h
      rw [referenceIn_of_slots strict ho, hinfo]
      exact fun heq => nomatch heq

end Looks

/-! ### The record at an address -/

/-- The record at an address is backed by slots and binds a name at the slot of the address, and no other name there. -/
structure BoundAt (m : Machine) (name : Text) (a : ScopeAddress) (kind : BindingKind) (t : ScopeId) : Prop where
  reached : m.store.outward a.level m.regs.scope = some t
  slotBacked : (m.store.scope t).object = none
  bound : (m.store.scope t).find? name = some ⟨a.index, kind⟩
  inRange : a.index < (m.store.scope t).slots.size
  injective : ∀ names ∈ (m.store.scope t).names, ∀ e ∈ names.entries, ∀ e' ∈ names.entries,
    e.2.index = e'.2.index → e.1 = e'.1

def AbsentBelow (m : Machine) (name : Text) (level : Nat) : Prop :=
  ∀ j < level, ∀ s, m.store.outward j m.regs.scope = some s → ¬ m.store.Provides name s

section Address

variable {m : Machine} {name : Text} {a : ScopeAddress} {kind : BindingKind} {t : ScopeId}

theorem BoundAt.withStore (h : BoundAt m name a kind t) {σ : Store} (hσ : Makes m.store σ) :
    BoundAt (withStore m σ) name a kind t where
  reached := (hσ.outward_eq _ _).trans h.reached
  slotBacked := by rw [← h.slotBacked]; exact congrArg _ (hσ.scope t)
  bound := by rw [← h.bound]; exact congrArg (Scope.find? · name) (hσ.scope t)
  inRange := by have := h.inRange; rw [← hσ.scope t] at this; exact this
  injective := by have := h.injective; rw [← hσ.scope t] at this; exact this

theorem BoundAt.provides (h : BoundAt m name a kind t) : m.store.Provides name t := by
  rw [Provides, recordProvides_of_slots h.slotBacked, h.bound]
  rfl

theorem BoundAt.slot (h : BoundAt m name a kind t) : ∃ v, (m.store.scope t).slots[a.index]? = some v :=
  ⟨_, Array.getElem?_eq_getElem h.inRange⟩

theorem BoundAt.nameOf (h : BoundAt m name a kind t) : (m.store.scope t).nameOf? a.index = some name := by
  obtain ⟨names, hnames, hfind⟩ := Option.bind_eq_some_iff.mp h.bound
  obtain ⟨e, he, hinfo⟩ := Option.map_eq_some_iff.mp hfind
  have hname : e.1 = name := by simpa using List.find?_some he
  have hindex : e.2.index = a.index := by rw [hinfo]
  rw [Scope.nameOf?, hnames]
  show (names.entries.reverse.find? _).map _ = _
  cases hlast : names.entries.reverse.find? (fun e => decide (e.2.index = a.index)) with
  | none =>
    have := List.find?_eq_none.mp hlast e (List.mem_reverse.mpr (List.mem_of_find?_eq_some he))
    simp [hindex] at this
  | some e' =>
    have hindex' : e'.2.index = a.index := by simpa using List.find?_some hlast
    have hmem' := List.mem_reverse.mp (List.mem_of_find?_eq_some hlast)
    have hsame := h.injective names hnames e (List.mem_of_find?_eq_some he) e' hmem' (hindex.trans hindex'.symm)
    rw [Option.map_some, ← hsame, hname]

theorem outerScope_eq (h : m.store.outward n s = some t) : outerScope s n m = .ok t m := by
  induction n generalizing s with
  | zero =>
    cases h
    rfl
  | succ n ih =>
    obtain ⟨outer, ho, hrest⟩ := Option.bind_eq_some_iff.mp h
    rw [outerScope, scopeRecord_bind, ho]
    exact ih hrest

theorem BoundAt.scopeAt (h : BoundAt m name a kind t) : VM.scopeAt a.level m = .ok t m := outerScope_eq h.reached

theorem BoundAt.readIn (h : BoundAt m name a kind t) {v : Value} (hv : (m.store.scope t).slots[a.index]? = some v) :
    readIn? name t m = ofOutcome ((kind.read name v).map fun v => some (v, Value.undefined)) m := by
  rw [readIn_of_slots h.slotBacked, Scope.read?, h.bound]
  dsimp only
  rw [hv, Option.getD_some]
  cases kind.read name v <;> rfl

theorem BoundAt.referenceIn (h : BoundAt m name a kind t) (strict : Bool) :
    referenceIn? name strict t m = .ok (some (.scope name t a.index (kind.foldStrict strict))) m := by
  rw [referenceIn_of_slots strict h.slotBacked, h.bound]
  rfl

/-- A walk by the name, and a scan of the records below the address followed by what comes to the same there. -/
theorem BoundAt.walk {look : ScopeId → VM (Option α)} (h : BoundAt m name a kind t) (hlook : Looks look name)
    {k : Option α → VM β} {g : ScopeId → VM β}
    (hg : ∀ σ, Makes m.store σ → g t (VM.withStore m σ) = (look t >>= k) (VM.withStore m σ)) :
    (scan look a.level m.regs.scope >>= Sum.elim (k ∘ some) g) m = (lookAlong look name >>= k) m := by
  rw [bind_congr_at (lookAlong_eq look name m)]
  exact scan_bind_eq hlook h.reached h.provides (exists_near h.reached h.provides) hg

/-- When no record below provides the name, a walk by the name leads to the record at the address. -/
theorem BoundAt.lookAlong {look : ScopeId → VM (Option α)} (h : BoundAt m name a kind t) (hlook : Looks look name)
    (habsent : AbsentBelow m name a.level) :
    ∃ σ, Makes m.store σ ∧ VM.lookAlong look name m = look t (VM.withStore m σ) := by
  obtain ⟨σ, hσ, hscan⟩ := scan_of_absent hlook h.reached habsent
  have hwalk := h.walk hlook fun σ _ => (congrFun (bind_pure (look t)) _).symm
  refine ⟨σ, hσ, ?_⟩
  rw [← congrFun (bind_pure (VM.lookAlong look name)) m, ← hwalk, bind_ok hscan]
  rfl

/-! ### The instructions -/

/-- A read of a slot of a record by a name, where no record below provides the name. -/
def readThere (read : DynamicRead) (index : Nat) (s : ScopeId) : VM Unit := do
  match (← scopeRecord s).slots[index]? with
  | some .empty =>
    if read.lexical then raise (.uninitialized (some read.target.name)) else pushRead read .undefined .undefined
  | some v => pushRead read v.orUndefined .undefined
  | none => raise (.internal (.scopeSlot index))

theorem BoundAt.loadMixed (h : BoundAt m name a kind t)
    (hmarker : ∀ x member, (m.store.scope t).slots[a.index]? ≠ some (.unresolved x member)) (callee : Bool)
    {k : Option (Value × Value) → VM Unit}
    (hk : ∀ v receiver, k (some (v, receiver)) = pushRead ⟨⟨name, a.level⟩, callee, kind.isLexical⟩ v receiver) :
    VM.loadMixed ⟨⟨name, a.level⟩, callee, kind.isLexical⟩ a.index m =
      (VM.lookAlong (readIn? name) name >>= k) m := by
  rw [← h.walk (looks_readIn name) (g := readThere ⟨⟨name, a.level⟩, callee, kind.isLexical⟩ a.index)]
  · refine congrArg (fun f => (scan (readIn? name) a.level m.regs.scope >>= f) m) (funext fun r => ?_)
    cases r with
    | inl found => exact (hk found.1 found.2).symm
    | inr s => rfl
  · intro σ hσ
    have hb := h.withStore hσ
    obtain ⟨v, hv⟩ := hb.slot
    have hmarker' : ∀ x member, v ≠ .unresolved x member := by
      rintro x member rfl
      exact hmarker x member (by rw [← hv, ← hσ.scope t]; rfl)
    rw [bind_congr_at (hb.readIn hv), readThere, scopeRecord_bind, hv]
    cases v with
    | empty =>
      cases hlexical : kind.isLexical with
      | true => simp only [BindingKind.read, hlexical]; rfl
      | false =>
        have := congrFun (hk .undefined .undefined) (VM.withStore m σ)
        simp only [BindingKind.read, hlexical] at this ⊢
        exact this.symm
    | unresolved x member => exact absurd rfl (hmarker' x member)
    | _ => exact (congrFun (hk _ .undefined) (VM.withStore m σ)).symm

theorem BoundAt.resolveMixed (h : BoundAt m name a kind t) (strict : Bool) :
    VM.resolveMixed ⟨⟨name, a.level⟩, kind, strict⟩ a.index m = resolveName name strict m := by
  rw [resolveName, resolve, bind_assoc, ← h.walk (looks_referenceIn name strict)]
  · refine congrArg (fun f => (scan (referenceIn? name strict) a.level m.regs.scope >>= f) m) (funext fun r => ?_)
    cases r <;> rfl
  · intro σ hσ
    rw [bind_ok ((h.withStore hσ).referenceIn strict)]
    rfl

def resultWith (σ : Store) : EStateM.Result Abort Machine α → EStateM.Result Abort Machine α
  | .ok a m => .ok a (VM.withStore m σ)
  | .error e m => .error e (VM.withStore m σ)

theorem BoundAt.loadScope (h : BoundAt m name a kind t) (habsent : AbsentBelow m name a.level) :
    ∃ σ, Makes m.store σ ∧ loadName name m = resultWith σ (VM.loadScope a kind.isLexical m) := by
  obtain ⟨v, hv⟩ := h.slot
  obtain ⟨σ, hσ, hlook⟩ := h.lookAlong (looks_readIn name) habsent
  refine ⟨σ, hσ, ?_⟩
  have hb := h.withStore hσ
  have hv' : ((VM.withStore m σ).store.scope t).slots[a.index]? = some v := by rw [← hv, ← hσ.scope t]; rfl
  have hload : VM.loadScope a kind.isLexical m = (ofOutcome (kind.read name v) >>= pushNext) m := by
    rw [VM.loadScope, bind_ok h.scopeAt, scopeRecord_bind, hv]
    rw [h.nameOf]
    cases v <;> rfl
  rw [hload, loadName, lookup?, bind_assoc, bind_congr_at (hlook.trans (hb.readIn hv'))]
  cases kind.read name v <;> rfl

theorem takeTop_spec (popped : Bool) (stack : OperandStack) :
    (∃ v stack', ∀ m : Machine, m.stack = stack → takeTop popped m = .ok v { m with stack := stack' }) ∨
      ∃ f, ∀ m : Machine, m.stack = stack → takeTop popped m = .error (.fault f) m := by
  cases popped with
  | true =>
    have htake : ∀ m, takeTop true m = onStack (·.pop) m := fun _ => rfl
    cases hpop : stack.pop with
    | error f => exact .inr ⟨f, fun m hm => by simp only [htake, onStack, hm, hpop]⟩
    | ok r => exact .inl ⟨r.1, r.2, fun m hm => by simp only [htake, onStack, hm, hpop]⟩
  | false =>
    have htake : ∀ m, takeTop false m = ofOutcome (m.stack.peek 0) m := fun _ => rfl
    cases hpeek : stack.peek 0 with
    | error f => exact .inr ⟨f, fun m hm => by rw [htake, hm, hpeek]; rfl⟩
    | ok v => exact .inl ⟨v, stack, fun m hm => by rw [htake, hm, hpeek, ← hm]; rfl⟩

/-- The machine a computation ends in. -/
def endOf : EStateM.Result Abort Machine α → Machine
  | .ok _ m => m
  | .error _ m => m

/-- Why a computation ended early, if it did. -/
def abortOf : EStateM.Result Abort Machine α → Option Abort
  | .ok .. => none
  | .error e _ => some e

theorem modifyScope_const (σ : Store) (s : ScopeId) (f : Scope → Scope) :
    (σ.modifyScope s fun _ => f (σ.scope s)) = σ.modifyScope s f := by
  unfold Store.modifyScope scope
  congr 1
  refine Array.ext (by simp) fun i hi _ => ?_
  simp only [Array.size_modify] at hi
  simp only [Array.getElem_modify]
  split
  · rename_i heq
    simp [heq, hi]
  · rfl

theorem admits_eq (hkind : ∀ s, kind ≠ .constant s) (current : Value) :
    kind.admits name current =
      if kind.isLexical && current.isEmpty then .error (.uninitialized (some name)) else .ok true := by
  cases kind with
  | hoisted => rfl
  | lexical => cases current <;> rfl
  | constant s => exact absurd rfl (hkind s)

/-- How a value goes into a slot that holds `current`: not into a lexical binding that is not initialised. -/
def assignSlot (name : Text) (t : ScopeId) (index : Nat) (kind : BindingKind) (current v : Value) : VM Unit :=
  if kind.isLexical && current.isEmpty then raise (.uninitialized (some name))
  else do
    onStore (modify fun σ => σ.modifyScope t fun x => { x with slots := x.slots.setIfInBounds index v })
    advance

/-- How a value goes into a slot of a record by its index. -/
def storeThere (t : ScopeId) (index : Nat) (lexical : Bool) (v : Value) : VM Unit := do
  let x ← scopeRecord t
  if lexical && ((x.slots[index]?).any Value.isEmpty) then raise (.uninitialized (x.nameOf? index))
  else
    writeScopeSlot t index v
    advance

theorem BoundAt.storeThere (h : BoundAt m name a kind t) {current : Value}
    (hcurrent : (m.store.scope t).slots[a.index]? = some current) (v : Value) :
    VM.storeThere t a.index kind.isLexical v m = assignSlot name t a.index kind current v m := by
  have hwrite : writeScopeSlot t a.index v m =
      onStore (modify fun σ => σ.modifyScope t fun x => { x with slots := x.slots.setIfInBounds a.index v }) m := by
    show (if a.index < (m.store.scope t).slots.size then _ else _ : VM Unit) m = _
    rw [if_pos h.inRange]
    rfl
  show (if kind.isLexical && (((m.store.scope t).slots[a.index]?).any Value.isEmpty)
    then raise (.uninitialized ((m.store.scope t).nameOf? a.index)) else _) m = _
  rw [hcurrent, h.nameOf, Option.any_some, assignSlot]
  split
  · rfl
  · exact bind_congr_at hwrite

theorem BoundAt.writeReference (h : BoundAt m name a kind t) (hkind : ∀ s, kind ≠ .constant s) {current : Value}
    (hcurrent : (m.store.scope t).slots[a.index]? = some current) (v : Value) :
    (do VM.writeReference (.scope name t a.index kind) v; advance : VM Unit) m =
      assignSlot name t a.index kind current v m := by
  have hupdate : updateScope t (·.writeSlot name a.index v) m =
      onStore (modify fun σ => σ.modifyScope t fun x => { x with slots := x.slots.setIfInBounds a.index v }) m := by
    show (ofOutcome (if a.index < (m.store.scope t).slots.size then _ else _) >>= fun x => modifyScope t fun _ => x) m =
      .ok () { m with store := m.store.modifyScope t _ }
    rw [if_pos h.inRange, ← modifyScope_const]
    rfl
  have hwrite : VM.writeReference (.scope name t a.index kind) v m =
      (ofOutcome (kind.admits name current) >>= fun admitted =>
        if admitted then updateScope t (·.writeSlot name a.index v) else pure ()) m := by
    unfold VM.writeReference
    dsimp only
    rw [scopeRecord_bind, hcurrent]
  rw [bind_congr_at hwrite, admits_eq hkind, assignSlot]
  split
  · rfl
  · exact bind_congr_at hupdate

theorem BoundAt.storeScope (h : BoundAt m name a kind t) (habsent : AbsentBelow m name a.level)
    (hkind : ∀ s, kind ≠ .constant s) (popped strict : Bool) :
    let stored := VM.storeScope a kind.isLexical popped m
    let assigned := (do resolveName name strict; putValue popped : VM Unit) m
    abortOf stored = abortOf assigned ∧ (endOf stored).store.scopes = (endOf assigned).store.scopes := by
  intro stored assigned
  obtain ⟨current, hcurrent⟩ := h.slot
  obtain ⟨σ, hσ, hlook⟩ := h.lookAlong (looks_referenceIn name strict) habsent
  have hfold : kind.foldStrict strict = kind := by
    cases kind <;> first | rfl | exact absurd rfl (hkind _)
  have hresolve : resolve name strict m = .ok (.scope name t a.index kind) (VM.withStore m σ) := by
    rw [resolve, bind_ok (hlook.trans ((h.withStore hσ).referenceIn strict)), hfold]
    rfl
  -- From here on both take the value from the stack, in states that differ in the store and the next instruction.
  let m₁ : Machine := { VM.withStore m σ with regs := { m.regs with pc := m.regs.pc + 1 } }
  have hstored : stored = (takeTop popped >>= VM.storeThere t a.index kind.isLexical) m := bind_ok h.scopeAt
  have hassigned : assigned = (do
      let v ← takeTop popped
      VM.writeReference (.scope name t a.index kind) v
      advance) m₁ := by
    show (resolveName name strict >>= fun _ => putValue popped) m = _
    rw [resolveName, bind_assoc, bind_ok hresolve]
    rfl
  rw [hstored, hassigned]
  rcases takeTop_spec popped m.stack with ⟨v, stack, htake⟩ | ⟨f, htake⟩
  · have hb : BoundAt { m with stack := stack } name a kind t := ⟨h.1, h.2, h.3, h.4, h.5⟩
    have h₁ : BoundAt { m₁ with stack := stack } name a kind t :=
      have hmade := h.withStore hσ
      ⟨hmade.1, hmade.2, hmade.3, hmade.4, hmade.5⟩
    have hcurrent₁ : (σ.scope t).slots[a.index]? = some current := by rw [hσ.scope, hcurrent]
    rw [bind_ok (htake m rfl), bind_ok (htake m₁ rfl), hb.storeThere hcurrent, h₁.writeReference hkind hcurrent₁,
      assignSlot]
    split
    · exact ⟨rfl, hσ.scopes.symm⟩
    · exact ⟨rfl, (hσ.scopes_modifyScope t _).symm⟩
  · rw [bind_error (htake m rfl), bind_error (htake m₁ rfl)]
    exact ⟨rfl, hσ.scopes.symm⟩

/-- **Fixed addresses agree with the walk by name.**  Let a record that is backed by slots bind a name at an address.
If no record below provides the name, to load the slot is to load the name, but for lazy objects that the walk makes,
and to store into the slot changes the records as an assignment to the name does.  Whatever records there are below, an
instruction that scans these first and then takes the slot does what the one with the name does; to read, the slot must
not hold the mark of a name looked up in vain. -/
theorem accessors_agree (h : BoundAt m name a kind t) :
    (AbsentBelow m name a.level →
      ∃ σ, Makes m.store σ ∧ loadName name m = resultWith σ (loadScope a kind.isLexical m)) ∧
    ((∀ x member, (m.store.scope t).slots[a.index]? ≠ some (.unresolved x member)) →
      loadMixed ⟨⟨name, a.level⟩, false, kind.isLexical⟩ a.index m = loadName name m ∧
      loadMixed ⟨⟨name, a.level⟩, true, kind.isLexical⟩ a.index m = loadNameCallee name m) ∧
    (∀ strict, resolveMixed ⟨⟨name, a.level⟩, kind, strict⟩ a.index m = resolveName name strict m) ∧
    (AbsentBelow m name a.level → (∀ s, kind ≠ .constant s) → ∀ popped strict,
      let stored := storeScope a kind.isLexical popped m
      let assigned := (do resolveName name strict; putValue popped : VM Unit) m
      abortOf stored = abortOf assigned ∧ (endOf stored).store.scopes = (endOf assigned).store.scopes) := by
  refine ⟨h.loadScope, fun hmarker => ⟨?_, ?_⟩, h.resolveMixed, h.storeScope⟩
  · rw [loadName, lookup?, bind_assoc]
    exact h.loadMixed hmarker false fun _ _ => rfl
  · rw [loadNameCallee, lookup?, bind_assoc]
    exact h.loadMixed hmarker true fun _ _ => rfl

end Address

/-- In a `with` statement over a lazy object without properties, inside a scope with a hoisted and a lexical name. -/
def insideWith : Machine :=
  { Machine.new .default with
    store := { Store.empty with
      objects := #[⟨.new none, .lazy "made" (.new none) .ordinary⟩]
      scopes := #[.forObject ⟨0⟩ (some ⟨1⟩),
        .withLayout none 2 (some (.ofList [(.ofUnits [120], .hoisted false), (.ofUnits [121], .lexical)]))] }
    regs := .idle ⟨0⟩ }

theorem boundAt_insideWith : BoundAt insideWith (.ofUnits [121]) ⟨1, 1⟩ .lexical ⟨1⟩ where
  reached := rfl
  slotBacked := rfl
  bound := by decide
  inRange := by decide
  injective := by
    intro names hnames
    cases hnames
    decide

/-- The lexical name is read and assigned in its record, two ways. -/
theorem accessors_agree_insideWith :
    (∃ σ, Makes insideWith.store σ ∧
      loadName (.ofUnits [121]) insideWith = resultWith σ (loadScope ⟨1, 1⟩ true insideWith)) ∧
    loadMixed ⟨⟨.ofUnits [121], 1⟩, false, true⟩ 1 insideWith = loadName (.ofUnits [121]) insideWith ∧
    resolveMixed ⟨⟨.ofUnits [121], 1⟩, .lexical, true⟩ 1 insideWith = resolveName (.ofUnits [121]) true insideWith ∧
    abortOf (storeScope ⟨1, 1⟩ true true insideWith) =
      abortOf ((do resolveName (.ofUnits [121]) true; putValue true : VM Unit) insideWith) := by
  have habsent : AbsentBelow insideWith (.ofUnits [121]) 1 := by
    intro j hj s hs
    obtain rfl : j = 0 := by omega
    cases hs
    decide
  have hmarker : ∀ x member, (insideWith.store.scope ⟨1⟩).slots[1]? ≠ some (.unresolved x member) := by
    intro x member heq
    cases heq
  obtain ⟨hload, hmixed, hresolve, hstore⟩ := accessors_agree boundAt_insideWith
  exact ⟨hload habsent, (hmixed hmarker).1, hresolve true, (hstore habsent (fun _ h => nomatch h) true true).1⟩

end VM

end ScriptMachine
