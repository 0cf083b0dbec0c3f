import ScriptMachine.Proofs.NamePlaces
import ScriptMachine.Proofs.OwnKeys
import ScriptMachine.Proofs.Parameters

/-!
# Copies of enumerable properties

Object spread and object rest copy the own enumerable properties of a value, one at a time in the order of its own keys,
into an object that lists its keys in an order of its own.

Main result: `enumerable_properties_copied`.
-/

namespace ScriptMachine

namespace Object

/-! ### What is copied of an object -/

def enumerates (scopes : Array Scope) (x : Object) (key : PropertyKey) : Bool :=
  (x.ownProperty? scopes key).any (·.enumerable)

def enumerableKeys (scopes : Array Scope) (x : Object) : List PropertyKey := x.ownKeys.filter (x.enumerates scopes)

/-- The copy of an own enumerable property. -/
def copied? (scopes : Array Scope) (x : Object) (key : PropertyKey) : Option Property :=
  ((x.ownProperty? scopes key).filter (·.enumerable)).map fun p => .plain p.value

/-- An ordinary object whose properties are the copies. -/
structure Copies (scopes : Array Scope) (x y : Object) : Prop where
  kind : y.kind = .ordinary
  keys : y.ownKeys = x.enumerableKeys scopes
  properties : ∀ scopes' key, y.ownProperty? scopes' key = x.copied? scopes key

def copyInto (scopes : Array Scope) (x : Object) (t : PropertyTable) (keys : List PropertyKey) : PropertyTable :=
  keys.foldl (fun t key => ((x.copied? scopes key).map (t.insert key)).getD t) t

section Copying

variable {scopes : Array Scope} {x : Object} {key : PropertyKey}

theorem isSome_copied? (scopes : Array Scope) (x : Object) (key : PropertyKey) :
    (x.copied? scopes key).isSome = x.enumerates scopes key := by
  rw [copied?, enumerates]
  cases x.ownProperty? scopes key with
  | none => rfl
  | some p => cases h : p.enumerable <;> simp [h]

theorem copied?_of_not_enumerates (h : x.enumerates scopes key = false) : x.copied? scopes key = none := by
  rw [← Option.not_isSome_iff_eq_none, isSome_copied?, h]
  exact Bool.false_ne_true

theorem find?_copyInto (t : PropertyTable) (keys : List PropertyKey) :
    (x.copyInto scopes t keys).find? key =
      if key ∈ keys ∧ x.enumerates scopes key = true then x.copied? scopes key else t.find? key := by
  induction keys generalizing t with
  | nil => simp [copyInto]
  | cons first rest ih =>
    rw [copyInto, List.foldl_cons]
    refine (ih _).trans ?_
    by_cases hfirst : key = first
    · subst hfirst
      rw [← isSome_copied?]
      cases x.copied? scopes key <;> simp
    · have hsame : (((x.copied? scopes first).map (t.insert first)).getD t).find? key = t.find? key := by
        cases x.copied? scopes first with
        | none => rfl
        | some p => exact (PropertyTable.find?_insert t first key p).trans (if_neg hfirst)
      rw [hsame]
      simp only [List.mem_cons, hfirst, false_or]

theorem keys_copyInto (t : PropertyTable) (keys : List PropertyKey)
    (hnodup : (t.keys ++ keys.filter (x.enumerates scopes)).Nodup) :
    (x.copyInto scopes t keys).keys = t.keys ++ keys.filter (x.enumerates scopes) := by
  induction keys generalizing t with
  | nil => simp [copyInto]
  | cons first rest ih =>
    rw [copyInto, List.foldl_cons]
    rw [List.filter_cons] at hnodup ⊢
    have hfirst := isSome_copied? scopes x first
    cases hcopied : x.copied? scopes first with
    | none =>
      rw [hcopied] at hfirst
      rw [← hfirst] at hnodup ⊢
      exact ih t hnodup
    | some p =>
      rw [hcopied] at hfirst
      rw [← hfirst] at hnodup ⊢
      simp only [Option.isSome_some, if_true] at hnodup ⊢
      have hnew : first ∉ t.keys := fun hmem => by
        have := List.nodup_append.mp hnodup
        exact this.2.2 first hmem first List.mem_cons_self rfl
      have hkeys : (t.insert first p).keys = t.keys ++ [first] := by rw [PropertyTable.keys_insert, if_neg hnew]
      have hsplit : t.keys ++ first :: rest.filter (x.enumerates scopes) =
          (t.insert first p).keys ++ rest.filter (x.enumerates scopes) := by rw [hkeys, List.append_assoc]; rfl
      rw [hsplit] at hnodup ⊢
      exact ih (t.insert first p) hnodup

end Copying

/-! ### The order of the copies -/

section Order

variable {scopes : Array Scope} {x : Object} {key : PropertyKey}

theorem filter_addedKeys (scopes : Array Scope) (x : Object) : x.addedKeys.filter (x.enumerates scopes) = [] := by
  rw [List.filter_eq_nil_iff]
  intro k hk
  have hlength := eq_length_of_mem_addedKeys hk
  unfold addedKeys at hk
  split at hk
  case h_1 elements hkind => simp [hlength, enumerates, ownProperty?_arrayLength hkind]
  case h_2 t hkind => simp [hlength, enumerates, ownProperty?, hkind, PropertyKey.index?_length]
  case h_3 => cases hk

/-- What is asked of an object whose properties are copied: its table holds no key twice, its enumerable indices are array
indices, and all its enumerable properties are listed. -/
structure Listed (scopes : Array Scope) (x : Object) : Prop where
  nodup : x.properties.keys.Nodup
  bounded : ∀ i ∈ x.indices, x.enumerates scopes (.ofNat i) = true → i < Text.indexBound
  listed : ∀ key, x.enumerates scopes key = true → key ∈ x.ownKeys

theorem isSome_of_enumerates (h : x.enumerates scopes key = true) : (x.ownProperty? scopes key).isSome = true := by
  obtain ⟨p, hp, -⟩ := (Option.any_eq_true _ _).mp h
  rw [hp]
  rfl

theorem Tidy.listed (hx : x.Tidy) (scopes : Array Scope) : x.Listed scopes where
  nodup := hx.nodup
  bounded _ hi _ := lt_indexBound_of_mem_indices hx hi
  listed key h := (mem_ownKeys hx scopes key).mpr (.inl (isSome_of_enumerates h))

theorem index_of_enumerates_wrapper {prototype : Option ObjectId} {v : Value}
    (h : (ofKind prototype (.primitive v)).enumerates scopes key = true) :
    ∃ i, key.index? = some i ∧ i ∈ (ofKind prototype (.primitive v)).addedIndices := by
  cases v with
  | text t =>
    cases hindex : key.index? with
    | some i =>
      refine ⟨i, rfl, (mem_addedIndices_text rfl).mpr (Nat.lt_of_not_le fun hge => ?_)⟩
      have hnone : (ofKind prototype (.primitive (.text t))).ownProperty? scopes key = none :=
        ownProperty?_of_beyond ⟨t, i, rfl, hindex, hge⟩
      rw [enumerates, hnone] at h
      cases h
    | none =>
      simp only [enumerates, ownProperty?, ofKind, hindex] at h
      split at h <;> cases h
  | _ => cases h

theorem listed_wrapper (scopes : Array Scope) (prototype : Option ObjectId) (v : Value) :
    (ofKind prototype (.primitive v)).Listed scopes where
  nodup := List.nodup_nil
  bounded i _ h := by
    obtain ⟨j, hindex, -⟩ := index_of_enumerates_wrapper h
    obtain ⟨hlt, heq⟩ := PropertyKey.index?_eq_some.mp hindex
    exact PropertyKey.ofNat_injective heq ▸ hlt
  listed key h := by
    obtain ⟨i, hindex, hmem⟩ := index_of_enumerates_wrapper h
    rw [(PropertyKey.index?_eq_some.mp hindex).2, ownKeys_eq, List.append_assoc]
    refine List.mem_append_left _ (List.mem_map_of_mem ?_)
    exact (mem_sorted i _).mpr (List.mem_append_left _ hmem)

theorem enumerableKeys_eq (scopes : Array Scope) (x : Object) :
    x.enumerableKeys scopes = (x.indices.filter fun i => x.enumerates scopes (.ofNat i)).map .ofNat ++
      (x.properties.keys.filter fun k => k.index?.isNone && !k.isSymbol).filter (x.enumerates scopes) ++
      x.symbols.filter (x.enumerates scopes) := by
  rw [enumerableKeys, ownKeys_eq, List.filter_append, List.filter_append, names, List.filter_append, filter_addedKeys, List.filter_map]
  rfl

/-- Array indices in ascending order, other texts, and symbols. -/
structure Grouped (indices : List Nat) (names symbols : List PropertyKey) : Prop where
  ascending : indices.Pairwise (· < ·)
  bounded : ∀ i ∈ indices, i < Text.indexBound
  names : ∀ k ∈ names, k.index? = none ∧ k.isSymbol = false
  symbols : ∀ k ∈ symbols, k.isSymbol = true

theorem grouped_enumerableKeys (hx : x.Listed scopes) :
    Grouped (x.indices.filter fun i => x.enumerates scopes (.ofNat i))
      ((x.properties.keys.filter fun k => k.index?.isNone && !k.isSymbol).filter (x.enumerates scopes))
      (x.symbols.filter (x.enumerates scopes)) where
  ascending := (pairwise_sorted _).filter _
  bounded i hi := hx.bounded i (List.mem_filter.mp hi).1 (List.mem_filter.mp hi).2
  names k hk := by simpa using (List.mem_filter.mp (List.mem_filter.mp hk).1).2
  symbols k hk := (mem_symbols.mp (List.mem_filter.mp hk).1).2

theorem ordered_enumerableKeys (hx : x.Listed scopes) : Ordered (x.enumerableKeys scopes) := by
  have hgroups := grouped_enumerableKeys hx
  exact ⟨_, _, _, enumerableKeys_eq scopes x, hgroups.ascending, hgroups.bounded, hgroups.names, hgroups.symbols⟩

section Groups

variable {indices : List Nat} {names symbols : List PropertyKey}

theorem Grouped.index? (h : Grouped indices names symbols) {k : PropertyKey} (hk : k ∈ indices.map PropertyKey.ofNat) :
    k.index? ≠ none := by
  obtain ⟨i, hi, rfl⟩ := List.mem_map.mp hk
  rw [PropertyKey.index?_ofNat (h.bounded i hi)]
  exact Option.some_ne_none i

theorem Grouped.nodup (h : Grouped indices names symbols) (hnames : names.Nodup) (hsymbols : symbols.Nodup) :
    (indices.map PropertyKey.ofNat ++ names ++ symbols).Nodup := by
  have hindices : (indices.map PropertyKey.ofNat).Nodup :=
    List.Nodup.map (fun _ _ => PropertyKey.ofNat_injective) (h.ascending.imp Nat.ne_of_lt)
  refine List.nodup_append.mpr ⟨List.nodup_append.mpr ⟨hindices, hnames, ?_⟩, hsymbols, ?_⟩
  · rintro k hk k' hk' rfl
    exact h.index? hk (h.names k hk').1
  · rintro k hk k' hk' rfl
    have hsymbol := h.symbols k hk'
    rcases List.mem_append.mp hk with hk | hk
    · exact h.index? hk (index?_of_isSymbol hsymbol)
    · rw [(h.names k hk).2] at hsymbol
      cases hsymbol

theorem Grouped.filterMap_index? (h : Grouped indices names symbols) :
    (indices.map PropertyKey.ofNat ++ names ++ symbols).filterMap PropertyKey.index? = indices := by
  have hfirst : indices.filterMap (PropertyKey.index? ∘ PropertyKey.ofNat) = indices :=
    (List.filterMap_congr fun i hi => PropertyKey.index?_ofNat (h.bounded i hi)).trans List.filterMap_some
  have hsecond : names.filterMap PropertyKey.index? = [] := List.filterMap_eq_nil_iff.mpr fun k hk => (h.names k hk).1
  have hthird : symbols.filterMap PropertyKey.index? = [] :=
    List.filterMap_eq_nil_iff.mpr fun k hk => index?_of_isSymbol (h.symbols k hk)
  rw [List.filterMap_append, List.filterMap_append, List.filterMap_map, hfirst, hsecond, hthird, List.append_nil,
    List.append_nil]

theorem Grouped.filter_names (h : Grouped indices names symbols) :
    ((indices.map PropertyKey.ofNat ++ names ++ symbols).filter fun k => k.index?.isNone && !k.isSymbol) = names := by
  have hfirst : ((indices.map PropertyKey.ofNat).filter fun k => k.index?.isNone && !k.isSymbol) = [] :=
    List.filter_eq_nil_iff.mpr fun k hk => by simp [h.index? hk]
  have hsecond : (names.filter fun k => k.index?.isNone && !k.isSymbol) = names :=
    List.filter_eq_self.mpr fun k hk => by simp [h.names k hk]
  have hthird : (symbols.filter fun k => k.index?.isNone && !k.isSymbol) = [] :=
    List.filter_eq_nil_iff.mpr fun k hk => by simp [h.symbols k hk]
  rw [List.filter_append, List.filter_append, hfirst, hsecond, hthird, List.nil_append, List.append_nil]

theorem Grouped.filter_symbols (h : Grouped indices names symbols) :
    ((indices.map PropertyKey.ofNat ++ names ++ symbols).filter fun k => k.isSymbol) = symbols := by
  have hfirst : ((indices.map PropertyKey.ofNat).filter fun k => k.isSymbol) = [] :=
    List.filter_eq_nil_iff.mpr fun k hk hsymbol => h.index? hk (index?_of_isSymbol hsymbol)
  have hsecond : (names.filter fun k => k.isSymbol) = [] :=
    List.filter_eq_nil_iff.mpr fun k hk => by simp [h.names k hk]
  have hthird : (symbols.filter fun k => k.isSymbol) = symbols := List.filter_eq_self.mpr h.symbols
  rw [List.filter_append, List.filter_append, hfirst, hsecond, hthird, List.nil_append, List.nil_append]

end Groups

theorem nodup_enumerableKeys (hx : x.Listed scopes) : (x.enumerableKeys scopes).Nodup := by
  rw [enumerableKeys_eq]
  exact (grouped_enumerableKeys hx).nodup ((hx.nodup.filter _).filter _) ((hx.nodup.filter _).filter _)

theorem sorted_of_ascending {l : List Nat} (h : l.Pairwise (· < ·)) : l.mergeSort.eraseReps = l := by
  have hsorted := pairwise_sorted l
  have hperm : l.mergeSort.eraseReps.Perm l :=
    (List.perm_ext_iff_of_nodup (hsorted.imp Nat.ne_of_lt) (h.imp Nat.ne_of_lt)).mpr fun x => mem_sorted x l
  exact hperm.eq_of_pairwise (fun a b _ _ hab hba => absurd hab (Nat.lt_asymm hba)) hsorted h

/-- **The order of insertion is kept**: an ordinary object whose table holds keys in order lists them as they stand. -/
theorem ownKeys_of_ordered {y : Object} (hkind : y.kind = .ordinary) (h : Ordered y.properties.keys) :
    y.ownKeys = y.properties.keys := by
  obtain ⟨indices, names, symbols, hkeys, hascending, hbound, hnames, hsymbols⟩ := h
  have hgroups : Grouped indices names symbols := ⟨hascending, hbound, hnames, hsymbols⟩
  have hadded : y.addedIndices = [] := by rw [addedIndices, hkind]
  have hadded' : y.addedKeys = [] := by rw [addedKeys, hkind]
  rw [ownKeys_eq, Object.indices, Object.names, Object.symbols, hadded, hadded', List.nil_append, List.nil_append, hkeys,
    hgroups.filterMap_index?, sorted_of_ascending hascending, hgroups.filter_names, hgroups.filter_symbols]

theorem ownKeys_empty (prototype : Option ObjectId) : (ofKind prototype .ordinary).ownKeys = [] :=
  ownKeys_of_ordered rfl ⟨[], [], [], rfl, .nil, by simp, by simp, by simp⟩

theorem copies_of_copyInto (hx : x.Listed scopes) {y : Object} (hkind : y.kind = .ordinary)
    (htable : y.properties = x.copyInto scopes .empty x.ownKeys) : Copies scopes x y := by
  have hkeys : y.properties.keys = x.enumerableKeys scopes := by
    rw [htable]
    exact keys_copyInto .empty x.ownKeys (nodup_enumerableKeys hx)
  refine ⟨hkind, ?_, fun scopes' key => ?_⟩
  · rw [ownKeys_of_ordered hkind (hkeys ▸ ordered_enumerableKeys hx), hkeys]
  · have hfind : y.ownProperty? scopes' key = y.properties.find? key := by rw [ownProperty?, hkind]
    rw [hfind, htable, find?_copyInto]
    split
    case isTrue => rfl
    case isFalse hnot =>
      refine (copied?_of_not_enumerates (Bool.eq_false_iff.mpr fun h => hnot ⟨hx.listed key h, h⟩)).symm

end Order

end Object

/-! ### The loop -/

namespace Store

/-- An ordinary object in which every property can be defined. -/
structure Receives (σ : Store) (o : ObjectId) : Prop where
  known : o.index < σ.objects.size
  kind : (σ.object o).kind = .ordinary
  extensible : (σ.object o).extensible = true
  configurable : ∀ key p, (σ.object o).properties.find? key = some p → p.configurable = true

variable {σ : Store} {o : ObjectId}

theorem settled_of_ordinary {x : Object} (h : x.kind = .ordinary) : x.settled = x :=
  Object.settled_of_not_isLazy (by rw [h]; rfl)

theorem setObject_setObject (σ : Store) (o : ObjectId) (x y : Object) :
    (σ.setObject o x).setObject o y = σ.setObject o y := by
  simp only [setObject, Array.setIfInBounds_setIfInBounds]

theorem run_define_of_receives (h : σ.Receives o) (key : PropertyKey) (v : Value) :
    (define o key (.plain v) true).run σ =
      (.ok true, σ.setObject o { σ.object o with properties := (σ.object o).properties.insert key (.plain v) }) :=
  run_define_of_table (settled_of_ordinary h.kind) (by rw [Object.ownProperty?, h.kind]) h.extensible (h.configurable key)
    (by simp only [defineAllowed, h.kind]) true

theorem run_ownProperty?_of_settled (h : (σ.object o).settled = σ.object o) (key : PropertyKey) :
    (ownProperty? o key).run σ = ((σ.object o).ownProperty? σ.scopes key, σ) := by
  have hread : (ownProperty? o key).run σ =
      ((((materialize o).run σ).2.object o).ownProperty? ((materialize o).run σ).2.scopes key, ((materialize o).run σ).2) :=
    rfl
  rw [hread, run_materialize_of_settled h]

def copying (σ : Store) (target source : ObjectId) (keys : List PropertyKey) : Store :=
  σ.setObject target { σ.object target with
    properties := (σ.object source).copyInto σ.scopes (σ.object target).properties keys }

variable {target source : ObjectId}

theorem object_copying (h : σ.Receives target) (source : ObjectId) (keys : List PropertyKey) (p : ObjectId) :
    (σ.copying target source keys).object p = if p = target then { σ.object target with
      properties := (σ.object source).copyInto σ.scopes (σ.object target).properties keys } else σ.object p :=
  object_setObject h.known _ p

theorem Receives.copying (h : σ.Receives target) (source : ObjectId) (keys : List PropertyKey) :
    (σ.copying target source keys).Receives target := by
  have hobject := (object_copying h source keys target).trans (if_pos rfl)
  refine ⟨h.known.trans_eq Array.size_setIfInBounds.symm, by rw [hobject]; exact h.kind, by rw [hobject]; exact h.extensible,
    fun key p hp => ?_⟩
  rw [hobject, Object.find?_copyInto] at hp
  split at hp
  case isTrue =>
    obtain ⟨q, -, rfl⟩ := Option.map_eq_some_iff.mp hp
    rfl
  case isFalse => exact h.configurable key p hp

theorem copying_cons (h : σ.Receives target) (hne : source ≠ target) (key : PropertyKey) (rest : List PropertyKey) :
    (σ.copying target source [key]).copying target source rest = σ.copying target source (key :: rest) := by
  have htarget := (object_copying h source [key] target).trans (if_pos rfl)
  have hsource := (object_copying h source [key] source).trans (if_neg hne)
  rw [Store.copying, htarget, hsource]
  exact setObject_setObject _ _ _ _

end Store

namespace VM

open Store

variable {m : Machine} {target source : ObjectId}

theorem copyKey_eq (h : m.store.Receives target) (hmade : (m.store.object source).settled = m.store.object source)
    (key : PropertyKey) :
    copyKey target source key m = .ok () (withStore m (m.store.copying target source [key])) := by
  have hread : onStore (Store.ownProperty? source key) m =
      .ok ((m.store.object source).ownProperty? m.store.scopes key) m :=
    onStore_of_run (Store.run_ownProperty?_of_settled hmade key)
  have hskip : (m.store.object source).copied? m.store.scopes key = none →
      withStore m (m.store.copying target source [key]) = m := by
    intro hnone
    rw [copying, Object.copyInto, List.foldl_cons, hnone]
    exact congrArg (withStore m) (setObject_self m.store target)
  rw [copyKey, bind_ok hread]
  cases hown : (m.store.object source).ownProperty? m.store.scopes key with
  | none =>
    rw [hskip (by rw [Object.copied?, hown]; rfl)]
    rfl
  | some p =>
    cases henumerable : p.enumerable with
    | false =>
      rw [hskip (by rw [Object.copied?, hown, Option.filter_some, henumerable]; rfl)]
      simp only [henumerable]
      rfl
    | true =>
      have hcopied : (m.store.object source).copied? m.store.scopes key = some (.plain p.value) := by
        rw [Object.copied?, hown, Option.filter_some, henumerable]
        rfl
      have hdefine := onStore_of_run (run_define_of_receives h key p.value)
      simp only [henumerable, if_true]
      rw [definePlain, demand, bind_assoc, bind_ok hdefine, copying, Object.copyInto, List.foldl_cons, hcopied]
      rfl

/-- **The loop**: the target gets a copy of each own enumerable property among the keys. -/
theorem copyKeys_eq (h : m.store.Receives target) (hne : source ≠ target)
    (hmade : (m.store.object source).settled = m.store.object source) (keys : List PropertyKey) :
    copyKeys target source keys m = .ok () (withStore m (m.store.copying target source keys)) := by
  induction keys generalizing m with
  | nil => exact congrArg (fun σ => EStateM.Result.ok () (withStore m σ)) (setObject_self m.store target).symm
  | cons key rest ih =>
    have hsource : (m.store.copying target source [key]).object source = m.store.object source :=
      (object_copying h source [key] source).trans (if_neg hne)
    have hrest := ih (m := withStore m (m.store.copying target source [key])) (h.copying source [key])
      (by show Object.settled (object (copying _ _ _ _) _) = _; rw [hsource, hmade]; exact hsource.symm)
    rw [copyKeys, bind_ok (copyKey_eq h hmade key), hrest]
    exact congrArg (fun σ => EStateM.Result.ok () (withStore m σ)) (copying_cons h hne key rest)

end VM

/-! ### Copies in an object that is new -/

namespace Store

/-- The target has got the copies, and all else is as it was, but for objects that are made or new. -/
structure Copied (σ : Store) (x : Object) (target : ObjectId) (prototype : Option ObjectId) (σ' : Store) : Prop where
  copies : x.Copies σ.scopes (σ'.object target)
  inherits : (σ'.object target).prototype = prototype
  extensible : (σ'.object target).extensible = true
  scopes : σ'.scopes = σ.scopes
  others : ∀ o, o ≠ target → o.index < σ.objects.size → σ'.settled o = σ.settled o

variable {σ σ₁ σ' : Store} {target source : ObjectId} {prototype : Option ObjectId} {x y : Object}

theorem receives_of_new (hknown : target.index < σ.objects.size) (hnew : σ.object target = .ofKind prototype .ordinary) :
    σ.Receives target :=
  ⟨hknown, by rw [hnew]; rfl, by rw [hnew]; rfl, fun key p hp => by rw [hnew] at hp; cases hp⟩

theorem copied_copying (hknown : target.index < σ.objects.size) (hnew : σ.object target = .ofKind prototype .ordinary)
    (hsource : σ.object source = x) (hx : x.Listed σ.scopes) :
    σ.Copied x target prototype (σ.copying target source x.ownKeys) := by
  have hobject := object_copying (receives_of_new hknown hnew) source x.ownKeys
  have htarget := (hobject target).trans (if_pos rfl)
  rw [hnew, hsource] at htarget
  refine ⟨Object.copies_of_copyInto hx (by rw [htarget]; rfl) (by rw [htarget]; rfl), by rw [htarget]; rfl,
    by rw [htarget]; rfl, rfl, fun o ho _ => ?_⟩
  rw [settled, (hobject o).trans (if_neg ho)]
  rfl

theorem copied_self (hnew : σ.object target = .ofKind prototype .ordinary) :
    σ.Copied (.ofKind none .ordinary) target prototype σ := by
  have htidy : (Object.ofKind none .ordinary).Tidy := ⟨List.nodup_nil, trivial⟩
  have htable : (σ.object target).properties = (Object.ofKind none .ordinary).copyInto σ.scopes .empty
      (Object.ofKind none .ordinary).ownKeys := by
    rw [hnew, Object.ownKeys_empty]
    rfl
  exact ⟨Object.copies_of_copyInto (htidy.listed _) (by rw [hnew]; rfl) htable, by rw [hnew]; rfl, by rw [hnew]; rfl, rfl,
    fun _ _ _ => rfl⟩

theorem Copied.of_before (h : σ₁.Copied x target prototype σ') (hscopes : σ₁.scopes = σ.scopes)
    (hsize : σ.objects.size ≤ σ₁.objects.size) (hothers : ∀ o, o.index < σ.objects.size → σ₁.settled o = σ.settled o) :
    σ.Copied x target prototype σ' :=
  ⟨hscopes ▸ h.copies, h.inherits, h.extensible, h.scopes.trans hscopes,
    fun o ho hlt => (h.others o ho (Nat.lt_of_lt_of_le hlt hsize)).trans (hothers o hlt)⟩

theorem size_added (σ : Store) (y : Object) : (σ.added y).objects.size = σ.objects.size + 1 := Array.size_push _

theorem object_added_of_lt {o : ObjectId} (h : o.index < σ.objects.size) (y : Object) :
    (σ.added y).object o = σ.object o := by
  simp [object, added, Array.getElem?_push, Nat.ne_of_lt h]

theorem settled_added_of_lt {o : ObjectId} (h : o.index < σ.objects.size) (y : Object) :
    (σ.added y).settled o = σ.settled o := congrArg Object.settled (object_added_of_lt h y)

theorem Copied.of_added (h : (σ.added y).Copied x target prototype σ') : σ.Copied x target prototype σ' :=
  h.of_before rfl (by rw [size_added]; omega) fun _ ho => settled_added_of_lt ho y

end Store

/-! ### Values as sources -/

/-- The object whose properties are copied: an object of the store, a wrapper around a primitive value, and for null and
undefined an object without properties. -/
inductive Store.Source (σ : Store) (realm : Realm) : Value → Object → Prop where
  | nullish {v : Value} (nullish : v.isNullish = true) : Source σ realm v (.ofKind none .ordinary)
  | object {o : ObjectId} (known : o.index < σ.objects.size) (tidy : (σ.settled o).Tidy) :
      Source σ realm (.object o) (σ.settled o)
  | primitive {v : Value} {prototype : ObjectId} (wrapper : realm.wrapperPrototype? v = some prototype) :
      Source σ realm v (.ofKind (some prototype) (.primitive v))

namespace VM

open Store

variable {m : Machine} {target source : ObjectId} {prototype : Option ObjectId} {x : Object} {v : Value}

theorem copyOwn_eq {σ : Store} (hknown : target.index < σ.objects.size)
    (hnew : σ.object target = .ofKind prototype .ordinary) (hne : source ≠ target)
    (hx : (σ.settled source).Listed σ.scopes) :
    ∃ σ', (do copyKeys target source (← onStore (ownKeys source)) : VM Unit) (withStore m σ) =
        .ok () (withStore m σ') ∧ σ.Copied (σ.settled source) target prototype σ' := by
  obtain ⟨hmakes, hsource⟩ := run_materialize source σ
  have hkeys : (ownKeys source).run σ = ((σ.settled source).ownKeys, ((materialize source).run σ).2) :=
    Prod.ext (run_ownKeys σ source) rfl
  generalize ((materialize source).run σ).2 = σ₁ at hmakes hsource hkeys
  have hnew₁ : σ₁.object target = .ofKind prototype .ordinary := by
    rcases hmakes.objects target with h | h
    · exact h.trans hnew
    · rw [h, hnew]
      rfl
  have hmade : (σ₁.object source).settled = σ₁.object source := by
    rw [hsource]
    exact Object.settled_settled _
  have hknown₁ : target.index < σ₁.objects.size := hmakes.size ▸ hknown
  have hloop := copyKeys_eq (m := withStore m σ₁) (receives_of_new hknown₁ hnew₁) hne hmade
    (σ.settled source).ownKeys
  have hcopied := copied_copying hknown₁ hnew₁ hsource (hmakes.scopes ▸ hx)
  refine ⟨_, ?_, hcopied.of_before hmakes.scopes hmakes.size.ge fun o _ => hmakes.settled_eq o⟩
  rw [bind_ok (onStore_of_run hkeys)]
  exact hloop

theorem toObject_of_wrapper {p : ObjectId} (h : m.realm.wrapperPrototype? v = some p) :
    toObject v m = .ok m.store.fresh (withStore m (m.store.added (.ofKind (some p) (.primitive v)))) := by
  cases v <;> cases h <;> rfl

theorem copyProperties_eq (hv : m.store.Source m.realm v x) (hknown : target.index < m.store.objects.size)
    (hnew : m.store.object target = .ofKind prototype .ordinary) (hne : v ≠ .object target) :
    ∃ σ, copyProperties target v m = .ok () (withStore m σ) ∧ m.store.Copied x target prototype σ := by
  cases hv with
  | nullish hnullish =>
    refine ⟨m.store, ?_, copied_self hnew⟩
    rw [copyProperties, if_pos hnullish]
    rfl
  | @object o known tidy =>
    have ho : o ≠ target := fun h => hne (congrArg Value.object h)
    exact copyOwn_eq hknown hnew ho (tidy.listed _)
  | @primitive _ p wrapper =>
    have hnullish : ¬ v.isNullish = true := by cases v <;> first | exact Bool.false_ne_true | cases wrapper
    have hwrapper : (m.store.added (.ofKind (some p) (.primitive v))).settled m.store.fresh =
        .ofKind (some p) (.primitive v) := by
      rw [settled, object_added]
      rfl
    have hother : m.store.fresh ≠ target := by
      rintro rfl
      exact Nat.lt_irrefl _ hknown
    obtain ⟨σ, hrun, hcopied⟩ := copyOwn_eq (by rw [size_added]; omega)
      ((object_added_of_lt hknown (.ofKind (some p) (.primitive v))).trans hnew) hother
      (by rw [hwrapper]; exact Object.listed_wrapper _ _ _)
    rw [hwrapper] at hcopied
    refine ⟨σ, ?_, hcopied.of_added⟩
    rw [copyProperties, if_neg hnullish, bind_ok (toObject_of_wrapper wrapper)]
    exact hrun

theorem source_added (hv : m.store.Source m.realm v x) (y : Object) : (m.store.added y).Source m.realm v x := by
  cases hv with
  | nullish nullish => exact .nullish nullish
  | object known tidy =>
    have hsettled := settled_added_of_lt known y
    rw [← hsettled] at tidy ⊢
    exact .object (by rw [size_added]; omega) tidy
  | primitive wrapper => exact .primitive wrapper

theorem ne_fresh_of_source (hv : m.store.Source m.realm v x) : v ≠ .object m.store.fresh := by
  rintro rfl
  cases hv with
  | nullish nullish => cases nullish
  | object known => exact Nat.lt_irrefl _ known
  | primitive wrapper => cases wrapper

theorem enumerableKeys_of_nullish (hv : m.store.Source m.realm v x) (hnullish : v.isNullish = true)
    (scopes : Array Scope) : x.enumerableKeys scopes = [] := by
  cases hv with
  | nullish => rw [Object.enumerableKeys, Object.ownKeys_empty, List.filter_nil]
  | object => cases hnullish
  | primitive wrapper => cases v <;> cases wrapper <;> cases hnullish

/-- **Exactly the own enumerable properties are copied**, as plain properties and in the order of own keys, by object rest
to an object of its own and by object spread to one that is new.  Null and undefined have none. -/
theorem enumerable_properties_copied (enter : Enter) (fuel : Nat) (hv : m.store.Source m.realm v x) :
    (m.stack.peek 0 = .ok v →
      ∃ σ, execute enter fuel .restObject m = .ok () { m with
          store := σ
          stack := m.stack.push (.object m.store.fresh)
          regs := { m.regs with pc := m.regs.pc + 1 } } ∧
        m.store.Copied x m.store.fresh (some m.realm.objectPrototype) σ) ∧
    (∀ stack target prototype, m.stack.pop = .ok (v, stack) → stack.peek 0 = .ok (.object target) →
      target.index < m.store.objects.size → m.store.object target = .ofKind prototype .ordinary → v ≠ .object target →
      ∃ σ, execute enter fuel .copyMembers m = .ok () { m with
          store := σ
          stack
          regs := { m.regs with pc := m.regs.pc + 1 } } ∧
        m.store.Copied x target prototype σ) ∧
    (v.isNullish = true → x.enumerableKeys m.store.scopes = []) := by
  refine ⟨fun hpeek => ?_, fun stack target prototype hpop hpeek hknown hnew hne => ?_,
    fun hnullish => enumerableKeys_of_nullish hv hnullish _⟩
  · have hknown : m.store.fresh.index < (m.store.added (.ofKind (some m.realm.objectPrototype) .ordinary)).objects.size := by
      rw [size_added]
      exact Nat.lt_succ_self _
    obtain ⟨σ, hrun, hcopied⟩ := copyProperties_eq
      (m := withStore m (m.store.added (.ofKind (some m.realm.objectPrototype) .ordinary))) (source_added hv _) hknown
      (object_added m.store _) (ne_fresh_of_source hv)
    refine ⟨σ, ?_, hcopied.of_added⟩
    show restObject m = _
    have hobject : onStore m.realm.newObject m = .ok m.store.fresh
        (withStore m (m.store.added (.ofKind (some m.realm.objectPrototype) .ordinary))) := rfl
    rw [restObject, peek, bind_ok (readStack_of_ok hpeek), realm_bind, bind_ok hobject, bind_ok hrun]
    rfl
  · obtain ⟨σ, hrun, hcopied⟩ := copyProperties_eq (m := { m with stack }) hv hknown hnew hne
    refine ⟨σ, ?_, hcopied⟩
    show copyMembers m = _
    have hliteral : literalTarget { m with stack } = .ok target { m with stack } := by
      rw [literalTarget, peek, bind_ok (readStack_of_ok hpeek)]
      rfl
    rw [copyMembers, pop, bind_ok (onStack_of_ok hpop), bind_ok hliteral, bind_ok hrun]
    rfl

/-- An array with a hole and a hidden property, and the machine that has it on its stack. -/
def arrayWithHole : Object :=
  ⟨⟨none, PropertyTable.empty.insert (.ofString "hidden") (.hidden .null), true⟩, .array #[.empty, .int 7]⟩

def besideArray : Machine :=
  { emptyWorld with
    store := { Store.empty with objects := #[arrayWithHole] }
    stack := OperandStack.new.push (.object ⟨0⟩) }

/-- Neither the hole nor the hidden property nor the length is copied. -/
theorem enumerable_properties_copied_array :
    besideArray.store.Source besideArray.realm (.object ⟨0⟩) arrayWithHole ∧
    ∃ σ, restObject besideArray = .ok () { besideArray with
        store := σ
        stack := besideArray.stack.push (.object ⟨1⟩)
        regs := { besideArray.regs with pc := 1 } } ∧
      (σ.object ⟨1⟩).ownProperty? #[] (.ofNat 1) = some (.plain (.int 7)) ∧
      (σ.object ⟨1⟩).ownProperty? #[] (.ofNat 0) = none ∧
      (σ.object ⟨1⟩).ownProperty? #[] (.ofString "hidden") = none ∧
      (σ.object ⟨1⟩).ownProperty? #[] .length = none ∧
      σ.settled ⟨0⟩ = arrayWithHole := by
  have hsource : besideArray.store.Source besideArray.realm (.object ⟨0⟩) arrayWithHole :=
    .object (by decide) (show arrayWithHole.Tidy by decide +kernel)
  obtain ⟨hrest, -, -⟩ := enumerable_properties_copied (fun _ => outOfFuel) 0 hsource
  obtain ⟨σ, hrun, hcopied⟩ := hrest rfl
  have hproperties := hcopied.copies.properties #[]
  refine ⟨hsource, σ, hrun, (hproperties _).trans rfl, (hproperties _).trans rfl, (hproperties _).trans rfl,
    (hproperties _).trans rfl, hcopied.others ⟨0⟩ (by decide) (by decide)⟩

end VM

end ScriptMachine
