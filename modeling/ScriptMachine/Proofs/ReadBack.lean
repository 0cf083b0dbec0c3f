import ScriptMachine.Proofs.OwnProperties

/-!
# Reading what was written

A successful assignment is meant to be visible at once, and to leave other keys alone; a successful definition is meant
to be read back as it was made.

* `Store.Lost` — the writings that do not show: to an index beyond a wrapped text, which goes to the property table where
  reading does not look for it; to a parameter for which the record has no slot; and of the marker of a failed look-up to
  a parameter, since slots are read as undefined where they hold one.
* `Store.Follows` — the changes of other keys: an array grows, or is cut.
* `Object.holding` — a property as the object can hold it: elements of arrays have values and no attributes.

Main results: `Store.reads_back_unless_lost`, `Store.definition_reads_back`.
-/

namespace ScriptMachine

/-! ### Lengths as values -/

namespace Value

def SameNumber (v w : Value) : Prop := ∃ n, v.wholeNumber? = some n ∧ w.wholeNumber? = some n

theorem wholeNumber?_ofNat {n : Nat} (h : n < UInt32.size) : (ofNat n).wholeNumber? = some (n : Int) := by
  have hvalue : (Int64.ofNat n).toInt = n := Int64.toInt_ofNat_of_lt (by simp only [UInt32.size] at h; omega)
  have hsafe : isSafe (Int64.ofNat n) = true := by
    simp only [isSafe, hvalue, maxSafe, UInt32.size] at h ⊢
    simp
    omega
  rw [ofNat, ofInt64, if_pos hsafe, wholeNumber?, hvalue]

theorem orUndefined_of_not_isEmpty {v : Value} (hv : v.isEmpty = false) :
    v.orUndefined = v ∨ ∃ name member, v = .unresolved name member := by
  cases v with
  | empty => cases hv
  | unresolved name member => exact .inr ⟨name, member, rfl⟩
  | _ => exact .inl rfl

end Value

namespace Store

/-! ### What is written, and what shows -/

/-- The own property has the value, or for the length of an array the same number. -/
def ReadsBack (σ : Store) (o : ObjectId) (key : PropertyKey) (v : Value) : Prop :=
  ∃ p, σ.own o key = some p ∧
    (p.value = v ∨ (∃ elements, (σ.settled o).kind = .array elements) ∧ key = .length ∧ p.value.SameNumber v)

/-- The writings that do not show. -/
inductive Lost (σ : Store) (o : ObjectId) (key : PropertyKey) (v : Value) : Prop where
  | beyond (beyond : (σ.settled o).Beyond key)
  | slotless {scope : ScopeId} {mapped : List Bool} {i : Nat} (kind : (σ.settled o).kind = .arguments scope mapped)
      (index : Object.mappedIndex? mapped key = some i) (slotless : (σ.scope scope).slots.size ≤ i)
      (defined : v ≠ .undefined)
  | marker {scope : ScopeId} {mapped : List Bool} {i : Nat} {name : Text} {member : Bool}
      (kind : (σ.settled o).kind = .arguments scope mapped) (index : Object.mappedIndex? mapped key = some i)
      (marker : v = .unresolved name member)

/-- What writing one key of an array does to another: an index may raise the length, and the length may remove the
indices at or above it. -/
inductive Follows (σ : Store) (o : ObjectId) (key : PropertyKey) (v : Value) (k : PropertyKey) (σ' : Store) : Prop where
  | grown {elements : Array Value} {i : Nat} (kind : (σ.settled o).kind = .array elements)
      (index : key.index? = some i) (beyond : elements.size ≤ i) (isLength : k = .length)
      (length : σ'.own o k = some ⟨.ofNat (i + 1), true, false, false⟩)
  | cut {elements : Array Value} {n j : Nat} (kind : (σ.settled o).kind = .array elements) (isLength : key = .length)
      (length : v.wholeNumber? = some (n : Int)) (index : k.index? = some j) (beyond : n ≤ j)
      (removed : σ'.own o k = none)

end Store

/-! ### Objects -/

namespace Object

variable {x y : Object} {key k : PropertyKey} {v : Value} {scopes : Array Scope}

theorem ownProperty?_insert (inTable : x.InTable key) (hseen : ¬ x.Beyond key) (p : Property) :
    ({ x with properties := x.properties.insert key p } : Object).ownProperty? scopes key = some p := by
  have hfind : { x with properties := x.properties.insert key p }.ownProperty? scopes key =
      (x.properties.insert key p).find? key := ownProperty?_of_inTable inTable hseen
  rw [hfind, PropertyTable.find?_insert, if_pos rfl]

/-- The object has the value that was assigned, unless the key lies beyond a text. -/
theorem Assigned.value (h : x.Assigned key v y) (scopes : Array Scope) (hv : v.isEmpty = false)
    (hseen : ¬ x.Beyond key) :
    ∃ p, y.ownProperty? scopes key = some p ∧
      (p.value = v ∨ (∃ elements, y.kind = .array elements) ∧ key = .length ∧ p.value.SameNumber v) := by
  cases h with
  | element kind index room =>
    refine ⟨.plain v, ?_, .inl rfl⟩
    rw [ownProperty?_element rfl index, Store.elementAt?_setElement, if_pos rfl, Option.filter_some,
      if_pos (by simp [hv])]
    rfl
  | length kind isLength valid =>
    subst isLength
    refine ⟨_, ownProperty?_arrayLength rfl, .inr ⟨⟨_, rfl⟩, rfl, ?_⟩⟩
    obtain ⟨hwhole, hlt⟩ := Store.wholeNumber?_of_arrayLength? valid
    rw [Store.size_resize]
    exact ⟨_, Value.wholeNumber?_ofNat hlt, hwhole⟩
  | written inTable current writable => exact ⟨_, ownProperty?_insert inTable hseen _, .inl rfl⟩
  | added inTable new extensible => exact ⟨_, ownProperty?_insert inTable hseen _, .inl rfl⟩

theorem Assigned.unmapped {scope : ScopeId} {mapped : List Bool} (h : x.Assigned key v y)
    (hkind : x.kind = .arguments scope mapped) : mappedIndex? mapped key = none := by
  cases h with
  | element kind | length kind =>
    rw [kind] at hkind
    cases hkind
  | written inTable | added inTable => exact inTable_of_arguments inTable hkind

end Object

namespace Store

/-! ### Parameters -/

section Parameters

variable {σ σ' : Store} {o : ObjectId} {key k : PropertyKey} {v : Value} {s : ScopeId} {i : Nat}

theorem slots_modifyScope (σ : Store) (s : ScopeId) (i j : Nat) (v : Value) :
    ((σ.modifyScope s fun x => { x with slots := x.slots.setIfInBounds i v }).scope s).slots[j]? =
      if j = i ∧ i < (σ.scope s).slots.size then some v else (σ.scope s).slots[j]? := by
  unfold scope modifyScope
  rw [Array.getElem?_modify, if_pos rfl]
  cases h : σ.scopes[s.index]? with
  | none =>
    have hnone : (default : Scope).slots = #[] := rfl
    simp [hnone]
  | some x =>
    simp only [Option.map_some, Option.getD_some, Array.getElem?_setIfInBounds]
    by_cases hj : i = j
    · subst hj
      by_cases hlt : i < x.slots.size <;> simp [hlt]
    · rw [if_neg hj, if_neg (fun h => hj h.1.symm)]

theorem mappedValue_modifyScope (σ : Store) (s : ScopeId) (i j : Nat) (v : Value) :
    Object.mappedValue (σ.modifyScope s fun x => { x with slots := x.slots.setIfInBounds i v }).scopes s j =
      if j = i ∧ i < (σ.scope s).slots.size then v.orUndefined else Object.mappedValue σ.scopes s j := by
  show (Option.getD (((σ.modifyScope s _).scope s).slots[j]?) _).orUndefined = _
  rw [slots_modifyScope]
  split <;> rfl

/-- A parameter that was written; without a slot it reads as undefined before and after. -/
theorem mappedValue_modifyScope_self (σ : Store) (s : ScopeId) (i : Nat) (v : Value) :
    Object.mappedValue (σ.modifyScope s fun x => { x with slots := x.slots.setIfInBounds i v }).scopes s i =
      if i < (σ.scope s).slots.size then v.orUndefined else .undefined := by
  rw [mappedValue_modifyScope]
  by_cases hlt : i < (σ.scope s).slots.size
  · rw [if_pos ⟨rfl, hlt⟩, if_pos hlt]
  · rw [if_neg (fun h => hlt h.2), if_neg hlt]
    show (Option.getD ((σ.scope s).slots[i]?) _).orUndefined = _
    rw [Array.getElem?_eq_none (Nat.le_of_not_lt hlt)]
    rfl

theorem ownProperty?_modifyScope {x : Object} {mapped : List Bool} (hkind : x.kind = .arguments s mapped)
    (hindex : Object.mappedIndex? mapped key = some i) (hk : k ≠ key) :
    x.ownProperty? (σ.modifyScope s fun x => { x with slots := x.slots.setIfInBounds i v }).scopes k =
      x.ownProperty? σ.scopes k := by
  cases hj : Object.mappedIndex? mapped k with
  | none => simp only [Object.ownProperty?, hkind, hj]
  | some j =>
    have hij : j ≠ i := by
      rintro rfl
      exact hk (PropertyKey.eq_of_index? (Object.mappedIndex?_eq_some.mp hj).1 (Object.mappedIndex?_eq_some.mp hindex).1)
    rw [Object.ownProperty?_mapped hkind hj, Object.ownProperty?_mapped hkind hj, mappedValue_modifyScope,
      if_neg (fun h => hij h.1)]

end Parameters

/-! ### Assignments -/

section Assign

variable {σ σ' : Store} {o : ObjectId} {key k : PropertyKey} {v : Value} {strict : Bool}

theorem granted_false_ne (strict : Bool) (refusal : TypeCause) : granted false strict refusal ≠ .ok true := by
  cases strict <;> simp [granted]

theorem readsBack_parameter {s : ScopeId} {mapped : List Bool} {i : Nat} (hv : v.isEmpty = false)
    (hkind : (σ.settled o).kind = .arguments s mapped) (hindex : Object.mappedIndex? mapped key = some i)
    (hsettled : σ'.settled o = σ.settled o)
    (hown : σ'.own o key = some (.plain (if i < (σ.scope s).slots.size then v.orUndefined else .undefined))) :
    σ'.ReadsBack o key v ↔ ¬ σ.Lost o key v := by
  have hreads : σ'.ReadsBack o key v ↔ (if i < (σ.scope s).slots.size then v.orUndefined else .undefined) = v := by
    refine ⟨?_, fun h => ⟨_, hown, .inl h⟩⟩
    rintro ⟨p, hp, hvalue | ⟨⟨elements, harray⟩, -⟩⟩
    · rw [hown] at hp
      obtain rfl := Option.some.inj hp
      exact hvalue
    · rw [hsettled, hkind] at harray
      cases harray
  rw [hreads]
  constructor
  · intro hshown hlost
    cases hlost with
    | beyond beyond =>
      obtain ⟨t, j, htext, -⟩ := beyond
      rw [hkind] at htext
      cases htext
    | slotless kind index slotless defined =>
      rw [hkind] at kind
      cases kind
      obtain rfl := Option.some.inj (hindex.symm.trans index)
      rw [if_neg (by omega)] at hshown
      exact defined hshown.symm
    | marker _ _ marker =>
      subst marker
      split at hshown <;> cases hshown
  · intro hkept
    rcases Nat.lt_or_ge i (σ.scope s).slots.size with hlt | hge
    · rw [if_pos hlt]
      rcases Value.orUndefined_of_not_isEmpty hv with hsame | ⟨name, member, hmarker⟩
      · exact hsame
      · exact absurd (.marker hkind hindex hmarker) hkept
    · rw [if_neg (by omega)]
      cases v with
      | undefined => rfl
      | _ => exact absurd (.slotless hkind hindex hge nofun) hkept

theorem own_of_updates {x : Object} (h : Updates σ o x σ') (ho : o.index < σ.objects.size) (k : PropertyKey) :
    σ'.own o k = x.ownProperty? σ.scopes k := by
  rw [own_eq, h.self ho, h.scopes]

theorem readsBack_assigned {x : Object} (ho : o.index < σ.objects.size) (hv : v.isEmpty = false)
    (h : (σ.settled o).Assigned key v x) (hupdates : Updates σ o x σ') : σ'.ReadsBack o key v ↔ ¬ σ.Lost o key v := by
  constructor
  · rintro ⟨p, hp, -⟩ hlost
    cases hlost with
    | beyond beyond =>
      rw [own_of_updates hupdates ho, Object.ownProperty?_of_beyond (h.beyond beyond)] at hp
      cases hp
    | slotless kind index | marker kind index =>
      rw [h.unmapped kind] at index
      cases index
  · intro hkept
    obtain ⟨p, hp, hvalue⟩ := h.value σ.scopes hv fun hbeyond => hkept (.beyond hbeyond)
    refine ⟨p, (own_of_updates hupdates ho key).trans hp, ?_⟩
    rwa [hupdates.self ho]

/-- **Reading what was written**: an assignment that succeeds can be read back, unless it is lost, and own properties of
other keys stay as they are, but for the length and the elements of arrays. -/
theorem reads_back_unless_lost (ho : o.index < σ.objects.size) (hv : v.isEmpty = false)
    (hok : ((assign o key v strict).run σ).1 = .ok true) :
    (((assign o key v strict).run σ).2.ReadsBack o key v ↔ ¬ σ.Lost o key v) ∧
      ∀ k, k ≠ key → ((assign o key v strict).run σ).2.own o k = σ.own o k ∨
        σ.Follows o key v k ((assign o key v strict).run σ).2 := by
  have hassigning := assigning σ o key v strict
  generalize (assign o key v strict).run σ = r at hok hassigning ⊢
  cases hassigning with
  | done assigned updates =>
    refine ⟨readsBack_assigned ho hv assigned updates, fun k hk => ?_⟩
    rw [own_eq σ]
    rcases assigned.others σ.scopes hk with hsame | ⟨elements, i, kind, index, hge, hlength, hown⟩ |
      ⟨elements, n, j, kind, hlength, hvalid, index, hle, hown⟩
    · exact .inl ((own_of_updates updates ho k).trans hsame)
    · exact .inr (.grown kind index hge hlength ((own_of_updates updates ho k).trans hown))
    · exact .inr (.cut kind hlength (wholeNumber?_of_arrayLength? hvalid).1 index hle
        ((own_of_updates updates ho k).trans hown))
  | @parameter s mapped i σ' kind index made =>
    have hsettled : σ'.settled o = σ.settled o := made.settled_eq o
    have hown : ∀ k, σ'.own o k = (σ.settled o).ownProperty?
        (σ.modifyScope s fun x => { x with slots := x.slots.setIfInBounds i v }).scopes k := fun k => by
      rw [own_eq, hsettled, made.scopes]
    refine ⟨readsBack_parameter hv kind index hsettled ?_, fun k hk => .inl ?_⟩
    · rw [hown, Object.ownProperty?_mapped kind index, mappedValue_modifyScope_self]
    · rw [hown, own_eq, ownProperty?_modifyScope kind index hk]
  | refused made => exact absurd hok (granted_false_ne _ _)
  | invalid => cases hok

/-- An array with one element and a wrapped text of two units. -/
def arrayAndText : Store :=
  { Store.empty with
    objects := #[.ofKind none (.array #[.int 1]), .ofKind none (.primitive (.text (Text.ofString "ab")))] }

/-- Of two assignments that succeed, the one to the array can be read back, the one beyond the text cannot. -/
theorem reads_back_unless_lost_arrayAndText :
    (((assign ⟨0⟩ (.ofNat 5) (.int 7) true).run arrayAndText).1 = .ok true ∧
      ((assign ⟨0⟩ (.ofNat 5) (.int 7) true).run arrayAndText).2.ReadsBack ⟨0⟩ (.ofNat 5) (.int 7)) ∧
    ((assign ⟨1⟩ (.ofNat 5) (.int 7) true).run arrayAndText).1 = .ok true ∧
      ¬ ((assign ⟨1⟩ (.ofNat 5) (.int 7) true).run arrayAndText).2.ReadsBack ⟨1⟩ (.ofNat 5) (.int 7) := by
  refine ⟨⟨rfl, (reads_back_unless_lost (by decide) rfl rfl).1.mpr ?_⟩, rfl, fun h => ?_⟩
  · rintro (⟨t, i, hkind, -⟩ | ⟨hkind⟩ | ⟨hkind⟩) <;> cases hkind
  · exact (reads_back_unless_lost (by decide) rfl rfl).1.mp h
      (.beyond ⟨_, 5, rfl, PropertyKey.index?_ofNat (by decide), by decide⟩)

end Assign

end Store

/-! ### Definitions -/

/-- The same property, but for a value that the same-value test does not tell from the first. -/
structure Property.Matches (p q : Property) : Prop where
  value : q.value = p.value ∨ p.value.sameValue q.value = true
  writable : q.writable = p.writable
  enumerable : q.enumerable = p.enumerable
  configurable : q.configurable = p.configurable

theorem Property.Matches.refl (p : Property) : p.Matches p := ⟨.inl rfl, rfl, rfl, rfl⟩

theorem Property.matches_of_mayDefine {extensible : Bool} {p c : Property}
    (h : Store.mayDefine extensible (some c) p = true) (hreadOnly : c.writable = false) (hfixed : c.configurable = false) :
    p.Matches c := by
  simp only [Store.mayDefine, hreadOnly, hfixed, Bool.false_or, Bool.and_eq_true, Bool.not_eq_true', beq_iff_eq] at h
  obtain ⟨⟨hconfigurable, henumerable⟩, hwritable, hsame⟩ := h
  exact ⟨.inr hsame, hreadOnly.trans hwritable.symm, henumerable.symm, hfixed.trans hconfigurable.symm⟩

namespace Object

variable {x y : Object} {key : PropertyKey} {p : Property} {scopes : Array Scope}

/-- The key is an index of an array. -/
def isElement (x : Object) (key : PropertyKey) : Bool :=
  match x.kind with
  | .array _ => key.index?.isSome
  | _ => false

def holding (x : Object) (key : PropertyKey) (p : Property) : Property := if x.isElement key then .plain p.value else p

theorem holding_of_inTable (h : x.InTable key) : x.holding key p = p := by
  have hno : x.isElement key = false := by
    cases hkind : x.kind with
    | array elements => simp [isElement, hkind, (inTable_of_array h hkind).1]
    | _ => simp only [isElement, hkind]
  rw [holding, hno]
  rfl

theorem textPart_fixed {t : Text} {c : Property} (hkind : x.kind = .primitive (.text t))
    (htext : Store.isTextKey t key = true) (hown : x.ownProperty? scopes key = some c) :
    c.writable = false ∧ c.configurable = false := by
  rcases isTextKey_iff.mp htext with rfl | ⟨i, hindex, -⟩
  · simp only [ownProperty?, hkind, PropertyKey.index?_length, if_true, Option.some.injEq] at hown
    exact hown ▸ ⟨rfl, rfl⟩
  · simp only [ownProperty?, hkind, hindex, Option.map_eq_some_iff] at hown
    obtain ⟨u, -, rfl⟩ := hown
    exact ⟨rfl, rfl⟩

theorem Defined.shows (h : x.Defined key p y) (hv : p.value.isEmpty = false)
    (hlength : ∀ elements, x.kind = .array elements → key ≠ .length) (hseen : ¬ x.Beyond key)
    (hallowed : Store.mayDefine x.extensible (x.ownProperty? scopes key) p = true) :
    ∃ q, y.ownProperty? scopes key = some q ∧ (x.holding key p).Matches q := by
  cases h with
  | @element elements i kind index =>
    refine ⟨.plain p.value, ?_, ?_⟩
    · rw [ownProperty?_element rfl index, Store.elementAt?_setElement, if_pos rfl, Option.filter_some,
        if_pos (by simp [hv])]
      rfl
    · have hyes : x.isElement key = true := by simp [isElement, kind, index]
      rw [holding, if_pos hyes]
      exact .refl _
  | length kind isLength => exact absurd isLength (hlength _ kind)
  | @unmapped scope mapped i kind index =>
    refine ⟨p, ?_, ?_⟩
    · have hgone : mappedIndex? (mapped.set i false) key = none := by
        obtain ⟨hindex, hmapped⟩ := mappedIndex?_eq_some.mp index
        simp [mappedIndex?, hindex, (List.getElem?_eq_some_iff.mp hmapped).1]
      simp [ownProperty?, hgone]
    · have hno : x.isElement key = false := by simp [isElement, kind]
      rw [holding, hno]
      exact .refl p
  | stored noItem unmapped =>
    by_cases htable : x.InTable key
    · rw [holding_of_inTable htable]
      exact ⟨p, ownProperty?_insert htable hseen p, .refl p⟩
    rcases not_inTable htable with ⟨elements, i, hkind, hindex⟩ | ⟨elements, hkind, hkey⟩ | ⟨t, hkind, htext⟩ |
      ⟨scope, mapped, i, hkind, hindex⟩
    · rw [(noItem _ hkind).1] at hindex
      cases hindex
    · exact absurd hkey (noItem _ hkind).2
    · -- The text answers for the key, and goes on to do so; it was defined as what it is.
      have hsome : (x.ownProperty? scopes key).isSome = true := isSome_ownProperty?_text hkind htext
      obtain ⟨c, hcurrent⟩ := Option.isSome_iff_exists.mp hsome
      obtain ⟨hreadOnly, hfixed⟩ := textPart_fixed hkind htext hcurrent
      have hno : x.isElement key = false := by simp [isElement, hkind]
      have hstill : { x with properties := x.properties.insert key p }.kind = .primitive (.text t) := hkind
      refine ⟨c, ?_, ?_⟩
      · rw [← hcurrent]
        exact ownProperty?_of_isTextKey hkind hstill htext _ _
      · rw [hcurrent] at hallowed
        rw [holding, hno]
        exact Property.matches_of_mayDefine hallowed hreadOnly hfixed
    · rw [unmapped _ _ hkind] at hindex
      cases hindex

end Object

namespace Store

section Define

variable {σ : Store} {o : ObjectId} {key : PropertyKey} {p : Property} {strict : Bool}

/-- **Reading what was defined**: a definition that succeeds is read back with its value and its attributes, but for those
of an element of an array, which are all set. -/
theorem definition_reads_back (ho : o.index < σ.objects.size) (hv : p.value.isEmpty = false)
    (hlength : ∀ elements, (σ.settled o).kind = .array elements → key ≠ .length) (hseen : ¬ (σ.settled o).Beyond key)
    (hok : ((define o key p strict).run σ).1 = .ok true) :
    ∃ q, ((define o key p strict).run σ).2.own o key = some q ∧ ((σ.settled o).holding key p).Matches q := by
  have hdefining := defining σ o key p strict
  generalize (define o key p strict).run σ = r at hok hdefining ⊢
  cases hdefining with
  | done allowed defined updates =>
    rw [own_eq σ] at allowed
    obtain ⟨q, hq, hmatches⟩ := defined.shows hv hlength hseen allowed
    exact ⟨q, (own_of_updates updates ho key).trans hq, hmatches⟩
  | refused forbidden made => exact absurd hok (granted_false_ne _ _)
  | invalid kind isLength => exact absurd isLength (hlength _ kind)

/-- The length of a wrapped text, defined as it is, is read back; so is an element of an array, with all attributes. -/
theorem definition_reads_back_arrayAndText :
    (((define ⟨1⟩ .length (.permanent (.int 2)) true).run arrayAndText).1 = .ok true ∧
      ∃ q, ((define ⟨1⟩ .length (.permanent (.int 2)) true).run arrayAndText).2.own ⟨1⟩ .length = some q ∧
        (Property.permanent (.int 2)).Matches q) ∧
    ((define ⟨0⟩ (.ofNat 3) (.permanent (.int 7)) true).run arrayAndText).1 = .ok true ∧
      ∃ q, ((define ⟨0⟩ (.ofNat 3) (.permanent (.int 7)) true).run arrayAndText).2.own ⟨0⟩ (.ofNat 3) = some q ∧
        (Property.plain (.int 7)).Matches q := by
  refine ⟨⟨rfl, definition_reads_back (by decide) rfl nofun ?_ rfl⟩, rfl, ?_⟩
  · rintro ⟨t, i, -, hindex, -⟩
    cases hindex
  · have hindex : (PropertyKey.ofNat 3).index? = some 3 := PropertyKey.index?_ofNat (by decide)
    refine definition_reads_back (by decide) rfl ?_ (Object.not_beyond_of_array rfl) rfl
    rintro elements - hlength
    rw [hlength] at hindex
    cases hindex

/-- An element of an array that is defined as permanent can be read, and is not permanent. -/
theorem element_attributes_dropped :
    ((define ⟨0⟩ (.ofNat 0) (.permanent (.int 7)) true).run arrayAndText).1 = .ok true ∧
      ¬ ∃ q, ((define ⟨0⟩ (.ofNat 0) (.permanent (.int 7)) true).run arrayAndText).2.own ⟨0⟩ (.ofNat 0) = some q ∧
        (Property.permanent (.int 7)).Matches q := by
  refine ⟨rfl, ?_⟩
  rintro ⟨q, hq, hmatches⟩
  cases show some (Property.plain (.int 7)) = some q from hq
  cases hmatches.writable

end Define

end Store

end ScriptMachine
