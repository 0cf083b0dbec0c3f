import ScriptMachine.Machine.Calls
import ScriptMachine.Proofs.Chains
import ScriptMachine.Proofs.Extensibility
import ScriptMachine.Proofs.Footprint

/-!
# No object inherits from itself

A heap grows from that of a new realm: objects and scope records are added, `new` makes receivers, and operations change
what there is.  What is added or written mentions objects that exist.  Then the chains of prototypes stay finite: a new
object is on no chain yet, and a new prototype is refused if it leads back.  An object that is not yet made counts with
the prototype that it will get, so making it changes no chain.

* `Object.Mentions` — the objects that an object, once made, refers to by its prototype, its properties and elements, or
  as the function it stands for.

Main result: `Store.chains_end`.
-/

namespace ScriptMachine

namespace Object

/-! ### Objects that are mentioned -/

/-- An object refers to another one. -/
inductive Mentions (x : Object) (p : ObjectId) : Prop where
  | prototype (eq : x.prototype = some p)
  | property {key : PropertyKey} {q : Property} (found : x.properties.find? key = some q) (value : q.value = .object p)
  | element {elements : Array Value} (kind : x.kind = .array elements) (mem : .object p ∈ elements)
  | target (eq : x.kind.target? = some p)

section Mentions

variable {x y : Object} {key : PropertyKey} {v w : Value} {q : Property} {p : ObjectId} {elements : Array Value}

theorem mem_resize {n : Nat} (h : w ∈ Store.resize elements n) : w ∈ elements ∨ w = .empty := by
  unfold Store.resize at h
  split at h
  · rw [Array.mem_extract_iff_getElem] at h
    obtain ⟨i, hi, rfl⟩ := h
    exact .inl (Array.getElem_mem _)
  · rcases Array.mem_append.mp h with h | h
    · exact .inl h
    · exact .inr (Array.mem_replicate.mp h).2

theorem mem_setElement {i : Nat} (h : w ∈ Store.setElement elements i v) : w ∈ elements ∨ w = .empty ∨ w = v := by
  unfold Store.setElement at h
  rcases Array.mem_or_eq_of_mem_setIfInBounds h with h | rfl
  · split at h
    · exact .inl h
    · rcases mem_resize h with h | h
      · exact .inl h
      · exact .inr (.inl h)
  · exact .inr (.inr rfl)

/-- Whether all that an object mentions is below a number. -/
def mentionsBelow (x : Object) (n : Nat) : Bool :=
  let below (v : Value) : Bool := v.object?.all fun p => decide (p.index < n)
  (x.prototype.all fun p => decide (p.index < n)) && (x.kind.target?.all fun p => decide (p.index < n)) &&
    (x.properties.entries.all fun e => below e.2.value) &&
    match x.kind with
    | .array elements => elements.all below
    | _ => true

theorem lt_of_mentionsBelow {n : Nat} (h : x.mentionsBelow n = true) (hp : x.Mentions p) : p.index < n := by
  simp only [mentionsBelow, Bool.and_eq_true, decide_eq_true_eq, List.all_eq_true, Option.all_eq_true] at h
  obtain ⟨⟨⟨hprototype, htarget⟩, hproperties⟩, helements⟩ := h
  cases hp with
  | prototype eq => exact hprototype p eq
  | property found value =>
    obtain ⟨e, he, rfl⟩ := Option.map_eq_some_iff.mp found
    exact hproperties e (List.mem_of_find?_eq_some he) p (congrArg Value.object? value)
  | element kind mem =>
    rw [kind] at helements
    simpa [Value.object?] using Array.all_eq_true_iff_forall_mem.mp helements _ mem
  | target eq => exact htarget p eq

theorem Mentions.of_shell (h : y.Mentions p) (hproperties : y.properties = x.properties) (hkind : y.kind = x.kind) :
    x.Mentions p ∨ y.prototype = some p := by
  cases h with
  | prototype eq => exact .inr eq
  | property found value => exact .inl (.property (hproperties ▸ found) value)
  | element kind mem => exact .inl (.element (hkind ▸ kind) mem)
  | target eq => exact .inl (.target (hkind ▸ eq))

theorem mentions_of_elements (h : ({ x with kind := .array elements } : Object).Mentions p) :
    x.Mentions p ∨ .object p ∈ elements := by
  cases h with
  | prototype eq => exact .inl (.prototype eq)
  | property found value => exact .inl (.property found value)
  | element kind mem =>
    cases kind
    exact .inr mem
  | target eq => cases eq

theorem mentions_of_setElement {i : Nat} (hkind : x.kind = .array elements)
    (h : ({ x with kind := .array (Store.setElement elements i v) } : Object).Mentions p) :
    x.Mentions p ∨ v = .object p := by
  rcases mentions_of_elements h with hx | hmem
  · exact .inl hx
  · rcases mem_setElement hmem with hmem | hempty | hv
    · exact .inl (.element hkind hmem)
    · cases hempty
    · exact .inr hv.symm

theorem mentions_of_resize {n : Nat} (hkind : x.kind = .array elements)
    (h : ({ x with kind := .array (Store.resize elements n) } : Object).Mentions p) : x.Mentions p := by
  rcases mentions_of_elements h with hx | hmem
  · exact hx
  · rcases mem_resize hmem with hmem | hempty
    · exact .element hkind hmem
    · cases hempty

theorem mentions_of_unmapped {scope : ScopeId} {mapped : List Bool}
    (h : ({ x with kind := .arguments scope mapped } : Object).Mentions p) : x.Mentions p := by
  cases h with
  | prototype eq => exact .prototype eq
  | property found value => exact .property found value
  | element kind => cases kind
  | target eq => cases eq

theorem mentions_of_insert (h : ({ x with properties := x.properties.insert key q } : Object).Mentions p) :
    x.Mentions p ∨ q.value = .object p := by
  cases h with
  | prototype eq => exact .inl (.prototype eq)
  | @property k r found value =>
    rw [PropertyTable.find?_insert] at found
    split at found
    · cases found
      exact .inr value
    · exact .inl (.property found value)
  | element kind mem => exact .inl (.element kind mem)
  | target eq => exact .inl (.target eq)

theorem Assigned.mentions (h : x.Assigned key v y) (hp : y.Mentions p) : x.Mentions p ∨ v = .object p := by
  cases h with
  | element kind => exact mentions_of_setElement kind hp
  | length kind => exact .inl (mentions_of_resize kind hp)
  | written | added => exact mentions_of_insert hp

theorem Defined.mentions (h : x.Defined key q y) (hp : y.Mentions p) : x.Mentions p ∨ q.value = .object p := by
  cases h with
  | element kind => exact mentions_of_setElement kind hp
  | length kind => exact .inl (mentions_of_resize kind hp)
  | unmapped kind =>
    have hinsert : { x with properties := x.properties.insert key q }.Mentions p := mentions_of_unmapped hp
    exact mentions_of_insert hinsert
  | stored => exact mentions_of_insert hp

theorem Deleted.mentions (h : x.Deleted key y) (hp : y.Mentions p) : x.Mentions p := by
  cases h with
  | element kind =>
    rcases mentions_of_elements hp with hx | hmem
    · exact hx
    · rcases Array.mem_or_eq_of_mem_setIfInBounds hmem with hmem | hempty
      · exact .element kind hmem
      · cases hempty
  | unmapped => exact mentions_of_unmapped hp
  | erased =>
    cases hp with
    | prototype eq => exact .prototype eq
    | property found value =>
      rw [PropertyTable.find?_erase] at found
      split at found
      · cases found
      · exact .property found value
    | element kind mem => exact .element kind mem
    | target eq => exact .target eq
  | missing => exact hp

theorem Assigned.target (h : x.Assigned key v y) : y.kind.target? = x.kind.target? := by
  cases h with
  | element kind | length kind => rw [kind]; rfl
  | written | added => rfl

theorem Defined.target (h : x.Defined key q y) : y.kind.target? = x.kind.target? := by
  cases h with
  | element kind | length kind | unmapped kind => rw [kind]; rfl
  | stored => rfl

theorem Deleted.target (h : x.Deleted key y) : y.kind.target? = x.kind.target? := by
  cases h with
  | element kind | unmapped kind => rw [kind]; rfl
  | erased | missing => rfl

end Mentions

end Object

namespace Store

/-! ### Sound heaps -/

/-- All that is mentioned exists, targets are older than what stands for them, and chains end. -/
structure Sound (σ : Store) : Prop where
  finite : Finite σ
  mentioned : ∀ {o p}, (σ.settled o).Mentions p → p.index < σ.objects.size
  slots : ∀ {s p}, .object p ∈ (σ.scope s).slots → p.index < σ.objects.size
  descending : Descending σ

section Sound

variable {σ σ' : Store} {o p : ObjectId} {key : PropertyKey} {q : Property}

theorem mem_of_elementAt? {elements : Array Value} {i : Nat} {v : Value} (h : elementAt? elements i = some v) :
    v ∈ elements := by
  exact Array.mem_of_getElem? (Option.filter_eq_some_iff.mp h).1

theorem ofNat_ne_object (n : Nat) (p : ObjectId) : Value.ofNat n ≠ .object p := by
  unfold Value.ofNat Value.ofInt64
  split <;> exact Value.noConfusion

theorem Sound.own (h : Sound σ) (hown : σ.own o key = some q) (hvalue : q.value = .object p) :
    p.index < σ.objects.size := by
  rw [own_eq] at hown
  by_cases htable : (σ.settled o).InTable key
  · by_cases hbeyond : (σ.settled o).Beyond key
    · rw [Object.ownProperty?_of_beyond hbeyond] at hown
      cases hown
    · rw [Object.ownProperty?_of_inTable htable hbeyond] at hown
      exact h.mentioned (.property hown hvalue)
  rcases Object.not_inTable htable with ⟨elements, i, hkind, hindex⟩ | ⟨elements, hkind, rfl⟩ | ⟨t, hkind, htext⟩ |
    ⟨scope, mapped, i, hkind, hindex⟩
  · rw [Object.ownProperty?_element hkind hindex] at hown
    obtain ⟨v, hv, rfl⟩ := Option.map_eq_some_iff.mp hown
    cases hvalue
    exact h.mentioned (.element hkind (mem_of_elementAt? hv))
  · rw [Object.ownProperty?_arrayLength hkind] at hown
    cases hown
    exact absurd hvalue (ofNat_ne_object _ _)
  · rcases Object.isTextKey_iff.mp htext with rfl | ⟨i, hindex, -⟩
    · simp only [Object.ownProperty?, hkind, PropertyKey.index?_length, if_true] at hown
      cases hown
      exact absurd hvalue (ofNat_ne_object _ _)
    · simp only [Object.ownProperty?, hkind, hindex] at hown
      obtain ⟨unit, -, rfl⟩ := Option.map_eq_some_iff.mp hown
      cases hvalue
  · rw [Object.ownProperty?_mapped hkind hindex] at hown
    cases hown
    change Value.orUndefined (Option.getD ((σ.scope scope).slots[i]?) .undefined) = .object p at hvalue
    cases hslot : (σ.scope scope).slots[i]? with
    | none =>
      rw [hslot] at hvalue
      cases hvalue
    | some v =>
      rw [hslot] at hvalue
      cases v <;> cases hvalue
      exact h.slots (Array.mem_of_getElem? hslot)

theorem Makes.own_eq (h : Makes σ σ') (o : ObjectId) (key : PropertyKey) : σ'.own o key = σ.own o key := by
  rw [Store.own_eq, Store.own_eq, h.settled_eq, h.scopes]

theorem own_of_findWithin {n : Nat} (h : ((findWithin key n o).run σ).1 = some q) : ∃ r, σ.own r key = some q := by
  induction n generalizing o with
  | zero => cases h
  | succ n ih =>
    rw [answer_findWithin] at h
    split at h
    case h_1 hown =>
      cases h
      exact ⟨o, hown⟩
    case h_2 => exact ih h
    case h_3 => cases h

theorem Sound.get (h : Sound σ) (hget : ((get? o key).run σ).1 = some (.object p)) : p.index < σ.objects.size := by
  obtain ⟨q, hfind, hvalue⟩ := Option.map_eq_some_iff.mp hget
  obtain ⟨r, hown⟩ := own_of_findWithin hfind
  exact h.own hown hvalue

end Sound

/-! ### Adding objects and scope records -/

section Adding

variable {σ : Store} {x : Object}

/-- No chain leads to a place where there is no object yet. -/
theorem Finite.push (h : Finite σ) (hx : ∀ {p}, x.settled.prototype = some p → p.index < σ.objects.size) :
    Finite { σ with objects := σ.objects.push x } := by
  have hold : ∀ {start l}, Chain σ start l → ⟨σ.objects.size⟩ ∉ l →
      Chain { σ with objects := σ.objects.push x } start l := by
    intro start l hl hnew
    refine hl.congr fun p hp => ?_
    rw [settled_push, if_neg]
    rintro rfl
    exact hnew hp
  have hknown : ∀ {p l}, p.index < σ.objects.size → Chain σ (some p) l → ⟨σ.objects.size⟩ ∉ l := by
    intro p l hp hl hmem
    refine Nat.lt_irrefl _ (h.known_of_chain hl ?_ _ hmem)
    intro q hq
    cases hq
    exact hp
  refine ⟨?_, ?_, ?_⟩
  · rw [Array.size_push]
    exact Nat.succ_pos _
  · intro o p hp
    rw [Array.size_push]
    unfold Inherits at hp
    rw [settled_push] at hp
    split at hp
    · exact Nat.lt_succ_of_lt (hx hp)
    · exact Nat.lt_succ_of_lt (h.known hp)
  · intro o
    by_cases ho : o = ⟨σ.objects.size⟩
    · -- The new object comes before the chain of its prototype.
      cases hprototype : x.settled.prototype with
      | none =>
        refine ⟨[], .cons ?_⟩
        rw [settled_push, if_pos ho, hprototype]
        exact .nil
      | some p =>
        obtain ⟨l, hl⟩ := h.ends p
        refine ⟨p :: l, .cons ?_⟩
        rw [settled_push, if_pos ho, hprototype]
        exact hold hl (hknown (hx hprototype) hl)
    · obtain ⟨l, hl⟩ := h.ends o
      refine ⟨l, hold hl ?_⟩
      cases hl with
      | cons rest =>
        rw [List.mem_cons, not_or]
        refine ⟨fun heq => ho heq.symm, fun hmem => ?_⟩
        exact Nat.lt_irrefl _ (h.known_of_chain rest (fun q hq => h.known hq) _ hmem)

theorem Sound.newObject (h : Sound σ) (hx : ∀ {p}, x.settled.Mentions p → p.index < σ.objects.size) :
    Sound ((newObject x).run σ).2 := by
  change Sound { σ with objects := σ.objects.push x }
  have hsize : ∀ {p : ObjectId}, p.index < σ.objects.size → p.index < (σ.objects.push x).size := by
    intro p hp
    rw [Array.size_push]
    exact Nat.lt_succ_of_lt hp
  refine ⟨h.finite.push fun hp => hx (.prototype hp), ?_, fun hp => hsize (h.slots hp), ?_⟩
  · intro o p hp
    rw [settled_push] at hp
    split at hp
    · exact hsize (hx hp)
    · exact hsize (h.mentioned hp)
  · intro o p hp
    rw [settled_push] at hp
    split at hp
    case isTrue ho =>
      subst ho
      exact hx (.target hp)
    case isFalse => exact h.descending hp

theorem Sound.newScope (h : Sound σ) {s : Scope} (hs : ∀ {p}, .object p ∈ s.slots → p.index < σ.objects.size) :
    Sound ((newScope s).run σ).2 := by
  refine ⟨h.finite.of_same rfl fun _ => rfl, h.mentioned, ?_, h.descending⟩
  intro t p hp
  change .object p ∈ (Option.getD ((σ.scopes.push s)[t.index]?) default).slots at hp
  rw [Array.getElem?_push] at hp
  split at hp
  · exact hs hp
  · exact h.slots hp

end Adding

/-! ### Operations -/

def Operation.Mentions : Operation → ObjectId → Prop
  | .assign _ _ v _, p | .put _ _ v, p | .pushItem _ v, p | .writeSlot _ _ v, p => v = .object p
  | .define _ _ q _, p => q.value = .object p
  | .setPrototype _ prototype, p => prototype = some p
  | _, _ => False

section Operations

variable {σ σ' : Store} {o : ObjectId} {x : Object} {prototype : Option ObjectId} {v : Value}

theorem scope_eq_of_scopes (h : σ'.scopes = σ.scopes) (s : ScopeId) : σ'.scope s = σ.scope s := by
  unfold scope
  rw [h]

theorem Sound.of_same (h : Sound σ) (hsize : σ'.objects.size = σ.objects.size) (hscopes : σ'.scopes = σ.scopes)
    (hsame : ∀ o, σ'.settled o = σ.settled o) : Sound σ' where
  finite := h.finite.of_same hsize fun o => by rw [hsame]
  mentioned {o p} hp := by
    rw [hsame] at hp
    rw [hsize]
    exact h.mentioned hp
  slots {s p} hp := by
    rw [scope_eq_of_scopes hscopes] at hp
    rw [hsize]
    exact h.slots hp
  descending {o p} hp := by
    rw [hsame] at hp
    exact h.descending hp

theorem Sound.makes (h : Sound σ) (hmade : Makes σ σ') : Sound σ' := h.of_same hmade.size hmade.scopes hmade.settled_eq

theorem Sound.updates (h : Sound σ) (hupdates : Updates σ o x σ') (hfinite : Finite σ')
    (htarget : x.kind.target? = (σ.settled o).kind.target?)
    (hmentions : ∀ {p}, x.Mentions p → p.index < σ.objects.size) : Sound σ' where
  finite := hfinite
  mentioned {q p} hp := by
    rw [hupdates.objects] at hp
    rw [hupdates.size]
    split at hp
    · exact hmentions hp
    · exact h.mentioned hp
  slots {s p} hp := by
    rw [scope_eq_of_scopes hupdates.scopes] at hp
    rw [hupdates.size]
    exact h.slots hp
  descending {q p} hp := by
    rw [hupdates.objects] at hp
    split at hp
    case isTrue heq =>
      rw [htarget, ← heq.1] at hp
      exact h.descending hp
    case isFalse => exact h.descending hp

theorem Finite.updates (h : Finite σ) (hupdates : Updates σ o x σ') (hprototype : x.prototype = (σ.settled o).prototype) :
    Finite σ' := by
  refine h.of_same hupdates.size fun p => ?_
  rw [hupdates.objects]
  split
  case isTrue heq => rw [hprototype, heq.1]
  case isFalse => rfl

theorem Finite.inherits {l : List ObjectId} (h : Finite σ)
    (hupdates : Updates σ o { σ.settled o with prototype } σ') (hl : Chain σ prototype l) (ho : o ∉ l)
    (hknown : ∀ {p}, prototype = some p → p.index < σ.objects.size) : Finite σ' := by
  have hother : ∀ {p}, p ≠ o → σ'.settled p = σ.settled p := fun hp =>
    (hupdates.objects _).trans (if_neg fun heq => hp heq.1)
  have hl' : Chain σ' prototype l := hl.congr fun p hp => by
    rw [hother]
    rintro rfl
    exact ho hp
  have hends : ∀ {start m}, Chain σ start m → ∃ m', Chain σ' start m' := by
    intro start m hm
    induction hm with
    | nil => exact ⟨[], .nil⟩
    | @cons p m rest ih =>
      have hobject := hupdates.objects p
      split at hobject
      case isTrue heq =>
        refine ⟨p :: l, .cons ?_⟩
        rw [hobject]
        exact hl'
      case isFalse =>
        obtain ⟨m', hm'⟩ := ih
        refine ⟨p :: m', .cons ?_⟩
        rw [hobject]
        exact hm'
  refine ⟨?_, ?_, ?_⟩
  · rw [hupdates.size]
    exact h.nonempty
  · intro q p hp
    unfold Inherits at hp
    rw [hupdates.objects] at hp
    rw [hupdates.size]
    split at hp
    · exact hknown hp
    · exact h.known hp
  · intro q
    obtain ⟨m, hm⟩ := h.ends q
    obtain ⟨m', hm'⟩ := hends hm
    cases hm' with
    | cons rest => exact ⟨_, .cons rest⟩

theorem Sound.writeSlot (h : Sound σ) {s : ScopeId} {i : Nat}
    (hv : ∀ {p}, v = .object p → p.index < σ.objects.size) :
    Sound (σ.modifyScope s fun x => { x with slots := x.slots.setIfInBounds i v }) := by
  refine ⟨h.finite.of_same rfl fun _ => rfl, h.mentioned, ?_, h.descending⟩
  intro t p hp
  change .object p ∈ (Option.getD ((σ.scopes.modify s.index _)[t.index]?) default).slots at hp
  rw [Array.getElem?_modify] at hp
  split at hp
  · cases hscope : σ.scopes[t.index]? with
    | none =>
      rw [hscope] at hp
      cases hp.1
    | some x =>
      rw [hscope] at hp
      rcases Array.mem_or_eq_of_mem_setIfInBounds hp with hmem | heq
      · refine h.slots (s := t) ?_
        rw [scope, hscope]
        exact hmem
      · exact hv heq.symm
  · exact h.slots hp

theorem Sound.perform (h : Sound σ) (op : Operation) (hop : ∀ {p}, op.Mentions p → p.index < σ.objects.size) :
    Sound (σ.perform op) := by
  have heffect := effect σ op
  generalize σ.perform op = σ' at heffect ⊢
  cases heffect with
  | assigned assigned updates =>
    refine h.updates updates (h.finite.updates updates assigned.shell.2) assigned.target fun hp => ?_
    exact (assigned.mentions hp).elim h.mentioned hop
  | defined asked _ defined updates =>
    refine h.updates updates (h.finite.updates updates defined.shell.2) defined.target fun hp => ?_
    rcases asked with ⟨strict, rfl⟩ | rfl <;> exact (defined.mentions hp).elim h.mentioned hop
  | deleted deleted updates =>
    exact h.updates updates (h.finite.updates updates deleted.shell.2) deleted.target fun hp =>
      h.mentioned (deleted.mentions hp)
  | pushed kind _ updates =>
    refine h.updates updates (h.finite.updates updates rfl) (by rw [kind]; rfl) fun hp => ?_
    rcases Object.mentions_of_elements hp with hx | hmem
    · exact h.mentioned hx
    · rcases Array.mem_push.mp hmem with hmem | heq
      · exact h.mentioned (.element kind hmem)
      · exact hop heq.symm
  | @inherits o prototype _ _ apart updates =>
    obtain ⟨l, hl⟩ := h.finite.chain prototype
    rw [answer_reachesWithin hl o (h.finite.length_le hl)] at apart
    refine h.updates updates (h.finite.inherits updates hl (of_decide_eq_false apart) hop) rfl fun hp => ?_
    exact (hp.of_shell (x := σ.settled o) rfl rfl).elim h.mentioned hop
  | @closed o _ updates =>
    refine h.updates updates (h.finite.updates updates rfl) rfl fun hp => ?_
    exact (hp.of_shell (x := σ.settled o) rfl rfl).elim h.mentioned fun eq => h.mentioned (.prototype eq)
  | written asked made =>
    rcases asked with ⟨o, key, strict, rfl⟩ | rfl <;> exact (h.writeSlot hop).makes made
  | kept made => exact h.makes made

end Operations

/-! ### Constructions -/

variable {σ : Store} {p : ObjectId} {m : Machine} {v : Value}

theorem Sound.ordinary (h : Sound σ) (hp : p.index < σ.objects.size) :
    Sound ((Store.newObject (.ofKind (some p) .ordinary)).run σ).2 := by
  refine h.newObject fun hmentions => ?_
  cases hmentions with
  | prototype eq =>
    cases eq
    exact hp
  | property found => cases found
  | element kind => cases kind
  | target eq => cases eq

theorem Sound.namedPrototype (h : Sound m.store)
    (hknown : m.realm.objectPrototype.index < m.store.objects.size) :
    ∃ p σ, VM.namedPrototype v m = .ok p { m with store := σ } ∧ Makes m.store σ ∧ p.index < m.store.objects.size := by
  cases v with
  | object o =>
    have hmade := (reads_get o (.ofString "prototype") m.store).1
    have hfound : ∀ p, ((get? o (.ofString "prototype")).run m.store).1 = some (.object p) →
        p.index < m.store.objects.size := fun _ => h.get
    have hread : VM.onStore (get? o (.ofString "prototype")) m =
        .ok ((get? o (.ofString "prototype")).run m.store).1
          { m with store := ((get? o (.ofString "prototype")).run m.store).2 } := rfl
    unfold VM.namedPrototype
    dsimp only
    rw [VM.bind_ok hread]
    generalize (get? o (.ofString "prototype")).run m.store = r at hmade hfound
    obtain ⟨found, σ⟩ := r
    dsimp only at hmade hfound ⊢
    split
    case h_1 p => exact ⟨p, σ, rfl, hmade, hfound p rfl⟩
    case h_2 => exact ⟨_, σ, rfl, hmade, hknown⟩
  | _ => exact ⟨_, m.store, rfl, .refl _, hknown⟩

theorem Sound.freshReceiver {m' : Machine} {r : Value} (h : Sound m.store)
    (hknown : m.realm.objectPrototype.index < m.store.objects.size) (hrun : VM.freshReceiver v m = .ok r m') :
    Sound m'.store := by
  obtain ⟨p, σ, hnamed, hmade, hp⟩ := h.namedPrototype hknown
  unfold VM.freshReceiver at hrun
  rw [VM.bind_ok hnamed] at hrun
  cases hrun
  refine (h.makes hmade).ordinary ?_
  rw [hmade.size]
  exact hp

/-! ### A new realm -/

/-- Whether all objects lead to older ones, and mention ones that exist. -/
def orderly (σ : Store) : Bool :=
  decide (0 < σ.objects.size) &&
    ((List.range σ.objects.size).all fun i =>
      let x := σ.settled ⟨i⟩
      (x.prototype.all fun p => decide (p.index < i)) && (x.kind.target?.all fun p => decide (p.index < i)) &&
        x.mentionsBelow σ.objects.size) &&
    σ.scopes.all fun x => x.slots.all fun v => v.object?.all fun p => decide (p.index < σ.objects.size)

theorem finite_of_older (hnonempty : 0 < σ.objects.size)
    (holder : ∀ {o p}, σ.Inherits o p → p.index < o.index) : Finite σ where
  nonempty := hnonempty
  known {o p} hp := by
    refine Nat.lt_trans (holder hp) (Nat.lt_of_not_le fun hge => ?_)
    unfold Inherits at hp
    rw [settled_of_size_le hge] at hp
    cases hp
  ends := by
    suffices ∀ n, ∀ o : ObjectId, o.index < n → ∃ l, Chain σ (some o) (o :: l) from
      fun o => this (o.index + 1) o (Nat.lt_succ_self _)
    intro n
    induction n with
    | zero =>
      intro o ho
      cases ho
    | succ n ih =>
      intro o ho
      cases hprototype : (σ.settled o).prototype with
      | none =>
        refine ⟨[], .cons ?_⟩
        rw [hprototype]
        exact .nil
      | some p =>
        have hlt : p.index < o.index := holder hprototype
        obtain ⟨l, hl⟩ := ih p (by omega)
        refine ⟨p :: l, .cons ?_⟩
        rw [hprototype]
        exact hl

theorem lt_size_of_mentions {o : ObjectId} (h : (σ.settled o).Mentions p) : o.index < σ.objects.size := by
  refine Nat.lt_of_not_le fun hge => ?_
  rw [settled_of_size_le hge] at h
  exact Nat.not_lt_zero _ (Object.lt_of_mentionsBelow (by decide) h)

theorem sound_of_orderly (h : σ.orderly = true) : Sound σ := by
  simp only [orderly, Bool.and_eq_true, decide_eq_true_eq, List.all_eq_true, List.mem_range, Option.all_eq_true,
    Array.all_eq_true_iff_forall_mem] at h
  obtain ⟨⟨hnonempty, hobjects⟩, hscopes⟩ := h
  refine ⟨finite_of_older hnonempty ?_, ?_, ?_, ?_⟩
  · intro o p hp
    exact (hobjects o.index (lt_size_of_mentions (.prototype hp))).1.1 p hp
  · intro o p hp
    exact Object.lt_of_mentionsBelow (hobjects o.index (lt_size_of_mentions hp)).2 hp
  · intro s p hp
    rw [scope] at hp
    cases hscope : σ.scopes[s.index]? with
    | none =>
      rw [hscope] at hp
      cases hp.1
    | some x =>
      rw [hscope] at hp
      exact hscopes x (Array.mem_of_getElem? hscope) _ hp p rfl
  · intro o p hp
    exact (hobjects o.index (lt_size_of_mentions (.target hp))).1.2 p hp

/-- The heaps that grow from a new realm. -/
inductive Reachable : Store → Prop where
  | new (limits : Limits) : Reachable (Machine.new limits).store
  /-- An object is added; a lazy one with all that it will mention. -/
  | create {σ : Store} (before : Reachable σ) (x : Object)
      (known : ∀ {p}, x.settled.Mentions p → p.index < σ.objects.size) : Reachable ((newObject x).run σ).2
  | scope {σ : Store} (before : Reachable σ) (x : Scope)
      (known : ∀ {p}, .object p ∈ x.slots → p.index < σ.objects.size) : Reachable ((newScope x).run σ).2
  | construct {m m' : Machine} {newTarget r : Value} (before : Reachable m.store)
      (known : m.realm.objectPrototype.index < m.store.objects.size) (run : VM.freshReceiver newTarget m = .ok r m') :
      Reachable m'.store
  | perform {σ : Store} (before : Reachable σ) (op : Operation)
      (known : ∀ {p}, op.Mentions p → p.index < σ.objects.size) : Reachable (σ.perform op)
  /-- Objects are made, also in the midst of another operation. -/
  | make {σ σ' : Store} (before : Reachable σ) (made : Makes σ σ') : Reachable σ'

/-- The walks along prototypes come to an end by themselves, with the answers that the walks with a bound give. -/
structure WalksEnd (σ : Store) : Prop where
  /-- The search for a property, also for one that forbids an assignment. -/
  find : ∀ o key, Loop (findRound key) o σ ((find? o key).run σ)
  /-- The search for an object among prototypes: before a prototype is set, and for `instanceof`. -/
  reaches : ∀ o start, Loop (reachRound o) start σ ((reachesWithin o σ.objects.size start).run σ)
  /-- For `instanceof`: whether there is a function on the right side. -/
  callable : ∀ o, Loop callableRound o σ ((isCallable o).run σ)
  /-- For `instanceof`: the function that a bound function stands for. -/
  unbind : ∀ o, Loop unbindRound o σ (σ.unbindWithin σ.objects.size o, σ)
  nextKey : ∀ c, Loop KeyCursor.round c σ ((KeyCursor.next c).run σ)

theorem Sound.walksEnd (h : Sound σ) : WalksEnd σ where
  find o key := by
    obtain ⟨l, hl⟩ := h.finite.chain (some o)
    exact loop_findWithin hl key (h.finite.length_le hl)
  reaches o start := by
    obtain ⟨l, hl⟩ := h.finite.chain start
    exact loop_reachesWithin hl o (h.finite.length_le hl)
  callable o := loop_isCallableWithin h.descending h.finite.nonempty lt_size_of_target
  unbind o := loop_unbindWithin h.descending h.finite.nonempty lt_size_of_target
  nextKey c := KeyCursor.loop_next h.finite c

end Store

end ScriptMachine
