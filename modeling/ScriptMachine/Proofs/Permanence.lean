import ScriptMachine.Proofs.OwnProperties
import ScriptMachine.Proofs.SameValue

/-!
# Properties that are not configurable

A property that is not configurable stays, with its flags, but that it may still become read only.  Once it is read only,
it can only be redefined with a value that is the same as the current one.  Since being the same is not transitive, a
large integer can be replaced by another one this way, with the double that is nearest to both as the step between.

* `Object.Fixes x key p` — how an object has a property that is not configurable: in its table, as the length of an array,
  or as a part of a wrapped text.
* `Property.Carries p q` — what one operation leaves of such a property (`Store.Effect.carries_step`), and so any number
  of them (`Store.carries_performAll`).

Main result: `Store.fixed_for_good`.
-/

namespace ScriptMachine

namespace Property

/-- A later state of a property that is not configurable. -/
structure Carries (p q : Property) : Prop where
  configurable : q.configurable = false
  enumerable : q.enumerable = p.enumerable
  readOnly : p.writable = false → q.writable = false ∧ p.value.Alike q.value

/-- A property is still there: not configurable, as enumerable as before, read only if it was, and then with a value that
stays. -/
structure Lasts (p q : Property) : Prop where
  configurable : q.configurable = false
  enumerable : q.enumerable = p.enumerable
  writable : p.writable = false → q.writable = false
  value : p.writable = false → p.value.Stays q.value

section Carries

variable {p q r : Property}

theorem Carries.refl (h : p.configurable = false) : p.Carries p := ⟨h, rfl, fun hw => ⟨hw, .refl _⟩⟩

theorem Carries.trans (hpq : p.Carries q) (hqr : q.Carries r) : p.Carries r where
  configurable := hqr.configurable
  enumerable := hqr.enumerable.trans hpq.enumerable
  readOnly hw := by
    obtain ⟨hq, hvalue⟩ := hpq.readOnly hw
    obtain ⟨hr, hvalue'⟩ := hqr.readOnly hq
    exact ⟨hr, hvalue.trans hvalue'⟩

theorem Carries.lasts (h : p.Carries q) : p.Lasts q where
  configurable := h.configurable
  enumerable := h.enumerable
  writable hw := (h.readOnly hw).1
  value hw := (h.readOnly hw).2.stays

theorem carries_of_mayDefine {extensible : Bool} (hfixed : p.configurable = false)
    (h : Store.mayDefine extensible (some p) q = true) : p.Carries q := by
  simp only [Store.mayDefine, hfixed, Bool.false_or, Bool.and_eq_true, Bool.or_eq_true, Bool.not_eq_true',
    beq_iff_eq] at h
  obtain ⟨⟨hconfigurable, henumerable⟩, hvalue⟩ := h
  refine ⟨hconfigurable, henumerable, fun hw => ?_⟩
  rcases hvalue with hwritable | ⟨hreadOnly, hsame⟩
  · rw [hw] at hwritable
    cases hwritable
  · exact ⟨hreadOnly, (Value.alike_of_sameValue hsame).symm⟩

end Carries

end Property

namespace Object

/-! ### Where such a property is -/

/-- How an object has a property that is not configurable. -/
inductive Fixes (x : Object) (key : PropertyKey) : Property → Prop where
  | table {p : Property} (inTable : x.InTable key) (seen : ¬ x.Beyond key) (current : x.properties.find? key = some p) :
      Fixes x key p
  | arrayLength {elements : Array Value} (kind : x.kind = .array elements) (isLength : key = .length) :
      Fixes x key ⟨.ofNat elements.size, true, false, false⟩
  | text {t : Text} {p : Property} (kind : x.kind = .primitive (.text t)) (isText : Store.isTextKey t key = true)
      (current : x.ownProperty? #[] key = some p) : Fixes x key p

section Fixes

variable {x y : Object} {key k : PropertyKey} {p q : Property} {v : Value} {scopes : Array Scope}

theorem Fixes.own (h : x.Fixes key p) (scopes : Array Scope) : x.ownProperty? scopes key = some p := by
  cases h with
  | table inTable seen current => rw [ownProperty?_of_inTable inTable seen, current]
  | arrayLength kind isLength => rw [isLength, ownProperty?_arrayLength kind]
  | text kind isText current => rw [ownProperty?_of_isTextKey kind kind isText #[], current]

/-- Elements of arrays and mapped parameters are configurable, so they do not count here. -/
theorem fixes_of_own (hown : x.ownProperty? scopes key = some p) (hfixed : p.configurable = false) : x.Fixes key p := by
  by_cases htable : x.InTable key
  · by_cases hbeyond : x.Beyond key
    · rw [ownProperty?_of_beyond hbeyond] at hown
      cases hown
    · rw [ownProperty?_of_inTable htable hbeyond] at hown
      exact .table htable hbeyond hown
  rcases not_inTable htable with ⟨elements, i, hkind, hindex⟩ | ⟨elements, hkind, hlength⟩ | ⟨t, hkind, htext⟩ |
    ⟨scope, mapped, i, hkind, hindex⟩
  · rw [ownProperty?_element hkind hindex, Option.map_eq_some_iff] at hown
    obtain ⟨v, -, rfl⟩ := hown
    cases hfixed
  · rw [hlength, ownProperty?_arrayLength hkind] at hown
    cases hown
    exact .arrayLength hkind hlength
  · rw [ownProperty?_of_isTextKey hkind hkind htext #[]] at hown
    exact .text hkind htext hown
  · rw [ownProperty?_mapped hkind hindex] at hown
    cases hown
    cases hfixed

/-! ### Changes of the kind -/

/-- A change of an object that leaves the answers of its kind to this key alone, but for the length of an array. -/
structure KeepsPlace (x y : Object) (key : PropertyKey) : Prop where
  inTable : x.InTable key → y.InTable key
  beyond : y.Beyond key → x.Beyond key
  array : ∀ {elements}, x.kind = .array elements → ∃ elements', y.kind = .array elements'
  text : ∀ {t}, x.kind = .primitive (.text t) → y.kind = .primitive (.text t)

theorem keepsPlace_of_kind (h : y.kind = x.kind) (key : PropertyKey) : x.KeepsPlace y key where
  inTable := by
    unfold InTable
    rw [h]
    exact id
  beyond := by
    unfold Beyond
    rw [h]
    exact id
  array hkind := ⟨_, h.trans hkind⟩
  text hkind := h.trans hkind

theorem keepsPlace_of_array {elements elements' : Array Value} (hx : x.kind = .array elements)
    (hy : y.kind = .array elements') (key : PropertyKey) : x.KeepsPlace y key where
  inTable h := by
    unfold InTable
    rw [hy]
    exact inTable_of_array h hx
  beyond h := absurd h (not_beyond_of_array hy)
  array _ := ⟨_, hy⟩
  text hkind := by
    rw [hx] at hkind
    cases hkind

theorem keepsPlace_of_unmapped {scope : ScopeId} {mapped : List Bool} {i : Nat} (hx : x.kind = .arguments scope mapped)
    (hy : y.kind = .arguments scope (mapped.set i false)) (key : PropertyKey) : x.KeepsPlace y key where
  inTable h := by
    have hnone := inTable_of_arguments h hx
    unfold InTable
    rw [hy]
    cases hindex : mappedIndex? (mapped.set i false) key with
    | none => exact hindex
    | some j =>
      obtain ⟨hj, hset⟩ := mappedIndex?_eq_some.mp hindex
      rw [List.getElem?_set] at hset
      have hmapped : mapped[j]? = some true := by
        split at hset
        · split at hset <;> cases hset
        · exact hset
      rw [mappedIndex?_eq_some.mpr ⟨hj, hmapped⟩] at hnone
      cases hnone
  beyond h := by
    obtain ⟨t, j, hkind, -⟩ := h
    rw [hy] at hkind
    cases hkind
  array hkind := by
    rw [hx] at hkind
    cases hkind
  text hkind := by
    rw [hx] at hkind
    cases hkind

theorem Fixes.carries (h : x.Fixes key p) (hfixed : p.configurable = false) (hplace : x.KeepsPlace y key)
    (htable : x.InTable key → x.properties.find? key = some p → ∃ q, y.properties.find? key = some q ∧ p.Carries q) :
    ∃ q, y.Fixes key q ∧ p.Carries q := by
  cases h with
  | table inTable seen current =>
    obtain ⟨q, hq, hcarries⟩ := htable inTable current
    exact ⟨q, .table (hplace.inTable inTable) (fun h => seen (hplace.beyond h)) hq, hcarries⟩
  | arrayLength kind isLength =>
    obtain ⟨elements', hkind⟩ := hplace.array kind
    exact ⟨_, .arrayLength hkind isLength, rfl, rfl, fun hw => by cases hw⟩
  | text kind isText current =>
    have hkind := hplace.text kind
    refine ⟨p, .text hkind isText ?_, .refl hfixed⟩
    rw [ownProperty?_of_isTextKey kind hkind isText #[], current]

theorem Assigned.carries (h : x.Assigned k v y) (hx : x.Fixes key p) (hfixed : p.configurable = false) :
    ∃ q, y.Fixes key q ∧ p.Carries q := by
  cases h with
  | element kind => exact hx.carries hfixed (keepsPlace_of_array kind (by rfl) key) fun _ h => ⟨p, h, .refl hfixed⟩
  | length kind => exact hx.carries hfixed (keepsPlace_of_array kind (by rfl) key) fun _ h => ⟨p, h, .refl hfixed⟩
  | @written p' inTable current writable =>
    refine hx.carries hfixed (keepsPlace_of_kind (by rfl) key) fun _ h => ?_
    by_cases hk : key = k
    · subst hk
      rw [h] at current
      cases current
      refine ⟨{ p with value := v }, by simp, hfixed, rfl, fun hw => ?_⟩
      rw [hw] at writable
      cases writable
    · exact ⟨p, by simp [hk, h], .refl hfixed⟩
  | added inTable new extensible =>
    refine hx.carries hfixed (keepsPlace_of_kind (by rfl) key) fun _ h => ?_
    have hk : key ≠ k := by
      rintro rfl
      rw [h] at new
      cases new
    exact ⟨p, by simp [hk, h], .refl hfixed⟩

theorem Defined.carries (h : x.Defined k q y) (hx : x.Fixes key p) (hfixed : p.configurable = false)
    (hallowed : k = key → Store.mayDefine x.extensible (some p) q = true) : ∃ q', y.Fixes key q' ∧ p.Carries q' := by
  have hstored : x.properties.find? key = some p →
      ∃ q', (x.properties.insert k q).find? key = some q' ∧ p.Carries q' := by
    intro hcurrent
    by_cases hk : key = k
    · exact ⟨q, by simp [hk], Property.carries_of_mayDefine hfixed (hallowed hk.symm)⟩
    · exact ⟨p, by simp [hk, hcurrent], .refl hfixed⟩
  cases h with
  | element kind => exact hx.carries hfixed (keepsPlace_of_array kind (by rfl) key) fun _ h => ⟨p, h, .refl hfixed⟩
  | length kind => exact hx.carries hfixed (keepsPlace_of_array kind (by rfl) key) fun _ h => ⟨p, h, .refl hfixed⟩
  | unmapped kind => exact hx.carries hfixed (keepsPlace_of_unmapped kind (by rfl) key) fun _ h => hstored h
  | stored => exact hx.carries hfixed (keepsPlace_of_kind (by rfl) key) fun _ h => hstored h

theorem Deleted.carries (h : x.Deleted k y) (hx : x.Fixes key p) (hfixed : p.configurable = false) :
    ∃ q, y.Fixes key q ∧ p.Carries q := by
  cases h with
  | element kind => exact hx.carries hfixed (keepsPlace_of_array kind (by rfl) key) fun _ h => ⟨p, h, .refl hfixed⟩
  | unmapped kind => exact hx.carries hfixed (keepsPlace_of_unmapped kind (by rfl) key) fun _ h => ⟨p, h, .refl hfixed⟩
  | @erased p' inTable current configurable =>
    refine hx.carries hfixed (keepsPlace_of_kind (by rfl) key) fun _ h => ?_
    have hk : key ≠ k := by
      rintro rfl
      rw [h] at current
      cases current
      rw [hfixed] at configurable
      cases configurable
    exact ⟨p, by simp [hk, h], .refl hfixed⟩
  | missing => exact ⟨p, hx, .refl hfixed⟩

end Fixes

end Object

namespace Store

/-! ### Operations -/

section Steps

variable {σ σ' : Store} {o : ObjectId} {op : Operation} {key : PropertyKey} {p : Property}

theorem carries_of_updates {q : ObjectId} {x : Object} (hx : (σ.settled o).Fixes key p) (hfixed : p.configurable = false)
    (hupdates : Updates σ q x σ') (hcarries : o = q → ∃ p', x.Fixes key p' ∧ p.Carries p') :
    ∃ p', (σ'.settled o).Fixes key p' ∧ p.Carries p' := by
  have hobject := hupdates.objects o
  split at hobject
  case isTrue h =>
    rw [hobject]
    exact hcarries h.1
  case isFalse =>
    rw [hobject]
    exact ⟨p, hx, .refl hfixed⟩

theorem Effect.carries_step (h : Effect σ op σ') (hx : (σ.settled o).Fixes key p) (hfixed : p.configurable = false) :
    ∃ q, (σ'.settled o).Fixes key q ∧ p.Carries q := by
  cases h with
  | assigned assigned updates =>
    refine carries_of_updates hx hfixed updates ?_
    rintro rfl
    exact assigned.carries hx hfixed
  | defined _ allowed defined updates =>
    refine carries_of_updates hx hfixed updates ?_
    rintro rfl
    refine defined.carries hx hfixed ?_
    rintro rfl
    rwa [own_eq, hx.own] at allowed
  | deleted deleted updates =>
    refine carries_of_updates hx hfixed updates ?_
    rintro rfl
    exact deleted.carries hx hfixed
  | pushed kind _ updates =>
    refine carries_of_updates hx hfixed updates ?_
    rintro rfl
    exact hx.carries hfixed (Object.keepsPlace_of_array kind (by rfl) key) fun _ h => ⟨p, h, .refl hfixed⟩
  | inherits _ _ updates | closed updates =>
    refine carries_of_updates hx hfixed updates ?_
    rintro rfl
    exact hx.carries hfixed (Object.keepsPlace_of_kind (by rfl) key) fun _ h => ⟨p, h, .refl hfixed⟩
  | written _ made | kept made =>
    rw [made.settled_eq o]
    exact ⟨p, hx, .refl hfixed⟩

theorem carries_performAll (hx : (σ.settled o).Fixes key p) (hfixed : p.configurable = false) (ops : List Operation) :
    ∃ q, ((σ.performAll ops).settled o).Fixes key q ∧ p.Carries q := by
  induction ops generalizing σ p with
  | nil => exact ⟨p, hx, .refl hfixed⟩
  | cons op ops ih =>
    obtain ⟨q, hq, hpq⟩ := (effect σ op).carries_step hx hfixed
    obtain ⟨r, hr, hqr⟩ := ih hq hpq.configurable
    exact ⟨r, hr, hpq.trans hqr⟩

end Steps

/-- **Properties that are not configurable are permanent**: at any two times of a run the property is there, not
configurable and as enumerable as in the beginning; once it is read only it stays so; and from then on its values at any
two times are the same, unless they are integers outside the safe range with the same nearest double. -/
theorem fixed_for_good {σ : Store} {o : ObjectId} {key : PropertyKey} {p : Property} (hown : σ.own o key = some p)
    (hfixed : p.configurable = false) (before after : List Operation) :
    ∃ q r, (σ.performAll before).own o key = some q ∧ (σ.performAll (before ++ after)).own o key = some r ∧
      p.Lasts q ∧ p.Lasts r ∧ q.Lasts r := by
  rw [own_eq] at hown
  obtain ⟨q, hq, hpq⟩ := carries_performAll (Object.fixes_of_own hown hfixed) hfixed before
  obtain ⟨r, hr, hqr⟩ := carries_performAll hq hpq.configurable after
  have hrun : σ.performAll (before ++ after) = (σ.performAll before).performAll after := List.foldl_append
  refine ⟨q, r, ?_, ?_, hpq.lasts, (hpq.trans hqr).lasts, hqr.lasts⟩
  · rw [own_eq, hq.own]
  · rw [hrun, own_eq, hr.own]

/-- An object with a read-only integer that no double is equal to. -/
def frozenInteger : Store :=
  { Store.empty with objects := #[⟨⟨none, ⟨[(.ofString "x", .permanent (.int64 9007199254740993))]⟩, true⟩, .ordinary⟩] }

def redefinition (v : Value) : Operation := .define ⟨0⟩ (.ofString "x") (.permanent v) true

/-- Two definitions, each with a value that is the same as the one before, leave another integer. -/
theorem fixed_for_good_integer :
    frozenInteger.own ⟨0⟩ (.ofString "x") = some (.permanent (.int64 9007199254740993)) ∧
      (frozenInteger.performAll
        [redefinition (.float (Binary64.ofInt64 9007199254740992)), redefinition (.int64 9007199254740992)]).own ⟨0⟩
          (.ofString "x") = some (.permanent (.int64 9007199254740992)) ∧
      (Value.int64 9007199254740992).sameValue (.int64 9007199254740993) = false ∧
      (Property.permanent (.int64 9007199254740993)).Lasts (.permanent (.int64 9007199254740992)) := by
  have hown : frozenInteger.own ⟨0⟩ (.ofString "x") = some (.permanent (.int64 9007199254740993)) := rfl
  have hafter : (frozenInteger.performAll
      [redefinition (.float (Binary64.ofInt64 9007199254740992)), redefinition (.int64 9007199254740992)]).own ⟨0⟩
        (.ofString "x") = some (.permanent (.int64 9007199254740992)) := rfl
  refine ⟨hown, hafter, by decide, ?_⟩
  obtain ⟨q, r, -, hr, -, hlasts, -⟩ := fixed_for_good hown rfl
    [redefinition (.float (Binary64.ofInt64 9007199254740992))] [redefinition (.int64 9007199254740992)]
  obtain rfl : r = .permanent (.int64 9007199254740992) := Option.some.inj (hr.symm.trans hafter)
  exact hlasts

end Store

end ScriptMachine
