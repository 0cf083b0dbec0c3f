import ScriptMachine.Iteration.Loops
import ScriptMachine.Proofs.Inheritance
import ScriptMachine.Proofs.NameWalk
import ScriptMachine.Proofs.OwnKeys

/-!
# Which keys a loop goes through

A cursor looks at the own keys of an object and then of its prototypes, and remembers the names it has looked at.  It can
be asked in any store: between two calls a script may have changed all there is.

* `Store.namesAlong` — the names to be seen along a chain of objects; `KeyCursor.remaining` those still to come.

Main results: `KeyCursor.never_repeats` for stores that change, `VM.names_enumerated` for one that does not.
-/

namespace ScriptMachine

namespace Store

/-! ### Names along a chain -/

/-- The key is that of an own property that loops over keys do not pass by. -/
def isEnumerable (σ : Store) (o : ObjectId) (key : PropertyKey) : Bool := (σ.own o key).any (·.enumerable)

/-- The enumerable names among keys of an object that are not taken and are let through, each once. -/
def namesOf (σ : Store) (passes : PropertyKey → Bool) (o : ObjectId) (taken keys : List PropertyKey) :
    List PropertyKey :=
  (keys.filter fun k => !k.isSymbol && !taken.contains k && (σ.isEnumerable o k && passes k)).eraseDups

/-- The names of objects in turn, in the order of their own keys.  What one of them has as an own key, enumerable or not,
is taken for those after it. -/
def namesAlong (σ : Store) (passes : PropertyKey → Bool) : List PropertyKey → List ObjectId → List PropertyKey
  | _, [] => []
  | taken, o :: rest =>
    σ.namesOf passes o taken (σ.settled o).ownKeys ++ namesAlong σ passes (taken ++ (σ.settled o).ownKeys) rest

section Names

variable {σ : Store} {passes : PropertyKey → Bool} {o : ObjectId} {taken taken' keys : List PropertyKey} {key : PropertyKey}
  {passes' : PropertyKey → Bool} {l : List ObjectId}

theorem mem_namesOf : key ∈ σ.namesOf passes o taken keys ↔
    key ∈ keys ∧ key.isSymbol = false ∧ key ∉ taken ∧ σ.isEnumerable o key = true ∧ passes key = true := by
  simp [namesOf, and_assoc]

theorem namesOf_congr (htaken : ∀ k, k.isSymbol = false → (k ∈ taken ↔ k ∈ taken'))
    (hpasses : ∀ k, k.isSymbol = false → σ.isEnumerable o k = true → passes k = passes' k) (keys : List PropertyKey) :
    σ.namesOf passes o taken keys = σ.namesOf passes' o taken' keys := by
  unfold namesOf
  congr 1
  refine List.filter_congr fun k _ => ?_
  cases hk : k.isSymbol with
  | true => rfl
  | false =>
    have hsame : taken.contains k = taken'.contains k := by
      rw [Bool.eq_iff_iff, List.contains_iff_mem, List.contains_iff_mem]
      exact htaken k hk
    rw [hsame]
    cases henumerable : σ.isEnumerable o k with
    | false => rfl
    | true => rw [hpasses k hk henumerable]

theorem namesAlong_congr
    (htaken : ∀ k, k.isSymbol = false → (k ∈ taken ↔ k ∈ taken'))
    (hpasses : ∀ o ∈ l, ∀ k, k.isSymbol = false → σ.isEnumerable o k = true → passes k = passes' k) :
    σ.namesAlong passes taken l = σ.namesAlong passes' taken' l := by
  induction l generalizing taken taken' with
  | nil => rfl
  | cons o rest ih =>
    have htail : ∀ k, k.isSymbol = false →
        (k ∈ taken ++ (σ.settled o).ownKeys ↔ k ∈ taken' ++ (σ.settled o).ownKeys) := by
      intro k hk
      rw [List.mem_append, List.mem_append, htaken k hk]
    unfold namesAlong
    rw [namesOf_congr htaken (hpasses o List.mem_cons_self),
      ih htail fun p hp => hpasses p (List.mem_cons_of_mem _ hp)]

/-- In a tidy store the names along a chain are exactly those that are enumerable own properties of an object and no own
keys of the objects before it. -/
theorem mem_namesAlong (hσ : σ.Tidy) : key ∈ σ.namesAlong passes taken l ↔
    ∃ before o after, l = before ++ o :: after ∧ key.isSymbol = false ∧ σ.isEnumerable o key = true ∧
      key ∉ taken ∧ (∀ p ∈ before, key ∉ (σ.settled p).ownKeys) ∧ passes key = true := by
  induction l generalizing taken with
  | nil => simp [namesAlong]
  | cons o rest ih =>
    have hlisted : σ.isEnumerable o key = true → key ∈ (σ.settled o).ownKeys := by
      intro h
      obtain ⟨p, hp, -⟩ := (Option.any_eq_true _ _).mp h
      rw [own_eq] at hp
      exact (Object.mem_ownKeys (hσ o) σ.scopes key).mpr (.inl (by rw [hp]; rfl))
    rw [namesAlong, List.mem_append, mem_namesOf, ih]
    constructor
    · rintro (⟨-, htext, hfree, henumerable, hpasses⟩ | ⟨before, p, after, rfl, htext, henumerable, hfree, hbefore, hpasses⟩)
      · exact ⟨[], o, rest, rfl, htext, henumerable, hfree, nofun, hpasses⟩
      · rw [List.mem_append, not_or] at hfree
        refine ⟨o :: before, p, after, rfl, htext, henumerable, hfree.1, ?_, hpasses⟩
        rintro q (_ | ⟨_, hq⟩)
        · exact hfree.2
        · exact hbefore q hq
    · rintro ⟨before, p, after, heq, htext, henumerable, hfree, hbefore, hpasses⟩
      cases before with
      | nil =>
        cases heq
        exact .inl ⟨hlisted henumerable, htext, hfree, henumerable, hpasses⟩
      | cons q before =>
        cases heq
        refine .inr ⟨before, p, after, rfl, htext, henumerable, ?_, fun r hr => hbefore r (List.mem_cons_of_mem _ hr),
          hpasses⟩
        rw [List.mem_append, not_or]
        exact ⟨hfree, hbefore o List.mem_cons_self⟩

end Names

end Store

namespace KeyCursor

open Store

/-! ### Looking through the keys of one object -/

/-- The name is not hidden by the screen of a cursor. -/
def unhidden (σ : Store) (screen : Option ObjectId) (key : PropertyKey) : Bool := !((hides screen key).run σ).1

/-- What a look through keys of an object gives: the first name that is new, enumerable and not hidden, and in any case the
names looked at. -/
inductive Scanned (σ : Store) (screen : Option ObjectId) (o : ObjectId) (visited keys : List PropertyKey) :
    Option (PropertyKey × List PropertyKey) × List PropertyKey → Prop where
  | found {skipped rest visited' : List PropertyKey} {key : PropertyKey} (split : keys = skipped ++ key :: rest)
      (text : key.isSymbol = false) (new : key ∉ visited) (enumerable : σ.isEnumerable o key = true)
      (shown : unhidden σ screen key = true)
      (passed : ∀ k ∈ skipped, k.isSymbol = true ∨ k ∈ visited ∨ (σ.isEnumerable o k && unhidden σ screen k) = false)
      (seen : ∀ k, k ∈ visited' ↔ k ∈ visited ∨ k.isSymbol = false ∧ (k ∈ skipped ∨ k = key)) :
      Scanned σ screen o visited keys (some (key, rest), visited')
  | exhausted {visited' : List PropertyKey}
      (passed : ∀ k ∈ keys, k.isSymbol = true ∨ k ∈ visited ∨ (σ.isEnumerable o k && unhidden σ screen k) = false)
      (seen : ∀ k, k ∈ visited' ↔ k ∈ visited ∨ k.isSymbol = false ∧ k ∈ keys) :
      Scanned σ screen o visited keys (none, visited')

section Scan

variable {σ : Store} {screen : Option ObjectId} {o : ObjectId} {visited keys : List PropertyKey} {key : PropertyKey}

theorem answer_scan_cons (σ : Store) (screen : Option ObjectId) (o : ObjectId) (visited rest : List PropertyKey)
    (key : PropertyKey) :
    ((scan screen o visited (key :: rest)).run σ).1 =
      if key.isSymbol || visited.contains key then ((scan screen o visited rest).run σ).1
      else if σ.isEnumerable o key && unhidden σ screen key then (some (key, rest), key :: visited)
      else ((scan screen o (key :: visited) rest).run σ).1 := by
  rw [scan]
  split
  case isTrue => rfl
  case isFalse =>
    rw [run_bind]
    have hmade := (reads_ownProperty o key σ).1
    have hown : ((ownProperty? o key).run σ).1 = σ.own o key := rfl
    rw [hown]
    generalize ((ownProperty? o key).run σ).2 = σ₁ at hmade
    have hscan := fun σ₂ (h : Makes σ σ₂) => (reads_scan screen o (key :: visited) rest).answer h
    unfold isEnumerable
    cases (σ.own o key).any (·.enumerable) with
    | false => exact hscan _ hmade
    | true =>
      rw [if_pos rfl, run_bind, unhidden, ← (reads_hides screen key).answer hmade]
      have hmade₂ := hmade.trans (reads_hides screen key σ₁).1
      cases ((hides screen key).run σ₁).1 with
      | false => rfl
      | true => exact hscan _ hmade₂

/-- A key that is passed by is looked at if it is a name. -/
theorem Scanned.cons {visited₁ : List PropertyKey} {r : Option (PropertyKey × List PropertyKey) × List PropertyKey}
    (hpass : key.isSymbol = true ∨ key ∈ visited ∨ (σ.isEnumerable o key && unhidden σ screen key) = false)
    (hvisited : ∀ k, k ∈ visited₁ ↔ k ∈ visited ∨ k.isSymbol = false ∧ k = key)
    (h : Scanned σ screen o visited₁ keys r) : Scanned σ screen o visited (key :: keys) r := by
  cases h with
  | found split text new enumerable shown passed seen =>
    subst split
    exact .found (List.cons_append ..).symm text (fun h => new ((hvisited _).mpr (.inl h))) enumerable shown (by grind)
      (by grind)
  | exhausted passed seen => exact .exhausted (by grind) (by grind)

theorem scanned (σ : Store) (screen : Option ObjectId) (o : ObjectId) (visited keys : List PropertyKey) :
    Scanned σ screen o visited keys ((scan screen o visited keys).run σ).1 := by
  induction keys generalizing visited with
  | nil => exact .exhausted nofun (by simp)
  | cons key rest ih =>
    rw [answer_scan_cons]
    split
    case isTrue hpass =>
      have hold : key.isSymbol = true ∨ key ∈ visited := by simpa using hpass
      exact (ih visited).cons (hold.imp_right .inl) (by grind)
    case isFalse hnew =>
      obtain ⟨htext, hfresh⟩ : key.isSymbol = false ∧ key ∉ visited := by simpa using hnew
      split
      case isTrue hshown =>
        rw [Bool.and_eq_true] at hshown
        exact .found (List.nil_append _).symm htext hfresh hshown.1 hshown.2 nofun (by grind)
      case isFalse hpass => exact (ih (key :: visited)).cons (.inr (.inr (by simpa using hpass))) (by grind)

theorem Scanned.namesOf_found {rest visited' : List PropertyKey}
    (h : Scanned σ screen o visited keys (some (key, rest), visited')) :
    σ.namesOf (unhidden σ screen) o visited keys = key :: σ.namesOf (unhidden σ screen) o visited' rest := by
  cases h with
  | @found skipped _ _ _ split text new enumerable shown passed seen =>
    subst split
    have hskipped : skipped.filter (fun k => !k.isSymbol && !visited.contains k &&
        (σ.isEnumerable o k && unhidden σ screen k)) = [] := by
      rw [List.filter_eq_nil_iff]
      intro k hk
      rcases passed k hk with h | h | h <;> simp [h]
    unfold namesOf
    rw [List.filter_append, hskipped, List.nil_append, List.filter_cons, if_pos (by simp [text, new, enumerable, shown]),
      List.eraseDups_cons, List.filter_filter]
    congr 2
    refine List.filter_congr fun k _ => ?_
    by_cases hk : k = key <;> by_cases hs : k ∈ skipped <;> cases hsymbol : k.isSymbol <;>
      cases hshow : (σ.isEnumerable o k && unhidden σ screen k) <;> grind

theorem Scanned.namesOf_exhausted {visited' : List PropertyKey} (h : Scanned σ screen o visited keys (none, visited')) :
    σ.namesOf (unhidden σ screen) o visited keys = [] := by
  cases h with
  | exhausted passed seen =>
    rw [List.eq_nil_iff_forall_not_mem]
    intro k hk
    obtain ⟨hmem, htext, hnew, henumerable, hshown⟩ := mem_namesOf.mp hk
    rcases passed k hmem with h | h | h
    · cases htext.symm.trans h
    · exact hnew h
    · simp [henumerable, hshown] at h

end Scan

/-! ### Calls -/

/-- A call of a cursor: the cursor and the store before it, and what it gives. -/
structure Call where
  cursor : KeyCursor
  store : Store
  key : Option PropertyKey
  next : KeyCursor
  storeAfter : Store

/-- The calls of a cursor that is asked in one store after the other.  Nothing is said of how a store comes from the one
before. -/
def calls (c : KeyCursor) : List Store → List Call
  | [] => []
  | σ :: rest =>
    let r := c.next.run σ
    ⟨c, σ, r.1.1, r.1.2, r.2⟩ :: calls r.1.2 rest

section Next

variable {σ : Store} {c : KeyCursor} {n : Nat}

def keysOf (σ : Store) : Option ObjectId → List PropertyKey
  | some o => (σ.settled o).ownKeys
  | none => []

def moved (σ : Store) (c : KeyCursor) (o : ObjectId) (visited : List PropertyKey) : KeyCursor :=
  { c with current := (σ.settled o).prototype, pending := keysOf σ (σ.settled o).prototype, visited }

theorem answer_nextWithin {o : ObjectId} (hcurrent : c.current = some o) :
    ((nextWithin (n + 1) c).run σ).1 =
      match ((scan c.screen o c.visited c.pending).run σ).1 with
      | (some (key, pending), visited) => (some key, { c with pending, visited })
      | (none, visited) => ((nextWithin n (c.moved σ o visited)).run σ).1 := by
  unfold moved
  rw [nextWithin, hcurrent]
  rw [run_bind]
  have hmade := (reads_scan c.screen o c.visited c.pending σ).1
  generalize (scan c.screen o c.visited c.pending).run σ = r at hmade ⊢
  obtain ⟨⟨_ | ⟨key, pending⟩, visited⟩, σ₁⟩ := r
  · have hmade₂ := hmade.trans (run_materialize o σ₁).1
    have hnext := fun pending τ (h : Makes σ τ) =>
      (reads_nextWithin n { c with current := (σ.settled o).prototype, pending, visited }).answer h
    rw [run_bind, run_prototype?, hmade.settled_eq]
    cases hprototype : (σ.settled o).prototype with
    | none =>
      rw [hprototype] at hnext
      exact hnext [] _ hmade₂
    | some p =>
      rw [hprototype] at hnext
      rw [run_bind, run_ownKeys, hmade₂.settled_eq]
      exact hnext _ _ (hmade₂.trans (reads_ownKeys p _).1)
  · rfl

theorem answer_nextWithin_ended (hcurrent : c.current = none) : ((nextWithin n c).run σ).1 = (none, c) := by
  cases n with
  | zero => rfl
  | succ n =>
    unfold nextWithin
    rw [hcurrent]
    rfl

/-- What a call yields: a name not looked at before, that is an enumerable own property of the object at hand. -/
structure Yields (σ : Store) (c : KeyCursor) (key : PropertyKey) (c' : KeyCursor) : Prop where
  text : key.isSymbol = false
  new : key ∉ c.visited
  seen : key ∈ c'.visited
  enumerable : ∃ o, c'.current = some o ∧ σ.isEnumerable o key = true

theorem nextWithin_yields (σ : Store) (n : Nat) (c : KeyCursor) :
    c.visited ⊆ ((nextWithin n c).run σ).1.2.visited ∧
      ∀ key, ((nextWithin n c).run σ).1.1 = some key → Yields σ c key ((nextWithin n c).run σ).1.2 := by
  induction n generalizing c with
  | zero => exact ⟨List.Subset.refl _, nofun⟩
  | succ n ih =>
    cases hcurrent : c.current with
    | none =>
      rw [answer_nextWithin_ended hcurrent]
      exact ⟨List.Subset.refl _, nofun⟩
    | some o =>
      have hscanned := scanned σ c.screen o c.visited c.pending
      rw [answer_nextWithin hcurrent]
      generalize ((scan c.screen o c.visited c.pending).run σ).1 = r at hscanned ⊢
      cases hscanned with
      | found split text new enumerable shown passed seen =>
        refine ⟨fun k hk => (seen k).mpr (.inl hk), ?_⟩
        rintro _ ⟨⟩
        exact ⟨text, new, (seen _).mpr (.inr ⟨text, .inr rfl⟩), o, hcurrent, enumerable⟩
      | @exhausted visited' passed seen =>
        have hkept : c.visited ⊆ visited' := fun k hk => (seen k).mpr (.inl hk)
        obtain ⟨hgrown, hyields⟩ := ih (c.moved σ o visited')
        refine ⟨List.Subset.trans hkept hgrown, fun key hkey => ?_⟩
        obtain ⟨htext, hnew, hseen, henumerable⟩ := hyields key hkey
        exact ⟨htext, fun hk => hnew (hkept hk), hseen, henumerable⟩

theorem next_yields (σ : Store) (c : KeyCursor) :
    c.visited ⊆ (c.next.run σ).1.2.visited ∧
      ∀ key, (c.next.run σ).1.1 = some key → Yields σ c key (c.next.run σ).1.2 :=
  nextWithin_yields σ (σ.objects.size + 1) c

end Next

/-! ### Stores that change -/

section Calls

variable {c : KeyCursor} {stores : List Store} {call : Call}

def yielded (calls : List Call) : List PropertyKey := calls.filterMap (·.key)

theorem eq_of_mem_calls (h : call ∈ c.calls stores) :
    call.store ∈ stores ∧ call.cursor.next.run call.store = ((call.key, call.next), call.storeAfter) := by
  induction stores generalizing c with
  | nil => cases h
  | cons σ rest ih =>
    rcases List.mem_cons.mp h with rfl | hmem
    · exact ⟨List.mem_cons_self, rfl⟩
    · obtain ⟨hstore, hcall⟩ := ih hmem
      exact ⟨List.mem_cons_of_mem _ hstore, hcall⟩

theorem not_mem_yielded {key : PropertyKey} (h : key ∈ c.visited) : key ∉ yielded (c.calls stores) := by
  induction stores generalizing c with
  | nil => exact List.not_mem_nil
  | cons σ rest ih =>
    obtain ⟨hgrown, hyields⟩ := next_yields σ c
    have hrest : key ∉ yielded ((c.next.run σ).1.2.calls rest) := ih (hgrown h)
    unfold yielded calls
    rw [List.filterMap_cons]
    split
    case h_1 => exact hrest
    case h_2 k hk =>
      rw [List.mem_cons, not_or]
      refine ⟨?_, hrest⟩
      rintro rfl
      exact (hyields key hk).new h

theorem nodup_yielded (c : KeyCursor) (stores : List Store) : (yielded (c.calls stores)).Nodup := by
  induction stores generalizing c with
  | nil => exact List.nodup_nil
  | cons σ rest ih =>
    have hrest : (yielded ((c.next.run σ).1.2.calls rest)).Nodup := ih _
    unfold yielded calls
    rw [List.filterMap_cons]
    split
    case h_1 => exact hrest
    case h_2 k hk => exact List.nodup_cons.mpr ⟨not_mem_yielded ((next_yields σ c).2 k hk).seen, hrest⟩

/-- **A loop never repeats a name**, whatever is done to the store between the calls of its cursor, as long as chains of
prototypes are finite: no key is yielded twice; every call ends by itself; and what it yields is no symbol, but the key of
an enumerable own property, at that time, of the object that the cursor is at. -/
theorem never_repeats (c : KeyCursor) (stores : List Store) (hfinite : ∀ σ ∈ stores, σ.Finite) :
    (yielded (c.calls stores)).Nodup ∧
      ∀ call ∈ c.calls stores,
        Loop round call.cursor call.store ((call.key, call.next), call.storeAfter) ∧
          ∀ key, call.key = some key → key.isSymbol = false ∧
            ∃ o p, call.next.current = some o ∧ call.storeAfter.own o key = some p ∧ p.enumerable = true := by
  refine ⟨nodup_yielded c stores, fun call hcall => ?_⟩
  obtain ⟨hstore, hrun⟩ := eq_of_mem_calls hcall
  refine ⟨hrun ▸ loop_next (hfinite _ hstore) call.cursor, fun key hkey => ?_⟩
  have hyields := (next_yields call.store call.cursor).2 key
  have hmade := (reads_next call.cursor call.store).1
  rw [hrun] at hyields hmade
  obtain ⟨htext, -, -, o, hcurrent, henumerable⟩ := hyields hkey
  obtain ⟨p, hown, hp⟩ := (Option.any_eq_true _ _).mp henumerable
  exact ⟨htext, o, p, hcurrent, ((reads_ownProperty o key).answer hmade).trans hown, hp⟩

/-- An heir with a name of its own, and one that it inherits. -/
def heirAndParent : Store :=
  { Store.empty with
    objects := #[⟨⟨none, (PropertyTable.empty.insert (.ofString "a") (.plain (.int 1))).insert (.ofString "b")
        (.plain (.int 2)), true⟩, .ordinary⟩,
      ⟨⟨some ⟨0⟩, PropertyTable.empty.insert (.ofString "a") (.plain (.int 3)), true⟩, .ordinary⟩] }

/-- The name that the heir had is deleted after it was yielded: the parent has it too, but it does not come again. -/
theorem never_repeats_deleted :
    let stores := [heirAndParent, heirAndParent.perform (.delete ⟨1⟩ (.ofString "a") true), heirAndParent]
    let calls := ((start (some ⟨1⟩)).run heirAndParent).1.calls stores
    calls.map (·.key) = [some (.ofString "a"), some (.ofString "b"), none] ∧ (yielded calls).Nodup := by
  refine ⟨by decide +kernel, (never_repeats _ _ fun σ hσ => ?_).1⟩
  exact (sound_of_orderly (List.all_eq_true.mp (by decide +kernel) σ hσ)).finite

end Calls

/-! ### A store that stays as it is -/

/-- The names still to come, where the objects from the one at hand on are as given. -/
def remaining (σ : Store) (c : KeyCursor) : List ObjectId → List PropertyKey
  | [] => []
  | o :: rest =>
    σ.namesOf (unhidden σ c.screen) o c.visited c.pending ++
      σ.namesAlong (unhidden σ c.screen) (c.visited ++ c.pending) rest

section Remaining

variable {σ : Store} {c : KeyCursor} {l : List ObjectId} {n : Nat}

theorem remaining_of_keysOf (hl : Chain σ c.current l) (hpending : c.pending = keysOf σ c.current) :
    remaining σ c l = σ.namesAlong (unhidden σ c.screen) c.visited l := by
  cases l with
  | nil => rfl
  | cons o rest =>
    have hcurrent : c.current = some o := by
      generalize c.current = current at hl
      cases hl
      rfl
    rw [remaining, hpending, hcurrent]
    rfl

/-- What one call does to the names still to come: it takes the first of them away, or there are none and it ends. -/
structure Takes (σ : Store) (c : KeyCursor) (l : List ObjectId) (r : Option PropertyKey × KeyCursor) (l' : List ObjectId) :
    Prop where
  chain : Chain σ r.2.current l'
  shorter : l'.length ≤ l.length
  taken : remaining σ c l = r.1.toList ++ remaining σ r.2 l'
  ended : r.1 = none → l' = []

theorem takes_nextWithin (hl : Chain σ c.current l) (hn : l.length < n) :
    ∃ l', Takes σ c l ((nextWithin n c).run σ).1 l' := by
  induction n generalizing c l with
  | zero => cases hn
  | succ n ih =>
    cases hcurrent : c.current with
    | none =>
      rw [answer_nextWithin_ended hcurrent]
      rw [hcurrent] at hl
      cases hl
      exact ⟨[], by rw [hcurrent]; exact .nil, Nat.le_refl _, rfl, fun _ => rfl⟩
    | some o =>
      have hscanned := scanned σ c.screen o c.visited c.pending
      rw [hcurrent] at hl
      cases hl with
      | @cons _ rest hrest =>
        rw [answer_nextWithin hcurrent]
        generalize ((scan c.screen o c.visited c.pending).run σ).1 = r at hscanned ⊢
        obtain ⟨_ | ⟨key, pending⟩, visited⟩ := r
        · -- No key of this object is left: its own keys are looked at, and the prototype is next.
          have hseen : ∀ k, k.isSymbol = false → (k ∈ c.visited ++ c.pending ↔ k ∈ visited) := by
            intro k hk
            cases hscanned with
            | exhausted passed seen =>
              rw [List.mem_append, seen k]
              simp only [hk, true_and]
          have hmoved : Chain σ (c.moved σ o visited).current rest := hrest
          obtain ⟨l', htakes⟩ := ih hmoved (Nat.lt_of_succ_lt_succ hn)
          refine ⟨l', htakes.chain, Nat.le_succ_of_le htakes.shorter, ?_, htakes.ended⟩
          rw [← htakes.taken, remaining_of_keysOf hmoved rfl, remaining, hscanned.namesOf_exhausted]
          exact namesAlong_congr hseen fun _ _ _ _ _ => rfl
        · have hseen : ∀ k, k.isSymbol = false → (k ∈ c.visited ++ c.pending ↔ k ∈ visited ++ pending) := by
            intro k hk
            cases hscanned with
            | found split text new enumerable shown passed seen =>
              rw [List.mem_append, List.mem_append, seen k, split]
              simp only [hk, true_and, List.mem_append, List.mem_cons, or_assoc]
          refine ⟨o :: rest, ?_, Nat.le_refl _, ?_, nofun⟩
          · rw [hcurrent]
            exact .cons hrest
          · rw [remaining, hscanned.namesOf_found, namesAlong_congr hseen fun _ _ _ _ _ => rfl]
            rfl

/-- Calls in stores that differ in nothing but lazy objects give the names still to come, one after the other, and nothing
when they have all been given. -/
theorem keys_of_calls {stores : List Store} (hl : Chain σ c.current l) (hn : l.length ≤ σ.objects.size)
    (hstores : ∀ τ ∈ stores, Makes σ τ) :
    (c.calls stores).map (·.key) = (List.range stores.length).map fun t => (remaining σ c l)[t]? := by
  induction stores generalizing c l with
  | nil => rfl
  | cons τ rest ih =>
    have hmade := hstores τ List.mem_cons_self
    have hanswer : (c.next.run τ).1 = ((nextWithin (σ.objects.size + 1) c).run σ).1 := (reads_next c).answer hmade
    obtain ⟨l', htakes⟩ := takes_nextWithin hl (Nat.lt_succ_of_le hn)
    rw [← hanswer] at htakes
    have htail := ih htakes.chain (Nat.le_trans htakes.shorter hn) fun ρ hρ => hstores ρ (List.mem_cons_of_mem _ hρ)
    rw [List.length_cons, List.range_succ_eq_map, List.map_cons, List.map_map, calls, List.map_cons, htail, htakes.taken]
    cases hkey : (c.next.run τ).1.1 with
    | none =>
      rw [htakes.ended hkey]
      rfl
    | some key => rfl

end Remaining

end KeyCursor

/-! ### Records with an object -/

namespace Store

section Backs

variable {σ σ' : Store} {o p : ObjectId} {key : PropertyKey} {s : ScopeId} {n : Nat} {l : List ObjectId}

/-- The object is that of a record along the chain from a record on. -/
def Backs (σ : Store) (s : ScopeId) (o : ObjectId) : Prop :=
  ∃ level t, σ.outward level s = some t ∧ (σ.scope t).object = some o

theorem backsScopeWithin_iff : σ.backsScopeWithin o n s = true ↔
    ∃ k < n, ∃ t, σ.outward k s = some t ∧ (σ.scope t).object = some o := by
  induction n generalizing s with
  | zero => simp [backsScopeWithin]
  | succ n ih =>
    rw [backsScopeWithin, Bool.or_eq_true, decide_eq_true_iff, Option.any_eq_true]
    constructor
    · rintro (hobject | ⟨outer, houter, hrest⟩)
      · exact ⟨0, Nat.succ_pos n, s, rfl, hobject⟩
      · obtain ⟨k, hk, t, ht, hobject⟩ := ih.mp hrest
        refine ⟨k + 1, Nat.succ_lt_succ hk, t, ?_, hobject⟩
        rw [outward, houter]
        exact ht
    · rintro ⟨_ | k, hk, t, ht, hobject⟩
      · cases ht
        exact .inl hobject
      · obtain ⟨outer, houter, hrest⟩ := Option.bind_eq_some_iff.mp ht
        exact .inr ⟨outer, houter, ih.mpr ⟨k, Nat.lt_of_succ_lt_succ hk, t, hrest, hobject⟩⟩

theorem backsScopeWithin_size : σ.backsScopeWithin o σ.scopes.size s = true ↔ σ.Backs s o := by
  rw [backsScopeWithin_iff]
  constructor
  · rintro ⟨k, -, t, ht, hobject⟩
    exact ⟨k, t, ht, hobject⟩
  · rintro ⟨level, t, ht, hobject⟩
    have hknown : ∀ {u}, (σ.scope u).object = some o → u.index < σ.scopes.size := by
      intro u hu
      by_contra hge
      rw [scope_of_size_le (Nat.le_of_not_lt hge)] at hu
      cases hu
    obtain ⟨k, -, hk, u, hu, hfound⟩ := exists_near_of hknown ht hobject
    exact ⟨k, hk, u, hu, hfound⟩

theorem Makes.backs_iff (h : Makes σ σ') : σ'.Backs s o ↔ σ.Backs s o := by
  simp only [Backs, h.outward_eq, h.scope]

theorem isSome_findWithin (hl : Chain σ (some o) l) (hn : l.length ≤ n) (hp : p ∈ l)
    (hown : (σ.own p key).isSome = true) : (((findWithin key n o).run σ).1).isSome = true := by
  induction n generalizing o l with
  | zero =>
    cases hl
    cases hn
  | succ n ih =>
    cases hl with
    | cons rest =>
      rw [answer_findWithin]
      cases hfound : σ.own o key with
      | some q => rfl
      | none =>
        rcases List.mem_cons.mp hp with rfl | hmem
        · simp [hfound] at hown
        · cases hprototype : (σ.settled o).prototype with
          | none =>
            rw [hprototype] at rest
            cases rest
            cases hmem
          | some q =>
            rw [hprototype] at rest
            exact ih rest (Nat.le_of_succ_le_succ hn) hmem

theorem unhidden_eq_provides {name : Text} (h : ((has o (.text name)).run σ).1 = true) :
    KeyCursor.unhidden σ (some o) (.text name) = ((provides o name).run σ).1 := by
  have hmade := (reads_has o (.text name) σ).1
  rw [KeyCursor.unhidden, KeyCursor.hides, provides, run_bind, run_bind, h]
  rw [Bool.not_true, if_neg Bool.false_ne_true, run_bind, (reads_get o _).answer hmade]
  have hmade₁ := (reads_get o (.symbol .unscopables) σ).1
  have hmade₂ := hmade.trans (reads_get o (.symbol .unscopables) _).1
  cases hlist : ((get? o (.symbol .unscopables)).run σ).1 with
  | none => rfl
  | some v =>
    cases v with
    | object hidden =>
      rw [run_bind, run_bind, (reads_get hidden _).answer hmade₁, (reads_get hidden _).answer hmade₂]
      cases ((get? hidden (.text name)).run σ).1 <;> rfl
    | _ => rfl

instance (σ : Store) (s : ScopeId) (o : ObjectId) : Decidable (σ.Backs s o) := decidable_of_iff _ backsScopeWithin_size

/-- A loop over an object passes by the names that the object does not provide to a record along the chain. -/
def letsThrough (σ : Store) (s : ScopeId) (o : ObjectId) : PropertyKey → Bool
  | .text name => !decide (σ.Backs s o) || ((provides o name).run σ).1
  | .symbol _ => false

theorem unhidden_eq_letsThrough (hfinite : σ.Finite) (hl : Chain σ (some o) l) (hp : p ∈ l) (hkey : key.isSymbol = false)
    (henumerable : σ.isEnumerable p key = true) :
    KeyCursor.unhidden σ (if σ.Backs s o then some o else none) key = σ.letsThrough s o key := by
  cases key with
  | symbol => cases hkey
  | text name =>
    unfold letsThrough
    split
    case isTrue hbacks =>
      obtain ⟨q, hq, -⟩ := (Option.any_eq_true _ _).mp henumerable
      have hhas : ((has o (.text name)).run σ).1 = true :=
        isSome_findWithin hl (hfinite.length_le hl) hp (by rw [hq]; rfl)
      rw [unhidden_eq_provides hhas, decide_eq_true hbacks]
      rfl
    case isFalse hbacks =>
      rw [decide_eq_false hbacks]
      rfl

end Backs

end Store

namespace VM

open Store

theorem openCursor_object (o : ObjectId) (m : Machine) : ∃ m₁, Makes m.store m₁.store ∧
    openCursor (.object o) m =
      .ok ⟨some o, (m.store.settled o).ownKeys, [], if m.store.Backs m.regs.scope o then some o else none⟩ m₁ := by
  have hmade := (reads_ownKeys o m.store).1
  refine ⟨withStore m ((ownKeys o).run m.store).2, hmade, ?_⟩
  have hkeys : ((ownKeys o).run m.store).1 = (m.store.settled o).ownKeys := by rw [run_ownKeys]
  generalize hσ : ((ownKeys o).run m.store).2 = σ at hmade
  have hbacks : σ.backsScopeWithin o σ.scopes.size m.regs.scope = decide (m.store.Backs m.regs.scope o) := by
    rw [Bool.eq_iff_iff, backsScopeWithin_size, decide_eq_true_iff, hmade.backs_iff]
  show EStateM.Result.ok (if ((ownKeys o).run m.store).2.backsScopeWithin o ((ownKeys o).run m.store).2.scopes.size _ then
      KeyCursor.screened ⟨some o, ((ownKeys o).run m.store).1, [], none⟩ o
    else ⟨some o, ((ownKeys o).run m.store).1, [], none⟩) (withStore m ((ownKeys o).run m.store).2) = _
  rw [hσ, hbacks, hkeys]
  by_cases h : m.store.Backs m.regs.scope o <;> simp only [h, decide_true, decide_false, if_true, if_false] <;> rfl

/-- **A loop goes through exactly the visible names**, if nothing is changed meanwhile: a cursor opened on an object gives
the names along its chain of prototypes, object by object and each in the order of its keys, and after the last of them
nothing.  These are the enumerable own names of an object on the chain that no object before it has as an own key; if a
record of the scope chain stands on the first object, then only those that it provides. -/
theorem names_enumerated {m : Machine} {o : ObjectId} {chain : List ObjectId} (hfinite : m.store.Finite)
    (hchain : Chain m.store (some o) chain) :
    let names := m.store.namesAlong (m.store.letsThrough m.regs.scope o) [] chain
    ∃ c m₁, openCursor (.object o) m = .ok c m₁ ∧ Makes m.store m₁.store ∧
      (∀ stores : List Store, (∀ σ ∈ stores, Makes m.store σ) →
        (c.calls stores).map (·.key) = (List.range stores.length).map fun t => names[t]?) ∧
      (m.store.Tidy → ∀ key, key ∈ names ↔ ∃ name before p after, key = .text name ∧ chain = before ++ p :: after ∧
        m.store.isEnumerable p key = true ∧ (∀ q ∈ before, key ∉ (m.store.settled q).ownKeys) ∧
        (m.store.Backs m.regs.scope o → ((provides o name).run m.store).1 = true)) := by
  intro names
  obtain ⟨m₁, hmade, hopen⟩ := openCursor_object o m
  refine ⟨_, m₁, hopen, hmade, fun stores hstores => ?_, fun htidy key => ?_⟩
  · rw [KeyCursor.keys_of_calls hchain (hfinite.length_le hchain) hstores, KeyCursor.remaining_of_keysOf hchain rfl]
    have hsame : m.store.namesAlong _ [] chain = names := namesAlong_congr (fun _ _ => .rfl) fun p hp key hkey henumerable =>
      unhidden_eq_letsThrough hfinite hchain hp hkey henumerable
    rw [hsame]
  · rw [mem_namesAlong htidy]
    constructor
    · rintro ⟨before, p, after, heq, htext, henumerable, -, hbefore, hpasses⟩
      cases key with
      | symbol => cases htext
      | text name =>
        refine ⟨name, before, p, after, rfl, heq, henumerable, hbefore, fun hbacks => ?_⟩
        simpa [letsThrough, hbacks] using hpasses
    · rintro ⟨name, before, p, after, rfl, heq, henumerable, hbefore, hprovides⟩
      refine ⟨before, p, after, heq, rfl, henumerable, List.not_mem_nil, hbefore, ?_⟩
      by_cases hbacks : m.store.Backs m.regs.scope o
      · simp [letsThrough, hbacks, hprovides hbacks]
      · simp [letsThrough, hbacks]

def listed (names : List String) (unlisted : String) : PropertyTable :=
  (names.foldl (fun t name => t.insert (.ofString name) (.plain (.int 1))) PropertyTable.empty).insert (.ofString unlisted)
    ⟨.int 1, true, false, true⟩

/-- A record stands on an object that hides one of its names and has a name that it shares with its prototype. -/
def onObject : Machine :=
  { Machine.new .default with
    store := { Store.empty with
      objects := #[⟨⟨none, listed ["a", "c"] "d", true⟩, .ordinary⟩,
        ⟨⟨some ⟨0⟩, (listed ["b", "x"] "a").insert (.symbol .unscopables) (.plain (.object ⟨2⟩)), true⟩, .ordinary⟩,
        ⟨⟨none, listed ["x"] "y", true⟩, .ordinary⟩]
      scopes := #[⟨#[], [], none, some ⟨1⟩, none, false⟩] }
    regs := { (Machine.new .default).regs with scope := ⟨0⟩ } }

/-- Of the names of both objects these two are left, and then there is nothing more. -/
theorem names_enumerated_onObject : ∃ c m₁, openCursor (.object ⟨1⟩) onObject = .ok c m₁ ∧
    (c.calls [m₁.store, m₁.store, m₁.store, m₁.store]).map (·.key) =
      [some (.ofString "b"), some (.ofString "c"), none, none] := by
  have hchain : Chain onObject.store (some ⟨1⟩) [⟨1⟩, ⟨0⟩] := .cons (.cons .nil)
  obtain ⟨c, m₁, hopen, hmade, hkeys, -⟩ := names_enumerated (sound_of_orderly (by decide +kernel)).finite hchain
  have hnames : onObject.store.namesAlong (onObject.store.letsThrough onObject.regs.scope ⟨1⟩) [] [⟨1⟩, ⟨0⟩] =
      [.ofString "b", .ofString "c"] := by decide +kernel
  refine ⟨c, m₁, hopen, ?_⟩
  rw [hkeys _ (by simp [hmade]), hnames]
  rfl

end VM

end ScriptMachine
