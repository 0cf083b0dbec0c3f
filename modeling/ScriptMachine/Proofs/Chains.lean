import Mathlib.Data.List.Nodup
import Mathlib.Data.List.Perm.Subperm
import Mathlib.Logic.Relation
import ScriptMachine.Machine.Convert
import ScriptMachine.Iteration.Keys
import ScriptMachine.Proofs.OwnProperties

/-!
# Chains of prototypes

The prototype of an object is the next link of a chain; for a lazy object the prototype counts that it will get.  Where
every chain ends, so do the walks along them, and they find the end within as many steps as there are objects.

* `Store.Loop` — a loop that runs until its body says so, with no bound on the rounds.
* `Store.loop_findWithin`, `Store.loop_reachesWithin`, `Store.loop_isCallableWithin`, `Store.loop_unbindWithin`,
  `KeyCursor.loop_next` — the walks with a bound give what the loops without one give.
-/

namespace ScriptMachine

/-! ### Routes -/

/-- The way from a place along links, up to a place that has none. -/
inductive Route {α : Type} (next : α → Option α) : α → List α → Prop where
  | last {a : α} (ends : next a = none) : Route next a [a]
  | step {a b : α} {l : List α} (link : next a = some b) (rest : Route next b l) : Route next a (a :: l)

namespace Route

variable {α : Type} {next : α → Option α} {a b : α} {l l' : List α}

theorem unique (h : Route next a l) (h' : Route next a l') : l = l' := by
  induction h generalizing l' with
  | last ends =>
    cases h' with
    | last => rfl
    | step link => cases ends.symm.trans link
  | step link _ ih =>
    cases h' with
    | last ends => cases link.symm.trans ends
    | step link' rest =>
      cases link.symm.trans link'
      rw [ih rest]

theorem of_mem (h : Route next a l) (hb : b ∈ l) : ∃ l', Route next b l' ∧ l' <:+ l := by
  induction h with
  | last ends =>
    obtain rfl := List.mem_singleton.mp hb
    exact ⟨_, .last ends, List.suffix_refl _⟩
  | step link rest ih =>
    rcases List.mem_cons.mp hb with rfl | hmem
    · exact ⟨_, .step link rest, List.suffix_refl _⟩
    · obtain ⟨l', hl', hsuffix⟩ := ih hmem
      exact ⟨l', hl', hsuffix.trans (List.suffix_cons _ _)⟩

/-- A place that came again would be the start of two routes of different lengths. -/
theorem nodup (h : Route next a l) : l.Nodup := by
  induction h with
  | last => exact List.nodup_singleton _
  | step link rest ih =>
    refine List.nodup_cons.mpr ⟨fun hmem => ?_, ih⟩
    obtain ⟨l', hl', hsuffix⟩ := rest.of_mem hmem
    have hlength := hsuffix.length_le
    rw [← (Route.step link rest).unique hl', List.length_cons] at hlength
    omega

end Route

theorem length_le_of_nodup {α : Type} {index : α → Nat} (hindex : Function.Injective index) {l : List α} {n : Nat}
    (hnodup : l.Nodup) (hknown : ∀ a ∈ l, index a < n) : l.length ≤ n := by
  have hsubset : l.map index ⊆ List.range n := by
    intro i hi
    obtain ⟨a, ha, rfl⟩ := List.mem_map.mp hi
    exact List.mem_range.mpr (hknown a ha)
  simpa using ((hnodup.map hindex).subperm hsubset).length_le

theorem ObjectId.index_injective : Function.Injective ObjectId.index := fun ⟨_⟩ ⟨_⟩ h => congrArg ObjectId.mk h

/-- What a bound function or a proxy stands for. -/
def ObjectKind.target? : ObjectKind → Option ObjectId
  | .bound f => some f.target
  | .proxy target _ => some target
  | _ => none

namespace Store

/-! ### Chains -/

/-- The link from an object to its prototype, or to the prototype that it will get. -/
def Inherits (σ : Store) (o p : ObjectId) : Prop := (σ.settled o).prototype = some p

/-- The objects from a start along the links to the last one. -/
inductive Chain (σ : Store) : Option ObjectId → List ObjectId → Prop where
  | nil : Chain σ none []
  | cons {o : ObjectId} {l : List ObjectId} (rest : Chain σ (σ.settled o).prototype l) : Chain σ (some o) (o :: l)

section Chain

variable {σ σ' : Store} {start : Option ObjectId} {o p : ObjectId} {l l' : List ObjectId}

theorem Chain.unique (h : Chain σ start l) (h' : Chain σ start l') : l = l' := by
  induction h generalizing l' with
  | nil => cases h'; rfl
  | cons _ ih =>
    cases h' with
    | cons rest => rw [ih rest]

theorem Chain.of_mem (h : Chain σ start l) (hp : p ∈ l) : ∃ before after, l = before ++ p :: after ∧
    Chain σ (some p) (p :: after) := by
  induction h with
  | nil => cases hp
  | @cons o l rest ih =>
    by_cases heq : p = o
    · subst heq
      exact ⟨[], l, rfl, .cons rest⟩
    · obtain ⟨before, after, rfl, hchain⟩ := ih ((List.mem_cons.mp hp).resolve_left heq)
      exact ⟨o :: before, after, rfl, hchain⟩

/-- An object that came again would have two chains of different lengths. -/
theorem Chain.not_mem (h : Chain σ (some o) (o :: l)) : o ∉ l := by
  intro hmem
  cases h with
  | cons rest =>
    obtain ⟨before, after, rfl, hchain⟩ := rest.of_mem hmem
    have heq := congrArg List.length (hchain.unique (.cons rest))
    simp at heq
    omega

theorem Chain.nodup (h : Chain σ start l) : l.Nodup := by
  induction h with
  | nil => exact List.nodup_nil
  | cons rest ih => exact List.nodup_cons.mpr ⟨(Chain.cons rest).not_mem, ih⟩

theorem Chain.congr (h : Chain σ start l)
    (hsame : ∀ p ∈ l, (σ'.settled p).prototype = (σ.settled p).prototype) : Chain σ' start l := by
  induction h with
  | nil => exact .nil
  | @cons o l rest ih =>
    refine .cons ?_
    rw [hsame o List.mem_cons_self]
    exact ih fun p hp => hsame p (List.mem_cons_of_mem _ hp)

theorem Chain.makes (h : Chain σ start l) (hmade : Makes σ σ') : Chain σ' start l :=
  h.congr fun p _ => by rw [hmade.settled_eq]

end Chain

/-- Every chain ends, and leads through objects of the store only. -/
structure Finite (σ : Store) : Prop where
  nonempty : 0 < σ.objects.size
  known : ∀ {o p}, σ.Inherits o p → p.index < σ.objects.size
  ends : ∀ o, ∃ l, Chain σ (some o) (o :: l)

section Finite

variable {σ σ' : Store} {start : Option ObjectId} {o : ObjectId} {l : List ObjectId}

theorem Finite.chain (h : Finite σ) (start : Option ObjectId) : ∃ l, Chain σ start l := by
  cases start with
  | none => exact ⟨[], .nil⟩
  | some o =>
    obtain ⟨l, hl⟩ := h.ends o
    exact ⟨o :: l, hl⟩

theorem Finite.known_of_chain (h : Finite σ) (hl : Chain σ start l) (hstart : ∀ o ∈ start, o.index < σ.objects.size) :
    ∀ p ∈ l, p.index < σ.objects.size := by
  induction hl with
  | nil =>
    intro p hp
    cases hp
  | @cons o l rest ih =>
    intro p hp
    rcases List.mem_cons.mp hp with rfl | hmem
    · exact hstart p rfl
    · exact ih (fun q hq => h.known hq) p hmem

theorem Finite.length_le (h : Finite σ) (hl : Chain σ start l) : l.length ≤ σ.objects.size := by
  by_cases hstart : ∀ o ∈ start, o.index < σ.objects.size
  · exact length_le_of_nodup ObjectId.index_injective hl.nodup (h.known_of_chain hl hstart)
  · -- What is not in the store has no prototype.
    obtain ⟨o, hnone⟩ := not_forall.mp hstart
    obtain ⟨hmem, hge⟩ := Classical.not_imp.mp hnone
    cases hl with
    | nil => cases hmem
    | cons rest =>
      cases hmem
      rw [settled_of_size_le (Nat.le_of_not_lt hge)] at rest
      cases rest
      exact h.nonempty

theorem Finite.of_same (h : Finite σ) (hsize : σ'.objects.size = σ.objects.size)
    (hsame : ∀ o, (σ'.settled o).prototype = (σ.settled o).prototype) : Finite σ' where
  nonempty := by
    rw [hsize]
    exact h.nonempty
  known {o p} hp := by
    rw [hsize]
    exact h.known ((hsame o).symm.trans hp)
  ends o := by
    obtain ⟨l, hl⟩ := h.ends o
    exact ⟨l, hl.congr fun p _ => hsame p⟩

end Finite

/-! ### Loops without a bound -/

/-- A loop that goes on with what its body gives until the body gives a result. -/
inductive Loop {α β : Type} (body : α → Op (α ⊕ β)) : α → Store → β × Store → Prop where
  | done {a : α} {σ σ' : Store} {b : β} (result : (body a).run σ = (.inr b, σ')) : Loop body a σ (b, σ')
  | again {a a' : α} {σ σ' : Store} {r : β × Store} (goesOn : (body a).run σ = (.inl a', σ'))
      (rest : Loop body a' σ' r) : Loop body a σ r

def findRound (key : PropertyKey) (o : ObjectId) : Op (ObjectId ⊕ Option Property) := do
  let x ← made o
  match x.ownProperty? (← get).scopes key, x.prototype with
  | some p, _ => return .inr (some p)
  | none, some p => return .inl p
  | none, none => return .inr none

/-- A round of the search for an object among prototypes. -/
def reachRound (o : ObjectId) : Option ObjectId → Op (Option ObjectId ⊕ Bool)
  | none => return .inr false
  | some p => do if p = o then return .inr true else return .inl (← prototype? p)

/-- A round of the test whether an object can be called: what a proxy stands for decides. -/
def callableRound (o : ObjectId) : Op (ObjectId ⊕ Bool) := do
  match (← made o).kind with
  | .function _ | .native _ | .bound _ => return .inr true
  | .proxy target _ => return .inl target
  | _ => return .inr false

/-- A round of the search for the target of bound functions. -/
def unbindRound (o : ObjectId) : Op (ObjectId ⊕ ObjectId) := do
  match ((← get).object o).kind with
  | .bound f => return .inl f.target
  | _ => return .inr o

section Loops

variable {σ σ' : Store} {o p : ObjectId} {l : List ObjectId} {n : Nat} {start : Option ObjectId}

theorem loop_bind {α β : Type} {body : α → Op (α ⊕ β)} {f : α → Op β} {a : α}
    (h : ∀ {a' σ'}, (body a).run σ = (.inl a', σ') → Loop body a' σ' ((f a').run σ')) :
    Loop body a σ ((body a >>= Sum.elim f pure).run σ) := by
  rw [run_bind]
  rcases hround : (body a).run σ with ⟨a' | b, σ'⟩
  · exact .again hround (h hround)
  · exact .done hround

theorem run_made_eq (o : ObjectId) (σ : Store) : (made o).run σ = (σ.settled o, ((materialize o).run σ).2) :=
  Prod.ext (run_made o σ) rfl

theorem run_prototype? (o : ObjectId) (σ : Store) :
    (prototype? o).run σ = ((σ.settled o).prototype, ((materialize o).run σ).2) := by
  unfold prototype?
  rw [run_bind, run_made_eq]
  rfl

theorem findWithin_succ (key : PropertyKey) (n : Nat) (o : ObjectId) :
    findWithin key (n + 1) o = findRound key o >>= Sum.elim (findWithin key n) pure := by
  funext σ
  show ((findWithin key (n + 1) o).run σ) = (findRound key o >>= Sum.elim (findWithin key n) pure).run σ
  rw [run_bind]
  unfold findWithin findRound
  rw [run_bind, run_get_bind, run_bind, run_get_bind]
  generalize ((made o).run σ).1 = x
  generalize ((made o).run σ).2 = σ₁
  cases x.ownProperty? σ₁.scopes key <;> cases x.prototype <;> rfl

theorem findRound_inl {key : PropertyKey} (h : (findRound key o).run σ = (.inl p, σ')) :
    Makes σ σ' ∧ (σ.settled o).prototype = some p := by
  unfold findRound at h
  rw [run_bind, run_get_bind, run_made_eq] at h
  split at h
  case h_1 => cases h
  case h_2 hprototype =>
    cases h
    exact ⟨(run_materialize o σ).1, hprototype⟩
  case h_3 => cases h

theorem answer_findWithin (key : PropertyKey) (n : Nat) (o : ObjectId) (σ : Store) :
    ((findWithin key (n + 1) o).run σ).1 =
      match σ.own o key, (σ.settled o).prototype with
      | some q, _ => some q
      | none, some p => ((findWithin key n p).run σ).1
      | none, none => none := by
  have hmade := (run_materialize o σ).1
  have hown : (σ.settled o).ownProperty? ((materialize o).run σ).2.scopes key = σ.own o key := by
    rw [hmade.scopes, own_eq]
  rw [findWithin, run_bind, run_get_bind, run_made_eq]
  rw [hown]
  cases σ.own o key with
  | some q => rfl
  | none =>
    cases (σ.settled o).prototype with
    | none => rfl
    | some p => exact (reads_findWithin key n p).answer hmade

theorem loop_findWithin (hl : Chain σ (some o) l) (key : PropertyKey) (hn : l.length ≤ n) :
    Loop (findRound key) o σ ((findWithin key n o).run σ) := by
  induction n generalizing o σ l with
  | zero => cases hl with
    | cons => cases hn
  | succ n ih =>
    cases hl with
    | cons rest =>
      rw [findWithin_succ]
      refine loop_bind fun hround => ?_
      obtain ⟨hmade, hprototype⟩ := findRound_inl hround
      rw [hprototype] at rest
      exact ih (rest.makes hmade) (Nat.le_of_succ_le_succ hn)

theorem reachesWithin_succ (o : ObjectId) (n : Nat) (start : Option ObjectId) :
    reachesWithin o (n + 1) start = reachRound o start >>= Sum.elim (reachesWithin o n) pure := by
  cases start with
  | none => rfl
  | some p =>
    by_cases hp : p = o
    · simp only [reachesWithin, reachRound, if_pos hp]
      rfl
    · simp only [reachesWithin, reachRound, if_neg hp]
      rfl

theorem loop_reachesWithin (hl : Chain σ start l) (o : ObjectId)
    (hn : l.length ≤ n) : Loop (reachRound o) start σ ((reachesWithin o n start).run σ) := by
  induction n generalizing start σ l with
  | zero =>
    cases hl with
    | nil => exact .done rfl
    | cons => cases hn
  | succ n ih =>
    cases hl with
    | nil => exact .done rfl
    | @cons p l rest =>
      rw [reachesWithin_succ]
      refine loop_bind fun hround => ?_
      by_cases hp : p = o
      · simp only [reachRound, if_pos hp] at hround
        cases hround
      · simp only [reachRound, if_neg hp, run_bind, run_prototype?] at hround
        cases hround
        exact ih (rest.makes (run_materialize p σ).1) (Nat.le_of_succ_le_succ hn)

theorem answer_reachesWithin (hl : Chain σ start l) (o : ObjectId)
    (hn : l.length ≤ n) : ((reachesWithin o n start).run σ).1 = decide (o ∈ l) := by
  induction n generalizing start σ l with
  | zero =>
    cases hl with
    | nil => rfl
    | cons => cases hn
  | succ n ih =>
    cases hl with
    | nil => rfl
    | @cons p l rest =>
      unfold reachesWithin
      by_cases hp : p = o
      · subst hp
        simp
        rfl
      · rw [if_neg hp, run_bind, run_prototype?]
        rw [ih (rest.makes (run_materialize p σ).1) (Nat.le_of_succ_le_succ hn)]
        simp [Ne.symm hp]

end Loops

/-! ### Functions that stand for others -/

/-- What a bound function or a proxy stands for is older. -/
def Descending (σ : Store) : Prop := ∀ {o p}, (σ.settled o).kind.target? = some p → p.index < o.index

section Targets

variable {σ σ' : Store} {o p : ObjectId}

theorem Descending.makes (h : Descending σ) (hmade : Makes σ σ') : Descending σ' := by
  intro o p hp
  rw [hmade.settled_eq] at hp
  exact h hp

theorem lt_size_of_target (h : (σ.settled o).kind.target? = some p) : o.index < σ.objects.size := by
  refine Nat.lt_of_not_le fun hge => ?_
  rw [settled_of_size_le hge] at h
  cases h

theorem isCallableWithin_succ (n : Nat) (o : ObjectId) :
    isCallableWithin (n + 1) o = callableRound o >>= Sum.elim (isCallableWithin n) pure := by
  funext σ
  show (isCallableWithin (n + 1) o).run σ = (callableRound o >>= Sum.elim (isCallableWithin n) pure).run σ
  rw [run_bind]
  unfold isCallableWithin callableRound
  rw [run_bind, run_bind]
  generalize ((made o).run σ).1 = x
  cases x.kind <;> rfl

theorem callableRound_inl (h : (callableRound o).run σ = (.inl p, σ')) :
    Makes σ σ' ∧ (σ.settled o).kind.target? = some p := by
  unfold callableRound at h
  rw [run_bind, run_made_eq] at h
  split at h
  case h_4 hkind =>
    cases h
    exact ⟨(run_materialize o σ).1, by rw [hkind]; rfl⟩
  all_goals cases h

theorem loop_isCallableWithin (h : Descending σ) {n : Nat} (hn : 0 < n)
    (ho : ∀ {p}, (σ.settled o).kind.target? = some p → o.index < n) :
    Loop callableRound o σ ((isCallableWithin n o).run σ) := by
  induction n generalizing o σ with
  | zero => cases hn
  | succ n ih =>
    rw [isCallableWithin_succ]
    refine loop_bind fun {p σ'} hround => ?_
    obtain ⟨hmade, htarget⟩ := callableRound_inl hround
    have hlt : p.index < n := Nat.lt_of_lt_of_le (h htarget) (Nat.le_of_lt_succ (ho htarget))
    exact ih (h.makes hmade) (Nat.zero_lt_of_lt hlt) fun _ => hlt

theorem loop_unbindWithin (h : Descending σ) {n : Nat} (hn : 0 < n)
    (ho : ∀ {p}, (σ.settled o).kind.target? = some p → o.index < n) :
    Loop unbindRound o σ (σ.unbindWithin n o, σ) := by
  induction n generalizing o with
  | zero => cases hn
  | succ n ih =>
    unfold unbindWithin
    split
    case h_1 f hkind =>
      have htarget : (σ.settled o).kind.target? = some f.target := by
        rw [settled, Object.settled_of_not_isLazy (by rw [hkind]; rfl), hkind]
        rfl
      have hlt : f.target.index < n := Nat.lt_of_lt_of_le (h htarget) (Nat.le_of_lt_succ (ho htarget))
      refine .again ?_ (ih (Nat.zero_lt_of_lt hlt) fun _ => hlt)
      unfold unbindRound
      rw [run_get_bind, hkind]
      rfl
    case h_2 hkind =>
      refine .done ?_
      unfold unbindRound
      rw [run_get_bind]
      split
      case h_1 f hbound => exact absurd hbound (hkind f)
      case h_2 => rfl

end Targets

end Store

namespace KeyCursor

open Store

/-! ### Loops over keys -/

/-- A round of the search for the next key: at one object. -/
def round (c : KeyCursor) : Op (KeyCursor ⊕ (Option PropertyKey × KeyCursor)) := do
  match c.current with
  | none => return .inr (none, c)
  | some o =>
    match ← scan c.screen o c.visited c.pending with
    | (some (key, pending), visited) => return .inr (some key, { c with pending, visited })
    | (none, visited) =>
      let current ← prototype? o
      let pending ← match current with
        | some p => ownKeys p
        | none => pure []
      return .inl { c with current, pending, visited }

theorem nextWithin_succ (n : Nat) (c : KeyCursor) : nextWithin (n + 1) c = round c >>= Sum.elim (nextWithin n) pure := by
  funext σ
  show (nextWithin (n + 1) c).run σ = (round c >>= Sum.elim (nextWithin n) pure).run σ
  rw [run_bind]
  unfold nextWithin round
  cases c.current with
  | none => rfl
  | some o =>
    rw [run_bind, run_bind]
    generalize (scan c.screen o c.visited c.pending).run σ = r
    obtain ⟨⟨_ | ⟨key, pending⟩, visited⟩, σ₁⟩ := r
    · rw [run_bind, run_bind]
      cases ((prototype? o).run σ₁).1 <;> rfl
    · rfl

theorem round_inl {σ σ' : Store} {c c' : KeyCursor} (h : (round c).run σ = (.inl c', σ')) :
    Makes σ σ' ∧ ∃ o, c.current = some o ∧ c'.current = (σ.settled o).prototype := by
  unfold round at h
  cases hcurrent : c.current with
  | none =>
    rw [hcurrent] at h
    cases h
  | some o =>
    rw [hcurrent] at h
    rw [run_bind] at h
    have hscan := (reads_scan c.screen o c.visited c.pending σ).1
    generalize (scan c.screen o c.visited c.pending).run σ = r at h hscan
    obtain ⟨⟨_ | ⟨key, pending⟩, visited⟩, σ₁⟩ := r
    · rw [run_bind, run_prototype?, hscan.settled_eq] at h
      have hmade := hscan.trans (run_materialize o σ₁).1
      cases hprototype : (σ.settled o).prototype with
      | none =>
        rw [hprototype] at h
        cases h
        exact ⟨hmade, o, rfl, hprototype.symm⟩
      | some p =>
        rw [hprototype] at h
        cases h
        exact ⟨hmade.trans (reads_ownKeys p _).1, o, rfl, hprototype.symm⟩
    · cases h

theorem loop_nextWithin {σ : Store} {c : KeyCursor} {l : List ObjectId} (hl : Chain σ c.current l) {n : Nat}
    (hn : l.length < n) : Loop round c σ ((nextWithin n c).run σ) := by
  induction n generalizing c σ l with
  | zero => cases hn
  | succ n ih =>
    rw [nextWithin_succ]
    refine loop_bind fun {c' σ'} hround => ?_
    obtain ⟨hmade, o, hcurrent, hnext⟩ := round_inl hround
    rw [hcurrent] at hl
    cases hl with
    | cons rest =>
      rw [← hnext] at rest
      exact ih (rest.makes hmade) (Nat.lt_of_succ_lt_succ hn)

theorem loop_next {σ : Store} (h : Finite σ) (c : KeyCursor) : Loop round c σ (c.next.run σ) := by
  obtain ⟨l, hl⟩ := h.chain c.current
  exact loop_nextWithin hl (Nat.lt_succ_of_le (h.length_le hl))

end KeyCursor

end ScriptMachine
