import ScriptMachine.Dispatch
import ScriptMachine.Proofs.NamePlaces

/-!
# Hoisted names of evaluated code

Evaluated code declares its hoisted names in the nearest record that is meant for them.  Each name is looked for on the
way there, and none is declared before all have been looked for.

Main result: `bindVars_atomic`.
-/

namespace ScriptMachine

namespace Store

/-! ### The way to the nearest record for hoisted names -/

/-- The record is some links out, and none before it holds hoisted names. -/
def InsideAt (σ : Store) (n : Nat) (s t : ScopeId) : Prop :=
  σ.outward n s = some t ∧ ∀ j < n, ∀ u, σ.outward j s = some u → (σ.scope u).holdsVars = false

/-- The record is at or inside the nearest one that holds hoisted names; if there is none, it is any record of the
chain. -/
def Inside (σ : Store) (s t : ScopeId) : Prop := ∃ n, σ.InsideAt n s t

/-- One of these records binds the name lexically. -/
def Clashes (σ : Store) (s : ScopeId) (name : Text) : Prop :=
  ∃ t, σ.Inside s t ∧ ((σ.scope t).lexical? name).isSome = true

/-- Where hoisted names are declared: in the nearest record that holds such names, or else in the current record. -/
inductive VarTarget (σ : Store) (s : ScopeId) : ScopeId → Prop where
  | nearest {t : ScopeId} (inside : σ.Inside s t) (holdsVars : (σ.scope t).holdsVars = true) : VarTarget σ s t
  | current (unmarked : ∀ n t, σ.outward n s = some t → (σ.scope t).holdsVars = false) : VarTarget σ s s

section Walk

variable {σ : Store} {name : Text} {n : Nat} {s t outer : ScopeId}

theorem lt_size_of_lexical (h : ((σ.scope t).lexical? name).isSome = true) : t.index < σ.scopes.size := by
  by_contra hge
  rw [scope_of_size_le (Nat.le_of_not_lt hge)] at h
  cases h

theorem lt_size_of_holdsVars (h : (σ.scope t).holdsVars = true) : t.index < σ.scopes.size := by
  by_contra hge
  rw [scope_of_size_le (Nat.le_of_not_lt hge)] at h
  cases h

theorem insideAt_succ (houter : (σ.scope s).outer = some outer) (hs : (σ.scope s).holdsVars = false) :
    σ.InsideAt (n + 1) s t ↔ σ.InsideAt n outer t := by
  have hlink : ∀ j, σ.outward (j + 1) s = σ.outward j outer := fun j => by rw [outward, houter]; rfl
  unfold InsideAt
  rw [hlink]
  refine and_congr_right fun _ => ⟨fun h j hj u hu => h (j + 1) (by omega) u (by rw [hlink, hu]), fun h j hj u hu => ?_⟩
  cases j with
  | zero =>
    cases hu
    exact hs
  | succ j =>
    rw [hlink] at hu
    exact h j (by omega) u hu

theorem insideAt_zero : σ.InsideAt 0 s t ↔ t = s := by
  refine ⟨fun h => (Option.some.inj h.1).symm, fun h => ⟨congrArg some h.symm, fun j hj => absurd hj (Nat.not_lt_zero j)⟩⟩

/-- A record that holds hoisted names, and one without an outer record, are the last on the way. -/
theorem eq_zero_of_insideAt (hlast : (σ.scope s).holdsVars = true ∨ (σ.scope s).outer = none) (h : σ.InsideAt n s t) :
    n = 0 := by
  cases n with
  | zero => rfl
  | succ n =>
    rcases hlast with hholds | houter
    · have hfree := h.2 0 (Nat.succ_pos n) s rfl
      rw [hholds] at hfree
      cases hfree
    · have hlink := h.1
      rw [outward, houter] at hlink
      cases hlink

/-- What a walk of a number of steps finds: a lexical binding of the name, or the nearest record for hoisted names, or
neither. -/
inductive Walked (σ : Store) (name : Text) (n : Nat) (s : ScopeId) : Outcome (Option ScopeId) → Prop where
  | clash {k : Nat} {t : ScopeId} (near : k < n) (inside : σ.InsideAt k s t)
      (lexical : ((σ.scope t).lexical? name).isSome = true) : Walked σ name n s (.error (VM.redeclared name))
  | found {k : Nat} {t : ScopeId} (free : ∀ j < n, ∀ u, σ.InsideAt j s u → (σ.scope u).lexical? name = none) (near : k < n)
      (inside : σ.InsideAt k s t) (holdsVars : (σ.scope t).holdsVars = true) : Walked σ name n s (.ok (some t))
  | passed (free : ∀ j < n, ∀ u, σ.InsideAt j s u → (σ.scope u).lexical? name = none)
      (unmarked : ∀ j < n, ∀ u, σ.InsideAt j s u → (σ.scope u).holdsVars = false) : Walked σ name n s (.ok none)

theorem Walked.step {r : Outcome (Option ScopeId)} (houter : (σ.scope s).outer = some outer)
    (hs : (σ.scope s).holdsVars = false) (hfree : (σ.scope s).lexical? name = none) (h : Walked σ name n outer r) :
    Walked σ name (n + 1) s r := by
  have hhere : ∀ {P : ScopeId → Prop}, P s → (∀ j < n, ∀ u, σ.InsideAt j outer u → P u) →
      ∀ j < n + 1, ∀ u, σ.InsideAt j s u → P u := by
    intro P hP hrest j hj u hu
    cases j with
    | zero =>
      rw [insideAt_zero.mp hu]
      exact hP
    | succ j => exact hrest j (by omega) u ((insideAt_succ houter hs).mp hu)
  cases h with
  | clash near inside lexical => exact .clash (Nat.succ_lt_succ near) ((insideAt_succ houter hs).mpr inside) lexical
  | found free near inside holdsVars =>
    exact .found (hhere hfree free) (Nat.succ_lt_succ near) ((insideAt_succ houter hs).mpr inside) holdsVars
  | passed free unmarked => exact .passed (hhere hfree free) (hhere hs unmarked)

theorem walked_varScopeWithin (σ : Store) (name : Text) (n : Nat) (s : ScopeId) :
    Walked σ name n s (σ.varScopeWithin name n s) := by
  induction n generalizing s with
  | zero => exact .passed (fun j hj => absurd hj (Nat.not_lt_zero j)) fun j hj => absurd hj (Nat.not_lt_zero j)
  | succ n ih =>
    have hlexical : ((σ.scope s).find? name).any (·.kind.isLexical) = ((σ.scope s).lexical? name).isSome := by
      rw [Scope.lexical?]
      cases (σ.scope s).find? name with
      | none => rfl
      | some info => cases hkind : info.kind.isLexical <;> simp [hkind]
    unfold varScopeWithin
    dsimp only
    rw [hlexical]
    split
    case isTrue hclash => exact .clash (Nat.succ_pos n) (insideAt_zero.mpr rfl) hclash
    case isFalse hno =>
      have hfree : (σ.scope s).lexical? name = none := Option.not_isSome_iff_eq_none.mp hno
      -- where the way ends here, it consists of this record
      have honly : ∀ {P : ScopeId → Prop}, P s → ((σ.scope s).holdsVars = true ∨ (σ.scope s).outer = none) →
          ∀ j < n + 1, ∀ u, σ.InsideAt j s u → P u := by
        intro P hP hlast j _ u hu
        obtain rfl := eq_zero_of_insideAt hlast hu
        rw [insideAt_zero.mp hu]
        exact hP
      split
      case isTrue hholds => exact .found (honly hfree (.inl hholds)) (Nat.succ_pos n) (insideAt_zero.mpr rfl) hholds
      case isFalse hnot =>
        have hs : (σ.scope s).holdsVars = false := by simpa using hnot
        cases houter : (σ.scope s).outer with
        | some outer => exact (ih outer).step houter hs hfree
        | none => exact .passed (honly hfree (.inr houter)) (honly hs (.inr houter))

/-- A record on the way that is as wanted is met before as many steps as there are records, if all such records exist. -/
theorem exists_insideAt_of {P : ScopeId → Prop} (hknown : ∀ {t}, P t → t.index < σ.scopes.size) (h : σ.Inside s t)
    (hp : P t) : ∃ k < σ.scopes.size, ∃ u, σ.InsideAt k s u ∧ P u := by
  obtain ⟨n, hreach, hbefore⟩ := h
  obtain ⟨k, hle, hlt, u, hu, hpu⟩ := exists_near_of hknown hreach hp
  exact ⟨k, hlt, u, ⟨hu, fun j hj => hbefore j (Nat.lt_of_lt_of_le hj hle)⟩, hpu⟩

theorem unmarked_of_inside (h : ∀ t, σ.Inside s t → (σ.scope t).holdsVars = false) (n : Nat) :
    ∀ t, σ.outward n s = some t → (σ.scope t).holdsVars = false := by
  induction n using Nat.strong_induction_on with
  | _ n ih => exact fun t ht => h t ⟨n, ht, fun j hj u hu => ih j hj u hu⟩

theorem VarTarget.lt_size (h : VarTarget σ s t) (hs : s.index < σ.scopes.size) : t.index < σ.scopes.size := by
  cases h with
  | nearest _ holdsVars => exact lt_size_of_holdsVars holdsVars
  | current => exact hs

/-- The look for one name.  As many steps as there are records lead to the end of the way. -/
theorem walked_all (σ : Store) (name : Text) (s : ScopeId) :
    (σ.Clashes s name ∧ σ.varScopeWithin name σ.scopes.size s = .error (VM.redeclared name)) ∨
    ¬ σ.Clashes s name ∧ ∃ found, σ.varScopeWithin name σ.scopes.size s = .ok found ∧ VarTarget σ s (found.getD s) := by
  have hwalked := walked_varScopeWithin σ name σ.scopes.size s
  have hfree : (∀ j < σ.scopes.size, ∀ u, σ.InsideAt j s u → (σ.scope u).lexical? name = none) → ¬ σ.Clashes s name := by
    rintro free ⟨t, hinside, hlexical⟩
    obtain ⟨k, hk, u, hu, hbinds⟩ :=
      exists_insideAt_of lt_size_of_lexical hinside hlexical
    rw [free k hk u hu] at hbinds
    cases hbinds
  generalize σ.varScopeWithin name σ.scopes.size s = r at hwalked
  cases hwalked with
  | clash _ inside lexical => exact .inl ⟨⟨_, ⟨_, inside⟩, lexical⟩, rfl⟩
  | found free _ inside holdsVars => exact .inr ⟨hfree free, _, rfl, .nearest ⟨_, inside⟩ holdsVars⟩
  | passed free unmarked =>
    refine .inr ⟨hfree free, none, rfl, .current fun n => unmarked_of_inside (fun t ht => ?_) n⟩
    by_contra hholds
    obtain ⟨k, hk, u, hu, hmarked⟩ :=
      exists_insideAt_of lt_size_of_holdsVars ht (by simpa using hholds)
    rw [unmarked k hk u hu] at hmarked
    cases hmarked

theorem varScope?_of_clash {names : List Text} (h : ∃ name ∈ names, σ.Clashes s name) :
    ∃ before name after, names = before ++ name :: after ∧ (∀ n ∈ before, ¬ σ.Clashes s n) ∧ σ.Clashes s name ∧
      σ.varScope? s names = .error (VM.redeclared name) := by
  induction names with
  | nil => simp at h
  | cons first rest ih =>
    rcases walked_all σ first s with ⟨hclash, herror⟩ | ⟨hfree, found, hok, -⟩
    · exact ⟨[], first, rest, rfl, by simp, hclash, by rw [varScope?, herror]; rfl⟩
    · obtain ⟨name, hmem, hclash⟩ := h
      rcases List.mem_cons.mp hmem with rfl | hmem
      · exact absurd hclash hfree
      obtain ⟨before, name, after, rfl, hbefore, hclash, herror⟩ := ih ⟨name, hmem, hclash⟩
      refine ⟨first :: before, name, after, rfl, ?_, hclash, by rw [varScope?, hok, herror]; rfl⟩
      simpa using ⟨hfree, hbefore⟩

theorem exists_varTarget (σ : Store) (s : ScopeId) : ∃ t, VarTarget σ s t := by
  by_cases h : ∃ t, σ.Inside s t ∧ (σ.scope t).holdsVars = true
  · obtain ⟨t, hinside, hholds⟩ := h
    exact ⟨t, .nearest hinside hholds⟩
  · refine ⟨s, .current fun n => unmarked_of_inside (fun t ht => ?_) n⟩
    by_contra hholds
    exact h ⟨t, ht, by simpa using hholds⟩

theorem varScope?_of_free {names : List Text} (h : ∀ name ∈ names, ¬ σ.Clashes s name) :
    ∃ found, σ.varScope? s names = .ok found ∧ (names = [] ∧ found = none ∨ VarTarget σ s (found.getD s)) := by
  induction names with
  | nil => exact ⟨none, rfl, .inl ⟨rfl, rfl⟩⟩
  | cons first rest ih =>
    obtain ⟨hfree, hrest⟩ := List.forall_mem_cons.mp h
    obtain ⟨later, hlater, htarget⟩ := ih hrest
    rcases walked_all σ first s with ⟨hclash, -⟩ | ⟨-, found, hok, hfirst⟩
    · exact absurd hclash hfree
    · refine ⟨found.or later, by rw [varScope?, hok, hlater]; rfl, .inr ?_⟩
      cases found with
      | some t => exact hfirst
      | none =>
        rcases htarget with ⟨-, rfl⟩ | htarget
        · exact hfirst
        · exact htarget

end Walk

end Store

/-! ### Declaring names in a record -/

namespace Scope

def hoist (x : Scope) (names : List Text) (deletable : Bool) : Scope :=
  names.foldl (fun x name => x.createVar name deletable) x

/-- Names have been declared in a record.  A name that was bound keeps its slot and its kind; the others are hoisted, each
with a slot of its own among the new ones, which hold undefined. -/
structure Hoists (names : List Text) (deletable : Bool) (x x' : Scope) : Prop where
  /-- Nothing but names and slots is added. -/
  frame : x' = { x with slots := x'.slots, names := x'.names }
  slots : ∃ k, x'.slots = x.slots ++ Array.replicate k .undefined
  kept : ∀ name info, x.find? name = some info → x'.find? name = some info
  added : ∀ name ∈ names, x.find? name = none →
    ∃ i, x'.find? name = some ⟨i, .hoisted deletable⟩ ∧ x.slots.size ≤ i ∧ i < x'.slots.size
  apart : ∀ name name' i kind kind', x.find? name = none → x.find? name' = none → x'.find? name = some ⟨i, kind⟩ →
    x'.find? name' = some ⟨i, kind'⟩ → name = name'
  others : ∀ name, name ∉ names → x'.find? name = x.find? name

variable {x x' : Scope} {names : List Text} {name : Text} {deletable : Bool}

theorem Hoists.nil (deletable : Bool) (x : Scope) : Hoists [] deletable x x where
  frame := rfl
  slots := ⟨0, by simp⟩
  kept _ _ h := h
  added _ h := absurd h List.not_mem_nil
  apart _ _ _ _ _ hfree _ hbound _ := by
    rw [hfree] at hbound
    cases hbound
  others _ _ := rfl

theorem Hoists.cons_bound (hname : (x.find? name).isSome = true) (h : Hoists names deletable x x') :
    Hoists (name :: names) deletable x x' where
  frame := h.frame
  slots := h.slots
  kept := h.kept
  added n hn hfree := by
    rcases List.mem_cons.mp hn with rfl | hn
    · rw [hfree] at hname
      cases hname
    · exact h.added n hn hfree
  apart := h.apart
  others n hn := h.others n fun hmem => hn (List.mem_cons_of_mem _ hmem)

theorem Hoists.cons_free (hname : x.find? name = none) (h : Hoists names deletable (x.createVar name deletable) x') :
    Hoists (name :: names) deletable x x' := by
  have hslots : (x.createVar name deletable).slots = x.slots.push .undefined := by
    rw [createVar, create, hname]
    rfl
  have hfind : ∀ n, (x.createVar name deletable).find? n =
      if n = name then some ⟨x.slots.size, .hoisted deletable⟩ else x.find? n :=
    find?_create hname (.hoisted deletable) .undefined
  have hfirst : x'.find? name = some ⟨x.slots.size, .hoisted deletable⟩ := h.kept _ _ (by rw [hfind, if_pos rfl])
  have hstill : ∀ n, n ≠ name → (x.createVar name deletable).find? n = x.find? n := fun n hn => by rw [hfind, if_neg hn]
  obtain ⟨k, hk⟩ := h.slots
  rw [hslots] at hk
  have hsize : x'.slots.size = x.slots.size + 1 + k := by simp [hk]
  -- the other new names come after it
  have hlater : ∀ n i kind, n ≠ name → x.find? n = none → x'.find? n = some ⟨i, kind⟩ → x.slots.size < i := by
    intro n i kind hn hfree hbound
    have hfree' := (hstill n hn).trans hfree
    by_cases hmem : n ∈ names
    · obtain ⟨i', hbound', hle, -⟩ := h.added n hmem hfree'
      rw [hbound] at hbound'
      cases hbound'
      rw [hslots, Array.size_push] at hle
      exact hle
    · rw [h.others n hmem, hfree'] at hbound
      cases hbound
  exact {
    frame := by
      rw [h.frame, createVar, create, hname]
      rfl
    slots := ⟨k + 1, by
      rw [hk, Array.push_eq_append, Array.append_assoc, Nat.add_comm, ← Array.replicate_append_replicate]
      rfl⟩
    kept := fun n info hbound => by
      have hn : n ≠ name := fun heq => by
        rw [heq, hname] at hbound
        cases hbound
      exact h.kept n info ((hstill n hn).trans hbound)
    added := fun n hmem hfree => by
      by_cases hn : n = name
      · exact ⟨x.slots.size, hn ▸ hfirst, Nat.le_refl _, by omega⟩
      · obtain ⟨i, hbound, hle, hlt⟩ :=
          h.added n ((List.mem_cons.mp hmem).resolve_left hn) ((hstill n hn).trans hfree)
        exact ⟨i, hbound, Nat.le_of_lt (hlater n i _ hn hfree hbound), hlt⟩
    apart := fun n n' i kind kind' hfree hfree' hbound hbound' => by
      by_cases hn : n = name <;> by_cases hn' : n' = name
      · rw [hn, hn']
      · rw [hn, hfirst] at hbound
        cases hbound
        exact absurd (hlater n' _ kind' hn' hfree' hbound') (Nat.lt_irrefl _)
      · rw [hn', hfirst] at hbound'
        cases hbound'
        exact absurd (hlater n _ kind hn hfree hbound) (Nat.lt_irrefl _)
      · exact h.apart n n' i kind kind' ((hstill n hn).trans hfree) ((hstill n' hn').trans hfree') hbound hbound'
    others := fun n hmem => by
      obtain ⟨hn, hrest⟩ := not_or.mp (mt List.mem_cons.mpr hmem)
      exact (h.others n hrest).trans (hstill n hn) }

theorem hoists_hoist (x : Scope) (names : List Text) (deletable : Bool) :
    Hoists names deletable x (x.hoist names deletable) := by
  induction names generalizing x with
  | nil => exact .nil deletable x
  | cons name names ih =>
    rw [hoist, List.foldl_cons]
    cases hname : x.find? name with
    | none => exact .cons_free hname (ih _)
    | some info =>
      have hbound : (x.find? name).isSome = true := by rw [hname]; rfl
      rw [createVar, create_of_bound hbound]
      exact .cons_bound hbound (ih x)

theorem Hoists.slot (h : Hoists names deletable x x') (i : Nat) :
    (x'.slots[i]?).getD .undefined = (x.slots[i]?).getD .undefined := by
  obtain ⟨k, hk⟩ := h.slots
  rw [hk, Array.getElem?_append]
  split
  case isTrue => rfl
  case isFalse hge =>
    rw [Array.getElem?_eq_none (Nat.le_of_not_lt hge), Array.getElem?_replicate]
    split <;> rfl

theorem Hoists.read?_kept (h : Hoists names deletable x x') {info : SlotInfo} (hname : x.find? name = some info) :
    x'.read? name = x.read? name := by
  rw [read?, read?, hname, h.kept name info hname]
  dsimp only
  rw [h.slot]

theorem Hoists.read?_added (h : Hoists names deletable x x') (hmem : name ∈ names) (hname : x.find? name = none) :
    x'.read? name = .ok (some .undefined) := by
  obtain ⟨i, hbound, hle, -⟩ := h.added name hmem hname
  rw [read?, hbound]
  dsimp only
  rw [h.slot, Array.getElem?_eq_none hle]
  rfl

end Scope

/-! ### The instruction -/

namespace VM

theorem modifyScope_id (σ : Store) (s : ScopeId) : (σ.modifyScope s fun x => x) = σ := by
  unfold Store.modifyScope
  congr 1
  apply Array.ext <;> simp [Array.getElem_modify]

theorem scope_modifyScope_ne {σ : Store} {s t : ScopeId} (h : t ≠ s) (f : Scope → Scope) :
    (σ.modifyScope s f).scope t = σ.scope t := by
  have hindex : s.index ≠ t.index := fun heq => h (congrArg ScopeId.mk heq).symm
  simp [Store.scope, Store.modifyScope, Array.getElem?_modify, hindex]

variable {m : Machine}

theorem bindVars_of_clash {b : VarBindings} {name : Text}
    (h : m.store.varScope? m.regs.scope b.names = .error (redeclared name)) :
    bindVars b m = .error (.fault (redeclared name)) m := by
  rw [bindVars, regs_bind, get_bind, h]
  rfl

theorem bindVars_of_free {b : VarBindings} (h : ∀ name ∈ b.names, ¬ m.store.Clashes m.regs.scope name) :
    ∃ t, m.store.VarTarget m.regs.scope t ∧
      bindVars b m = .ok () { m with
        store := m.store.modifyScope t fun x => x.hoist b.names b.deletable
        regs := { m.regs with pc := m.regs.pc + 1 } } := by
  obtain ⟨found, hfound, htarget⟩ := Store.varScope?_of_free h
  have hrun : bindVars b m = .ok () { m with
      store := m.store.modifyScope (found.getD m.regs.scope) fun x => x.hoist b.names b.deletable
      regs := { m.regs with pc := m.regs.pc + 1 } } := by
    rw [bindVars, regs_bind, get_bind, hfound]
    rfl
  rcases htarget with ⟨hnil, -⟩ | htarget
  · -- without names no record is changed, whichever is the target
    obtain ⟨t, ht⟩ := Store.exists_varTarget m.store m.regs.scope
    refine ⟨t, ht, ?_⟩
    rw [hnil] at hrun ⊢
    rw [hrun]
    simp only [Scope.hoist, List.foldl_nil, modifyScope_id]
  · exact ⟨_, htarget, hrun⟩

/-- **Hoisted names are declared together or not at all.**  If one of them is bound lexically at or inside the nearest
record for such names, the first that is so is reported, and nothing is changed.  Otherwise all are declared in that
record, and nothing else is changed. -/
theorem bindVars_atomic (enter : Enter) (fuel : Nat) (hscope : m.regs.scope.index < m.store.scopes.size)
    (b : VarBindings) :
    ((∃ name ∈ b.names, m.store.Clashes m.regs.scope name) →
      ∃ before name after, b.names = before ++ name :: after ∧ (∀ n ∈ before, ¬ m.store.Clashes m.regs.scope n) ∧
        m.store.Clashes m.regs.scope name ∧
        execute enter fuel (.bindVars b) m = .error (.fault (.grammar (.redeclared name.display))) m) ∧
    ((∀ name ∈ b.names, ¬ m.store.Clashes m.regs.scope name) →
      ∃ t m', m.store.VarTarget m.regs.scope t ∧ execute enter fuel (.bindVars b) m = .ok () m' ∧
        Scope.Hoists b.names b.deletable (m.store.scope t) (m'.store.scope t) ∧
        (∀ name info, (m.store.scope t).find? name = some info →
          (m'.store.scope t).read? name = (m.store.scope t).read? name) ∧
        (∀ name ∈ b.names, (m.store.scope t).find? name = none →
          (m'.store.scope t).read? name = .ok (some .undefined)) ∧
        (∀ u, u ≠ t → m'.store.scope u = m.store.scope u) ∧
        m' = { m with
          store := { m.store with scopes := m'.store.scopes }
          regs := { m.regs with pc := m.regs.pc + 1 } } ∧
        m'.store.scopes.size = m.store.scopes.size) := by
  constructor
  · intro hclash
    obtain ⟨before, name, after, hnames, hbefore, hname, herror⟩ := Store.varScope?_of_clash hclash
    exact ⟨before, name, after, hnames, hbefore, hname, bindVars_of_clash herror⟩
  · intro hfree
    obtain ⟨t, htarget, hrun⟩ := bindVars_of_free hfree
    have hhoists : Scope.Hoists b.names b.deletable (m.store.scope t)
        ((m.store.modifyScope t fun x => x.hoist b.names b.deletable).scope t) := by
      rw [Store.scope_modifyScope (htarget.lt_size hscope)]
      exact Scope.hoists_hoist _ _ _
    refine ⟨t, _, htarget, hrun, hhoists, fun name info hbound => hhoists.read?_kept hbound,
      fun name hmem hname => hhoists.read?_added hmem hname, fun u hu => scope_modifyScope_ne hu _, rfl, ?_⟩
    exact Array.size_modify

/-- In a `with` statement in a block with a lexical `y`, in a function with a hoisted `x`, in a block with a lexical `z`. -/
def insideFunction : Machine :=
  { Machine.new .default with
    store := { Store.empty with
      objects := #[.ofKind none .ordinary]
      scopes := #[.forObject ⟨0⟩ (some ⟨1⟩), .withLayout (some ⟨2⟩) 1 (some (.ofList [(.ofUnits [121], .lexical)])),
        { Scope.withLayout (some ⟨3⟩) 1 (some (.ofList [(.ofUnits [120], .hoisted false)])) with holdsVars := true },
        .withLayout none 1 (some (.ofList [(.ofUnits [122], .lexical)]))] }
    regs := .idle ⟨0⟩ }

theorem inside_insideFunction {t : ScopeId} (h : insideFunction.store.Inside ⟨0⟩ t) : t = ⟨0⟩ ∨ t = ⟨1⟩ ∨ t = ⟨2⟩ := by
  obtain ⟨n, hreach, hbefore⟩ := h
  match n with
  | 0 => exact .inl (Option.some.inj hreach).symm
  | 1 => exact .inr (.inl (Option.some.inj hreach).symm)
  | 2 => exact .inr (.inr (Option.some.inj hreach).symm)
  | n + 3 =>
    have hmarked := hbefore 2 (by omega) ⟨2⟩ rfl
    cases hmarked

theorem clashes_insideFunction : insideFunction.store.Clashes ⟨0⟩ (.ofUnits [121]) := by
  refine ⟨⟨1⟩, ⟨1, rfl, fun j hj u hu => ?_⟩, by decide⟩
  obtain rfl : j = 0 := by omega
  cases hu
  rfl

/-- The `y` of the block is in the way, and the `z` outside the function is not. -/
theorem bindVars_atomic_function :
    insideFunction.regs.scope.index < insideFunction.store.scopes.size ∧
    bindVars ⟨[.ofUnits [121], .ofUnits [122]], true⟩ insideFunction =
      .error (.fault (.grammar (.redeclared "y"))) insideFunction ∧
    ∃ m', bindVars ⟨[.ofUnits [120], .ofUnits [122]], true⟩ insideFunction = .ok () m' ∧
      (m'.store.scope ⟨2⟩).find? (.ofUnits [120]) = some ⟨0, .hoisted false⟩ ∧
      (m'.store.scope ⟨2⟩).read? (.ofUnits [122]) = .ok (some .undefined) := by
  have hscope : insideFunction.regs.scope.index < insideFunction.store.scopes.size := by decide
  have hatomic := fun b => bindVars_atomic (fun _ => outOfFuel) 0 hscope b
  refine ⟨hscope, ?_, ?_⟩
  · obtain ⟨before, name, after, hnames, hbefore, -, herror⟩ :=
      (hatomic ⟨[.ofUnits [121], .ofUnits [122]], true⟩).1 ⟨_, by simp, clashes_insideFunction⟩
    cases before with
    | nil =>
      cases hnames
      exact herror
    | cons first before =>
      obtain rfl := (List.cons.inj hnames).1
      exact absurd clashes_insideFunction (hbefore _ List.mem_cons_self)
  · have hfree : ∀ name ∈ [Text.ofUnits [120], .ofUnits [122]], ¬ insideFunction.store.Clashes ⟨0⟩ name := by
      rintro name hname ⟨t, hinside, hlexical⟩
      rcases inside_insideFunction hinside with rfl | rfl | rfl <;> revert name <;> decide
    obtain ⟨t, m', htarget, hrun, hhoists, -, hadded, -⟩ := (hatomic ⟨[.ofUnits [120], .ofUnits [122]], true⟩).2 hfree
    obtain rfl : t = ⟨2⟩ := by
      cases htarget with
      | nearest inside holdsVars => rcases inside_insideFunction inside with rfl | rfl | rfl <;> first | rfl | cases holdsVars
      | current unmarked => cases unmarked 2 ⟨2⟩ rfl
    exact ⟨m', hrun, hhoists.kept _ _ (by decide), hadded _ (by simp) (by decide)⟩

end VM

end ScriptMachine
