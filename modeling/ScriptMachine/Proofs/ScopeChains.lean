import ScriptMachine.Proofs.Chains
import ScriptMachine.Proofs.GlobalNames

/-!
# Chains of records

A record is made with an outer one that is there already, and never gets another.  Only a copy of the global record
would have no outer one either.  As long as code makes none, outer records lead from every record to the global one.

* `Watch.noCopies` — watches for turns that copy the global record.
* `Machine.Chained` — every record in sight leads to the global one, and walks along records end.

Main result: `scope_chains_end`.
-/

namespace ScriptMachine

namespace Store

variable {σ σ' : Store} {s : ScopeId} {l : List ScopeId} {n : Nat} {β : Type}

/-! ### Walks along records -/

/-- The records from one on outward, up to one that has no outer record. -/
inductive Outers (σ : Store) : ScopeId → List ScopeId → Prop where
  | last {s : ScopeId} (h : (σ.scope s).outer = none) : Outers σ s [s]
  | next {s t : ScopeId} {l : List ScopeId} (h : (σ.scope s).outer = some t) (rest : Outers σ t l) : Outers σ s (s :: l)

theorem Outers.makes (hl : σ.Outers s l) (h : Makes σ σ') : σ'.Outers s l := by
  induction hl with
  | last hs => exact .last (by rw [h.scope, hs])
  | next hs _ ih => exact .next (by rw [h.scope, hs]) ih

/-- What is next in a walk along records: the result of a test if there is one, else the outer record. -/
def outerNext (last : β) : Option β → Option ScopeId → ScopeId ⊕ β
  | some b, _ => .inr b
  | none, some outer => .inl outer
  | none, none => .inr last

def outerRound (test : ScopeId → Op (Option β)) (last : β) (s : ScopeId) : Op (ScopeId ⊕ β) := do
  return outerNext last (← test s) ((← get).scope s).outer

theorem outerNext_inl {last : β} {b : Option β} {outer : Option ScopeId} {t : ScopeId}
    (h : outerNext last b outer = .inl t) : outer = some t := by
  unfold outerNext at h
  split at h <;> cases h
  rfl

/-- A walk with a bound that is made of such rounds, and may take as many as there are records, gives what the rounds
lead to without a bound. -/
theorem loop_outers {test : ScopeId → Op (Option β)} {last : β} (walk : Nat → ScopeId → Op β)
    (htest : ∀ s, Reads (test s)) (hwalk : ∀ n s, walk (n + 1) s = outerRound test last s >>= Sum.elim (walk n) pure)
    (hl : σ.Outers s l) (hn : l.length ≤ n) : Loop (outerRound test last) s σ ((walk n s).run σ) := by
  induction n generalizing σ s l with
  | zero => cases hl <;> cases hn
  | succ n ih =>
    rw [hwalk]
    refine loop_bind fun hround => ?_
    obtain ⟨hnext, rfl⟩ := Prod.mk.inj hround
    have hmade : Makes σ ((test s).run σ).2 := (htest s σ).1
    have houter : (σ.scope s).outer = some _ := (congrArg Scope.outer (hmade.scope s)).symm.trans (outerNext_inl hnext)
    cases hl with
    | last h => cases h.symm.trans houter
    | next h rest =>
      cases h.symm.trans houter
      exact ih (rest.makes hmade) (Nat.le_of_succ_le_succ hn)

def providesTest (name : Text) (s : ScopeId) : Op (Option (Option ScopeId)) := do
  return if ← recordProvides s name then some (some s) else none

/-- A test that only looks at the record. -/
def recordTest (test : ScopeId → Scope → Option β) (s : ScopeId) : Op (Option β) := do
  return test s ((← get).scope s)

def varsTest (name : Text) (s : ScopeId) (x : Scope) : Option (Outcome (Option ScopeId)) :=
  if (x.find? name).any (·.kind.isLexical) then some (.error (VM.redeclared name))
  else if x.holdsVars then some (.ok (some s)) else none

def functionTest (global s : ScopeId) (x : Scope) : Option Bool :=
  if s = global then some false else if x.holdsVars then some true else none

def backsTest (o : ObjectId) (_ : ScopeId) (x : Scope) : Option Bool := if x.object = some o then some true else none

/-- The walks along records come to an end by themselves, with the answers that the walks with a bound give. -/
structure OuterWalksEnd (σ : Store) (global s : ScopeId) : Prop where
  /-- The search for the record that provides a name: to read it, to resolve it and to delete it. -/
  provider : ∀ name, Loop (outerRound (providesTest name) none) s σ ((provider? s name).run σ)
  /-- The search for the record in which variables are declared. -/
  vars : ∀ name, Loop (outerRound (recordTest (varsTest name)) (.ok none)) s σ (σ.varScopeWithin name σ.scopes.size s, σ)
  inFunction : Loop (outerRound (recordTest (functionTest global)) false) s σ
    (σ.inFunctionWithin global σ.scopes.size s, σ)
  backs : ∀ o, Loop (outerRound (recordTest (backsTest o)) false) s σ (σ.backsScopeWithin o σ.scopes.size s, σ)

theorem loop_recordTest {test : ScopeId → Scope → Option β} {last : β} (walk : Store → Nat → ScopeId → β)
    (hwalk : ∀ σ n s, walk σ (n + 1) s =
      (test s (σ.scope s)).getD (((σ.scope s).outer.map (walk σ n)).getD last))
    (hl : σ.Outers s l) (hn : l.length ≤ n) : Loop (outerRound (recordTest test) last) s σ (walk σ n s, σ) := by
  refine loop_outers (fun n s => do return walk (← get) n s) (fun s => ?_) (fun n s => ?_) hl hn
  · exact .ofStore (fun σ => .pure _) fun σ σ' h => by rw [h.scope]
  · funext σ
    show (walk σ (n + 1) s, σ) = (Sum.elim _ pure (outerNext last (test s (σ.scope s)) (σ.scope s).outer) : Op β).run σ
    rw [hwalk]
    cases test s (σ.scope s) <;> cases (σ.scope s).outer <;> rfl

theorem Outers.walksEnd (hl : σ.Outers s l) (hlength : l.length ≤ σ.scopes.size) (global : ScopeId) :
    σ.OuterWalksEnd global s where
  provider name := by
    refine loop_outers _ (fun s => ?_) (fun n s => ?_) hl hlength
    · exact (reads_recordProvides s name).bind fun found => .pure _
    · funext σ
      show (if ((recordProvides s name).run σ).1 then _ else _ : Op _).run ((recordProvides s name).run σ).2 =
        (Sum.elim _ pure (outerNext none (if ((recordProvides s name).run σ).1 then some (some s) else none)
          (((recordProvides s name).run σ).2.scope s).outer) : Op _).run ((recordProvides s name).run σ).2
      generalize (recordProvides s name).run σ = r
      obtain ⟨_ | _, σ₁⟩ := r
      · simp only [Bool.false_eq_true, if_false, StateT.run_bind, StateT.run_get, pure_bind]
        cases (σ₁.scope s).outer <;> rfl
      · rfl
  vars name := by
    refine loop_recordTest (fun σ => σ.varScopeWithin name) (fun σ n s => ?_) hl hlength
    dsimp only [varsTest]
    rw [varScopeWithin]
    split
    · rfl
    · split
      · rfl
      · cases (σ.scope s).outer <;> rfl
  inFunction := by
    refine loop_recordTest (fun σ => σ.inFunctionWithin global) (fun σ n s => ?_) hl hlength
    dsimp only [functionTest]
    rw [inFunctionWithin]
    cases (σ.scope s).holdsVars <;> cases (σ.scope s).outer <;> by_cases hs : s = global <;> simp [hs]
  backs o := by
    refine loop_recordTest (fun σ => σ.backsScopeWithin o) (fun σ n s => ?_) hl hlength
    dsimp only [backsTest]
    rw [backsScopeWithin]
    cases (σ.scope s).outer <;> by_cases hs : (σ.scope s).object = some o <;> simp [hs]

end Store

namespace Machine

variable {m : Machine} {s : ScopeId}

/-- Every record in sight leads to the global one, no record twice, and walks along records end. -/
def Chained (m : Machine) : Prop := ∀ s, m.Sees s →
  (∃ l, m.store.Outers s l ∧ l.getLast? = some m.realm.globalScope ∧ l.Nodup) ∧
    m.store.OuterWalksEnd m.realm.globalScope s

theorem Rooted.outers (hm : m.Rooted) (hs : s.index < m.store.scopes.size) :
    ∃ l, m.store.Outers s l ∧ l.getLast? = some m.realm.globalScope ∧ l.Nodup ∧ (∀ t ∈ l, t.index ≤ s.index) ∧
      l.length ≤ s.index + 1 := by
  induction hi : s.index using Nat.strongRecOn generalizing s with
  | _ i ih =>
    subst hi
    by_cases hglobal : s = m.realm.globalScope
    · subst hglobal
      exact ⟨_, .last hm.1, rfl, by simp, by simp, by simp⟩
    · obtain ⟨t, houter, ht⟩ := hm.2.1 s hs hglobal
      obtain ⟨l, hl, hlast, hnodup, hle, hlength⟩ := ih t.index ht (Nat.lt_trans ht hs) rfl
      refine ⟨s :: l, .next houter hl, ?_, List.nodup_cons.mpr ⟨fun hmem => ?_, hnodup⟩, fun u hu => ?_, ?_⟩
      · rw [List.getLast?_cons, hlast]
        rfl
      · exact Nat.not_le_of_lt ht (hle s hmem)
      · rcases List.mem_cons.mp hu with rfl | hmem
        · exact Nat.le_refl _
        · exact Nat.le_of_lt (Nat.lt_of_le_of_lt (hle u hmem) ht)
      · rw [List.length_cons]
        omega

theorem Rooted.chained (hm : m.Rooted) : m.Chained := by
  intro s hs
  have hknown := hm.2.2 s hs
  obtain ⟨l, hl, hlast, hnodup, _, hlength⟩ := hm.outers hknown
  exact ⟨⟨l, hl, hlast, hnodup⟩, hl.walksEnd (Nat.le_trans hlength hknown) _⟩

end Machine

namespace VM

variable {m m' : Machine} {stops : Store → Prop}

/-! ### The law -/

/-- A turn copies the global record. -/
def CopiesGlobal (m : Machine) : Prop :=
  (∃ m', takeInterrupt m = .ok () m') ∧ next? m = some .copyScope ∧ m.regs.scope = m.realm.globalScope

/-- The watch for turns that copy the global record. -/
def Watch.noCopies : Watch where
  entry _ _ := True
  turn _ _ m := ¬ CopiesGlobal m

/-- Records go on to lead to the global one, and none is lost. -/
structure Roots (m m' : Machine) : Prop where
  realm : m'.realm = m.realm
  scopes : m.store.scopes.size ≤ m'.store.scopes.size
  rooted : m.Rooted → m'.Rooted

def rooting (stops : Store → Prop) : Law :=
  { Law.ofRel Machine.Rooted Roots (fun _ => ⟨rfl, Nat.le_refl _, id⟩)
      (fun h h' => ⟨h'.realm.trans h.realm, Nat.le_trans h.scopes h'.scopes, h'.rooted ∘ h.rooted⟩)
      (fun hm h => h.rooted hm) with stops }

theorem roots_of_advances (hrealm : m'.realm = m.realm) (h : m.Advances m') : Roots m m' :=
  ⟨hrealm, h.store.scopes, h.rooted⟩

instance : (rooting stops).Lax where
  strict := id
  lax _ _ := roots_of_advances

instance : (rooting stops).Control := ⟨fun hsame => roots_of_advances hsame.realm⟩

instance : (rooting stops).Names := ⟨fun _ _ _ _ h => ⟨rfl, Nat.le_of_eq h.scopes.symm, fun hm => hm.of_links h⟩⟩

instance : (rooting stops).Guard where
  restore {m₀ m σ} hσ h := by
    have hstore : Roots m { m with store := σ } := roots_of_advances rfl (.of_store hσ)
    refine ⟨h.realm, Nat.le_trans h.scopes hstore.scopes, fun hm => ?_⟩
    have hcurrent := Nat.lt_of_lt_of_le (hm.2.2 _ .current) (Nat.le_trans h.scopes hstore.scopes)
    refine (Machine.Looks.advances ?_).rooted (hstore.rooted (h.rooted hm))
    exact { current := .known hcurrent, frames := fun _ hr => .frame (List.mem_of_mem_drop hr) }
  refs m n := roots_of_advances rfl (Machine.Looks.advances { refs := fun r hr _ => .ref (List.mem_of_mem_drop hr) })

instance : (rooting stops).Declaring fun m => ¬ CopiesGlobal m where
  binds b := (lands_bindGlobals b).obeys.when _
  deletes name := (lands_deleteGlobal name).obeys
  copies {m₀} hm₀ := by
    intro m hm ⟨hnext, ht⟩
    have hlocal : m.regs.scope ≠ m.realm.globalScope := by
      intro heq
      refine hm₀ ⟨⟨m, ht⟩, (next_of_takeInterrupt ht).symm.trans hnext, ?_⟩
      rcases takeInterrupt_ok ht with rfl | ⟨lines, rfl⟩ <;> exact heq
    obtain ⟨t, houter, _⟩ := hm.2.1 _ (hm.2.2 _ .current) hlocal
    let x := m.store.scope m.regs.scope
    have henter : ObeysWhen (rooting stops) (fun m => m.Sees t) _ _ :=
      (obeys_enterScope (x := { Scope.new x.outer with slots := x.slots, names := x.names }) houter).bind fun _ =>
        obeys_advance
    exact henter m hm (.outer houter)

theorem rooting_watched {s : Machine} (hs : stops s.store) (alarm : VM Unit) (fuel : Nat) (e : Entry) :
    ObeysWhen (rooting stops) e.Due (watched .noCopies (stopAt s) fuel e)
      (watched (.always Machine.Chained) alarm fuel e) := by
  have hchained : ∀ m, (rooting stops).pre m → m.Chained := fun _ => Machine.Rooted.chained
  refine lax_watched ⟨fun _ _ _ h => ?_, fun _ _ _ _ h => ?_⟩ fuel e
  · exact obeys_checks (h.imp fun _ hm => hm.1) (fun m hm _ => hchained m hm) (fun _ => ⟨s, hs, rfl⟩) alarm
  · exact (obeys_checks (d := fun _ => True) (h.imp fun _ hm => hm.2) (fun m hm _ => hchained m hm)
      (fun _ => ⟨s, hs, rfl⟩) alarm).now

theorem chained_throughout {fuel : Nat} {e : Entry} (hm : m.Rooted) (hdue : e.Due m)
    (hcopies : Silent .noCopies fuel e m) :
    Throughout Machine.Chained fuel e m ∧ (rooting fun _ => False).Allows m (enter fuel e m) :=
  silent_of_stopped (L := rooting fun _ => False) (v := .always Machine.Chained)
    (fun _ _ hs alarm => rooting_watched hs alarm fuel e) hm hdue hcopies

/-! ### Runs -/

/-- What the holder of a machine may have done with it, if code makes no copies of the global record. -/
inductive Tended : Machine → Prop where
  | new (limits : Limits) : Tended (.new limits)
  | enters {m m' : Machine} {fuel : Nat} {e : Entry} {r : Except RunError Value} :
    Tended m → e.Due m → Silent .noCopies fuel e m → boundary (enter fuel e) m = .ok r m' → Tended m'
  | changes {m : Machine} {σ : Store} {limits : Limits} {interrupt : Option Interrupt} {compiler : Option Compiler} :
    Tended m → m.store.Persists σ → Tended { m with store := σ, limits, interrupt, compiler }
  | loads {m : Machine} {p : Program} : Tended m → Tended (m.load p)

theorem rooted_new (limits : Limits) : (Machine.new limits).Rooted := by
  have hscope : ∀ s, ((Machine.new limits).store.scope s).outer = none := by
    intro ⟨i⟩
    have hsize : (Machine.new limits).store.scopes.size = 1 := rfl
    rcases i with _ | i
    · rfl
    · rw [Store.scope_of_size_le (hsize ▸ Nat.le_add_left 1 i)]
      rfl
  have hheld : ∀ o, ((Machine.new limits).store.settled o).kind.holds? = none := by
    intro o
    rcases Nat.lt_or_ge o.index (Machine.new limits).store.objects.size with hlt | hge
    · have hall : ∀ i < (Realm.create.run .empty).2.objects.size,
          ((Realm.create.run .empty).2.settled ⟨i⟩).kind.holds? = none := by decide +kernel
      exact hall o.index hlt
    · rw [Store.settled_of_size_le hge]
      rfl
  refine ⟨hscope _, fun s hs hne => ?_, fun s hs => ?_⟩
  · exact absurd (congrArg ScopeId.mk (Nat.lt_one_iff.mp hs)) hne
  · cases hs with
    | known hs => exact hs
    | global | current => exact Nat.one_pos
    | frame hr => cases hr
    | handler hh => cases hh
    | ref hr => cases hr
    | outer ht => cases (hscope _).symm.trans ht
    | held hc => cases (hheld _).symm.trans hc

theorem Tended.rooted (h : Tended m) : m.Rooted := by
  induction h with
  | new limits => exact rooted_new limits
  | @enters m _ fuel e _ _ hdue hcopies h ih =>
    have hobeys : ObeysWhen (rooting fun _ => False) (m = ·) (enter fuel e) (enter fuel e) := by
      rintro _ _ rfl
      exact ⟨.inl rfl, (chained_throughout ih hdue hcopies).2⟩
    have hreset : ∀ m : Machine, Roots m m.reset := fun m => roots_of_advances rfl
      (Machine.Looks.advances { current := .global, frames := List.forall_mem_nil _, handlers := List.forall_mem_nil _
                                refs := List.forall_mem_nil _ })
    have hroots := (obeys_boundary (L := rooting fun _ => False) hreset hobeys).ends ih rfl (.inl ⟨_, h⟩)
    exact hroots.rooted ih
  | changes _ hσ ih => exact ih.of_links hσ.toLinks
  | loads _ ih => exact ih.of_links ⟨rfl, fun _ => rfl, fun _ => rfl⟩

/-- **Records lead to the global one.**  Whatever has been done with a machine, from every record that it refers to outer
records lead to the global one, no record twice, and walks along them end; and this stays so throughout whatever is run
next, at every entry and every turn of every loop. -/
theorem scope_chains_end {m : Machine} (h : Tended m) :
    m.Chained ∧ ∀ (fuel : Nat) (e : Entry), e.Due m → Silent .noCopies fuel e m →
      Throughout Machine.Chained fuel e m :=
  ⟨h.rooted.chained, fun _ _ hdue hcopies => (chained_throughout h.rooted hdue hcopies).1⟩

/-- Goes on in a record for an object, one for a block and a copy of that, and calls a function made there. -/
def entersScopes : Program :=
  programOf #[.loadGlobalObject, .enterWith, .enterBlock ⟨none, 1, 0⟩, .copyScope, .loadUndefined,
    .newFunction .normal ⟨⟨1⟩, .ofUnits [102], 0, false⟩, .call 0, .halt]

def enteringScopes : Machine :=
  ((Machine.new .default).load entersScopes).load (programOf #[.enterBare 0 0, .enterBlock ⟨none, 1, 0⟩, .loadUndefined, .ret])

/-- Tests before each turn whether the global record is current where records are copied. -/
def copyTest : Test where
  entry _ _ := true
  turn _ _ m := match next? m with
    | some .copyScope => m.regs.scope ≠ m.realm.globalScope
    | _ => true

/-- Four records are made in the run, and all lead to the global one. -/
theorem scope_chains_end_entered :
    Tended enteringScopes ∧ Silent .noCopies 14 (.program ⟨0⟩) enteringScopes ∧
      Throughout Machine.Chained 14 (.program ⟨0⟩) enteringScopes ∧
      ∃ r m, run 14 ⟨0⟩ enteringScopes = .ok r m ∧ m.store.scopes.size = 5 ∧ m.Chained := by
  have htended : Tended enteringScopes := .loads (.loads (.new .default))
  have hcopies : Silent .noCopies 14 (.program ⟨0⟩) enteringScopes := by
    refine silent_of_tested (t := copyTest) (fun _ _ _ => trivial) (fun e s m hm hcopies => ?_) (by decide +kernel)
    simp only [copyTest, hcopies.2.1] at hm
    exact of_decide_eq_true hm hcopies.2.2
  obtain ⟨r, m, h, hp⟩ := exists_of_passes (r := run 14 ⟨0⟩ enteringScopes) (p := fun m => m.store.scopes.size = 5)
    (by decide +kernel)
  exact ⟨htended, hcopies, (scope_chains_end htended).2 14 _ trivial hcopies, r, m, h, of_decide_eq_true hp,
    (scope_chains_end (.enters htended (e := .program ⟨0⟩) trivial hcopies h)).1⟩

end VM

end ScriptMachine
