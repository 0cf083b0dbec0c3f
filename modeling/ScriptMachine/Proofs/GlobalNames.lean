import ScriptMachine.Proofs.GlobalDeclarations
import ScriptMachine.Proofs.TopLevel

/-!
# Global names are lexical or not

Names declared globally are kept in three places: those of `let` and `const` in the global record, those of variables
and functions in a list of their own and in the global object, and those of evaluated code in the record as well.

* `GlobalsApart` — no name is lexical in the record and in the list too, and no program asks for that.
* `Unclaimed b` — what the checks of a declaration establish; every later part of the declaration keeps it.

Main result: `global_names_apart`.
-/

namespace ScriptMachine

/-- No name is to be lexical and something else. -/
def GlobalBindings.Apart (b : GlobalBindings) : Prop := ∀ name ∈ b.lets ++ b.consts, name ∉ b.vars ++ b.funcs

def GlobalBindings.none : GlobalBindings := ⟨[], [], [], [], false⟩

def Program.DeclaresApart (p : Program) : Prop := ∀ b, .bindGlobals b ∈ p.code → b.Apart

namespace Machine

def globalLexical? (m : Machine) (name : Text) : Option SlotInfo := (m.store.scope m.realm.globalScope).lexical? name

/-- The global record is there, no program declares a name in both ways, and no name has been. -/
structure GlobalsApart (m : Machine) : Prop where
  record : m.realm.globalScope.index < m.store.scopes.size
  programs : ∀ p : ProgramId, (m.store.program p).DeclaresApart
  names : ∀ name ∈ m.varNames, m.globalLexical? name = none

def load (m : Machine) (p : Program) : Machine :=
  { m with store := { m.store with programs := m.store.programs.push p } }

def LexicalKept (m m' : Machine) : Prop :=
  ∀ name info, m.globalLexical? name = some info → m'.globalLexical? name = some info

theorem LexicalKept.refl (m : Machine) : m.LexicalKept m := fun _ _ h => h

theorem LexicalKept.trans {m m₁ m₂ : Machine} (h : m.LexicalKept m₁) (h' : m₁.LexicalKept m₂) : m.LexicalKept m₂ :=
  fun name info hinfo => h' name info (h name info hinfo)

end Machine

namespace VM

/-! ### What a declaration keeps -/

/-- None of the names to be lexical is there in another way, nor the other way round. -/
structure Unclaimed (b : GlobalBindings) (m : Machine) : Prop where
  lexical : ∀ name ∈ b.lets ++ b.consts, name ∉ m.varNames
  other : ∀ name ∈ b.vars ++ b.funcs, m.globalLexical? name = none

/-- Names are apart, those of a declaration too. -/
structure Parted (b : GlobalBindings) (m : Machine) : Prop extends m.GlobalsApart, Unclaimed b m

/-- Names stay apart, and lexical ones keep their slots. -/
def Parts (b : GlobalBindings) (m m' : Machine) : Prop :=
  Parted b m → Parted b m' ∧ m'.realm = m.realm ∧ m.LexicalKept m'

/-- The law that names stay apart, those of a declaration too, and that names lexical in a state `s` before are kept. -/
def parting (s : Machine) (b : GlobalBindings) : Law :=
  .ofRel (fun m => Parted b m ∧ s.LexicalKept m) (Parts b) (fun m hm => ⟨hm, rfl, .refl m⟩)
    (fun h h' hm =>
      let ⟨hm₁, hrealm, hkept⟩ := h hm
      let ⟨hm₂, hrealm', hkept'⟩ := h' hm₁
      ⟨hm₂, hrealm'.trans hrealm, hkept.trans hkept'⟩)
    (fun hm h => ⟨(h hm.1).1, hm.2.trans (h hm.1).2.2⟩)

variable {s : Machine} {b : GlobalBindings} {m m' : Machine} {name : Text}

theorem Parted.none (hm : m.GlobalsApart) : Parted .none m where
  toGlobalsApart := hm
  lexical _ hname := nomatch hname
  other _ hname := nomatch hname

theorem globalLexical?_of_evolves (hm : m.GlobalsApart) (hrealm : m'.realm = m.realm) (h : m.Evolves m') (name : Text) :
    m'.globalLexical? name = m.globalLexical? name := by
  unfold Machine.globalLexical?
  rw [hrealm, h.store.lexical _ hm.record]

theorem globalsApart_of_evolves (hm : m.GlobalsApart) (hrealm : m'.realm = m.realm) (h : m.Evolves m') :
    m'.GlobalsApart := by
  refine ⟨?_, fun p => ?_, fun name hname => ?_⟩
  · rw [hrealm]
    exact Nat.lt_of_lt_of_le hm.record h.store.scopes
  · rw [Store.program, h.store.programs]
    exact hm.programs p
  · rw [globalLexical?_of_evolves hm hrealm h]
    exact hm.names name (h.varNames ▸ hname)

theorem parts_of_evolves (hrealm : m'.realm = m.realm) (h : m.Evolves m') : Parts b m m' := by
  intro hm
  have hlexical := globalLexical?_of_evolves hm.toGlobalsApart hrealm h
  refine ⟨⟨globalsApart_of_evolves hm.toGlobalsApart hrealm h, ⟨fun name hname => ?_, fun name hname => ?_⟩⟩, hrealm,
    fun name info hinfo => (hlexical name).trans hinfo⟩
  · rw [h.varNames]
    exact hm.lexical name hname
  · rw [hlexical]
    exact hm.other name hname

instance : (parting s b).Exact := ⟨fun _ => id⟩

instance : (parting s b).Lax where
  strict := id
  lax _ _ hrealm h := parts_of_evolves hrealm h.evolves

instance : (parting s b).Control := ⟨fun hsame h => parts_of_evolves hsame.realm h.evolves⟩

instance : (parting s b).Guard where
  restore hσ h := (parting s b).trans h (parts_of_evolves rfl ⟨hσ.retains.toEvolves, rfl⟩)
  refs m _ := parts_of_evolves rfl ⟨(Machine.Evolves.refl m).store, rfl⟩

/-! ### Declaring -/

section Declaring

variable (hb : b.Apart)

include hb

theorem parting_createLexical (hname : name ∈ b.lets ++ b.consts) (isConstant : Bool) :
    Heeds (parting s b) (createLexical isConstant name) := by
  refine obeys_self fun m _ hm => ?_
  let m' : Machine :=
    { m with store := m.store.modifyScope m.realm.globalScope (·.createLexical name isConstant) }
  have hrecord : m'.store.scope m'.realm.globalScope =
      (m.store.scope m.realm.globalScope).createLexical name isConstant := Store.scope_modifyScope hm.record _
  have hlexical : ∀ n info, m'.globalLexical? n = some info → n = name ∨ m.globalLexical? n = some info := by
    intro n info hinfo
    rw [Machine.globalLexical?, hrecord] at hinfo
    exact Scope.eq_or_of_createLexical hinfo
  have hnone : ∀ n, n ≠ name → m.globalLexical? n = none → m'.globalLexical? n = none := by
    intro n hne hnone
    cases hinfo : m'.globalLexical? n with
    | none => rfl
    | some info =>
      rcases hlexical n info hinfo with heq | hold
      · exact absurd heq hne
      · rw [hnone] at hold
        cases hold
  refine ⟨⟨⟨?_, hm.programs, fun n hn => ?_⟩, ⟨hm.lexical, fun n hn => ?_⟩⟩, rfl, fun n info hinfo => ?_⟩
  · show m.realm.globalScope.index < (m.store.scopes.modify _ _).size
    simpa using hm.record
  · exact hnone n (fun heq => hm.lexical name hname (heq ▸ hn)) (hm.names n hn)
  · exact hnone n (fun heq => hb name hname (heq ▸ hn)) (hm.other n hn)
  · rw [Machine.globalLexical?, hrecord]
    exact Scope.lexical?_createLexical hinfo name isConstant

theorem parting_declareVarName (hname : name ∈ b.vars ++ b.funcs) : Heeds (parting s b) (declareVarName name) := by
  refine obeys_modify fun m hm => ?_
  have hmem : ∀ n ∈ (if m.varNames.contains name then m.varNames else name :: m.varNames), n = name ∨ n ∈ m.varNames :=
    fun n => (Machine.mem_varNames_declare (p := default)).mp
  refine ⟨⟨⟨hm.record, hm.programs, fun n hn => ?_⟩, ⟨fun n hn hn' => ?_, hm.other⟩⟩, rfl, fun _ _ => id⟩
  · rcases hmem n hn with rfl | hold
    · exact hm.other n hname
    · exact hm.names n hold
  · rcases hmem n hn' with rfl | hold
    · exact hb n hn hname
    · exact hm.lexical n hn hold

theorem parting_createFunction (hname : name ∈ b.vars ++ b.funcs) (deletable : Bool) (v : Value) :
    Heeds (parting s b) (createFunction deletable name v) := by
  have hdeclare := parting_declareVarName (s := s) hb hname
  grind [createFunction]

theorem parting_createVariable (hname : name ∈ b.vars ++ b.funcs) (deletable : Bool) :
    Heeds (parting s b) (createVariable deletable name) := by
  have hdeclare := parting_declareVarName (s := s) hb hname
  grind [createVariable]

theorem parting_createFunctions (deletable : Bool) {l : List (Text × Value)} (hl : ∀ e ∈ l, e.1 ∈ b.vars ++ b.funcs) :
    Heeds (parting s b) (createFunctions deletable l) := by
  induction l with
  | nil => exact obeys_pure _
  | cons e rest ih =>
    obtain ⟨name, v⟩ := e
    rw [List.forall_mem_cons] at hl
    exact (parting_createFunction hb hl.1 deletable v).bind fun _ => ih hl.2

theorem parting_declare : Heeds (parting s b) (declare b) := by
  refine (obeys_forM_mem fun name hname => parting_createLexical hb (List.mem_append_left _ hname) _).bind fun _ => ?_
  refine (obeys_forM_mem fun name hname => parting_createLexical hb (List.mem_append_right _ hname) _).bind fun _ => ?_
  refine (obeys_popMany _).bind fun values => (parting_createFunctions hb _ fun e he => ?_).bind fun _ => ?_
  · exact List.mem_append_right _ (List.of_mem_zip he).1
  · exact (obeys_forM_mem fun name hname => parting_createVariable hb (List.mem_append_left _ hname) _).bind fun _ =>
      obeys_advance

end Declaring

/-! ### Checking -/

def evolving : Law :=
  .ofRel Machine.GlobalsApart (fun m m' => m'.realm = m.realm ∧ m.Evolves m') (fun m => ⟨rfl, .refl m⟩)
    (fun h h' => ⟨h'.1.trans h.1, h.2.trans h'.2⟩) (fun hm h => globalsApart_of_evolves hm h.1 h.2)

instance : evolving.Store := ⟨fun _ _ h => ⟨rfl, h.retains.toEvolves, rfl⟩⟩

theorem globalLexical?_of_evolving (hm : m.GlobalsApart) (h : evolving.rel m m') (name : Text) :
    m'.globalLexical? name = m.globalLexical? name := globalLexical?_of_evolves hm h.1 h.2 name

theorem not_lexical_of_guard {x : VM Unit} {f : Fault}
    (h : (do if ← isGlobalLexical name then raise f else x : VM Unit) m = .ok () m') :
    m.globalLexical? name = none := by
  have hread : isGlobalLexical name m = .ok ((m.store.scope m.realm.globalScope).find? name).isSome m := rfl
  rw [bind_ok hread] at h
  cases hfind : (m.store.scope m.realm.globalScope).find? name with
  | some info =>
    rw [hfind] at h
    cases h
  | none => rw [Machine.globalLexical?, Scope.lexical?, hfind, Option.filter_none]

theorem not_lexical_of_checkFunction (h : checkFunction name m = .ok () m') : m.globalLexical? name = none :=
  not_lexical_of_guard h

theorem not_declared_of_checkLexical (h : checkLexical name m = .ok () m') : name ∉ m.varNames := by
  intro hname
  unfold checkLexical at h
  rw [get_bind, if_pos (by simpa using hname)] at h
  cases h

theorem not_lexical_of_checkVariable (hm : m.GlobalsApart) (h : checkVariable name m = .ok () m') :
    m.globalLexical? name = none := by
  obtain ⟨_, _, hrealm, h⟩ := bind_eq_ok.mp h
  cases hrealm
  obtain ⟨extensible, m₁, hread, h⟩ := bind_eq_ok.mp h
  have h₁ : evolving.rel m m₁ := (obeys_onStore _).rel_of_ok hm hread
  obtain ⟨p?, m₂, hread, h⟩ := bind_eq_ok.mp h
  have h₂ : evolving.rel m₁ m₂ := (obeys_globalProperty name).rel_of_ok (evolving.keeps hm h₁) hread
  rw [← globalLexical?_of_evolving hm (evolving.trans h₁ h₂)]
  split at h
  · cases h
  · exact not_lexical_of_guard h

theorem of_checks {P : Machine → Text → Prop} {check : Text → VM Unit}
    (hobeys : ∀ name, Heeds evolving (check name))
    (hcheck : ∀ {m m' name}, m.GlobalsApart → check name m = .ok () m' → P m name)
    (hkept : ∀ {m m' name}, m.GlobalsApart → evolving.rel m m' → P m' name → P m name) {names : List Text}
    (hm : m.GlobalsApart) (h : names.forM check m = .ok () m') : evolving.rel m m' ∧ ∀ name ∈ names, P m name := by
  refine ⟨(obeys_forM hobeys).rel_of_ok hm h, ?_⟩
  induction names generalizing m with
  | nil => exact fun _ hname => nomatch hname
  | cons name rest ih =>
    obtain ⟨_, m₁, hfirst, hrest⟩ := bind_eq_ok.mp h
    have hrel := (hobeys name).rel_of_ok hm hfirst
    exact List.forall_mem_cons.mpr
      ⟨hcheck hm hfirst, fun n hn => hkept hm hrel (ih (evolving.keeps hm hrel) hrest n hn)⟩

theorem unclaimed_of_checkAll (hm : m.GlobalsApart) (h : checkAll b m = .ok () m') : Unclaimed b m' := by
  have hlexical : ∀ {m m' name}, m.GlobalsApart → evolving.rel m m' → m'.globalLexical? name = none →
      m.globalLexical? name = none := fun hm hrel h => (globalLexical?_of_evolving hm hrel _).symm.trans h
  have hdeclared : ∀ {m m' : Machine} {name : Text}, m.GlobalsApart → evolving.rel m m' → name ∉ m'.varNames →
      name ∉ m.varNames := fun _ hrel h => hrel.2.varNames ▸ h
  obtain ⟨_, m₁, h₁, h⟩ := bind_eq_ok.mp h
  obtain ⟨hrel₁, hfuncs⟩ := of_checks obeys_checkFunction (fun _ => not_lexical_of_checkFunction) hlexical hm h₁
  have hm₁ := evolving.keeps hm hrel₁
  obtain ⟨_, m₂, h₂, h⟩ := bind_eq_ok.mp h
  obtain ⟨hrel₂, hlets⟩ := of_checks obeys_checkLexical (fun _ => not_declared_of_checkLexical) hdeclared hm₁ h₂
  have hm₂ := evolving.keeps hm₁ hrel₂
  obtain ⟨_, m₃, h₃, h⟩ := bind_eq_ok.mp h
  obtain ⟨hrel₃, hconsts⟩ := of_checks obeys_checkLexical (fun _ => not_declared_of_checkLexical) hdeclared hm₂ h₃
  have hm₃ := evolving.keeps hm₂ hrel₃
  obtain ⟨hrel₄, hvars⟩ := of_checks obeys_checkVariable not_lexical_of_checkVariable hlexical hm₃ h
  have hnames : m'.varNames = m₂.varNames := hrel₄.2.varNames.trans hrel₃.2.varNames
  constructor
  · intro name hname
    rw [hnames]
    rcases List.mem_append.mp hname with hlet | hconst
    · exact hrel₂.2.varNames ▸ hlets name hlet
    · exact hconsts name hconst
  · intro name hname
    rw [globalLexical?_of_evolving hm₃ hrel₄]
    rcases List.mem_append.mp hname with hvar | hfunc
    · exact hvars name hvar
    · rw [globalLexical?_of_evolving hm₁ (evolving.trans hrel₂ hrel₃), globalLexical?_of_evolving hm hrel₁]
      exact hfuncs name hfunc

theorem parting_none_of {x : VM α} (h : Heeds (parting s b) x) : ObeysWhen (parting s .none) (Unclaimed b) x x := by
  intro m hm hb
  have hparted : Parted b m := ⟨hm.1.toGlobalsApart, hb⟩
  have hallows := (h m ⟨hparted, hm.2⟩).2
  refine ⟨.inl rfl, ?_⟩
  have hparts : ∀ {m'}, Parts b m m' → Parts .none m m' := fun hparts _ =>
    let ⟨hm', hrest⟩ := hparts hparted
    ⟨.none hm'.toGlobalsApart, hrest⟩
  generalize x m = r at hallows ⊢
  rcases r with _ | ⟨_ | _, _⟩
  · exact hparts hallows
  · exact hparts hallows
  · trivial

instance : (parting s .none).Declaring fun _ => True where
  binds b := by
    intro m hm hnext
    have hb : b.Apart := by
      obtain ⟨p, hp, hcode⟩ := Option.bind_eq_some_iff.mp hnext
      exact hm.1.programs p b (Array.mem_of_getElem? hcode)
    have hcheck : Heeds (parting s .none) (checkAll b) := by grind [checkAll]
    rw [bindGlobals_eq]
    exact (hcheck.when Machine.GlobalsApart).seq (fun hm h => unclaimed_of_checkAll hm h)
      (fun _ => parting_none_of (parting_declare hb)) m hm hm.1.toGlobalsApart
  deletes name := by
    let forget (m : Machine) : Machine := { m with varNames := m.varNames.filter (· ≠ name) }
    have hforget : Heeds (parting s .none) (modify forget : VM PUnit) :=
      obeys_modify fun m hm =>
        ⟨.none ⟨hm.record, hm.programs, fun n hn => hm.names n (List.mem_filter.mp hn).1⟩, rfl, fun _ _ => id⟩
    grind [deleteGlobal]
  copies _ := by
    have hcopy : ∀ x, Heeds (parting s .none) (enterScope x) := fun x =>
      obeys_self fun m _ => parts_of_evolves rfl ⟨(Store.Retains.newScope m.store x).toEvolves, rfl⟩
    exact Obeys.when (obeys_regs.bind fun _ => (obeys_scopeRecord _).bind fun _ => (hcopy _).bind fun _ => obeys_advance) _

/-! ### What the holder of a machine does -/

theorem obeys_boundary {L : Law} [L.Quiet] [L.Strict] (hreset : ∀ m, L.rel m m.reset) {p : Machine → Prop} {x : VM α}
    (h : ObeysWhen L p x x) : ObeysWhen L p (boundary x) (boundary x) := by
  have hreset : Heeds L (modify Machine.reset : VM PUnit) := obeys_modify hreset
  refine h.attempt.bind fun r => ?_
  rcases r with f | a
  · cases f <;> grind
  · exact obeys_pure _

/-- What the holder of a machine may have done with it. -/
inductive Used (m₀ : Machine) : Machine → Prop where
  | new : Used m₀ m₀
  /-- Something was run, and it succeeded or failed. -/
  | enters {m m' : Machine} {fuel : Nat} {e : Entry} {r : Except RunError Value} :
    Used m₀ m → e.Due m → boundary (enter fuel e) m = .ok r m' → Used m₀ m'
  | changes {m m' : Machine} : Used m₀ m → m'.realm = m.realm → m.Evolves m' → Used m₀ m'
  | loads {m : Machine} {p : Program} : Used m₀ m → p.DeclaresApart → Used m₀ (m.load p)

theorem parts_of_used {m₀ : Machine} (h : Used m₀ m) : Parts .none m₀ m := by
  induction h with
  | new => exact (parting m₀ .none).refl _
  | enters _ hdue h ih =>
    intro hm₀
    obtain ⟨hm, _, hkept⟩ := ih hm₀
    have hreset : ∀ m : Machine, Parts .none m m.reset := fun m => parts_of_evolves rfl ⟨(Machine.Evolves.refl m).store, rfl⟩
    have hparts := (obeys_boundary hreset (lax_enter (L := parting m₀ .none) _ _)).ends ⟨hm, hkept⟩ hdue (.inl ⟨_, h⟩)
    exact (parting m₀ .none).trans ih hparts hm₀
  | changes _ hrealm h ih => exact (parting m₀ .none).trans ih (parts_of_evolves hrealm h)
  | @loads m p _ hp ih =>
    have hload : (m.load p).store.programs = m.store.programs.push p := rfl
    refine (parting m₀ .none).trans ih fun hm => ⟨.none ⟨hm.record, fun q => ?_, hm.names⟩, rfl, .refl m⟩
    by_cases hq : q.index = m.store.programs.size
    · rw [Store.program, hload, hq, Array.getElem?_push_size]
      exact hp
    · rw [Store.program, hload, Array.getElem?_push, if_neg hq]
      exact hm.programs q

theorem History.lexicalKept {fuel k : Nat} {ms : Nat → Machine} (H : History (turn (enter fuel) fuel) ms k)
    (h0 : (ms 0).GlobalsApart) {i j : Nat} (hij : i ≤ j) (hj : j ≤ k) :
    (ms j).GlobalsApart ∧ (ms i).LexicalKept (ms j) := by
  have hturn : ∀ {t}, t < k → (ms t).GlobalsApart → (ms (t + 1)).GlobalsApart ∧ (ms t).LexicalKept (ms (t + 1)) := by
    intro t ht hm
    have hobeys : Heeds (parting (ms t) .none) (turn (enter fuel) fuel) :=
      (lax_turn (fun e => lax_enter fuel e) fuel).now
    obtain ⟨hm', _, hkept⟩ := hobeys.ends ⟨.none hm, .refl _⟩ (H.ends ht) (.none hm)
    exact ⟨hm'.toGlobalsApart, hkept⟩
  induction hij with
  | refl =>
    refine ⟨?_, .refl _⟩
    induction i with
    | zero => exact h0
    | succ i ih => exact (hturn hj (ih (Nat.le_of_succ_le hj))).1
  | step _ ih =>
    obtain ⟨hm, hkept⟩ := ih (Nat.le_of_succ_le hj)
    obtain ⟨hm', hkept'⟩ := hturn hj hm
    exact ⟨hm', hkept.trans hkept'⟩

end VM

/-- The realm declares nothing yet, and programs keep global names apart. -/
structure Machine.Fresh (m : Machine) : Prop where
  record : m.realm.globalScope.index < m.store.scopes.size
  programs : ∀ p : ProgramId, (m.store.program p).DeclaresApart
  varNames : m.varNames = []
  names : ∀ name, (m.store.scope m.realm.globalScope).find? name = none

theorem Machine.fresh_new (limits : Limits) : (new limits).Fresh :=
  ⟨of_decide_eq_true rfl, fun _ _ h => absurd h (Array.not_mem_empty _), rfl, fun _ => rfl⟩

namespace VM

/-- **No global name is both lexical and a variable, and none that is lexical is lost.**  Whatever has been done with a
machine that was new, this is so; it stays so throughout whatever is run next, at every entry and every turn of every
loop; and no run, no turn and nothing that is done later takes a lexical name away or changes its slot. -/
theorem global_names_apart {m₀ m : Machine} (hfresh : m₀.Fresh) (h : Used m₀ m) :
    m.GlobalsApart ∧ (∀ m', Used m m' → m.LexicalKept m') ∧
      (∀ (fuel : Nat) (e : Entry), e.Due m →
        Throughout (fun m' => m'.GlobalsApart ∧ m.LexicalKept m') fuel e m) ∧
      ∀ (fuel k : Nat) (ms : Nat → Machine), (ms 0).GlobalsApart → History (turn (enter fuel) fuel) ms k →
        ∀ i j, i ≤ j → j ≤ k → (ms j).GlobalsApart ∧ (ms i).LexicalKept (ms j) := by
  have hm₀ : m₀.GlobalsApart := ⟨hfresh.record, hfresh.programs, by simp [hfresh.varNames]⟩
  have hm := (parts_of_used h (.none hm₀)).1
  refine ⟨hm.toGlobalsApart, fun m' h' => (parts_of_used h' hm).2.2, fun fuel e hdue => ?_,
    fun fuel k ms h0 H i j hij hj => H.lexicalKept h0 hij hj⟩
  exact throughout_of_law (L := parting m .none) (fun _ hm => ⟨hm.1.toGlobalsApart, hm.2⟩) ⟨hm, .refl m⟩ hdue

def programOf (code : Array Instruction) : Program :=
  { code, constants := #[], name := .ofUnits [102], source := none, marks := [] }

/-- Declares variables `v` and `w`, a lexical name `l` and a constant `c`, and tries to delete them. -/
def declaresNames : Program :=
  programOf #[.bindGlobals ⟨[.ofUnits [118]], [], [.ofUnits [108]], [.ofUnits [99]], true⟩,
    .bindVars ⟨[.ofUnits [119]], true⟩, .deleteName (.ofUnits [108]), .deleteName (.ofUnits [99]),
    .deleteName (.ofUnits [119]), .deleteGlobal (.ofUnits [118]), .halt]

def declaresVariables : Program := programOf #[.bindGlobals ⟨[.ofUnits [108], .ofUnits [99]], [], [], [], true⟩, .halt]

def declaringNames : Machine := ((Machine.new .default).load declaresNames).load declaresVariables

/-- The names that a run of the first program declares are there after a run of the second. -/
theorem global_names_apart_declared :
    (Machine.new .default).Fresh ∧ ∃ r₁ m₁ r₂ m₂, run 9 ⟨0⟩ declaringNames = .ok r₁ m₁ ∧ run 9 ⟨1⟩ m₁ = .ok r₂ m₂ ∧
      (m₁.globalLexical? (.ofUnits [108])).isSome = true ∧ m₁.varNames = [] ∧ m₂.GlobalsApart ∧ m₁.LexicalKept m₂ := by
  have hfirst : declaresNames.DeclaresApart := by
    intro b hb
    obtain rfl : b = ⟨[.ofUnits [118]], [], [.ofUnits [108]], [.ofUnits [99]], true⟩ := by
      simpa [declaresNames, programOf] using hb
    unfold GlobalBindings.Apart
    decide
  have hsecond : declaresVariables.DeclaresApart := by
    intro b hb
    obtain rfl : b = ⟨[.ofUnits [108], .ofUnits [99]], [], [], [], true⟩ := by
      simpa [declaresVariables, programOf] using hb
    exact fun _ hname => nomatch hname
  have hloaded : Used (Machine.new .default) declaringNames := .loads (.loads .new hfirst) hsecond
  obtain ⟨r₁, m₁, h₁, hp⟩ := exists_of_passes (r := run 9 ⟨0⟩ declaringNames)
    (p := fun m => (m.globalLexical? (.ofUnits [108])).isSome && m.varNames.isEmpty &&
      passes (fun _ => true) (run 9 ⟨1⟩ m))
    (by decide +kernel)
  simp only [Bool.and_eq_true, List.isEmpty_iff] at hp
  obtain ⟨r₂, m₂, h₂, -⟩ := exists_of_passes hp.2
  have hused : Used (Machine.new .default) m₁ := .enters (e := .program ⟨0⟩) hloaded trivial h₁
  have hused' : Used m₁ m₂ := .enters (e := .program ⟨1⟩) .new trivial h₂
  have hm₂ := (global_names_apart (Machine.fresh_new .default) (.enters hused (e := .program ⟨1⟩) trivial h₂)).1
  have hkept := (global_names_apart (Machine.fresh_new .default) hused).2.1 m₂ hused'
  exact ⟨Machine.fresh_new .default, r₁, m₁, r₂, m₂, h₁, h₂, hp.1.1, hp.1.2, hm₂, hkept⟩

end VM

end ScriptMachine
