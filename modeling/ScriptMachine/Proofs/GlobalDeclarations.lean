import ScriptMachine.Machine.Declare
import ScriptMachine.Proofs.NamePlaces
import ScriptMachine.Proofs.OperandLists
import ScriptMachine.Proofs.OwnProperties

/-!
# Global declarations are all or nothing

The names a program declares globally go to the global object and to the global record.  They are all checked before the
first of them is declared, against the state before any of them is.  The checks are enough: what they let pass can be
declared, also after other names of the same program, or the same name once before, have been.

* `Inadmissible m d f` — the declaration `d` is refused in the state `m`, with the fault `f`.
* `Machine.declare` — the state in which one more global property is declared; `Declared` — after several of them.

Main result: `bindGlobals_all_or_nothing`.
-/

namespace ScriptMachine

/-! ### The global object and the global record -/

namespace Machine

/-- The global object and the global record are there, and the object is an ordinary one. -/
structure HasGlobals (m : Machine) : Prop where
  object : m.realm.global.index < m.store.objects.size
  ordinary : (m.store.object m.realm.global).kind = .ordinary
  record : m.realm.globalScope.index < m.store.scopes.size

def globalObject (m : Machine) : Object := m.store.object m.realm.global

def globalRecord (m : Machine) : Scope := m.store.scope m.realm.globalScope

def globalOwn? (m : Machine) (name : Text) : Option Property := m.store.own m.realm.global (.text name)

/-- There is room for a global function: a property that may be replaced, or that assignments and loops over keys see. -/
def takesFunction (m : Machine) (name : Text) : Bool :=
  match m.globalOwn? name with
  | none => m.globalObject.extensible
  | some p => p.configurable || (p.writable && p.enumerable)

def takesVariable (m : Machine) (name : Text) : Bool := (m.globalOwn? name).isSome || m.globalObject.extensible

theorem hasGlobals_new (limits : Limits) : (new limits).HasGlobals := ⟨of_decide_eq_true rfl, rfl, of_decide_eq_true rfl⟩

theorem HasGlobals.settled {m : Machine} (h : m.HasGlobals) : m.globalObject.settled = m.globalObject :=
  Object.settled_of_not_isLazy (by rw [globalObject, h.ordinary]; rfl)

theorem HasGlobals.globalOwn?_eq {m : Machine} (h : m.HasGlobals) (name : Text) :
    m.globalOwn? name = m.globalObject.properties.find? (.text name) := by
  have hsettled : m.store.settled m.realm.global = m.globalObject := h.settled
  rw [globalOwn?, Store.own_eq, hsettled, Object.ownProperty?, globalObject, h.ordinary]

end Machine

namespace VM

open Machine (HasGlobals)

/-! ### Checks -/

/-- A name that a program declares globally. -/
inductive Declaration where
  | function (name : Text)
  | lexical (name : Text)
  | variable (name : Text)

def declarations (b : GlobalBindings) : List Declaration :=
  b.funcs.map .function ++ b.lets.map .lexical ++ b.consts.map .lexical ++ b.vars.map .variable

/-- The state does not admit a declaration. -/
inductive Inadmissible (m : Machine) : Declaration → Fault → Prop where
  | boundFunction {name} (bound : (m.globalRecord.find? name).isSome = true) :
      Inadmissible m (.function name) (.grammar (.redeclared name.display))
  | noFunction {name} (full : m.takesFunction name = false) :
      Inadmissible m (.function name) (.type (.globalFunction name.display))
  | hoistedLexical {name} (hoisted : name ∈ m.varNames) :
      Inadmissible m (.lexical name) (.grammar (.redeclared name.display))
  | boundLexical {name} (bound : (m.globalRecord.find? name).isSome = true) :
      Inadmissible m (.lexical name) (.grammar (.redeclared name.display))
  | permanentLexical {name p} (present : m.globalOwn? name = some p) (permanent : p.configurable = false) :
      Inadmissible m (.lexical name) (.grammar (.redeclared name.display))
  | noVariable {name} (full : m.takesVariable name = false) :
      Inadmissible m (.variable name) (.type (.globalVariable name.display))
  | boundVariable {name} (bound : (m.globalRecord.find? name).isSome = true) :
      Inadmissible m (.variable name) (.grammar (.redeclared name.display))

/-- A check changes nothing, and raises a fault that refuses one of the declarations, if one of them is refused. -/
def Decides (m : Machine) (ds : List Declaration) (x : VM Unit) : Prop :=
  (x m = .ok () m ∧ ∀ d ∈ ds, ∀ f, ¬ Inadmissible m d f) ∨ ∃ d ∈ ds, ∃ f, Inadmissible m d f ∧ x m = .error (.fault f) m

section Checks

variable {m : Machine} {d : Declaration} {x : VM Unit}

theorem globalProperty?_eq (h : m.HasGlobals) (name : Text) : globalProperty? name m = .ok (m.globalOwn? name) m := by
  have hmade := Store.run_materialize_of_settled h.settled
  have hrun : ((Store.ownProperty? m.realm.global (.text name)).run m.store).2 = m.store := congrArg Prod.snd hmade
  show onStore (Store.ownProperty? m.realm.global (.text name)) m = _
  rw [onStore_eq, hrun]
  rfl

theorem isExtensible_eq (h : m.HasGlobals) :
    onStore (Store.isExtensible m.realm.global) m = .ok m.globalObject.extensible m := by
  have hmade := Store.run_materialize_of_settled h.settled
  have hrun : (Store.isExtensible m.realm.global).run m.store = (m.globalObject.extensible, m.store) := by
    show ((((Store.materialize m.realm.global).run m.store).2.object m.realm.global).extensible,
      ((Store.materialize m.realm.global).run m.store).2) = _
    rw [hmade]
    rfl
  rw [onStore_eq, hrun]
  rfl

theorem isGlobalLexical_eq (name : Text) : isGlobalLexical name m = .ok (m.globalRecord.find? name).isSome m := rfl

theorem Decides.of_eq {ds : List Declaration} {y : VM Unit} (hx : x m = y m) (h : Decides m ds y) : Decides m ds x := by
  unfold Decides
  rwa [hx]

theorem decides_pass (h : ∀ f, ¬ Inadmissible m d f) : Decides m [d] (pure ()) :=
  .inl ⟨rfl, fun _ hd => List.mem_singleton.mp hd ▸ h⟩

/-- A check that refuses a declaration for one reason goes on to the others. -/
theorem decides_guard {c : Prop} [Decidable c] {f : Fault} {y : VM Unit} (hfail : c → Inadmissible m d f)
    (hrest : ¬ c → Decides m [d] y) : Decides m [d] (if c then raise f else y) := by
  split
  case isTrue hc => exact .inr ⟨d, List.mem_singleton_self d, f, hfail hc, rfl⟩
  case isFalse hc => exact hrest hc

theorem decides_checkFunction (h : m.HasGlobals) (name : Text) : Decides m [.function name] (checkFunction name) := by
  refine .of_eq (bind_ok (isGlobalLexical_eq name)) (decides_guard .boundFunction fun hfree => ?_)
  refine .of_eq (y := if ¬ m.takesFunction name = true then raise (.type (.globalFunction name.display)) else pure ())
    ?_ (decides_guard (fun hfull => .noFunction (by simpa using hfull)) fun hroom => decides_pass fun f hf => ?_)
  · rw [ite_not, bind_ok (globalProperty?_eq h name), Machine.takesFunction]
    cases m.globalOwn? name with
    | none => exact (realm_bind _ m).trans (bind_ok (isExtensible_eq h))
    | some p => rfl
  · cases hf with
    | boundFunction bound => exact hfree bound
    | noFunction full => exact hroom (by simp [full])

theorem decides_checkLexical (h : m.HasGlobals) (name : Text) : Decides m [.lexical name] (checkLexical name) := by
  refine .of_eq (get_bind _ m) (decides_guard (fun hhoisted => .hoistedLexical ?_) fun hnew => ?_)
  · exact List.contains_iff_mem.mp hhoisted
  refine .of_eq (bind_ok (isGlobalLexical_eq name)) (decides_guard .boundLexical fun hfree => ?_)
  refine .of_eq (bind_ok (globalProperty?_eq h name)) (decides_guard (fun hpermanent => ?_) fun hloose => ?_)
  · obtain ⟨p, hp, hfixed⟩ := (Option.any_eq_true _ _).mp hpermanent
    exact .permanentLexical hp (by simpa using hfixed)
  · refine decides_pass fun f hf => ?_
    cases hf with
    | hoistedLexical hoisted => exact hnew (List.contains_iff_mem.mpr hoisted)
    | boundLexical bound => exact hfree bound
    | permanentLexical present permanent => exact hloose (by simp [present, permanent])

theorem decides_checkVariable (h : m.HasGlobals) (name : Text) : Decides m [.variable name] (checkVariable name) := by
  have hfull : (!m.globalObject.extensible && (m.globalOwn? name).isNone) = !m.takesVariable name := by
    rw [Machine.takesVariable]
    cases m.globalOwn? name <;> cases m.globalObject.extensible <;> rfl
  unfold checkVariable
  refine .of_eq ((realm_bind _ m).trans ((bind_ok (isExtensible_eq h)).trans (bind_ok (globalProperty?_eq h name)))) ?_
  rw [hfull]
  refine decides_guard (fun hfull => .noVariable (by simpa using hfull)) fun hroom => ?_
  refine .of_eq (bind_ok (isGlobalLexical_eq name)) (decides_guard .boundVariable fun hfree => ?_)
  refine decides_pass fun f hf => ?_
  cases hf with
  | noVariable full => exact hroom (by simpa using full)
  | boundVariable bound => exact hfree bound

theorem Decides.bind {ds : List Declaration} (h : Decides m ds x) (k : Unit → VM α) :
    ((x >>= k) m = k () m ∧ ∀ d ∈ ds, ∀ f, ¬ Inadmissible m d f) ∨
      ∃ d ∈ ds, ∃ f, Inadmissible m d f ∧ (x >>= k) m = .error (.fault f) m := by
  rcases h with ⟨hx, hall⟩ | ⟨d, hd, f, hf, hx⟩
  · exact .inl ⟨bind_ok hx, hall⟩
  · exact .inr ⟨d, hd, f, hf, bind_error hx⟩

theorem Decides.andThen {ds ds' : List Declaration} {y : VM Unit} (h : Decides m ds x) (h' : Decides m ds' y) :
    Decides m (ds ++ ds') (do x; y) := by
  rcases h.bind fun _ => y with ⟨heq, hall⟩ | ⟨d, hd, hf⟩
  · refine .of_eq heq ?_
    rcases h' with ⟨hy, hall'⟩ | ⟨d, hd, hf⟩
    · exact .inl ⟨hy, List.forall_mem_append.mpr ⟨hall, hall'⟩⟩
    · exact .inr ⟨d, List.mem_append_right _ hd, hf⟩
  · exact .inr ⟨d, List.mem_append_left _ hd, hf⟩

theorem decides_forM {declare : Text → Declaration} {check : Text → VM Unit}
    (h : ∀ name, Decides m [declare name] (check name)) (names : List Text) :
    Decides m (names.map declare) (names.forM check) := by
  induction names with
  | nil => exact .inl ⟨rfl, fun d hd => absurd hd List.not_mem_nil⟩
  | cons name rest ih => exact (h name).andThen ih

def checkAll (b : GlobalBindings) : VM Unit := do
  b.funcs.forM checkFunction
  b.lets.forM checkLexical
  b.consts.forM checkLexical
  b.vars.forM checkVariable

/-- What a declaration does after its checks. -/
def declare (b : GlobalBindings) : VM Unit := do
  b.lets.forM (createLexical false)
  b.consts.forM (createLexical true)
  let values ← popMany b.funcs.length
  createFunctions b.deletable (b.funcs.zip values)
  b.vars.forM (createVariable b.deletable)
  advance

theorem bindGlobals_eq (b : GlobalBindings) : bindGlobals b = (do checkAll b; declare b) := by
  simp only [bindGlobals, checkAll, declare, bind_assoc]

theorem decides_checkAll (h : m.HasGlobals) (b : GlobalBindings) : Decides m (declarations b) (checkAll b) := by
  have hchecks := (((decides_forM (decides_checkFunction h) b.funcs).andThen
    (decides_forM (decides_checkLexical h) b.lets)).andThen (decides_forM (decides_checkLexical h) b.consts)).andThen
    (decides_forM (decides_checkVariable h) b.vars)
  simpa only [bind_assoc, checkAll, declarations] using hchecks

/-- Either one of the declarations is refused, or all of them are carried out. -/
theorem bindGlobals_decides (h : m.HasGlobals) (b : GlobalBindings) :
    (bindGlobals b m = declare b m ∧ ∀ d ∈ declarations b, ∀ f, ¬ Inadmissible m d f) ∨
      ∃ d ∈ declarations b, ∃ f, Inadmissible m d f ∧ bindGlobals b m = .error (.fault f) m := by
  rw [bindGlobals_eq]
  exact (decides_checkAll h b).bind _

end Checks

end VM

/-! ### Lexical names -/

namespace Scope

/-- The name is bound lexically and not initialised. -/
def Unset (s : Scope) (name : Text) : Prop :=
  ∃ info, s.find? name = some info ∧ info.kind.isLexical = true ∧ s.slots[info.index]? = some .empty

/-- The name is not bound, or bound and not initialised. -/
def Free (s : Scope) (name : Text) : Prop := s.find? name = none ∨ s.Unset name

section Lexical

variable {s : Scope} {name n : Text}

theorem Unset.createLexical (h : s.Unset n) (name : Text) (isConstant : Bool) :
    (s.createLexical name isConstant).Unset n := by
  obtain ⟨info, hfind, hkind, hslot⟩ := h
  unfold Scope.createLexical Scope.create
  split
  case isTrue => exact ⟨info, hfind, hkind, hslot⟩
  case isFalse hnew =>
    have hn : n ≠ name := fun heq => hnew (by rw [← heq, hfind]; rfl)
    refine ⟨info, ?_, hkind, ?_⟩
    · rw [find?_bindName, if_neg hn]
      exact hfind
    · show (s.slots.push _)[info.index]? = _
      have hlt := (Array.getElem?_eq_some_iff.mp hslot).1
      rw [Array.getElem?_push_lt hlt, ← hslot, Array.getElem?_eq_getElem hlt]

theorem unset_createLexical (h : s.Free name) (isConstant : Bool) : (s.createLexical name isConstant).Unset name := by
  rcases h with hnew | hunset
  · unfold Scope.createLexical Scope.create
    rw [hnew]
    refine ⟨_, (find?_bindName ..).trans (if_pos rfl), ?_, Array.getElem?_push_size⟩
    cases isConstant <;> rfl
  · exact hunset.createLexical name isConstant

theorem Free.createLexical (h : s.Free n) (name : Text) (isConstant : Bool) :
    (s.createLexical name isConstant).Free n := by
  rcases h with hnew | hunset
  · by_cases hn : n = name
    · subst hn
      exact .inr (unset_createLexical (.inl hnew) isConstant)
    · unfold Scope.createLexical Scope.create
      split
      case isTrue => exact .inl hnew
      case isFalse =>
        refine .inl ?_
        rw [find?_bindName, if_neg hn]
        exact hnew
  · exact .inr (hunset.createLexical name isConstant)

/-- The record with several names bound in turn. -/
def createLexicals (s : Scope) (names : List Text) (isConstant : Bool) : Scope :=
  names.foldl (fun s name => s.createLexical name isConstant) s

theorem Unset.createLexicals (h : s.Unset n) (names : List Text) (isConstant : Bool) :
    (s.createLexicals names isConstant).Unset n :=
  List.foldlRecOn (motive := (Unset · n)) names _ h fun _ h name _ => h.createLexical name isConstant

theorem Free.createLexicals (h : s.Free n) (names : List Text) (isConstant : Bool) :
    (s.createLexicals names isConstant).Free n :=
  List.foldlRecOn (motive := (Free · n)) names _ h fun _ h name _ => h.createLexical name isConstant

theorem unset_createLexicals {names : List Text} (h : ∀ name ∈ names, s.Free name) (isConstant : Bool) :
    ∀ name ∈ names, (s.createLexicals names isConstant).Unset name := by
  induction names generalizing s with
  | nil => exact fun name hname => absurd hname List.not_mem_nil
  | cons name rest ih =>
    obtain ⟨hname, hrest⟩ := List.forall_mem_cons.mp h
    refine List.forall_mem_cons.mpr ⟨?_, ih fun n hn => (hrest n hn).createLexical name isConstant⟩
    exact (unset_createLexical hname isConstant).createLexicals rest isConstant

end Lexical

end Scope

namespace VM

open Machine (HasGlobals)

theorem forM_createLexical {m : Machine} (h : m.HasGlobals) (isConstant : Bool) (names : List Text) :
    ∃ σ, names.forM (createLexical isConstant) m = .ok () (withStore m σ) ∧ σ.objects = m.store.objects ∧
      (withStore m σ).HasGlobals ∧ (withStore m σ).globalRecord = m.globalRecord.createLexicals names isConstant := by
  induction names generalizing m with
  | nil => exact ⟨m.store, rfl, rfl, h, rfl⟩
  | cons name rest ih =>
    let σ := m.store.modifyScope m.realm.globalScope (·.createLexical name isConstant)
    have hσ : (withStore m σ).HasGlobals := ⟨h.object, h.ordinary, by
      show _ < (m.store.scopes.modify _ _).size
      rw [Array.size_modify]
      exact h.record⟩
    have hrecord : (withStore m σ).globalRecord = m.globalRecord.createLexical name isConstant :=
      Store.scope_modifyScope h.record _
    obtain ⟨σ', hrun, hobjects, hglobals, hnames⟩ := ih hσ
    refine ⟨σ', ?_, hobjects, hglobals, ?_⟩
    · show (createLexical isConstant name >>= fun _ => rest.forM (createLexical isConstant)) m = _
      rw [bind_ok (show createLexical isConstant name m = .ok () (withStore m σ) from rfl), hrun]
      rfl
    · exact hnames.trans (congrArg (Scope.createLexicals · rest isConstant) hrecord)

end VM

/-! ### Functions and variables -/

theorem PropertyTable.insert_of_find? {t : PropertyTable} {key : PropertyKey} {p : Property} (h : t.find? key = some p) :
    t.insert key p = t := by
  have hentries : ∀ entries : List (PropertyKey × Property),
      (entries.find? (fun e => e.1 = key)).map (·.2) = some p → insertEntry key p entries = entries := by
    intro entries
    induction entries with
    | nil => intro h; cases h
    | cons e rest ih =>
      intro h
      unfold insertEntry
      by_cases he : e.1 = key
      · rw [if_pos he]
        simp [he] at h
        rw [← he, ← h]
      · rw [if_neg he, ih (by simpa [he] using h)]
  exact congrArg PropertyTable.mk (hentries t.entries h)

namespace Machine

def declare (m : Machine) (name : Text) (p : Property) : Machine :=
  { m with
    store := m.store.setObject m.realm.global
      { m.globalObject with properties := m.globalObject.properties.insert (.text name) p }
    varNames := if m.varNames.contains name then m.varNames else name :: m.varNames }

section Declare

variable {m : Machine} {name n : Text} {p : Property}

theorem globalObject_declare (h : m.HasGlobals) (name : Text) (p : Property) :
    (m.declare name p).globalObject =
      { m.globalObject with properties := m.globalObject.properties.insert (.text name) p } :=
  (Store.object_setObject h.object _ _).trans (if_pos rfl)

theorem hasGlobals_declare (h : m.HasGlobals) (name : Text) (p : Property) : (m.declare name p).HasGlobals where
  object := by
    show _ < (m.store.objects.setIfInBounds _ _).size
    rw [Array.size_setIfInBounds]
    exact h.object
  ordinary := (congrArg Object.kind (globalObject_declare h name p)).trans h.ordinary
  record := h.record

theorem globalOwn?_declare (h : m.HasGlobals) (name n : Text) (p : Property) :
    (m.declare name p).globalOwn? n = if n = name then some p else m.globalOwn? n := by
  rw [(hasGlobals_declare h name p).globalOwn?_eq, globalObject_declare h,
    h.globalOwn?_eq]
  simp

theorem mem_varNames_declare : n ∈ (m.declare name p).varNames ↔ n = name ∨ n ∈ m.varNames := by
  unfold declare
  dsimp only
  split
  case isTrue hmem =>
    refine ⟨.inr, ?_⟩
    rintro (rfl | hn)
    · exact List.contains_iff_mem.mp hmem
    · exact hn
  case isFalse => exact List.mem_cons

theorem takesFunction_declare (h : m.HasGlobals) (hp : (p.configurable || (p.writable && p.enumerable)) = true)
    (hn : m.takesFunction n = true) : (m.declare name p).takesFunction n = true := by
  unfold takesFunction at hn ⊢
  rw [globalOwn?_declare h]
  by_cases heq : n = name
  · rw [if_pos heq]
    exact hp
  · rw [if_neg heq, globalObject_declare h]
    exact hn

theorem takesVariable_declare (h : m.HasGlobals) (hn : m.takesVariable n = true) :
    (m.declare name p).takesVariable n = true := by
  unfold takesVariable at hn ⊢
  rw [globalOwn?_declare h, globalObject_declare h]
  by_cases heq : n = name
  · rw [if_pos heq]
    rfl
  · rw [if_neg heq]
    exact hn

def functionProperty (m : Machine) (deletable : Bool) (name : Text) (v : Value) : Property :=
  match m.globalOwn? name with
  | some p => if p.configurable then ⟨v, true, true, deletable⟩ else ⟨v, p.writable, p.enumerable, false⟩
  | none => ⟨v, true, true, deletable⟩

def variableProperty (m : Machine) (deletable : Bool) (name : Text) : Property :=
  (m.globalOwn? name).getD ⟨.undefined, true, true, deletable⟩

theorem value_functionProperty (deletable : Bool) (v : Value) : (m.functionProperty deletable name v).value = v := by
  unfold functionProperty
  split
  · split <;> rfl
  · rfl

theorem functionProperty_takes (h : m.takesFunction name = true) (deletable : Bool) (v : Value) :
    let p := m.functionProperty deletable name v
    (p.configurable || (p.writable && p.enumerable)) = true := by
  unfold functionProperty
  unfold takesFunction at h
  cases hown : m.globalOwn? name with
  | none => simp
  | some p =>
    rw [hown] at h
    cases hc : p.configurable with
    | true => simp [hc]
    | false => simpa [hc] using h

theorem mayDefine_functionProperty (h : m.takesFunction name = true) (deletable : Bool) (v : Value) :
    Store.mayDefine m.globalObject.extensible (m.globalOwn? name) (m.functionProperty deletable name v) = true := by
  unfold functionProperty
  unfold takesFunction at h
  cases hown : m.globalOwn? name with
  | none =>
    rw [hown] at h
    exact h
  | some p =>
    rw [hown] at h
    cases hc : p.configurable with
    | true => simp [Store.mayDefine, hc]
    | false =>
      have hw : p.writable = true ∧ p.enumerable = true := by simpa [hc] using h
      simp [Store.mayDefine, hc, hw]

end Declare

end Machine

namespace VM

open Machine (HasGlobals)

section Creation

variable {m m' : Machine}

theorem demand_define (h : m.HasGlobals) {name : Text} {p : Property}
    (hp : Store.mayDefine m.globalObject.extensible (m.globalOwn? name) p = true) :
    (demand (Store.define m.realm.global (.text name) p true) >>= fun _ => declareVarName name) m =
      .ok () (m.declare name p) := by
  have hmade := Store.run_materialize_of_settled h.settled
  have hstored : Store.defineAllowed m.store m.realm.global (.text name) p = .ok (m.declare name p).store := by
    simp only [Store.defineAllowed, h.ordinary, Machine.declare, Machine.globalObject]
  have hrun : (Store.define m.realm.global (.text name) p true).run m.store = (.ok true, (m.declare name p).store) := by
    rw [Store.run_define, hmade, hstored]
    exact if_pos hp
  have hdemand : demand (Store.define m.realm.global (.text name) p true) m =
      .ok true (withStore m (m.declare name p).store) := by
    show (onStore _ >>= ofOutcome) m = _
    rw [bind_ok (onStore_eq _ m), hrun]
    rfl
  exact bind_ok hdemand

theorem createFunction_eq (h : m.HasGlobals) {name : Text} (hroom : m.takesFunction name = true) (deletable : Bool)
    (v : Value) :
    createFunction deletable name v m = .ok () (m.declare name (m.functionProperty deletable name v)) := by
  rw [← demand_define h (Machine.mayDefine_functionProperty hroom deletable v), createFunction,
    bind_ok (globalProperty?_eq h name), Machine.functionProperty]
  cases m.globalOwn? name <;> rfl

theorem createVariable_eq (h : m.HasGlobals) {name : Text} (hroom : m.takesVariable name = true) (deletable : Bool) :
    createVariable deletable name m = .ok () (m.declare name (m.variableProperty deletable name)) := by
  rw [createVariable, realm_bind, bind_ok (globalProperty?_eq h name), Machine.variableProperty]
  cases hown : m.globalOwn? name with
  | some p =>
    have hsame : m.store.setObject m.realm.global
        { m.globalObject with properties := m.globalObject.properties.insert (.text name) p } = m.store := by
      rw [h.globalOwn?_eq] at hown
      rw [PropertyTable.insert_of_find? hown]
      exact Store.setObject_self _ _
    rw [Option.getD_some, Machine.declare, hsame]
    rfl
  | none =>
    have hext : m.globalObject.extensible = true := by simpa [Machine.takesVariable, hown] using hroom
    show (onStore (Store.isExtensible m.realm.global) >>= _) m = _
    rw [bind_ok (isExtensible_eq h), hext]
    exact demand_define h (by rw [hown]; exact hext)

/-- Names have been declared as global properties, and the rest is as it was. -/
structure Declared (m : Machine) (names : List Text) (m' : Machine) : Prop where
  globals : m'.HasGlobals
  record : m'.globalRecord = m.globalRecord
  stack : m'.stack = m.stack
  extensible : m'.globalObject.extensible = m.globalObject.extensible
  own : ∀ name ∈ names, (m'.globalOwn? name).isSome = true
  others : ∀ name ∉ names, m'.globalOwn? name = m.globalOwn? name
  varNames : ∀ name, name ∈ m'.varNames ↔ name ∈ names ∨ name ∈ m.varNames

namespace Declared

theorem refl (h : m.HasGlobals) : Declared m [] m where
  globals := h
  record := rfl
  stack := rfl
  extensible := rfl
  own _ hname := absurd hname List.not_mem_nil
  others _ _ := rfl
  varNames _ := by simp

variable {names : List Text} {name : Text}

theorem kept (h : Declared m names m') (hname : (m.globalOwn? name).isSome = true) :
    (m'.globalOwn? name).isSome = true := by
  by_cases hmem : name ∈ names
  · exact h.own name hmem
  · rw [h.others name hmem]
    exact hname

theorem takesVariable (h : Declared m names m') (hname : m.takesVariable name = true) :
    m'.takesVariable name = true := by
  unfold Machine.takesVariable at hname ⊢
  rw [Bool.or_eq_true] at hname ⊢
  exact hname.imp h.kept h.extensible.trans

theorem cons {p : Property} (hm : m.HasGlobals)
    (h : Declared (m.declare name p) names m') : Declared m (name :: names) m' where
  globals := h.globals
  record := h.record
  stack := h.stack
  extensible := by rw [h.extensible, Machine.globalObject_declare hm]
  own := by
    refine List.forall_mem_cons.mpr ⟨h.kept ?_, h.own⟩
    rw [Machine.globalOwn?_declare hm, if_pos rfl]
    rfl
  others n hn := by
    rw [List.mem_cons, not_or] at hn
    rw [h.others n hn.2, Machine.globalOwn?_declare hm, if_neg hn.1]
  varNames n := by
    rw [h.varNames, Machine.mem_varNames_declare, List.mem_cons, or_left_comm, or_assoc]

end Declared

theorem createFunctions_declared (deletable : Bool) (l : List (Text × Value)) (h : m.HasGlobals)
    (hroom : ∀ e ∈ l, m.takesFunction e.1 = true) :
    ∃ m', createFunctions deletable l m = .ok () m' ∧ Declared m (l.map Prod.fst) m' ∧
      ∀ i name v, l[i]? = some (name, v) → name ∉ (l.drop (i + 1)).map Prod.fst →
        ∃ p, m'.globalOwn? name = some p ∧ p.value = v := by
  induction l generalizing m with
  | nil => exact ⟨m, rfl, .refl h, fun i name v hi => by cases hi⟩
  | cons e rest ih =>
    obtain ⟨name, v⟩ := e
    obtain ⟨hname, hrest⟩ := List.forall_mem_cons.mp hroom
    have hp := Machine.functionProperty_takes hname deletable v
    obtain ⟨m', hrun, hdeclared, hvalues⟩ := ih (Machine.hasGlobals_declare h name (m.functionProperty deletable name v))
      fun e he => Machine.takesFunction_declare h hp (hrest e he)
    refine ⟨m', ?_, hdeclared.cons h, fun i n w hi hlast => ?_⟩
    · rw [createFunctions, bind_ok (createFunction_eq h hname deletable v)]
      exact hrun
    · cases i with
      | zero =>
        cases hi
        refine ⟨m.functionProperty deletable name v, ?_, Machine.value_functionProperty deletable v⟩
        rw [hdeclared.others name hlast, Machine.globalOwn?_declare h, if_pos rfl]
      | succ i => exact hvalues i n w hi hlast

theorem createVariables_declared (deletable : Bool) (names : List Text) (h : m.HasGlobals)
    (hroom : ∀ name ∈ names, m.takesVariable name = true) :
    ∃ m', names.forM (createVariable deletable) m = .ok () m' ∧ Declared m names m' ∧
      ∀ name p, m.globalOwn? name = some p → m'.globalOwn? name = some p := by
  induction names generalizing m with
  | nil => exact ⟨m, rfl, .refl h, fun _ _ hp => hp⟩
  | cons name rest ih =>
    obtain ⟨hname, hrest⟩ := List.forall_mem_cons.mp hroom
    obtain ⟨m', hrun, hdeclared, hkept⟩ := ih (Machine.hasGlobals_declare h name (m.variableProperty deletable name))
      fun n hn => Machine.takesVariable_declare h (hrest n hn)
    refine ⟨m', ?_, hdeclared.cons h, fun n p hp => hkept n p ?_⟩
    · show (createVariable deletable name >>= fun _ => rest.forM (createVariable deletable)) m = _
      rw [bind_ok (createVariable_eq h hname deletable)]
      exact hrun
    · rw [Machine.globalOwn?_declare h]
      split
      case isTrue heq =>
        subst heq
        rw [Machine.variableProperty, hp]
        rfl
      case isFalse => exact hp

end Creation

/-! ### The instruction -/

/-- The names of a program have been declared, and its functions taken from the operands. -/
structure Instantiated (m : Machine) (b : GlobalBindings) (below operands : List Value) (m' : Machine) : Prop where
  stack : m'.stack.Holds below
  lexical : ∀ name ∈ b.lets ++ b.consts, m'.globalRecord.Unset name
  /-- A function has the operand that belongs to its last occurrence. -/
  functions : ∀ i name, b.funcs[i]? = some name → name ∉ b.funcs.drop (i + 1) →
    ∃ p, m'.globalOwn? name = some p ∧ operands[i]? = some p.value
  hoisted : ∀ name ∈ b.vars, (m'.globalOwn? name).isSome = true
  varNames : ∀ name, name ∈ m'.varNames ↔ name ∈ b.vars ∨ name ∈ b.funcs ∨ name ∈ m.varNames

section Instruction

variable {m m' : Machine} {b : GlobalBindings} {below operands : List Value}

theorem takes_congr (hm : m.HasGlobals) (hm' : m'.HasGlobals) (hobject : m'.globalObject = m.globalObject)
    (name : Text) : m'.takesFunction name = m.takesFunction name ∧ m'.takesVariable name = m.takesVariable name := by
  have hown : m'.globalOwn? name = m.globalOwn? name := by rw [hm.globalOwn?_eq, hm'.globalOwn?_eq, hobject]
  simp only [Machine.takesFunction, Machine.takesVariable, hown, hobject, and_self]

theorem createLexicals_unset (hm : m.HasGlobals) (lets consts : List Text)
    (hfree : ∀ name ∈ lets ++ consts, m.globalRecord.Free name) :
    ∃ σ, (∀ k : Unit → VM Unit, (do
        lets.forM (createLexical false)
        consts.forM (createLexical true) >>= k) m = k () (withStore m σ)) ∧
      (withStore m σ).HasGlobals ∧ (withStore m σ).globalObject = m.globalObject ∧
      ∀ name ∈ lets ++ consts, (withStore m σ).globalRecord.Unset name := by
  obtain ⟨σ₁, hlets, hobjects₁, hglobals₁, hrecord₁⟩ := forM_createLexical hm false lets
  obtain ⟨σ, hconsts, hobjects, hglobals, hrecord⟩ := forM_createLexical hglobals₁ true consts
  refine ⟨σ, fun k => ?_, hglobals, ?_, fun name hname => ?_⟩
  · rw [bind_ok hlets, bind_ok hconsts]
    rfl
  · show (σ.objects[m.realm.global.index]?).getD default = _
    rw [hobjects, show (withStore m σ₁).store.objects = m.store.objects from hobjects₁]
    rfl
  · change (withStore m σ).globalRecord = _ at hrecord
    rw [hrecord, hrecord₁]
    rcases List.mem_append.mp hname with hlet | hconst
    · have hunset := Scope.unset_createLexicals (fun n hn => hfree n (List.mem_append.mpr (.inl hn))) false
      exact (hunset name hlet).createLexicals consts true
    · refine Scope.unset_createLexicals (fun n hn => ?_) true name hconst
      exact (hfree n (List.mem_append.mpr (.inr hn))).createLexicals lets false

/-- What the checks let pass can be declared. -/
theorem create_of_admitted (hm : m.HasGlobals) (hstack : m.stack.Holds (below ++ operands))
    (hcount : operands.length = b.funcs.length) (hall : ∀ d ∈ declarations b, ∀ f, ¬ Inadmissible m d f) :
    ∃ m', declare b m = .ok () m' ∧ Instantiated m b below operands m' := by
  have hfree : ∀ name ∈ b.lets ++ b.consts, m.globalRecord.Free name := by
    intro name hname
    have hd : Declaration.lexical name ∈ declarations b := by
      rcases List.mem_append.mp hname with hname | hname <;> simp [declarations, hname]
    exact .inl (Option.not_isSome_iff_eq_none.mp fun hbound => hall _ hd _ (.boundLexical hbound))
  have hfuncs : ∀ name ∈ b.funcs, m.takesFunction name = true := fun name hname =>
    Bool.of_not_eq_false fun hfull => hall (.function name) (by simp [declarations, hname]) _ (.noFunction hfull)
  have hvars : ∀ name ∈ b.vars, m.takesVariable name = true := fun name hname =>
    Bool.of_not_eq_false fun hfull => hall (.variable name) (by simp [declarations, hname]) _ (.noVariable hfull)
  obtain ⟨σ, hlexical, hglobals, hobject, hunset⟩ := createLexicals_unset hm b.lets b.consts hfree
  obtain ⟨s, hpop, hs⟩ := hstack.popMany hcount.symm
  let m₁ : Machine := { withStore m σ with stack := s }
  have hpopped : popMany b.funcs.length (withStore m σ) = .ok operands m₁ := onStack_of_ok hpop
  have hm₁ : m₁.HasGlobals := ⟨hglobals.object, hglobals.ordinary, hglobals.record⟩
  have hzip : (b.funcs.zip operands).map Prod.fst = b.funcs := List.map_fst_zip (Nat.le_of_eq hcount.symm)
  obtain ⟨m₂, hrun₂, hfuncs₂, hvalues⟩ := createFunctions_declared b.deletable (b.funcs.zip operands) hm₁ fun e he =>
    (takes_congr hm hm₁ hobject e.1).1.trans (hfuncs e.1 (hzip ▸ List.mem_map_of_mem he))
  obtain ⟨m₃, hrun₃, hvars₃, hkept⟩ := createVariables_declared b.deletable b.vars hfuncs₂.globals fun name hname =>
    hfuncs₂.takesVariable ((takes_congr hm hm₁ hobject name).2.trans (hvars name hname))
  rw [hzip] at hfuncs₂
  refine ⟨{ m₃ with regs := { m₃.regs with pc := m₃.regs.pc + 1 } }, ?_, ?_, fun name hname => ?_,
    fun i name hi hlast => ?_, hvars₃.own, fun name => ?_⟩
  · rw [declare, hlexical, bind_ok hpopped, bind_ok hrun₂, bind_ok hrun₃]
    rfl
  · rw [hvars₃.stack, hfuncs₂.stack]
    exact hs
  · show m₃.globalRecord.Unset name
    rw [hvars₃.record, hfuncs₂.record]
    exact hunset name hname
  · obtain ⟨v, hv⟩ : ∃ v, operands[i]? = some v := by
      have hlt := (List.getElem?_eq_some_iff.mp hi).1
      exact ⟨_, List.getElem?_eq_getElem (hcount ▸ hlt)⟩
    have hpair : (b.funcs.zip operands)[i]? = some (name, v) := List.getElem?_zip_eq_some.mpr ⟨hi, hv⟩
    obtain ⟨p, hp, hvalue⟩ := hvalues i name v hpair (by rw [List.map_drop, hzip]; exact hlast)
    exact ⟨p, hkept name p hp, hvalue ▸ hv⟩
  · rw [hvars₃.varNames, hfuncs₂.varNames]
    rfl

end Instruction

/-- **Global declarations are all or nothing.**  If one of them is refused, the instruction raises a fault that says so
and changes nothing.  Otherwise it carries all of them out. -/
theorem bindGlobals_all_or_nothing {m : Machine} (hm : m.HasGlobals) (b : GlobalBindings) {below operands : List Value}
    (hstack : m.stack.Holds (below ++ operands)) (hcount : operands.length = b.funcs.length) :
    (∃ d ∈ declarations b, ∃ f, Inadmissible m d f ∧ bindGlobals b m = .error (.fault f) m) ∨
    (∀ d ∈ declarations b, ∀ f, ¬ Inadmissible m d f) ∧
      ∃ m', bindGlobals b m = .ok () m' ∧ Instantiated m b below operands m' := by
  rcases bindGlobals_decides hm b with ⟨heq, hall⟩ | hrefused
  · obtain ⟨m', hrun, hdone⟩ := create_of_admitted hm hstack hcount hall
    exact .inr ⟨hall, m', heq.trans hrun, hdone⟩
  · exact .inl hrefused

/-- A new machine with two operands. -/
def withTwoFunctions : Machine :=
  { Machine.new .default with stack := (OperandStack.new.push (.bool true)).push (.bool false) }

/-- A program that declares one function twice, and its name also as a variable. -/
def declaringTwice : GlobalBindings := ⟨[.ofUnits [120]], [.ofUnits [120], .ofUnits [120]], [.ofUnits [121]], [], false⟩

theorem bindGlobals_all_or_nothing_twice :
    withTwoFunctions.HasGlobals ∧ withTwoFunctions.stack.Holds ([] ++ [.bool true, .bool false]) ∧
    ∃ m', bindGlobals declaringTwice withTwoFunctions = .ok () m' ∧
      Instantiated withTwoFunctions declaringTwice [] [.bool true, .bool false] m' ∧
      (m'.globalOwn? (.ofUnits [120])).map (·.value) = some (.bool false) := by
  have hnew := Machine.hasGlobals_new .default
  have hm : withTwoFunctions.HasGlobals := ⟨hnew.object, hnew.ordinary, hnew.record⟩
  have hstack : withTwoFunctions.stack.Holds ([] ++ [.bool true, .bool false]) := ⟨rfl, rfl⟩
  refine ⟨hm, hstack, ?_⟩
  rcases bindGlobals_all_or_nothing hm declaringTwice hstack rfl with ⟨d, hd, f, hf, -⟩ | ⟨-, m', hrun, h⟩
  · -- A new realm binds neither name, and its global object is extensible.
    have hnames : d = .function (.ofUnits [120]) ∨ d = .lexical (.ofUnits [121]) ∨ d = .variable (.ofUnits [120]) := by
      simpa [declarations, declaringTwice] using hd
    have hfunction : withTwoFunctions.takesFunction (.ofUnits [120]) = true := rfl
    have hvariable : withTwoFunctions.takesVariable (.ofUnits [120]) = true := rfl
    have hown : withTwoFunctions.globalOwn? (.ofUnits [121]) = none := rfl
    rcases hnames with rfl | rfl | rfl
    · cases hf with
      | boundFunction bound => cases bound
      | noFunction full => cases hfunction.symm.trans full
    · cases hf with
      | hoistedLexical hoisted => cases hoisted
      | boundLexical bound => cases bound
      | permanentLexical present => cases hown.symm.trans present
    · cases hf with
      | noVariable full => cases hvariable.symm.trans full
      | boundVariable bound => cases bound
  · obtain ⟨p, hp, hvalue⟩ := h.functions 1 (.ofUnits [120]) rfl List.not_mem_nil
    refine ⟨m', hrun, h, ?_⟩
    rw [hp]
    exact hvalue.symm

end VM

end ScriptMachine
