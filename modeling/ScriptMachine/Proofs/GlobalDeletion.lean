import ScriptMachine.Proofs.GlobalAssignment

/-!
# Deletions of global names

A global name is deleted by an instruction that walks along the records, or by one that asks the global object at once.
What they look at differs: only the first sees the global record, and only the second takes the name off the list of those
declared as variables.

Main result: `global_deletions_compared`.
-/

namespace ScriptMachine

/-! ### What becomes of the global object -/

theorem PropertyTable.erase_of_find? {t : PropertyTable} {key : PropertyKey} (h : t.find? key = none) :
    t.erase key = t := by
  refine congrArg PropertyTable.mk (List.filter_eq_self.mpr fun e he => ?_)
  have habsent := Option.map_eq_none_iff.mp h
  simpa using List.find?_eq_none.mp habsent e he

namespace Machine

/-- The global object has a property of this name that cannot be deleted. -/
def keepsGlobal (m : Machine) (name : Text) : Bool := (m.globalOwn? name).any fun p => !p.configurable

/-- The global object has the name, itself or through its prototypes, and a deletion is not refused. -/
def givesUpGlobal (m : Machine) (name : Text) : Bool :=
  ((Store.has m.realm.global (.text name)).run m.store).1 && !m.keepsGlobal name

def globalWithout (m : Machine) (name : Text) : Object :=
  if m.keepsGlobal name then m.globalObject
  else { m.globalObject with properties := m.globalObject.properties.erase (.text name) }

/-- The name no longer counts as a variable. -/
def forget (m : Machine) (name : Text) : Machine := { m with varNames := m.varNames.filter (· ≠ name) }

def answered (m : Machine) (answer : Bool) : Machine := { m with stack := m.stack.push (.bool answer) }.advanced

section Keeping

variable {m : Machine} {name : Text}

theorem keepsGlobal_iff : m.keepsGlobal name = true ↔ ∃ p, m.globalOwn? name = some p ∧ p.configurable = false := by
  rw [keepsGlobal, Option.any_eq_true]
  simp

theorem deletion_global (hm : m.HasGlobals) (name : Text) :
    Store.deletion m.globalObject (.text name) = (!m.keepsGlobal name, m.globalWithout name) := by
  have htable : m.globalObject.InTable (.text name) := by
    simp only [Object.InTable, globalObject, hm.ordinary]
  unfold globalWithout keepsGlobal Store.deletion
  rw [Store.deleteByKind_of_inTable htable, hm.globalOwn?_eq]
  cases hfind : m.globalObject.properties.find? (.text name) with
  | none =>
    rw [PropertyTable.erase_of_find? hfind]
    rfl
  | some p =>
    cases hp : p.configurable <;> simp [hp]

theorem globalWithout_of_unknown (hm : m.HasGlobals) (h : ¬ m.store.HasProperty m.realm.global (.text name)) :
    m.keepsGlobal name = false ∧ m.globalWithout name = m.globalObject := by
  have hown : m.globalOwn? name = none := by
    by_contra hsome
    obtain ⟨p, hp⟩ := Option.ne_none_iff_exists'.mp hsome
    exact h (VM.hasProperty_of_own hp)
  have hkeeps : m.keepsGlobal name = false := by rw [keepsGlobal, hown, Option.any_none]
  refine ⟨hkeeps, ?_⟩
  rw [hm.globalOwn?_eq] at hown
  rw [globalWithout, hkeeps, PropertyTable.erase_of_find? hown]
  rfl

end Keeping

end Machine

namespace VM

open Machine (HasGlobals AtTopLevel SameGlobals)
open Store

section Deleting

variable {m m₁ m₂ : Machine} {name : Text}

theorem delete_global (hm : m.HasGlobals) (name : Text) :
    demand (delete m.realm.global (.text name) false) m = .ok (!m.keepsGlobal name)
      (withStore m (m.store.setObject m.realm.global (m.globalWithout name))) := by
  have hrun : (delete m.realm.global (.text name) false).run m.store =
      (.ok (!m.keepsGlobal name), m.store.setObject m.realm.global (m.globalWithout name)) := by
    rw [run_delete, run_materialize_of_settled hm.settled, ← Machine.globalObject, Machine.deletion_global hm]
    simp [granted]
  show (onStore _ >>= ofOutcome) m = _
  rw [bind_ok (onStore_of_run hrun)]
  rfl

theorem run_has_of_own (hm : m.HasGlobals) {p : Property} (hp : m.globalOwn? name = some p) :
    (has m.realm.global (.text name)).run m.store = (true, m.store) := by
  have hround : (findRound (.text name) m.realm.global).run m.store = (.inr (some p), m.store) := by
    rw [Machine.globalOwn?, own_eq] at hp
    unfold findRound
    rw [run_bind, run_get_bind, run_made_eq, run_materialize_of_settled hm.settled]
    rw [hp]
    rfl
  obtain ⟨n, hn⟩ : ∃ n, m.store.objects.size = n + 1 := Nat.exists_eq_succ_of_ne_zero (Nat.ne_zero_of_lt hm.object)
  have hfind : (Store.find? m.realm.global (.text name)).run m.store = (some p, m.store) := by
    show (findWithin (.text name) m.store.objects.size m.realm.global).run m.store = _
    rw [hn, findWithin_succ, run_bind, hround]
    rfl
  unfold has
  rw [run_bind, hfind]
  rfl

theorem deleteFromGlobal_eq (hm : m.HasGlobals) (name : Text) :
    ∃ σ, deleteFromGlobal name m = .ok (!m.keepsGlobal name) (withStore m σ) ∧ (withStore m σ).HasGlobals ∧
      (withStore m σ).globalRecord = m.globalRecord ∧ (withStore m σ).globalObject = m.globalWithout name ∧
      (m.keepsGlobal name = true → σ = m.store) := by
  by_cases hknown : m.store.HasProperty m.realm.global (.text name)
  · have hmade := (reads_has m.realm.global (.text name) m.store).1
    have hkept : m.keepsGlobal name = true → ((has m.realm.global (.text name)).run m.store).2 = m.store := by
      intro hkeeps
      obtain ⟨p, hp, -⟩ := Machine.keepsGlobal_iff.mp hkeeps
      rw [run_has_of_own hm hp]
    have hdelete := deleteFromGlobal_of_has hknown
    generalize ((has m.realm.global (.text name)).run m.store).2 = σ at hmade hkept hdelete
    have hready : Ready m (withStore m σ) := ⟨rfl, rfl, hmade⟩
    have hm' := hready.hasGlobals hm
    have hobject := hready.object hm
    have hkeeps : (withStore m σ).keepsGlobal name = m.keepsGlobal name := by
      rw [Machine.keepsGlobal, Machine.keepsGlobal, hm'.globalOwn?_eq, hm.globalOwn?_eq, hobject]
    have hwithout : (withStore m σ).globalWithout name = m.globalWithout name := by
      rw [Machine.globalWithout, Machine.globalWithout, hkeeps, hobject]
    have hdeleted : (withStore m (σ.setObject m.realm.global (m.globalWithout name))).globalObject = m.globalWithout name :=
      (object_setObject hm'.object _ _).trans (if_pos rfl)
    refine ⟨σ.setObject m.realm.global (m.globalWithout name), ?_, ⟨?_, ?_, hm'.record⟩, hready.record, hdeleted,
      fun hkept' => ?_⟩
    · have hrun := delete_global hm' name
      rw [hkeeps, hwithout] at hrun
      exact hdelete.trans hrun
    · show _ < (σ.objects.setIfInBounds _ _).size
      rw [Array.size_setIfInBounds]
      exact hm'.object
    · rw [← Machine.globalObject, hdeleted, Machine.globalWithout]
      split <;> exact hm.ordinary
    · rw [hkept hkept', Machine.globalWithout, if_pos hkept', Machine.globalObject, setObject_self]
  · have hmade := (reads_has m.realm.global (.text name) m.store).1
    have hready : Ready m (withStore m ((has m.realm.global (.text name)).run m.store).2) := ⟨rfl, rfl, hmade⟩
    obtain ⟨hkeeps, hsame⟩ := Machine.globalWithout_of_unknown hm hknown
    refine ⟨_, ?_, hready.hasGlobals hm, hready.record, (hready.object hm).trans hsame.symm, fun hkept => ?_⟩
    · rw [deleteFromGlobal_of_has (Bool.eq_false_iff.mpr hknown), hkeeps]
      rfl
    · rw [hkeeps] at hkept
      cases hkept

/-- The instruction that asks the global object takes the name off the list of variables, if the object gives it up. -/
theorem deleteGlobal_eq (h : deleteFromGlobal name m = .ok (!m.keepsGlobal name) m₁) :
    deleteGlobal name m = .ok () (if m.givesUpGlobal name then (m₁.answered (!m.keepsGlobal name)).forget name
      else m₁.answered (!m.keepsGlobal name)) := by
  unfold deleteFromGlobal at h
  unfold deleteGlobal Machine.givesUpGlobal
  rw [realm_bind, bind_ok (onStore_eq _ m)] at h ⊢
  cases hknown : ((has m.realm.global (.text name)).run m.store).1 with
  | true =>
    rw [hknown, if_pos rfl] at h
    rw [if_pos rfl, bind_ok h]
    cases m.keepsGlobal name <;> rfl
  | false =>
    rw [hknown] at h
    generalize (!m.keepsGlobal name) = answer at h ⊢
    cases h
    rfl

/-- At top level the walk ends in the global record, and finds the name if it is bound there. -/
theorem run_provider_at_top (hm : m.AtTopLevel) (name : Text) :
    (providerWithin name m.store.scopes.size m.regs.scope).run m.store =
      (if (m.globalRecord.find? name).isSome then some m.realm.globalScope else none, m.store) := by
  obtain ⟨n, hn⟩ : ∃ n, m.store.scopes.size = n + 1 := Nat.exists_eq_succ_of_ne_zero (Nat.ne_zero_of_lt hm.record)
  have hprovides := recordProvides_of_slots hm.slotBacked name
  rw [hn, hm.scope]
  by_cases hbound : m.store.Provides name m.realm.globalScope
  · have hsome : (m.globalRecord.find? name).isSome = true := by
      rw [Provides, hprovides] at hbound
      exact hbound
    rw [run_providerWithin_of_provides hbound, hprovides, if_pos hsome]
  · have hnone : ¬ (m.globalRecord.find? name).isSome = true := by
      rw [Provides, hprovides] at hbound
      exact hbound
    have houter : (m.store.scope m.realm.globalScope).outer = none := hm.outermost
    rw [run_providerWithin_of_not_provides hbound, hprovides, if_neg hnone, houter]
    rfl

theorem deleteName_of_unbound {answer : Bool} (hm : m.AtTopLevel) (hname : m.globalRecord.find? name = none)
    (h : deleteFromGlobal name m = .ok answer m₁) : deleteName name m = .ok () (m₁.answered answer) := by
  rw [deleteName_of_run (run_provider_at_top hm name), hname]
  exact bind_ok h

def recordWithout (x : Scope) (name : Text) (info : SlotInfo) : Scope :=
  if info.kind = .hoisted true then x.deleteBinding name else x

/-- A name that the record binds is deleted there, if it is a variable of evaluated code. -/
theorem deleteName_of_bound {info : SlotInfo} (hm : m.AtTopLevel) (hname : m.globalRecord.find? name = some info) :
    ∃ σ, deleteName name m = .ok () ((withStore m σ).answered (decide (info.kind = .hoisted true))) ∧
      (withStore m σ).globalRecord = recordWithout m.globalRecord name info ∧
      (info.kind ≠ .hoisted true → σ = m.store) := by
  have hbacked : (m.store.scope m.realm.globalScope).object = none := hm.slotBacked
  have hfind : (m.store.scope m.realm.globalScope).find? name = some info := hname
  have hdelete : deleteName name m =
      (do pushNext (.bool (← deleteFromScope m.realm.globalScope name))) m := by
    rw [deleteName_of_run (run_provider_at_top hm name), hname]
    rfl
  by_cases hkind : info.kind = .hoisted true
  · refine ⟨m.store.modifyScope m.realm.globalScope (·.deleteBinding name), ?_, ?_, fun hne => absurd hkind hne⟩
    · have hscope : deleteFromScope m.realm.globalScope name m =
          .ok true (withStore m (m.store.modifyScope m.realm.globalScope (·.deleteBinding name))) := by
        rw [deleteFromScope, scopeRecord_bind, hbacked, hfind]
        rw [Option.any_some, hkind]
        rfl
      rw [hdelete, bind_ok hscope, hkind]
      rfl
    · rw [recordWithout, if_pos hkind]
      exact scope_modifyScope hm.record _
  · refine ⟨m.store, ?_, ?_, fun _ => rfl⟩
    · have hscope : deleteFromScope m.realm.globalScope name m = .ok false m := by
        rw [deleteFromScope, scopeRecord_bind, hbacked, hfind]
        rw [Option.any_some, decide_eq_false hkind]
        rfl
      rw [hdelete, bind_ok hscope, decide_eq_false hkind]
      rfl
    · rw [recordWithout, if_neg hkind]
      rfl

end Deleting

/-! ### When the answers and the globals are the same -/

/-- Two deletions push the same answer and leave the same global record, the same global object and the same names
declared as variables. -/
structure SameDeletion (m₁ m₂ : Machine) : Prop extends m₁.SameGlobals m₂ where
  stack : m₂.stack = m₁.stack
  varNames : ∀ n, n ∈ m₂.varNames ↔ n ∈ m₁.varNames

end VM

/-- A deletion along the records and one from the global object come to the same: if the record does not bind the name,
when there is no declaration of a variable to be forgotten; if it does, when both refuse. -/
def Machine.DeletesAlike (m : Machine) (name : Text) : Prop :=
  match m.globalRecord.find? name with
  | none => name ∈ m.varNames → m.givesUpGlobal name = false
  | some info => info.kind ≠ .hoisted true ∧ m.keepsGlobal name = true

theorem Scope.deleteBinding_ne {x : Scope} {name : Text} {info : SlotInfo} (h : x.find? name = some info) :
    x.deleteBinding name ≠ x := by
  intro heq
  have hnone : (x.deleteBinding name).find? name = none := by rw [find?_deleteBinding, if_pos rfl]
  rw [heq, h] at hnone
  cases hnone

namespace VM

section Comparing

variable {m m' : Machine} {name : Text}

theorem forget_of_not_mem (h : name ∉ m.varNames) : m.forget name = m := by
  have hsame : m.varNames.filter (· ≠ name) = m.varNames :=
    List.filter_eq_self.mpr fun n hn => by simpa using fun heq : n = name => h (heq ▸ hn)
  rw [Machine.forget, hsame]

theorem mem_varNames_forget {n : Text} : n ∈ (m.forget name).varNames ↔ n ∈ m.varNames ∧ n ≠ name := by
  simp [Machine.forget]

section Outcomes

variable {σ σ' : Store}

theorem sameDeletion_iff_of_unbound (hname : m.globalRecord.find? name = none) :
    let m₁ := (withStore m σ).answered (!m.keepsGlobal name)
    let m₂ := if m.givesUpGlobal name then m₁.forget name else m₁
    (SameDeletion m₁ m₂ ↔ m.DeletesAlike name) ∧ (m.DeletesAlike name → m₁ = m₂) := by
  intro m₁ m₂
  have heq : m.DeletesAlike name → m₁ = m₂ := by
    intro halike
    simp only [Machine.DeletesAlike, hname] at halike
    show m₁ = if m.givesUpGlobal name then m₁.forget name else m₁
    by_cases hmem : name ∈ m.varNames
    · rw [halike hmem]
      rfl
    · rw [forget_of_not_mem (m := m₁) hmem, ite_self]
  refine ⟨⟨fun hsame => ?_, fun halike => ?_⟩, heq⟩
  · simp only [Machine.DeletesAlike, hname]
    intro hmem
    by_contra hgives
    have hforgot : m₂ = m₁.forget name := if_pos (by simpa using hgives)
    have hstill := (hsame.varNames name).mpr hmem
    rw [hforgot, mem_varNames_forget] at hstill
    exact hstill.2 rfl
  · rw [← heq halike]
    exact ⟨.refl m₁, rfl, fun _ => Iff.rfl⟩

theorem sameDeletion_iff_of_bound {info : SlotInfo} (hname : m.globalRecord.find? name = some info)
    (hrecord : (withStore m σ).globalRecord = m.globalRecord) (hkept : m.keepsGlobal name = true → σ = m.store)
    (hrecord' : (withStore m σ').globalRecord = recordWithout m.globalRecord name info)
    (hkept' : info.kind ≠ .hoisted true → σ' = m.store) :
    let m₁ := (withStore m σ').answered (decide (info.kind = .hoisted true))
    let m₀ := (withStore m σ).answered (!m.keepsGlobal name)
    let m₂ := if m.givesUpGlobal name then m₀.forget name else m₀
    (SameDeletion m₁ m₂ ↔ m.DeletesAlike name) ∧ (m.DeletesAlike name → m₁ = m₂) := by
  intro m₁ m₀ m₂
  have heq : m.DeletesAlike name → m₁ = m₂ := by
    intro halike
    simp only [Machine.DeletesAlike, hname] at halike
    obtain ⟨hkind, hkeeps⟩ := halike
    have hgives : m.givesUpGlobal name = false := by rw [Machine.givesUpGlobal, hkeeps, Bool.not_true, Bool.and_false]
    show (withStore m σ').answered _ = if m.givesUpGlobal name then m₀.forget name else (withStore m σ).answered _
    rw [hgives, hkept hkeeps, hkept' hkind, hkeeps, decide_eq_false hkind]
    rfl
  refine ⟨⟨fun hsame => ?_, fun halike => ?_⟩, heq⟩
  · have hrecord₂ : m₂.globalRecord = m.globalRecord := by
      show (if m.givesUpGlobal name then m₀.forget name else m₀).globalRecord = _
      split <;> exact hrecord
    have hstack₂ : m₂.stack = m.stack.push (.bool (!m.keepsGlobal name)) := by
      show (if m.givesUpGlobal name then m₀.forget name else m₀).stack = _
      split <;> rfl
    have hkind : info.kind ≠ .hoisted true := by
      intro hkind
      have hdeleted : m₁.globalRecord = m.globalRecord.deleteBinding name := by
        show (withStore m σ').globalRecord = _
        rw [hrecord', recordWithout, if_pos hkind]
      exact Scope.deleteBinding_ne hname (hdeleted.symm.trans (hsame.record.symm.trans hrecord₂))
    have hanswer := Value.bool.inj (OperandStack.push_injective (hstack₂.symm.trans hsame.stack))
    rw [decide_eq_false hkind] at hanswer
    simp only [Machine.DeletesAlike, hname]
    exact ⟨hkind, by simpa using hanswer⟩
  · rw [← heq halike]
    exact ⟨.refl m₁, rfl, fun _ => Iff.rfl⟩

end Outcomes

end Comparing

/-! ### Later declarations -/

section Declaring

variable {m : Machine} {name : Text} {d : Declaration} {f : Fault}

/-- Only a lexical declaration of a name asks whether it counts as a variable. -/
theorem Inadmissible.withNames (h : Inadmissible m d f) {names : List Text}
    (hnames : ∀ n, d = .lexical n → n ∈ m.varNames → n ∈ names) : Inadmissible { m with varNames := names } d f := by
  cases h with
  | boundFunction bound => exact .boundFunction bound
  | noFunction full => exact .noFunction full
  | hoistedLexical hoisted => exact .hoistedLexical (hnames _ rfl hoisted)
  | boundLexical bound => exact .boundLexical bound
  | permanentLexical present permanent => exact .permanentLexical present permanent
  | noVariable full => exact .noVariable full
  | boundVariable bound => exact .boundVariable bound

theorem inadmissible_forget (hd : d ≠ .lexical name) :
    Inadmissible (m.forget name) d f ↔ Inadmissible m d f where
  mp h := h.withNames fun _ _ hn => (mem_varNames_forget.mp hn).1
  mpr h := h.withNames fun n hlexical hn => mem_varNames_forget.mpr ⟨hn, fun heq : n = name => hd (heq ▸ hlexical)⟩

theorem bindGlobals_of_variable {b : GlobalBindings} (hm : m.HasGlobals) (hname : name ∈ m.varNames)
    (hb : name ∈ b.lets ++ b.consts) : ∃ f, bindGlobals b m = .error (.fault f) m := by
  rcases bindGlobals_decides hm b with ⟨-, hall⟩ | ⟨d, hd, f, hf, heq⟩
  · refine absurd (.hoistedLexical hname) (hall (.lexical name) ?_ _)
    rcases List.mem_append.mp hb with hlet | hconst <;> simp [declarations, *]
  · exact ⟨f, heq⟩

end Declaring

end VM

def GlobalBindings.lexical (name : Text) : GlobalBindings := ⟨[], [], [name], [], false⟩

namespace VM

theorem bindGlobals_lexical {m : Machine} {name : Text} (hm : m.HasGlobals) (hstack : m.stack.top ≤ m.stack.slots.size)
    (hnew : name ∉ m.varNames) (hbound : m.globalRecord.find? name = none) (hown : m.globalOwn? name = none) :
    ∃ m', bindGlobals (.lexical name) m = .ok () m' ∧ m'.globalRecord.Unset name := by
  have hfree : ∀ d ∈ declarations (.lexical name), ∀ f, ¬ Inadmissible m d f := by
    intro d hd f hf
    obtain rfl : d = .lexical name := by simpa [declarations, GlobalBindings.lexical] using hd
    cases hf with
    | hoistedLexical hoisted => exact hnew hoisted
    | boundLexical bound => simp [hbound] at bound
    | permanentLexical present => cases hown.symm.trans present
  have hholds : m.stack.Holds (m.stack.toList ++ []) := by
    rw [List.append_nil]
    exact OperandStack.holds_toList hstack
  obtain ⟨m', hrun, hdone⟩ := create_of_admitted hm hholds rfl hfree
  rcases bindGlobals_decides hm (.lexical name) with ⟨heq, -⟩ | ⟨d, hd, f, hf, -⟩
  · exact ⟨m', heq.trans hrun, hdone.lexical name (List.mem_singleton_self name)⟩
  · exact absurd hf (hfree d hd f)

/-! ### The instructions -/

/-- **Deletions of a global name compared.**  At top level both instructions push an answer.  They push the same answer
and leave the same globals exactly when `DeletesAlike`, and then they leave the same machine, so that nothing later tells
them apart.  If the global record does not bind the name, the same declarations are admitted after both, but for a lexical
one of the name.  If the deletions differ, that one is refused after the deletion along the records and carried out after
the deletion from the global object. -/
theorem global_deletions_compared (enter : Enter) (fuel : Nat) {m : Machine} (hm : m.AtTopLevel) (name : Text) :
    ∃ m₁ m₂, execute enter fuel (.deleteName name) m = .ok () m₁ ∧
      execute enter fuel (.deleteGlobal name) m = .ok () m₂ ∧
      (SameDeletion m₁ m₂ ↔ m.DeletesAlike name) ∧ (SameDeletion m₁ m₂ → m₁ = m₂) ∧
      (m.globalRecord.find? name = none →
        (∀ d f, d ≠ .lexical name → (Inadmissible m₂ d f ↔ Inadmissible m₁ d f)) ∧
        (¬ m.DeletesAlike name →
          (∀ b : GlobalBindings, name ∈ b.lets ++ b.consts →
            ∃ f, execute enter fuel (.bindGlobals b) m₁ = .error (.fault f) m₁) ∧
          ∃ m₃, execute enter fuel (.bindGlobals (.lexical name)) m₂ = .ok () m₃ ∧ m₃.globalRecord.Unset name)) := by
  obtain ⟨σ, hdelete, hglobals, hrecord, hobject, hkept⟩ := deleteFromGlobal_eq hm.toHasGlobals name
  have hsecond := deleteGlobal_eq hdelete
  cases hname : m.globalRecord.find? name with
  | some info =>
    obtain ⟨σ', hfirst, hrecord', hkept'⟩ := deleteName_of_bound hm hname
    obtain ⟨hiff, heq⟩ := sameDeletion_iff_of_bound hname hrecord hkept hrecord' hkept'
    exact ⟨_, _, hfirst, hsecond, hiff, fun hsame => heq (hiff.mp hsame), fun hnone => nomatch hnone⟩
  | none =>
    have hfirst := deleteName_of_unbound hm hname hdelete
    obtain ⟨hiff, heq⟩ := sameDeletion_iff_of_unbound hname
    refine ⟨_, _, hfirst, hsecond, hiff, fun hsame => heq (hiff.mp hsame), fun _ => ⟨fun d f hd => ?_, fun hdiffer => ?_⟩⟩
    · split
      · exact inadmissible_forget hd
      · exact Iff.rfl
    · -- the name is a variable that the global object gives up
      simp only [Machine.DeletesAlike, hname, Classical.not_imp, Bool.not_eq_false] at hdiffer
      obtain ⟨hmem, hgives⟩ := hdiffer
      have hglobals₁ : ((withStore m σ).answered (!m.keepsGlobal name)).HasGlobals :=
        ⟨hglobals.object, hglobals.ordinary, hglobals.record⟩
      refine ⟨fun b hb => bindGlobals_of_variable hglobals₁ hmem hb, ?_⟩
      rw [if_pos hgives]
      have hglobals₂ : (((withStore m σ).answered (!m.keepsGlobal name)).forget name).HasGlobals :=
        ⟨hglobals.object, hglobals.ordinary, hglobals.record⟩
      have hkeeps : m.keepsGlobal name = false := by
        rw [Machine.givesUpGlobal, Bool.and_eq_true] at hgives
        simpa using hgives.2
      refine bindGlobals_lexical hglobals₂ (OperandStack.top_push_le _ _) (fun h => (mem_varNames_forget.mp h).2 rfl)
        (hrecord ▸ hname) ?_
      rw [hglobals₂.globalOwn?_eq]
      show (withStore m σ).globalObject.properties.find? (.text name) = none
      rw [hobject, Machine.globalWithout, hkeeps]
      simp

theorem atTopLevel_declare {m : Machine} (hm : m.AtTopLevel) (name : Text) (p : Property) :
    (m.declare name p).AtTopLevel :=
  ⟨Machine.hasGlobals_declare hm.toHasGlobals name p, hm.scope, hm.slotBacked, hm.outermost⟩

def declaredVariable : Machine := (Machine.new .default).declare (.ofUnits [120]) ⟨.undefined, true, true, true⟩

/-- Deleted along the records, the variable cannot be declared lexically; deleted from the global object, it can. -/
theorem global_deletions_compared_variable :
    declaredVariable.AtTopLevel ∧ ∃ m₁ m₂, deleteName (.ofUnits [120]) declaredVariable = .ok () m₁ ∧
      deleteGlobal (.ofUnits [120]) declaredVariable = .ok () m₂ ∧ ¬ SameDeletion m₁ m₂ ∧
      (∃ f, bindGlobals (.lexical (.ofUnits [120])) m₁ = .error (.fault f) m₁) ∧
      ∃ m₃, bindGlobals (.lexical (.ofUnits [120])) m₂ = .ok () m₃ := by
  have hnew := Machine.atTopLevel_new .default
  have hm : declaredVariable.AtTopLevel := atTopLevel_declare hnew _ _
  have hname : declaredVariable.globalRecord.find? (.ofUnits [120]) = none := rfl
  have hown : declaredVariable.globalOwn? (.ofUnits [120]) = some ⟨.undefined, true, true, true⟩ :=
    (Machine.globalOwn?_declare hnew.toHasGlobals _ _ _).trans (if_pos rfl)
  have hgives : declaredVariable.givesUpGlobal (.ofUnits [120]) = true := by
    rw [Machine.givesUpGlobal, run_has_of_own hm.toHasGlobals hown, Machine.keepsGlobal, hown]
    rfl
  have hdiffer : ¬ declaredVariable.DeletesAlike (.ofUnits [120]) := by
    simp only [Machine.DeletesAlike, hname, hgives]
    exact fun halike => Bool.noConfusion (halike (Machine.mem_varNames_declare.mpr (.inl rfl)))
  obtain ⟨m₁, m₂, hfirst, hsecond, hiff, -, hlater⟩ :=
    global_deletions_compared (fun _ => outOfFuel) 0 hm (.ofUnits [120])
  obtain ⟨hrefused, m₃, hdone, -⟩ := (hlater hname).2 hdiffer
  exact ⟨hm, m₁, m₂, hfirst, hsecond, fun hsame => hdiffer (hiff.mp hsame),
    hrefused _ (List.mem_append_left _ (List.mem_singleton_self _)), m₃, hdone⟩

end VM

end ScriptMachine
