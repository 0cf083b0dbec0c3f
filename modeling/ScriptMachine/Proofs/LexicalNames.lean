import ScriptMachine.Scope

/-!
# Names that a record binds lexically

What each change of a record makes of them: only `Scope.createLexical` adds such a name, and none is lost.
-/

namespace ScriptMachine.Scope

def lexical? (s : Scope) (name : Text) : Option SlotInfo := (s.find? name).filter (·.kind.isLexical)

variable {s : Scope} {name n : Text} {s' : Scope} {info : SlotInfo} {v : Value}

theorem lexical?_of_names (h : s'.names = s.names) (name : Text) : s'.lexical? name = s.lexical? name := by
  rw [lexical?, lexical?, find?, find?, h]

theorem find?_create (hfree : s.find? name = none) (kind : BindingKind) (v : Value) (n : Text) :
    (s.create name kind v).find? n = if n = name then some ⟨s.slots.size, kind⟩ else s.find? n := by
  unfold create
  rw [hfree]
  exact find?_bindName _ name n _

theorem create_of_bound (hbound : (s.find? name).isSome = true) (kind : BindingKind) (v : Value) :
    s.create name kind v = s := if_pos hbound

theorem lexical?_createVar (name : Text) (deletable : Bool) (n : Text) :
    (s.createVar name deletable).lexical? n = s.lexical? n := by
  cases hfind : s.find? name with
  | some info => rw [createVar, create_of_bound (by rw [hfind]; rfl)]
  | none =>
    rw [lexical?, createVar, find?_create hfind]
    split
    case isTrue hn =>
      rw [hn, lexical?, hfind]
      rfl
    case isFalse => rfl

theorem lexical?_createVars (names : List Text) (deletable : Bool) (n : Text) :
    (names.foldl (fun x name => x.createVar name deletable) s).lexical? n = s.lexical? n := by
  induction names generalizing s with
  | nil => rfl
  | cons name names ih => rw [List.foldl_cons, ih, lexical?_createVar]

theorem eq_or_of_createLexical {isConstant : Bool}
    (h : (s.createLexical name isConstant).lexical? n = some info) : n = name ∨ s.lexical? n = some info := by
  cases hfind : s.find? name with
  | some found =>
    rw [createLexical, create_of_bound (by rw [hfind]; rfl)] at h
    exact .inr h
  | none =>
    rw [lexical?, createLexical, find?_create hfind] at h
    split at h
    case isTrue hn => exact .inl hn
    case isFalse => exact .inr h

theorem lexical?_createLexical (h : s.lexical? n = some info) (name : Text) (isConstant : Bool) :
    (s.createLexical name isConstant).lexical? n = some info := by
  cases hfind : s.find? name with
  | some found =>
    rw [createLexical, create_of_bound (by rw [hfind]; rfl)]
    exact h
  | none =>
    rw [lexical?, createLexical, find?_create hfind]
    split
    case isTrue hn =>
      rw [hn, lexical?, hfind] at h
      cases h
    case isFalse => exact h

theorem find?_deleteBinding (s : Scope) (name n : Text) :
    (s.deleteBinding name).find? n = if n = name then none else s.find? n := by
  unfold deleteBinding
  cases hfind : s.find? name with
  | none =>
    show s.find? n = _
    split
    case isTrue hn => rw [hn, hfind]
    case isFalse => rfl
  | some info =>
    cases hnames : s.names with
    | none =>
      rw [find?, hnames] at hfind
      cases hfind
    | some names => simpa [find?, hnames] using names.find?_erase name n

theorem lexical?_deleteBinding (hfind : s.find? name = some info) (hkind : info.kind.isLexical = false)
    (n : Text) : (s.deleteBinding name).lexical? n = s.lexical? n := by
  rw [lexical?, lexical?, find?_deleteBinding]
  split
  case isTrue hn =>
    rw [hn, hfind, Option.filter_some, hkind]
    rfl
  case isFalse => rfl

theorem kept_of_writeSlot {index : Nat} (h : s.writeSlot name index v = .ok s') :
    s'.names = s.names ∧ s'.outer = s.outer := by
  unfold writeSlot at h
  split at h <;> cases h
  exact ⟨rfl, rfl⟩

theorem kept_of_init (h : s.init name v = .ok s') : s'.names = s.names ∧ s'.outer = s.outer := by
  unfold init at h
  split at h
  · cases h
  · exact kept_of_writeSlot h

/-! ### Outer records -/

theorem outer_create (s : Scope) (name : Text) (kind : BindingKind) (v : Value) :
    (s.create name kind v).outer = s.outer := by
  unfold create
  split <;> rfl

theorem outer_createVars (names : List Text) (deletable : Bool) :
    (names.foldl (fun x name => x.createVar name deletable) s).outer = s.outer := by
  induction names generalizing s with
  | nil => rfl
  | cons name names ih => exact ih.trans (outer_create ..)

theorem outer_deleteBinding (s : Scope) (name : Text) : (s.deleteBinding name).outer = s.outer := by
  unfold deleteBinding
  split <;> rfl

end ScriptMachine.Scope
