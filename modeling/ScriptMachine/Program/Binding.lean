import ScriptMachine.Text

/-!
# Bindings and scope layouts

How a compiler describes the names of a scope: which slot each name has, how the slot may be used, and how many
slots a block or function needs in its scope record and on the operand stack.
-/

namespace ScriptMachine

inductive BindingKind where
  /-- Hoisted to its function; an empty slot reads as undefined. -/
  | hoisted (deletable : Bool)
  /-- Lexical; an empty slot is not yet initialised. -/
  | lexical
  /-- Lexical and never assigned.  Assignment fails when `strict`, and is dropped otherwise. -/
  | constant (strict : Bool)
  deriving DecidableEq

namespace BindingKind

def isHoisted : BindingKind → Bool
  | .hoisted _ => true
  | _ => false

def isLexical (k : BindingKind) : Bool := !k.isHoisted

/-- The kind under an assignment from strict code. -/
def foldStrict (k : BindingKind) (strict : Bool) : BindingKind :=
  match k with
  | .constant s => .constant (strict || s)
  | other => other

end BindingKind

structure SlotInfo where
  index : Nat
  kind : BindingKind
  deriving DecidableEq

structure ScopeNames where
  entries : List (Text × SlotInfo)

namespace ScopeNames

def empty : ScopeNames := ⟨[]⟩

def find? (names : ScopeNames) (name : Text) : Option SlotInfo := (names.entries.find? (fun e => e.1 = name)).map (·.2)

def erase (names : ScopeNames) (name : Text) : ScopeNames := ⟨names.entries.filter (fun e => e.1 ≠ name)⟩

/-- The names with one bound to a slot, in place of an earlier binding of that name. -/
def insert (names : ScopeNames) (name : Text) (info : SlotInfo) : ScopeNames :=
  ⟨(names.erase name).entries ++ [(name, info)]⟩

theorem find?_erase (names : ScopeNames) (name n : Text) :
    (names.erase name).find? n = if n = name then none else names.find? n := by
  unfold find? erase
  rw [List.find?_filter]
  by_cases h : n = name
  · subst h
    rw [List.find?_eq_none.mpr (by simp), if_pos rfl]
    rfl
  · have hsame : ∀ e : Text × SlotInfo,
        decide (decide (e.1 ≠ name) = true ∧ decide (e.1 = n) = true) = decide (e.1 = n) := by
      intro e
      by_cases he : e.1 = n
      · simp [he, h]
      · simp [he]
    simp only [hsame, if_neg h]

theorem find?_insert (names : ScopeNames) (name n : Text) (info : SlotInfo) :
    (names.insert name info).find? n = if n = name then some info else names.find? n := by
  have hlast : (names.insert name info).find? n = ((names.erase name).find? n).or (if name = n then some info else none) := by
    unfold find? insert
    rw [List.find?_append, Option.map_or]
    by_cases h : name = n <;> simp [h]
  rw [hlast, find?_erase]
  by_cases h : n = name
  · simp [h]
  · simp [h, Ne.symm h]

/-- A name of the slot with the given index; the latest, should there be several. -/
def nameOf? (names : ScopeNames) (index : Nat) : Option Text :=
  (names.entries.reverse.find? (fun e => e.2.index = index)).map (·.1)

/-- Names with slots numbered in the order given, counting from `next`. -/
def numbered (names : ScopeNames) (next : Nat) : List (Text × BindingKind) → ScopeNames
  | [] => names
  | (name, kind) :: rest => numbered (names.insert name ⟨next, kind⟩) (next + 1) rest

/-- Names with slots numbered in the order given; a repeated name has its last slot. -/
def ofList (names : List (Text × BindingKind)) : ScopeNames := numbered empty 0 names

end ScopeNames

structure ScopeLayout where
  names : Option ScopeNames
  /-- Slots in the scope record; a block without any has no record. -/
  scopeSize : Nat
  stackSize : Nat

/-- Entry of a function that may move its arguments into its scope record. -/
structure FunctionEntry where
  names : Option ScopeNames
  scopeSize : Nat
  stackSize : Nat
  params : Nat
  /-- Whether the arguments become the first slots of the record. -/
  argsToScope : Bool

/-- Entry of a function whose parameters have initialisers: the arguments stay on the stack, and the first few
are also put into the scope record. -/
structure ParameterEntry where
  names : Option ScopeNames
  scopeSize : Nat
  params : Nat
  copied : Nat

structure BodyEntry where
  layout : ScopeLayout
  /-- Whether locals of the body take the place of the arguments. -/
  overArguments : Bool

/-- Hoisted names that evaluated code adds to the nearest variable scope. -/
structure VarBindings where
  names : List Text
  deletable : Bool

structure GlobalBindings where
  vars : List Text
  funcs : List Text
  lets : List Text
  consts : List Text
  deletable : Bool

/-- A slot of a scope record: the record `level` links out, and the index in it. -/
structure ScopeAddress where
  level : Nat
  index : Nat
  deriving DecidableEq

/-- A slot of the running function on the operand stack: a positive index is a local, zero the receiver, and a
negative index an argument counted from one.  Locals follow the arguments unless these live in the scope
record. -/
structure SlotAddress where
  index : Int
  argsInScope : Bool
  deriving DecidableEq

/-- A name to look for in the innermost `level` records, before a fixed place. -/
structure DynamicName where
  name : Text
  level : Nat

/-- Where a dynamic name is read when no inner record provides it. -/
structure DynamicRead where
  target : DynamicName
  callee : Bool
  lexical : Bool

/-- How a dynamic name is assigned when no inner record provides it. -/
structure DynamicWrite where
  target : DynamicName
  kind : BindingKind
  strict : Bool

end ScriptMachine
