import ScriptMachine.Fault
import ScriptMachine.Program.Binding

/-!
# Scope records

A record holds the bindings of one scope that outlive the operand stack.  It is backed either by slots, with a
map from names to slots, or by an object whose properties are its names.  Records form chains through their
outer links.
-/

namespace ScriptMachine

structure ScopeId where
  index : Nat
  deriving DecidableEq, Inhabited

structure Scope where
  /-- The slots.  An empty slot of a lexical binding is not yet initialised. -/
  slots : Array Value
  surplus : List Value
  names : Option ScopeNames
  object : Option ObjectId
  outer : Option ScopeId
  /-- Whether hoisted names are declared here. -/
  holdsVars : Bool
  deriving Inhabited

namespace Scope

def new (outer : Option ScopeId) : Scope := ⟨#[], [], none, none, outer, false⟩

def withLayout (outer : Option ScopeId) (size : Nat) (names : Option ScopeNames) : Scope :=
  { new outer with slots := Array.replicate size .empty, names }

def forObject (object : ObjectId) (outer : Option ScopeId) : Scope := { new outer with object := some object }

def find? (s : Scope) (name : Text) : Option SlotInfo := s.names.bind (·.find? name)

def nameOf? (s : Scope) (index : Nat) : Option Text := s.names.bind (·.nameOf? index)

def bindName (s : Scope) (name : Text) (info : SlotInfo) : Scope :=
  { s with names := some ((s.names.getD .empty).insert name info) }

theorem find?_bindName (s : Scope) (name n : Text) (info : SlotInfo) :
    (s.bindName name info).find? n = if n = name then some info else s.find? n := by
  show ((s.names.getD .empty).insert name info).find? n = _
  rw [ScopeNames.find?_insert]
  cases hnames : s.names <;> simp [Scope.find?, hnames, ScopeNames.find?, ScopeNames.empty]

def create (s : Scope) (name : Text) (kind : BindingKind) (v : Value) : Scope :=
  if (s.find? name).isSome then s
  else { s with slots := s.slots.push v }.bindName name ⟨s.slots.size, kind⟩

def createVar (s : Scope) (name : Text) (deletable : Bool) : Scope := s.create name (.hoisted deletable) .undefined

def createLexical (s : Scope) (name : Text) (isConstant : Bool) : Scope :=
  s.create name (if isConstant then .constant true else .lexical) .empty

/-- Forget a binding.  Its slot stays. -/
def deleteBinding (s : Scope) (name : Text) : Scope :=
  if (s.find? name).isSome then { s with names := s.names.map (·.erase name) } else s

def writeSlot (s : Scope) (name : Text) (index : Nat) (v : Value) : Outcome Scope :=
  if index < s.slots.size then .ok { s with slots := s.slots.setIfInBounds index v }
  else .error (.internal (.bindingSlot name.display))

def init (s : Scope) (name : Text) (v : Value) : Outcome Scope :=
  match s.find? name with
  | none => .error (.unresolved name)
  | some info => s.writeSlot name info.index v

end Scope

def BindingKind.read (kind : BindingKind) (name : Text) : Value → Outcome Value
  | .empty => if kind.isLexical then .error (.uninitialized (some name)) else .ok .undefined
  | v => .ok v

/-- Whether an assignment to a binding that holds `current` is carried out. -/
def BindingKind.admits (kind : BindingKind) (name : Text) (current : Value) : Outcome Bool :=
  match kind with
  | .hoisted _ => .ok true
  | .lexical => if current.isEmpty then .error (.uninitialized (some name)) else .ok true
  | .constant strict =>
    if current.isEmpty then .error (.uninitialized (some name))
    else if strict then .error (.type .constant)
    else .ok false

/-- A binding of a slot-backed record, read by name. -/
def Scope.read? (s : Scope) (name : Text) : Outcome (Option Value) :=
  match s.find? name with
  | none => .ok none
  | some info => (info.kind.read name ((s.slots[info.index]?).getD .undefined)).map some

end ScriptMachine
