import ScriptMachine.Object

/-!
# The store

Everything that is shared: objects, scope records, programs, the counters of host functions, and the journal
they write.  Things are added to the store and changed in place; none is ever removed, so names stay valid.
-/

namespace ScriptMachine

structure Store where
  objects : Array Object
  scopes : Array Scope
  programs : Array Program
  cells : Array Nat
  journal : Array String

namespace Store

def empty : Store := ⟨#[], #[], #[], #[], #[]⟩

instance : Inhabited Store := ⟨empty⟩

abbrev Op := StateM Store

/-! ### Reading and changing single things -/

def object (σ : Store) (o : ObjectId) : Object := (σ.objects[o.index]?).getD default

def scope (σ : Store) (s : ScopeId) : Scope := (σ.scopes[s.index]?).getD default

def program (σ : Store) (p : ProgramId) : Program := (σ.programs[p.index]?).getD default

def setObject (σ : Store) (o : ObjectId) (x : Object) : Store := { σ with objects := σ.objects.setIfInBounds o.index x }

def modifyObject (σ : Store) (o : ObjectId) (f : Object → Object) : Store :=
  { σ with objects := σ.objects.modify o.index f }

def modifyScope (σ : Store) (s : ScopeId) (f : Scope → Scope) : Store := { σ with scopes := σ.scopes.modify s.index f }

def newObject (x : Object) : Op ObjectId :=
  modifyGet fun σ => (⟨σ.objects.size⟩, { σ with objects := σ.objects.push x })

def newScope (x : Scope) : Op ScopeId := modifyGet fun σ => (⟨σ.scopes.size⟩, { σ with scopes := σ.scopes.push x })

def newProgram (x : Program) : Op ProgramId :=
  modifyGet fun σ => (⟨σ.programs.size⟩, { σ with programs := σ.programs.push x })

def newCell (n : Nat) : Op CellId := modifyGet fun σ => (⟨σ.cells.size⟩, { σ with cells := σ.cells.push n })

def cell (σ : Store) (c : CellId) : Nat := (σ.cells[c.index]?).getD 0

def setCell (σ : Store) (c : CellId) (n : Nat) : Store := { σ with cells := σ.cells.setIfInBounds c.index n }

def log (σ : Store) (lines : List String) : Store := { σ with journal := σ.journal ++ lines.toArray }

/-! ### Descriptions -/

/-- An object in a message.  A lazy object is not made for this. -/
def describe (σ : Store) (o : ObjectId) : String := (σ.object o).kind.describe

def display (σ : Store) (v : Value) : String := v.display σ.describe

/-! ### Lazy objects -/

/-- Make a lazy object.  Others stay as they are. -/
def materialize (o : ObjectId) : Op Unit :=
  modify fun σ =>
    let x := σ.object o
    if x.kind.isLazy then
      let (made, lines) := x.kind.settle x.toShell
      (σ.setObject o made).log lines
    else σ

def made (o : ObjectId) : Op Object := do
  materialize o
  return (← get).object o

end Store

end ScriptMachine
