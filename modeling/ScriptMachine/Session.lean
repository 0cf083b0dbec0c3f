import ScriptMachine.Machine
import ScriptMachine.Outline

/-!
# Sessions

A session holds a machine while someone works with it step by step.  It keeps things under names, and reports what is
new since the last report: the lines of the journal, and the state of the registers if it has changed.
-/

namespace ScriptMachine

/-- The registers in one line, with the numbers of open loops and of scope records made. -/
structure Standing where
  registers : String
  loops : Nat
  scopes : Nat
  deriving DecidableEq

/-- What is new since the last report. -/
structure News where
  lines : List String
  standing : Option Standing

structure Session where
  machine : Machine
  names : Intrinsics
  kept : List (String × Value)
  symbols : List (String × Symbol)
  templates : List (String × FunctionTemplate)
  iterators : List (String × IteratorId)
  cursors : List (String × KeyCursor)
  shown : Array ObjectId
  reported : Nat
  standing : Option Standing

namespace Session

def new (limits : Limits) : Session :=
  let machine := Machine.new limits
  let (names, store) := machine.realm.intrinsics.run machine.store
  ⟨{ machine with store }, names, [], [], [], [], [], #[], 0, none⟩

def keep (s : Session) (name : String) (v : Value) : Session := { s with kept := (name, v) :: s.kept }

def keepTemplate (s : Session) (name : String) (t : FunctionTemplate) : Session :=
  { s with templates := (name, t) :: s.templates }

def keepIterator (s : Session) (name : String) (i : IteratorId) : Session :=
  { s with iterators := (name, i) :: s.iterators }

def keepCursor (s : Session) (name : String) (c : KeyCursor) : Session := { s with cursors := (name, c) :: s.cursors }

def symbol (name : String) (description : Option Text) (s : Session) : Symbol × Session :=
  match name with
  | "iterator" => (.iterator, s)
  | "unscopables" => (.unscopables, s)
  | _ =>
    match s.symbols.lookup name with
    | some known => (known, s)
    | none =>
      let made : Symbol := ⟨Symbol.firstFree + s.symbols.length, description⟩
      (made, { s with symbols := (name, made) :: s.symbols })

def draw (x : Outline.Draw Outline) (s : Session) : Outline × Session :=
  let (o, shown) := Outline.picture x s.shown
  (o, { s with shown })

def outline (v : Value) (s : Session) : Outline × Session :=
  s.draw (Outline.ofValue s.machine.store s.names Outline.maxLevels v)

/-- The outline of a value, in which also an object with a name is drawn. -/
def outlineInFull (v : Value) (s : Session) : Outline × Session :=
  match v with
  | .object o => s.draw (Outline.ofObjectInFull s.machine.store s.names o)
  | v => (.primitive v, s)

def current (s : Session) : Standing := ⟨s.machine.summary, s.machine.loops.length, s.machine.scopesMade⟩

def report (s : Session) : News × Session :=
  let journal := s.machine.store.journal
  let standing := some s.current
  (⟨journal.toList.drop s.reported, if s.standing = standing then none else standing⟩,
    { s with reported := journal.size, standing })

end Session

end ScriptMachine
