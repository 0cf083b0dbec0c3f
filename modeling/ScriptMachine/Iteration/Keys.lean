import ScriptMachine.Machine

/-!
# Loops over keys

A cursor goes through the enumerable names of an object and then of its prototypes.  A name seen on one object
is passed by on the objects after it, enumerable or not; one that was deleted before its turn is passed by too.
-/

namespace ScriptMachine.KeyCursor

open Store

def start (o : Option ObjectId) : Op KeyCursor := do
  let pending ← match o with
    | some o => ownKeys o
    | none => pure []
  return ⟨o, pending, [], none⟩

def screened (c : KeyCursor) (o : ObjectId) : KeyCursor := { c with screen := some o }

def hides (screen : Option ObjectId) (key : PropertyKey) : Op Bool := do
  match screen with
  | none => return false
  | some o =>
    match ← get? o (.symbol .unscopables) with
    | some (.object hidden) => return (← get? hidden key).any Value.truthy
    | _ => return false

/-- The first of the given keys of an object that the cursor yields, with the keys left after it and the names
seen by then. -/
def scan (screen : Option ObjectId) (o : ObjectId) (visited : List PropertyKey) :
    List PropertyKey → Op (Option (PropertyKey × List PropertyKey) × List PropertyKey)
  | [] => return (none, visited)
  | key :: rest => do
    if key.isSymbol || visited.contains key then scan screen o visited rest
    else
      let visited := key :: visited
      let enumerable := (← ownProperty? o key).any (·.enumerable)
      if enumerable then
        if ← hides screen key then scan screen o visited rest
        else return (some (key, rest), visited)
      else scan screen o visited rest

def nextWithin : Nat → KeyCursor → Op (Option PropertyKey × KeyCursor)
  | 0, c => return (none, c)
  | n + 1, c => do
    match c.current with
    | none => return (none, c)
    | some o =>
      match ← scan c.screen o c.visited c.pending with
      | (some (key, pending), visited) => return (some key, { c with pending, visited })
      | (none, visited) =>
        let current ← prototype? o
        let pending ← match current with
          | some p => ownKeys p
          | none => pure []
        nextWithin n { c with current, pending, visited }

def next (c : KeyCursor) : Op (Option PropertyKey × KeyCursor) := do
  nextWithin ((← get).objects.size + 1) c

end ScriptMachine.KeyCursor
