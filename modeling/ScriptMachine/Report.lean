import ScriptMachine.Machine.Monad

/-!
# Reports of failures

How failures are shown to whoever started the machine.  What an exception shows depends on its value: an error
object has a kind and a message, any other value is shown itself.
-/

namespace ScriptMachine

namespace Exception

/-- The kind of the error object that was thrown, and the host error it carries. -/
def errorData? (σ : Store) (e : Exception) : Option (ErrorKind × Option HostError) :=
  e.value.object?.bind fun o =>
    match (σ.object o).kind with
    | .error kind wrapped => some (kind, wrapped)
    | _ => none

def errorKind? (σ : Store) (e : Exception) : Option ErrorKind := (e.errorData? σ).map (·.1)

def hostError? (σ : Store) (e : Exception) : Option HostError := (e.errorData? σ).bind (·.2)

def message (e : Exception) : Store.Op String := do
  let σ ← get
  match e.value, e.errorKind? σ with
  | .object o, some _ => return ((← Store.get? o (.ofString "message")).map (← get).display).getD ""
  | v, _ => return σ.display v

def display (e : Exception) : Store.Op String := do
  let message ← e.message
  let head := match e.errorKind? (← get) with
    | some kind => kind.name ++ ": " ++ message
    | none => "Uncaught " ++ message
  return if e.trace.isEmpty then head else head ++ "\n" ++ e.trace.display

end Exception

def Fault.display (f : Fault) : Store.Op String := do
  match f with
  | .host e => return e.message
  | .thrown e => e.display
  | .uncatchable u => return u.condition.message
  | f =>
    let (kind, message) := f.report
    return kind.name ++ ": " ++ message

/-! ### Labels -/

def ErrorKind.label : ErrorKind → String
  | .error => "Error"
  | .type => "Type"
  | .reference => "Reference"
  | .uninitialized => "Uninitialized"
  | .range => "Range"
  | .grammar => "Syntax"
  | .host => "Host"

def Condition.label : Condition → String
  | .loopDepth => "NativeStackOverflow"
  | .interrupted (.error _) => "InterruptedError"
  | .interrupted (.data _) => "InterruptedData"
  | .callbackFailed _ => "InterruptCallbackFailed"
  | .internal _ => "Internal"

def Fault.label : Fault → String
  | .unresolved _ => "Unresolved"
  | .uninitialized _ => "Uninitialized"
  | .type _ => "Type"
  | .range _ => "Range"
  | .grammar _ => "Syntax"
  | .host _ => "Host"
  | .thrown _ => "Thrown"
  | .uncatchable _ => "Uncatchable"

inductive RunError where
  | exception (e : Exception)
  | uncatchable (u : Uncatchable)

end ScriptMachine
