import ScriptMachine.Fault.Cause
import ScriptMachine.Value

/-!
# Faults

An abrupt completion is either catchable by script code or not.  Catchable ones are turned into error objects at
the point where they are caught; a thrown value travels with the trace of the place that raised it.
-/

namespace ScriptMachine

structure HostError where
  message : String
  deriving DecidableEq

inductive ErrorKind where
  | error
  | type
  | reference
  /-- A binding used before its initialisation; scripts see a reference error. -/
  | uninitialized
  | range
  | grammar
  | host
  deriving DecidableEq

def ErrorKind.name : ErrorKind → String
  | .error | .host => "Error"
  | .type => "TypeError"
  | .reference | .uninitialized => "ReferenceError"
  | .range => "RangeError"
  | .grammar => "SyntaxError"

/-! ### Traces -/

structure TraceFrame where
  functionName : Option String
  file : Option String
  line : Nat
  column : Nat
  /-- A frame of a host function, which has no source position. -/
  native : Bool
  deriving DecidableEq

def TraceFrame.display (f : TraceFrame) : String :=
  let name := f.functionName.getD "<anonymous>"
  if f.native then "    at " ++ name ++ " (native)"
  else
    let file := f.file.getD "<eval>"
    "    at " ++ name ++ " (" ++ file ++ ":" ++ toString f.line ++ ":" ++ toString f.column ++ ")"

abbrev Trace := List TraceFrame

def Trace.display (t : Trace) : String := "\n".intercalate (t.map TraceFrame.display)

/-! ### Thrown values and conditions beyond scripts -/

/-- A thrown value with the trace of the place that raised it. -/
structure Exception where
  value : Value
  trace : Trace

inductive InterruptReason where
  | error (e : HostError)
  | data (text : Option String)

def InterruptReason.display : InterruptReason → String
  | .error e => ": " ++ e.message
  | .data (some t) => ": " ++ t
  | .data none => ""

/-- A condition that no handler of a script can observe. -/
inductive Condition where
  | loopDepth
  | interrupted (reason : InterruptReason)
  | callbackFailed (e : HostError)
  | internal (cause : InternalCause)

def Condition.message : Condition → String
  | .loopDepth => "RangeError: Maximum native call depth exceeded"
  | .interrupted reason => "Interrupted" ++ reason.display
  | .callbackFailed e => "Interrupt callback failed: " ++ e.message
  | .internal cause => "Internal error: " ++ cause.message

def Condition.isInterrupt : Condition → Bool
  | .interrupted _ | .callbackFailed _ => true
  | _ => false

def Condition.hostError? : Condition → Option HostError
  | .interrupted (.error e) => some e
  | .callbackFailed e => some e
  | _ => none

structure Uncatchable where
  condition : Condition
  trace : Trace

/-! ### Faults -/

/-- An abrupt completion on its way through the machine. -/
inductive Fault where
  | unresolved (name : Text)
  | uninitialized (name : Option Text)
  | type (cause : TypeCause)
  | range (cause : RangeCause)
  | grammar (cause : SyntaxCause)
  | host (e : HostError)
  | thrown (e : Exception)
  | uncatchable (u : Uncatchable)

namespace Fault

def throwing (v : Value) : Fault := .thrown ⟨v, []⟩

def internal (cause : InternalCause) : Fault := .uncatchable ⟨.internal cause, []⟩

def loopDepth : Fault := .uncatchable ⟨.loopDepth, []⟩

def isUncatchable : Fault → Bool
  | .uncatchable _ => true
  | _ => false

/-- What goes on when an iterator had to be closed because of a fault, and closing it failed too: the first
fault, unless only the other is beyond catching. -/
def afterClosing (f closing : Fault) : Fault := if closing.isUncatchable && !f.isUncatchable then closing else f

def bindingShown : Option Text → String
  | some name => "'" ++ name.display ++ "'"
  | none => "binding"

/-- The message of the error object made for a fault that the machine itself raised, with its kind. -/
def report : Fault → ErrorKind × String
  | .unresolved name => (.reference, name.display ++ " is not defined")
  | .uninitialized name => (.uninitialized, "Cannot access " ++ bindingShown name ++ " before initialization")
  | .type cause => (.type, cause.message)
  | .range cause => (.range, cause.message)
  | .grammar cause => (.grammar, cause.message)
  | .host e => (.host, e.message)
  | .thrown _ => (.error, "")
  | .uncatchable u => (.error, u.condition.message)

end Fault

/-- A completion of host or machine code: a value, or the fault that ended it. -/
abbrev Outcome (α : Type) := Except Fault α

end ScriptMachine
