import ScriptMachine.Json

/-!
# Limits

The limits of a machine, and their JSON document.  A document is an object with any of the fields, or an array
that gives the first few of them in order; what it leaves out keeps its default.
-/

namespace ScriptMachine

structure Limits where
  /-- Frame ceiling checked whenever a frame is saved; zero for none. -/
  maxFrames : Nat
  /-- Frame ceiling checked by calls; zero for none. -/
  callDepth : Nat
  maxLoops : Nat
  traceLength : Nat
  /-- Instructions between two chances for the scheduler; zero for none. -/
  yieldInterval : Nat
  deriving DecidableEq

namespace Limits

def default : Limits := ⟨0x7FFFFFFF, 0, 256, 10, 10000⟩

instance : Inhabited Limits := ⟨default⟩

inductive Field where
  | maxFrames | callDepth | maxLoops | traceLength | yieldInterval
  deriving DecidableEq

namespace Field

def all : List Field := [.maxFrames, .callDepth, .maxLoops, .traceLength, .yieldInterval]

def name : Field → String
  | .maxFrames => "max_call_stack_size"
  | .callDepth => "stack_depth_limit"
  | .maxLoops => "max_native_depth"
  | .traceLength => "stack_trace_limit"
  | .yieldInterval => "yield_interval"

def ofName? (t : Text) : Option Field := all.find? (fun f => Text.ofString f.name = t)

def bound : Field → Nat
  | .yieldInterval => UInt32.size
  | _ => UInt64.size

def get (l : Limits) : Field → Nat
  | .maxFrames => l.maxFrames
  | .callDepth => l.callDepth
  | .maxLoops => l.maxLoops
  | .traceLength => l.traceLength
  | .yieldInterval => l.yieldInterval

def set (l : Limits) (f : Field) (n : Nat) : Limits :=
  match f with
  | .maxFrames => { l with maxFrames := n }
  | .callDepth => { l with callDepth := n }
  | .maxLoops => { l with maxLoops := n }
  | .traceLength => { l with traceLength := n }
  | .yieldInterval => { l with yieldInterval := n }

def read? (l : Limits) (f : Field) : Json → Option Limits
  | .number (some n) => if n < f.bound then some (f.set l n) else none
  | _ => none

end Field

/-- Settings by name: each at most once, other names are passed over. -/
def ofFields? (l : Limits) (seen : List Field) : List (Text × Json) → Option Limits
  | [] => some l
  | (name, v) :: rest =>
    if Text.loneSurrogate name.units then none
    else match Field.ofName? name with
      | none => ofFields? l seen rest
      | some f => if f ∈ seen then none else (f.read? l v).bind fun l => ofFields? l (f :: seen) rest

def ofItems? (l : Limits) : List Field → List Json → Option Limits
  | _, [] => some l
  | [], _ :: _ => none
  | f :: fields, v :: rest => (f.read? l v).bind fun l => ofItems? l fields rest

def ofJson? : Json → Option Limits
  | .object fields => ofFields? default [] fields
  | .array items => ofItems? default Field.all items
  | _ => none

def read? (document : String) : Option Limits := (Json.read? document).bind ofJson?

def toJson (l : Limits) : String :=
  "\x7b" ++ ",".intercalate (Field.all.map fun f => "\"" ++ f.name ++ "\":" ++ toString (f.get l)) ++ "\x7d"

def print (l : Limits) : String :=
  "VmConfig \x7b " ++ ", ".intercalate (Field.all.map fun f => f.name ++ ": " ++ toString (f.get l)) ++ " \x7d"

end Limits

end ScriptMachine
