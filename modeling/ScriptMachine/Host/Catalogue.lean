import ScriptMachine.Host.Toolkit
import ScriptMachine.Machine

/-!
# The toolkit by name

The host objects of the toolkit, and the faults and interrupts they are set up with, by the words that name them.
-/

namespace ScriptMachine

def Fault.named (name message : String) (v : Value) : Fault :=
  match name with
  | "unresolved" => .unresolved (Text.ofString message)
  | "uninit" => .uninitialized (some (Text.ofString message))
  | "type" => .type (.reported message)
  | "range" => .range (.reported message)
  | "syntax" => .grammar (.reported message)
  | "host" => .host ⟨message⟩
  | "internal" => .internal (.reported message)
  | "overflow" => .loopDepth
  | _ => .throwing v

def Interrupt.named (name message : String) : Interrupt :=
  match name with
  | "callback" => .callback ["callback " ++ message] none
  | "callback_fail" => .callback [] (some ⟨message⟩)
  | "error" => .error ⟨message⟩
  | "data_static" => .data (some "static data")
  | "data_string" => .data (some message)
  | _ => .data none

def ErrorKind.named : String → ErrorKind
  | "Error" => .error
  | "Type" => .type
  | "Reference" => .reference
  | "Uninitialized" => .uninitialized
  | "Range" => .range
  | "Syntax" => .grammar
  | _ => .host

namespace Toolkit

structure Settings where
  value : Value
  event : String
  message : String
  limit : Option Nat
  strict : Bool

namespace Settings

def fault (s : Settings) : Fault := .named s.event s.message s.value

end Settings

def body? (name : String) (s : Settings) : Option (HostCall → Host Value) :=
  match name with
  | "log" => some log
  | "collect" => some collect
  | "const" => some (constant s.value)
  | "throw" => some throwArgument
  | "fail" => some (failing s.fault)
  | "invoke" => some invoke
  | "try_call" => some tryCall
  | "construct" => some construct
  | "construct_nt" => some constructFor
  | "info" => some info
  | "depths" => some depths
  | "trace" => some trace
  | "trip" => some (trip (.named s.event s.message))
  | "untrip" => some untrip
  | "eval_direct" => some (evaluateDirect s.strict)
  | "items" => some (items (s.limit.map fun n => ⟨n, s.fault⟩))
  | "to_number" => some toNumber
  | "memory" => some memory
  | "define" => some define
  | _ => none

def ConstructStyle.named : String → ConstructStyle
  | "prim" => .primitive
  | "fail" => .failing
  | _ => .recording

def Ending.named : String → Ending
  | "throw" => .throws
  | "prim" => .primitive
  | "internal" => .internal
  | "bare" => .bare
  | _ => .done

def Closing.named : String → Closing
  | "throw" => .throws
  | "prim" => .primitive
  | "internal" => .internal
  | "none" => .absent
  | "null" => .value .null
  | "number" => .value (.int 3)
  | _ => .object

def LazyForm.named : String → LazyForm
  | "array" => .array
  | "native" => .native
  | "twice" => .twice
  | _ => .object

def handlerNamed : String → ProxyHandler
  | "tag" => taggingHandler
  | "throw" => refusingHandler
  | _ => .forward

/-- A compiler that knows some sources, with their programs or the errors in them.  It writes to the journal what it is
asked for. -/
def compiler (known : List (Text × Except String ProgramId)) : Compiler := fun source options =>
  let line := "compile " ++ source.display ++ " strict=" ++ toString options.strict ++ " direct="
    ++ toString options.direct ++ " in_function=" ++ toString options.inFunction
  ([line], (known.lookup source).getD (.error "Unexpected token"))

end Toolkit

end ScriptMachine
