import ScriptMachine.Program

/-!
# Assembling programs

An assembler collects instructions.  Texts and safe integers share one constant each, source positions are
recorded where they change, and jumps to places not yet known are patched later.  Callers deal in instruction
indices; offsets are computed here.
-/

namespace ScriptMachine

structure Assembler where
  name : Text
  source : Option SourceFile
  code : Array Instruction
  constants : Array Value
  marks : List PositionMark
  offset : Option Nat

namespace Assembler

def new (name : Text) (source : Option SourceFile) : Assembler := ⟨name, source, #[], #[], [], none⟩

def setPosition (a : Assembler) (offset : Nat) : Assembler := { a with offset := some offset }

/-- The marks with one for an instruction at `pc`, unless the last mark has the same offset. -/
def markPosition (marks : List PositionMark) (pc : Nat) : Option Nat → List PositionMark
  | none => marks
  | some offset =>
    if (marks.getLast?.map (·.offset)) = some offset then marks else marks ++ [⟨pc, offset⟩]

def emit (a : Assembler) (i : Instruction) : Nat × Assembler :=
  (a.code.size, { a with
    code := a.code.push i
    marks := markPosition a.marks a.code.size a.offset })

/-- Constants that one place in the pool serves: equal texts, and equal integers of the `int` form. -/
def sameConstant : Value → Value → Bool
  | .text s, .text t => s == t
  | .int i, .int j => i == j
  | _, _ => false

def addConstant (a : Assembler) (v : Value) : Nat × Assembler :=
  match a.constants.findIdx? (sameConstant v) with
  | some i => (i, a)
  | none => (a.constants.size, { a with constants := a.constants.push v })

def load (a : Assembler) (v : Value) : Nat × Assembler :=
  let (index, a) := a.addConstant v
  a.emit (.loadConstant index)

/-- The offset that leads from one instruction to another, as a 32-bit number. -/
def relative (origin target : Nat) : Int := Int.bmod ((target : Int) - origin) UInt32.size

inductive JumpForm where
  | jump (test : JumpTest)
  | nextKey
  | nextItem
  deriving DecidableEq

def JumpForm.make : JumpForm → Int → Instruction
  | .jump test, offset => .jump test offset
  | .nextKey, offset => .nextKey offset
  | .nextItem, offset => .nextItem offset

def emitJump (a : Assembler) (form : JumpForm) : Nat × Assembler := a.emit (form.make 0)

def emitJumpTo (a : Assembler) (form : JumpForm) (target : Nat) : Nat × Assembler :=
  a.emit (form.make (relative a.code.size target))

/-- The instruction with another jump offset; instructions that do not jump stay as they are. -/
def withOffset (offset : Int) : Instruction → Instruction
  | .jump test _ => .jump test offset
  | .nextKey _ => .nextKey offset
  | .nextItem _ => .nextItem offset
  | i => i

def patchJumpTo (a : Assembler) (index target : Nat) : Assembler :=
  { a with code := a.code.modify index (withOffset (relative index target)) }

def patchJump (a : Assembler) (index : Nat) : Assembler := a.patchJumpTo index a.code.size

def emitGuard (a : Assembler) : Nat × Assembler := a.emit (.guard 0 0)

def patchCatch (a : Assembler) (index : Nat) : Assembler :=
  { a with code := a.code.modify index fun
    | .guard _ finallyOffset => .guard (relative index a.code.size) finallyOffset
    | i => i }

def patchFinally (a : Assembler) (index : Nat) : Assembler :=
  { a with code := a.code.modify index fun
    | .guard catchOffset _ => .guard catchOffset (relative index a.code.size)
    | i => i }

def finish (a : Assembler) : Program := ⟨a.code, a.constants, a.name, a.source, a.marks⟩

end Assembler

end ScriptMachine
