import ScriptMachine.Program.Instruction

/-!
# Programs

A program is code, the constants it loads, and where its instructions come from in the source text.
-/

namespace ScriptMachine

structure SourceFile where
  name : String
  text : String

namespace SourceFile

/-- Line and column reached after the characters that start before byte `offset`, where the first of `cs` starts
at byte `i` and stands at the given line and column. -/
def positionFrom (offset : Nat) : List Char → Nat → Nat → Nat → Nat × Nat
  | [], _, line, column => (line, column)
  | c :: cs, i, line, column =>
    if offset ≤ i then (line, column)
    else if c = '\n' then positionFrom offset cs (i + c.utf8Size) (line + 1) 1
    else positionFrom offset cs (i + c.utf8Size) line (column + 1)

def position (s : SourceFile) (offset : Nat) : Nat × Nat := positionFrom offset s.text.toList 0 1 1

end SourceFile

/-- From the instruction at `pc` on, code belongs to the source at byte `offset`. -/
structure PositionMark where
  pc : Nat
  offset : Nat
  deriving DecidableEq

structure Program where
  code : Array Instruction
  constants : Array Value
  name : Text
  source : Option SourceFile
  marks : List PositionMark
  deriving Inhabited

namespace Program

def markAt? (p : Program) (pc : Nat) : Option PositionMark := (p.marks.takeWhile (fun m => decide (m.pc ≤ pc))).getLast?

/-- Line and column of an instruction, when the program has source text and a mark covers it. -/
def position? (p : Program) (pc : Nat) : Option (Nat × Nat) :=
  p.source.bind fun s => (p.markAt? pc).map fun m => s.position m.offset

def sourceName? (p : Program) : Option String := p.source.map (·.name)

end Program

structure CompileOptions where
  strict : Bool
  direct : Bool
  inFunction : Bool
  deriving DecidableEq

/-- Turns source text into a program, or refuses it with a message.  Also given are the lines it writes to the
journal. -/
abbrev Compiler := Text → CompileOptions → List String × Except String ProgramId

end ScriptMachine
