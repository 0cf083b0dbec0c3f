import ScriptMachine.Machine.Monad

/-!
# Jumps
-/

namespace ScriptMachine.VM

def jump (offset : Int) : VM Unit := do
  let target := ((← regs).pc : Int) + offset
  if target < 0 then raise (.internal (.jumpBeforeStart target))
  else modifyRegs fun r => { r with pc := target.toNat }

def jumpIf (condition : Bool) (offset : Int) : VM Unit := if condition then jump offset else advance

def drop : VM Unit := do
  let _ ← pop
  advance

def jumpKeeping (condition : Bool) (offset : Int) : VM Unit := if condition then jump offset else drop

def jumpOn (test : JumpTest) (offset : Int) : VM Unit := do
  match test with
  | .always => jump offset
  | .falsy => jumpIf (!(← pop).truthy) offset
  | .truthy => jumpIf (← pop).truthy offset
  | .keepTruthy => jumpKeeping (← peek 0).truthy offset
  | .keepFalsy => jumpKeeping (!(← peek 0).truthy) offset
  | .keepDefined => jumpKeeping (!(← peek 0).isUndefined) offset
  | .defined => jumpIf (!(← pop).isUndefined) offset

end ScriptMachine.VM
