import ScriptMachine.Machine.Guard

/-!
# Try statements

A try statement pushes a handler and goes on with its body in the same dispatch loop.  Each of its sections ends
with `halt`; a finally section that completes normally ends with `halt, endFinally`.  A fault raised in the loop
goes to the innermost handler of that loop, after the machine is back in the state it had at the statement.
-/

namespace ScriptMachine.VM

def sectionStart? (pc : Nat) (offset : Int) : Option Nat := if 0 < offset then some (pc + offset.toNat) else none

def startTry (catchOffset finallyOffset : Int) : VM Unit := do
  let pc := (← regs).pc
  advance
  modify fun m =>
    let h : Handler :=
      { catchPc := sectionStart? pc catchOffset, finallyPc := sectionStart? pc finallyOffset, part := .body
        resume := m.regs.pc, pending := none, depth := m.depth, snapshot := m.snapshot }
    { m with handlers := h :: m.handlers }

def owns (m : Machine) (h : Handler) : Bool := h.depth = m.depth && h.snapshot.frames = m.frames.length

def atEndOfFinally (m : Machine) : Bool :=
  match m.regs.program with
  | some p =>
    match (m.store.program p).code[m.regs.pc]? with
    | some .endFinally => true
    | _ => false
  | none => false

/-- Leave a finally section.  On normal completion go back to where it was entered from and raise the pending fault
again; any other way out drops that fault. -/
def leaveFinally (h : Handler) : VM Unit := do
  if atEndOfFinally (← get) then
    modifyRegs fun r => { r with pc := h.resume }
    match h.pending with
    | some f => raise f
    | none => return ()
  else return ()

/-- End the running section of the innermost statement: go on to its finally section, or leave it. -/
def endSection (h : Handler) (rest : List Handler) : VM Unit := do
  match h.part, h.finallyPc with
  | .finishing, _ =>
    modify fun m => { m with handlers := rest }
    leaveFinally h
  | _, some pc =>
    modify fun m => { m with
      handlers := { h with part := .finishing, resume := m.regs.pc } :: rest, regs := { m.regs with pc } }
  | _, none => modify fun m => { m with handlers := rest }

def halt : VM Unit := do
  advance
  let m ← get
  match m.handlers with
  | h :: rest => if owns m h then endSection h rest else endLoop
  | [] => endLoop

inductive Reaction where
  | catching (pc : Nat) (v : Value)
  | finishing (pc : Nat)
  | leaving

/-- The body of a statement may be caught from, body and catch section are finished by a finally section, and what
leaves a finally section leaves the statement. -/
def Reaction.of (h : Handler) (f : Fault) : Reaction :=
  match h.part, h.catchPc, h.finallyPc, f with
  | .body, some pc, _, .thrown e => .catching pc e.value
  | .body, _, some pc, _ => .finishing pc
  | .catching, _, some pc, _ => .finishing pc
  | _, _, _, _ => .leaving

/-- Let the innermost handler deal with a fault.  The result is whether one of its sections runs now. -/
def react (h : Handler) (rest : List Handler) (f : Fault) : VM Bool := do
  match Reaction.of h f with
  | .catching pc v =>
    modify fun m => { m with
      handlers := { h with part := .catching } :: rest, regs := { m.regs with pc }, stack := m.stack.push v }
    return true
  | .finishing pc =>
    modify fun m => { m with
      handlers := { h with part := .finishing, pending := some f } :: rest, regs := { m.regs with pc } }
    return true
  | .leaving =>
    modify fun m => { m with handlers := rest }
    return false

/-- Hand a fault to the handlers of the running loop, a number of them at most. -/
def unwindWithin (enter : Enter) : Nat → Fault → VM Unit
  | 0, f => raise f
  | n + 1, f => do
    let m ← get
    match m.handlers with
    | [] => raise f
    | h :: _ =>
      if h.depth = m.depth then
        let f ← rollBack enter h.snapshot f
        match (← get).handlers with
        | [] => raise f
        | h :: rest => if ← react h rest f then return () else unwindWithin enter n f
      else raise f

/-- Hand a fault raised in the running loop to its handlers.  It goes on if none is left. -/
def unwind (enter : Enter) (f : Fault) : VM Unit := do
  let f ← settle f
  unwindWithin enter ((← get).handlers.length + 1) f

end ScriptMachine.VM
