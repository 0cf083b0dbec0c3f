import ScriptMachine.Fault

/-!
# The operand stack

One growing array of slots shared by all activations, with a stack pointer.  Slots at or above the pointer are
empty, so a value once dropped never becomes visible again.  The capacity follows a growth rule of its own:
storage doubles while it is small, and grows by blocks of 1024 slots after that.
-/

namespace ScriptMachine

/-- Slots, the number of live ones, and the slots the storage has room for. -/
structure OperandStack where
  slots : Array Value
  top : Nat
  capacity : Nat

namespace OperandStack

def new : OperandStack := ⟨#[], 0, 0⟩

instance : Inhabited OperandStack := ⟨new⟩

def toList (s : OperandStack) : List Value := s.slots.toList.take s.top

def underflow : Fault := .internal .operandUnderflow

def grownCapacity (needed : Nat) : Nat := if needed < 1024 then needed * 2 else (needed + 1025) / 1024 * 1024

def expand (s : OperandStack) (idx : Nat) : OperandStack :=
  if idx < s.slots.size then s
  else { s with
    slots := s.slots ++ Array.replicate (idx + 1 - s.slots.size) Value.empty
    capacity := if s.capacity < idx + 1 then grownCapacity (idx + 1) else s.capacity }

def push (s : OperandStack) (v : Value) : OperandStack :=
  let s := s.expand s.top
  { s with slots := s.slots.setIfInBounds s.top v, top := s.top + 1 }

def pop (s : OperandStack) : Outcome (Value × OperandStack) :=
  if s.top = 0 then .error underflow
  else match s.slots[s.top - 1]? with
    | none => .error underflow
    | some v => .ok (v, { s with slots := s.slots.setIfInBounds (s.top - 1) .empty, top := s.top - 1 })

def get (s : OperandStack) (idx : Nat) : Outcome Value :=
  if s.top ≤ idx then .error (.internal (.slotAboveTop idx s.top))
  else match s.slots[idx]? with
    | none => .error underflow
    | some v => .ok v

def peek (s : OperandStack) (depth : Nat) : Outcome Value :=
  if s.top < depth + 1 then .error underflow else s.get (s.top - (depth + 1))

def set (s : OperandStack) (idx : Nat) (v : Value) : Outcome OperandStack :=
  if s.top ≤ idx then .error (.internal (.slotAboveTop idx s.top))
  else if idx < s.slots.size then .ok { s with slots := s.slots.setIfInBounds idx v }
  else .error underflow

def replaceTop (s : OperandStack) (v : Value) : Outcome OperandStack :=
  if s.top = 0 then .error underflow else s.set (s.top - 1) v

def swap (s : OperandStack) (a b : Nat) : Outcome OperandStack :=
  if s.top ≤ a ∨ s.top ≤ b then .error underflow
  else .ok { s with slots := s.slots.swapIfInBounds a b }

def emptied (slots : Array Value) (first : Nat) : Nat → Array Value
  | 0 => slots
  | count + 1 => emptied (slots.setIfInBounds first .empty) (first + 1) count

/-- Move the pointer.  Slots it leaves behind are emptied, slots it takes in are empty. -/
def setTop (s : OperandStack) (n : Nat) : OperandStack :=
  if n < s.top then { s with slots := emptied s.slots n (s.top - n), top := n }
  else if n = 0 then { s with top := 0 }
  else { s.expand (n - 1) with top := n }

def reserve (s : OperandStack) (n : Nat) : OperandStack := s.setTop (s.top + n)

def slice (s : OperandStack) (first last : Nat) : Outcome (List Value) :=
  if last < first ∨ s.top < last then .error underflow
  else if last ≤ s.slots.size then .ok (s.slots.extract first last).toList
  else .error underflow

def popMany (s : OperandStack) (n : Nat) : Outcome (List Value × OperandStack) :=
  if s.top < n then .error underflow
  else if s.top ≤ s.slots.size then .ok ((s.slots.extract (s.top - n) s.top).toList, s.setTop (s.top - n))
  else .error underflow

def rotated (slots : Array Value) (first last count : Nat) : Array Value :=
  slots.extract 0 first ++ slots.extract (last - count) last ++ slots.extract first (last - count)
    ++ slots.extract last slots.size

def overwritten (slots : Array Value) (first : Nat) : List Value → Array Value
  | [] => slots
  | v :: rest => overwritten (slots.setIfInBounds first v) (first + 1) rest

/-- Put values in at an index; what stood there and above moves up. -/
def insertAt (s : OperandStack) (idx : Nat) (items : List Value) : Outcome OperandStack :=
  if s.top < idx then .error underflow
  else if items.isEmpty then .ok s
  else
    let last := s.top + items.length
    let s := s.setTop last
    -- the slots taken in go down to the index, and are filled there
    .ok { s with slots := overwritten (rotated s.slots idx last items.length) idx items }

def clear (_ : OperandStack) : OperandStack := new

/-! ### Where the top is -/

theorem top_push (s : OperandStack) (v : Value) : (s.push v).top = s.top + 1 := by
  unfold push expand
  split <;> rfl

theorem top_setTop (s : OperandStack) (n : Nat) : (s.setTop n).top = n := by
  unfold setTop
  split
  · rfl
  · split
    case isTrue h => exact h.symm
    case isFalse => rfl

theorem top_of_pop {s s' : OperandStack} {v : Value} (h : s.pop = .ok (v, s')) : s'.top = s.top - 1 := by
  unfold pop at h
  split at h
  · cases h
  · split at h <;> cases h
    rfl

theorem top_of_set {s s' : OperandStack} {idx : Nat} {v : Value} (h : s.set idx v = .ok s') : s'.top = s.top := by
  unfold set at h
  split at h
  · cases h
  · split at h <;> cases h
    rfl

end OperandStack

end ScriptMachine
