import ScriptMachine.Proofs.Footprint

/-!
# The operand stack as a list

`OperandStack.Holds s vs` says that the live values of a stack are the list `vs`, bottom first, and
`OperandStack.Splits s vs rest` says too what stands in the slots above them.  Each operation on the stack is described by
what it does to these lists; a computation that works on the stack is described by that.
-/

namespace ScriptMachine

namespace OperandStack

/-! ### Single slots -/

section Slots

variable {s : OperandStack} {i : Nat} {v : Value}

theorem get_eq_ok : s.get i = .ok v ↔ i < s.top ∧ s.slots[i]? = some v := by
  unfold get
  split
  case isTrue h =>
    constructor
    · intro hv
      cases hv
    · omega
  case isFalse h =>
    split
    case h_1 hnone => simp [hnone]
    case h_2 w hsome =>
      rw [hsome]
      constructor
      · intro hv
        cases hv
        exact ⟨by omega, rfl⟩
      · rintro ⟨_, hv⟩
        cases hv
        rfl

theorem peek_eq_ok {depth : Nat} : s.peek depth = .ok v ↔ depth < s.top ∧ s.slots[s.top - (depth + 1)]? = some v := by
  unfold peek
  split
  case isTrue h =>
    constructor
    · intro hv
      cases hv
    · omega
  case isFalse h =>
    rw [get_eq_ok]
    constructor
    · exact fun hv => ⟨by omega, hv.2⟩
    · exact fun hv => ⟨by omega, hv.2⟩

theorem set_of_lt (htop : i < s.top) (hsize : i < s.slots.size) (v : Value) :
    s.set i v = .ok { s with slots := s.slots.setIfInBounds i v } := by
  unfold set
  rw [if_neg (Nat.not_le.mpr htop), if_pos hsize]

theorem set_eq_ok {s' : OperandStack} (h : s.set i v = .ok s') :
    i < s.top ∧ i < s.slots.size ∧ s' = { s with slots := s.slots.setIfInBounds i v } := by
  unfold set at h
  split at h
  · cases h
  · split at h <;> cases h
    exact ⟨by omega, by assumption, rfl⟩

theorem pop_eq_ok {s' : OperandStack} (h : s.pop = .ok (v, s')) : s.peek 0 = .ok v := by
  unfold pop at h
  split at h
  · cases h
  · rw [peek_eq_ok]
    split at h <;> cases h
    exact ⟨by omega, by assumption⟩

theorem swap_of_lt {a b : Nat} (ha : a < s.top) (hb : b < s.top) :
    s.swap a b = .ok { s with slots := s.slots.swapIfInBounds a b } := by
  unfold swap
  rw [if_neg]
  omega

theorem top_expand (s : OperandStack) (n : Nat) : (s.expand n).top = s.top := by
  unfold expand
  split <;> rfl

theorem getElem?_setTop {n : Nat} (hn : s.top ≤ n) (hi : i < s.slots.size) : (s.setTop n).slots[i]? = s.slots[i]? := by
  unfold setTop
  rw [if_neg (Nat.not_lt.mpr hn)]
  split
  · rfl
  · unfold expand
    split
    · rfl
    · exact Array.getElem?_append_left hi

theorem getElem?_overwritten (slots : Array Value) {first : Nat} (items : List Value) (h : i < first) :
    (overwritten slots first items)[i]? = slots[i]? := by
  induction items generalizing slots first with
  | nil => rfl
  | cons v items ih => rw [overwritten, ih _ (Nat.lt_succ_of_lt h), Array.getElem?_setIfInBounds_ne (Nat.ne_of_gt h)]

theorem getElem?_rotated {slots : Array Value} {first last count : Nat} (h : i < first) (hsize : i < slots.size) :
    (rotated slots first last count)[i]? = slots[i]? := by
  have hfirst : i < (slots.extract 0 first).size := by
    rw [Array.size_extract]
    omega
  rw [rotated, Array.append_assoc, Array.append_assoc, Array.getElem?_append_left hfirst, Array.getElem?_extract,
    if_pos (by omega), Nat.zero_add]

theorem exists_insertAt (h : i ≤ s.top) (items : List Value) :
    ∃ s', s.insertAt i items = .ok s' ∧ s'.top = s.top + items.length ∧
      ∀ j < i, j < s.slots.size → s'.slots[j]? = s.slots[j]? := by
  unfold insertAt
  rw [if_neg (Nat.not_lt.mpr h)]
  split
  case isTrue hempty =>
    rw [List.isEmpty_iff] at hempty
    exact ⟨s, rfl, by rw [hempty]; rfl, fun _ _ _ => rfl⟩
  case isFalse =>
    refine ⟨_, rfl, top_setTop _ _, fun j hj hsize => ?_⟩
    have hkept := getElem?_setTop (n := s.top + items.length) (Nat.le_add_right _ _) hsize
    have hlt : j < (s.setTop (s.top + items.length)).slots.size := by
      rw [Array.getElem?_eq_getElem hsize] at hkept
      exact (Array.getElem?_eq_some_iff.mp hkept).1
    rw [← hkept, ← getElem?_rotated hj hlt]
    exact getElem?_overwritten _ items hj

end Slots

/-! ### Rows of slots -/

section Rows

variable {slots : Array Value} {below old above items vs : List Value} {v : Value}

theorem toList_setIfInBounds (h : slots.toList = below ++ v :: above) (w : Value) :
    (slots.setIfInBounds below.length w).toList = below ++ w :: above := by
  rw [Array.toList_setIfInBounds, h, List.set_append_right _ _ (Nat.le_refl _), Nat.sub_self, List.set_cons_zero]

theorem toList_extract (h : slots.toList = below ++ (vs ++ above)) :
    (slots.extract below.length (below.length + vs.length)).toList = vs := by
  simp [h]

theorem toList_overwritten (h : slots.toList = below ++ (old ++ above)) (hlength : old.length = items.length) :
    (overwritten slots below.length items).toList = below ++ (items ++ above) := by
  induction items generalizing slots below old with
  | nil =>
    obtain rfl := List.length_eq_zero_iff.mp hlength
    exact h
  | cons w items ih =>
    obtain ⟨v, old, rfl⟩ := List.exists_cons_of_length_eq_add_one hlength
    have hcons : slots.toList = below ++ v :: (old ++ above) := by simpa using h
    have hrow : (slots.setIfInBounds below.length w).toList = (below ++ [w]) ++ (old ++ above) := by
      rw [toList_setIfInBounds hcons w]
      simp
    have hrest := ih hrow (by simpa using hlength)
    simpa [overwritten] using hrest

theorem emptied_eq_overwritten (slots : Array Value) (first count : Nat) :
    emptied slots first count = overwritten slots first (List.replicate count .empty) := by
  induction count generalizing slots first with
  | zero => rfl
  | succ count ih => rw [emptied, ih, List.replicate_succ, overwritten]

theorem toList_rotated {a b : List Value} (h : slots.toList = below ++ (a ++ (b ++ above))) :
    (rotated slots below.length (below.length + a.length + b.length) b.length).toList =
      below ++ (b ++ (a ++ above)) := by
  have hsize : slots.size = (below ++ (a ++ b)).length + above.length := by
    rw [← Array.length_toList, h]
    simp [Nat.add_assoc]
  have hbottom : slots.toList = [] ++ (below ++ (a ++ (b ++ above))) := h
  have htop : slots.toList = (below ++ a) ++ (b ++ above) := by simpa using h
  have hspare : slots.toList = (below ++ (a ++ b)) ++ (above ++ []) := by simpa using h
  have hfirst := toList_extract hbottom
  have hmiddle := toList_extract h
  have hlast := toList_extract htop
  have habove := toList_extract hspare
  rw [← hsize] at habove
  simp only [List.length_append, List.length_nil, Nat.zero_add, ← Nat.add_assoc] at hfirst hlast habove
  rw [rotated, Nat.add_sub_cancel]
  simp only [Array.toList_append, hfirst, hmiddle, hlast, habove, List.append_assoc]

theorem toList_expand (s : OperandStack) (i : Nat) :
    (s.expand i).slots.toList = s.slots.toList ++ List.replicate (i + 1 - s.slots.size) .empty := by
  unfold expand
  split
  case isTrue h => simp [Nat.sub_eq_zero_of_le h]
  case isFalse => simp

theorem top_lt_size_expand (s : OperandStack) : s.top < (s.expand s.top).slots.size := by
  rw [← Array.length_toList, toList_expand, List.length_append, List.length_replicate, Array.length_toList]
  omega

theorem top_push_le (s : OperandStack) (v : Value) : (s.push v).top ≤ (s.push v).slots.size := by
  show (s.expand s.top).top + 1 ≤ ((s.expand s.top).slots.setIfInBounds _ v).size
  rw [top_expand, Array.size_setIfInBounds]
  exact s.top_lt_size_expand

theorem getElem?_push_top (s : OperandStack) (v : Value) : (s.push v).slots[s.top]? = some v := by
  show ((s.expand s.top).slots.setIfInBounds (s.expand s.top).top v)[s.top]? = some v
  rw [top_expand, Array.getElem?_setIfInBounds_self_of_lt s.top_lt_size_expand]

theorem push_injective {s : OperandStack} {u : Value} (h : s.push u = s.push v) : u = v := by
  have hslot := s.getElem?_push_top u
  rw [h, s.getElem?_push_top v] at hslot
  exact (Option.some.inj hslot).symm

end Rows

/-! ### Live values and spare slots -/

/-- The slots are the live values, which are these, and then the others. -/
structure Splits (s : OperandStack) (vs rest : List Value) : Prop where
  slots_eq : s.slots.toList = vs ++ rest
  top_eq : s.top = vs.length

section Splits

variable {s : OperandStack} {vs ws rest items : List Value} {v : Value} {i n : Nat}

theorem Splits.size_eq (h : s.Splits vs rest) : s.slots.size = vs.length + rest.length := by
  rw [← Array.length_toList, h.slots_eq, List.length_append]

theorem Splits.getElem? (h : s.Splits vs rest) (hi : i < vs.length) : s.slots[i]? = vs[i]? := by
  rw [← Array.getElem?_toList, h.slots_eq, List.getElem?_append_left hi]

theorem Splits.push (h : s.Splits vs rest) (v : Value) : (s.push v).Splits (vs ++ [v]) rest.tail := by
  refine ⟨?_, by simp [top_push, h.top_eq]⟩
  obtain ⟨w, hrow⟩ : ∃ w, (s.expand s.top).slots.toList = vs ++ w :: rest.tail := by
    rw [toList_expand, h.slots_eq, h.size_eq, h.top_eq]
    cases rest with
    | nil => exact ⟨.empty, by simp⟩
    | cons w rest => exact ⟨w, by simp⟩
  have hwritten := toList_setIfInBounds hrow v
  rw [← h.top_eq] at hwritten
  simpa [OperandStack.push, top_expand] using hwritten

theorem Splits.pop (h : s.Splits (vs ++ [v]) rest) : ∃ s', s.pop = .ok (v, s') ∧ s'.Splits vs (.empty :: rest) := by
  have htop : s.top = vs.length + 1 := by simpa using h.top_eq
  have hlast : s.slots[vs.length]? = some v := by simpa using h.getElem? (i := vs.length) (by simp)
  refine ⟨{ s with slots := s.slots.setIfInBounds vs.length .empty, top := vs.length }, ?_, ?_, rfl⟩
  · unfold OperandStack.pop
    simp [htop, hlast]
  · exact toList_setIfInBounds (by simpa using h.slots_eq) .empty

theorem Splits.set (h : s.Splits vs rest) (hi : i < vs.length) (v : Value) :
    ∃ s', s.set i v = .ok s' ∧ s'.Splits (vs.set i v) rest := by
  have hsize : i < s.slots.size := by
    rw [h.size_eq]
    omega
  refine ⟨{ s with slots := s.slots.setIfInBounds i v }, ?_, ?_, by simpa using h.top_eq⟩
  · unfold OperandStack.set
    rw [if_neg (by rw [h.top_eq]; omega), if_pos hsize]
  · rw [Array.toList_setIfInBounds, h.slots_eq, List.set_append_left _ _ hi]

theorem Splits.swap {a b : Nat} {x y : Value} (h : s.Splits vs rest) (hx : vs[a]? = some x) (hy : vs[b]? = some y) :
    ∃ s', s.swap a b = .ok s' ∧ s'.Splits ((vs.set a y).set b x) rest := by
  obtain ⟨ha, hax⟩ := List.getElem?_eq_some_iff.mp hx
  obtain ⟨hb, hby⟩ := List.getElem?_eq_some_iff.mp hy
  refine ⟨{ s with slots := s.slots.swapIfInBounds a b }, ?_, ?_, by simpa using h.top_eq⟩
  · unfold OperandStack.swap
    rw [if_neg (by rw [h.top_eq]; omega)]
  · have hsx := h.getElem? ha
    have hsy := h.getElem? hb
    rw [hx, Array.getElem?_eq_some_iff] at hsx
    rw [hy, Array.getElem?_eq_some_iff] at hsy
    obtain ⟨ha', hsx⟩ := hsx
    obtain ⟨hb', hsy⟩ := hsy
    rw [Array.swapIfInBounds_def, dif_pos ha', dif_pos hb']
    simp [h.slots_eq, hsx, hsy, List.set_append_left, ha, hb]

theorem Splits.raise (h : s.Splits vs rest) (n : Nat) :
    (s.setTop (vs.length + n)).Splits (vs ++ (rest.take n ++ List.replicate (n - rest.length) .empty)) (rest.drop n) := by
  have hgrown : (s.setTop (vs.length + n)).slots.toList = vs ++ (rest ++ List.replicate (n - rest.length) .empty) := by
    unfold setTop
    rw [if_neg (by rw [h.top_eq]; omega)]
    split
    case isTrue hzero =>
      have hn : n - rest.length = 0 := by omega
      simpa [hn] using h.slots_eq
    case isFalse hpos =>
      have hcount : vs.length + n - 1 + 1 - s.slots.size = n - rest.length := by
        rw [h.size_eq]
        omega
      rw [toList_expand, hcount, h.slots_eq, List.append_assoc]
  refine ⟨?_, by rw [top_setTop]; simp; omega⟩
  rw [hgrown]
  rcases Nat.le_total n rest.length with hle | hge
  · simp [Nat.sub_eq_zero_of_le hle]
  · simp [List.take_of_length_le hge, List.drop_of_length_le hge]

theorem Splits.lower (h : s.Splits (vs ++ ws) rest) :
    (s.setTop vs.length).Splits vs (List.replicate ws.length .empty ++ rest) := by
  cases ws with
  | nil =>
    have hall : s.Splits vs rest := by simpa using h
    simpa using hall.raise 0
  | cons w ws =>
    have htop : s.top = vs.length + (w :: ws).length := by simpa using h.top_eq
    have hrow : s.slots.toList = vs ++ ((w :: ws) ++ rest) := by simpa using h.slots_eq
    refine ⟨?_, top_setTop _ _⟩
    unfold setTop
    rw [if_pos (by simp [htop]), htop, Nat.add_sub_cancel_left, emptied_eq_overwritten]
    exact toList_overwritten hrow (by simp)

theorem Splits.insertAt (h : s.Splits (vs ++ ws) rest) (items : List Value) :
    ∃ s', s.insertAt vs.length items = .ok s' ∧ s'.Splits (vs ++ (items ++ ws)) (rest.drop items.length) := by
  have htop : s.top = vs.length + ws.length := by simpa using h.top_eq
  unfold OperandStack.insertAt
  rw [if_neg (by omega)]
  split
  case isTrue hempty =>
    rw [List.isEmpty_iff.mp hempty]
    exact ⟨s, rfl, by simpa using h⟩
  case isFalse =>
    obtain ⟨hgrown, htop'⟩ := h.raise items.length
    rw [← h.top_eq] at hgrown htop'
    refine ⟨_, rfl, ?_, by simp [top_setTop, htop]; omega⟩
    generalize s.setTop (s.top + items.length) = s' at hgrown
    generalize htaken : rest.take items.length ++ List.replicate (items.length - rest.length) Value.empty = taken at hgrown
    have hcount : taken.length = items.length := by
      rw [← htaken]
      simp
      omega
    have hrow : s'.slots.toList = vs ++ (ws ++ (taken ++ rest.drop items.length)) := by simpa using hgrown
    have hrotated := toList_rotated hrow
    rw [hcount, ← htop] at hrotated
    simpa using toList_overwritten hrotated hcount

end Splits

/-! ### The live values -/

/-- The live values are these, bottom first, and each of them has a slot. -/
structure Holds (s : OperandStack) (vs : List Value) : Prop where
  toList_eq : s.toList = vs
  top_eq : s.top = vs.length

section Holds

variable {s : OperandStack} {vs ws below items : List Value} {i : Nat} {v : Value} {rest : List Value} {n : Nat}

theorem holds_iff : s.Holds vs ↔ ∃ rest, s.Splits vs rest := by
  constructor
  · rintro ⟨hlist, htop⟩
    refine ⟨s.slots.toList.drop s.top, ?_, htop⟩
    rw [← hlist, toList, List.take_append_drop]
  · rintro ⟨rest, hslots, htop⟩
    refine ⟨?_, htop⟩
    rw [toList, hslots, htop, List.take_left]

theorem Splits.holds (h : s.Splits vs rest) : s.Holds vs := holds_iff.mpr ⟨rest, h⟩

theorem holds_toList (h : s.top ≤ s.slots.size) : s.Holds s.toList := by
  refine ⟨rfl, ?_⟩
  rw [toList, List.length_take, Array.length_toList]
  omega

theorem Holds.top_le (h : s.Holds vs) : s.top ≤ s.slots.size := by
  obtain ⟨rest, h⟩ := holds_iff.mp h
  rw [h.top_eq, h.size_eq]
  omega

theorem Holds.getElem? (h : s.Holds vs) (hi : i < vs.length) : s.slots[i]? = vs[i]? :=
  let ⟨_, h⟩ := holds_iff.mp h
  h.getElem? hi

theorem Holds.push (h : s.Holds vs) (v : Value) : (s.push v).Holds (vs ++ [v]) :=
  let ⟨_, h⟩ := holds_iff.mp h
  (h.push v).holds

theorem Holds.pushAll (h : s.Holds vs) (ws : List Value) : (ws.foldl OperandStack.push s).Holds (vs ++ ws) := by
  induction ws generalizing s vs with
  | nil => simpa using h
  | cons w ws ih => simpa using ih (h.push w)

theorem Holds.pop (h : s.Holds (vs ++ [v])) : ∃ s', s.pop = .ok (v, s') ∧ s'.Holds vs :=
  let ⟨_, h⟩ := holds_iff.mp h
  let ⟨s', hpop, hs'⟩ := h.pop
  ⟨s', hpop, hs'.holds⟩

theorem Holds.get (h : s.Holds vs) (hv : vs[i]? = some v) : s.get i = .ok v := by
  have hi : i < vs.length := (List.getElem?_eq_some_iff.mp hv).1
  exact get_eq_ok.mpr ⟨by rw [h.top_eq]; exact hi, by rw [h.getElem? hi, hv]⟩

theorem Holds.set (h : s.Holds vs) (hi : i < vs.length) (v : Value) :
    ∃ s', s.set i v = .ok s' ∧ s'.Holds (vs.set i v) :=
  let ⟨_, h⟩ := holds_iff.mp h
  let ⟨s', hset, hs'⟩ := h.set hi v
  ⟨s', hset, hs'.holds⟩

theorem Holds.replaceTop (h : s.Holds (vs ++ [v])) (w : Value) :
    ∃ s', s.replaceTop w = .ok s' ∧ s'.Holds (vs ++ [w]) := by
  have htop : s.top = vs.length + 1 := by simpa using h.top_eq
  obtain ⟨s', hset, hs'⟩ := h.set (i := vs.length) (by simp) w
  refine ⟨s', ?_, by simpa using hs'⟩
  unfold OperandStack.replaceTop
  rw [if_neg (by omega), htop, Nat.add_sub_cancel, hset]

theorem Holds.swap {a b : Value} (h : s.Holds (below ++ a :: b :: ws)) :
    ∃ s', s.swap below.length (below.length + 1) = .ok s' ∧ s'.Holds (below ++ b :: a :: ws) := by
  obtain ⟨rest, h⟩ := holds_iff.mp h
  obtain ⟨s', hswap, hs'⟩ := h.swap (a := below.length) (b := below.length + 1) (x := a) (y := b) (by simp) (by simp)
  exact ⟨s', hswap, by simpa [List.set_append_right] using hs'.holds⟩

theorem Holds.setTop (h : s.Holds (vs ++ ws)) : (s.setTop vs.length).Holds vs :=
  let ⟨_, h⟩ := holds_iff.mp h
  h.lower.holds

theorem Holds.reserve (h : s.Holds vs) (n : Nat) :
    ∃ extra : List Value, extra.length = n ∧ (s.reserve n).Holds (vs ++ extra) := by
  obtain ⟨rest, h⟩ := holds_iff.mp h
  have hraised := h.raise n
  rw [← h.top_eq] at hraised
  exact ⟨_, by simp; omega, hraised.holds⟩

theorem Holds.cut (h : s.Holds vs) (hn : n ≤ vs.length) :
    ∃ v, (s.setTop (n + 1)).Holds (vs.take n ++ [v]) := by
  rcases Nat.lt_or_eq_of_le hn with hlt | rfl
  · have hsplit : s.Holds (vs.take (n + 1) ++ vs.drop (n + 1)) := by rwa [List.take_append_drop]
    have hcut := hsplit.setTop
    rw [List.length_take, Nat.min_eq_left hlt, List.take_succ_eq_append_getElem hlt] at hcut
    exact ⟨_, hcut⟩
  · obtain ⟨extra, hlength, hgrown⟩ := h.reserve 1
    obtain ⟨v, rfl⟩ := List.length_eq_one_iff.mp hlength
    rw [OperandStack.reserve, h.top_eq] at hgrown
    rw [List.take_length]
    exact ⟨v, hgrown⟩

theorem Holds.extract (h : s.Holds (below ++ (vs ++ ws))) :
    (s.slots.extract below.length (below.length + vs.length)).toList = vs := by
  obtain ⟨rest, h⟩ := holds_iff.mp h
  have hrow : s.slots.toList = below ++ (vs ++ (ws ++ rest)) := by simpa using h.slots_eq
  exact toList_extract hrow

theorem Holds.slice {first last : Nat} (h : s.Holds (below ++ (vs ++ ws))) (hfirst : first = below.length)
    (hlast : last = below.length + vs.length) : s.slice first last = .ok vs := by
  have htop : s.top = below.length + (vs.length + ws.length) := by simpa using h.top_eq
  have hsize := h.top_le
  unfold OperandStack.slice
  rw [if_neg (by omega), if_pos (by omega), hfirst, hlast, h.extract]

theorem Splits.popMany (h : s.Splits (vs ++ ws) rest) (hn : n = ws.length) :
    ∃ s', s.popMany n = .ok (ws, s') ∧ s'.Splits vs (List.replicate ws.length .empty ++ rest) := by
  have htop : s.top = vs.length + ws.length := by simpa using h.top_eq
  refine ⟨s.setTop vs.length, ?_, h.lower⟩
  have hpopped : s.Holds (vs ++ (ws ++ [])) := by simpa using h.holds
  unfold OperandStack.popMany
  rw [if_neg (by omega), if_pos h.holds.top_le, show s.top - n = vs.length by omega, htop, hpopped.extract]

theorem Holds.popMany (h : s.Holds (vs ++ ws)) (hn : n = ws.length) :
    ∃ s', s.popMany n = .ok (ws, s') ∧ s'.Holds vs :=
  let ⟨_, h⟩ := holds_iff.mp h
  let ⟨s', hpop, hs'⟩ := h.popMany hn
  ⟨s', hpop, hs'.holds⟩

theorem Holds.insertAt (h : s.Holds (vs ++ ws)) (items : List Value) :
    ∃ s', s.insertAt vs.length items = .ok s' ∧ s'.Holds (vs ++ (items ++ ws)) :=
  let ⟨_, h⟩ := holds_iff.mp h
  let ⟨s', hinsert, hs'⟩ := h.insertAt items
  ⟨s', hinsert, hs'.holds⟩

end Holds

end OperandStack

namespace VM

/-! ### Computations on the stack and on the store -/

variable {m : Machine} {s : OperandStack} {i : Nat}

theorem onStore_of_run {op : Store.Op α} {a : α} {σ : Store} (h : op.run m.store = (a, σ)) :
    onStore op m = .ok a { m with store := σ } := by
  unfold onStore
  rw [h]

theorem writeStack_of_ok {g : OperandStack → Outcome OperandStack} (h : g m.stack = .ok s) :
    writeStack g m = .ok () { m with stack := s } := by
  have hmap : (g m.stack).map (fun s => ((), s)) = .ok ((), s) := by
    rw [h]
    rfl
  unfold writeStack onStack
  dsimp only
  rw [hmap]

theorem onStack_of_ok {g : OperandStack → Outcome (α × OperandStack)} {a : α}
    (h : g m.stack = .ok (a, s)) : onStack g m = .ok a { m with stack := s } := by
  unfold onStack
  rw [h]

theorem readStack_of_ok {g : OperandStack → Outcome α} {a : α} (h : g m.stack = .ok a) : readStack g m = .ok a m := by
  show ofOutcome (g m.stack) m = .ok a m
  rw [h]
  rfl

theorem setSlot_of_lt (htop : i < m.stack.top) (hsize : i < m.stack.slots.size) (v : Value) :
    setSlot i v m = .ok () { m with stack := { m.stack with slots := m.stack.slots.setIfInBounds i v } } :=
  writeStack_of_ok (OperandStack.set_of_lt htop hsize v)

theorem setSlots_bind (htop : i + 1 < m.stack.top) (hsize : i + 1 < m.stack.slots.size) (v w : Value)
    (k : VM Unit) : (do setSlot i v; setSlot (i + 1) w; k : VM Unit) m =
      k { m with stack := { m.stack with
        slots := (m.stack.slots.setIfInBounds i v).setIfInBounds (i + 1) w } } := by
  have hfirst := setSlot_of_lt (Nat.lt_of_succ_lt htop) (Nat.lt_of_succ_lt hsize) v
  have hsize' : i + 1 < (m.stack.slots.setIfInBounds i v).size := by simpa using hsize
  have hsecond := setSlot_of_lt (m := { m with stack := { m.stack with slots := m.stack.slots.setIfInBounds i v } })
    htop hsize' w
  exact (bind_ok hfirst).trans (bind_ok hsecond)

theorem slot_of_getElem? {v : Value} (htop : i < m.stack.top) (hv : m.stack.slots[i]? = some v) :
    slot i m = .ok v m :=
  readStack_of_ok (OperandStack.get_eq_ok.mpr ⟨htop, hv⟩)

theorem slots_of_slice {first last : Nat} {vs : List Value} (h : m.stack.slice first last = .ok vs) :
    slots first last m = .ok vs m :=
  readStack_of_ok h

theorem frameBase_of_base {b : Nat} (h : m.regs.base = some b) : frameBase m = .ok b m := by
  unfold frameBase
  rw [regs_bind, h]
  rfl

end VM

end ScriptMachine
