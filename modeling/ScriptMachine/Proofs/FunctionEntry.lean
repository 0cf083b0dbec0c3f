import ScriptMachine.Dispatch
import ScriptMachine.Proofs.OperandLists

/-!
# Entering a function

A function is entered with its arguments on top of the operand stack, above callee and receiver.  The instructions that
set up its frame leave the arguments on the stack, move them into the record of the function, or copy them there.

* `Entering` — a machine that is about to set up the frame of a call; `Frame` and `SetUp` — one that has done so.
* `enterFunction_of_moving`, `enterFunction_of_staying`, `enterParameters_of_entering`, `enterBare_of_entering` — what
  each of the instructions does.

Main result: `locals_uninitialised`.
-/

namespace ScriptMachine

/-! ### Slots of the record of a function -/

namespace Scope

variable {s : Scope} {size i : Nat}

theorem size_fill (s : Scope) (args : List Value) : (s.fill args).slots.size = s.slots.size := by
  simp only [fill, Array.size_append, List.size_toArray, List.length_take, Array.size_extract]
  omega

theorem getElem?_fill (hs : s.slots = Array.replicate size .empty) (hi : i < size) (args : List Value) :
    (s.fill args).slots[i]? = some ((args[i]?).getD .empty) := by
  have hsize : s.slots.size = size := by simp [hs]
  simp only [fill, hsize]
  have hcount : (args.take (min args.length size)).length = min args.length size := by
    rw [List.length_take]
    omega
  rcases Nat.lt_or_ge i args.length with hlt | hge
  · rw [Array.getElem?_append_left (by rw [List.size_toArray]; omega), List.getElem?_toArray,
      List.getElem?_take_of_lt (by omega), List.getElem?_eq_getElem hlt]
    rfl
  · rw [Array.getElem?_append_right (by rw [List.size_toArray]; omega), List.size_toArray,
      Array.getElem?_extract, if_pos (by omega), hs, Array.getElem?_replicate, if_pos (by omega),
      List.getElem?_eq_none hge]
    rfl

theorem getElem?_fillMissing {passed params : Nat} (hpassed : passed ≤ params) (hparams : params ≤ s.slots.size) :
    (s.fillMissing passed params).slots[i]? = if passed ≤ i ∧ i < params then some .undefined else s.slots[i]? := by
  rw [fillMissing, if_pos ⟨hpassed, hparams⟩]
  have hfirst : (s.slots.extract 0 passed).size = passed := by
    rw [Array.size_extract]
    omega
  have hmiddle : (s.slots.extract 0 passed ++ Array.replicate (params - passed) Value.undefined).size = params := by
    rw [Array.size_append, Array.size_replicate]
    omega
  rcases Nat.lt_or_ge i params with hlt | hge
  · rw [Array.getElem?_append_left (by omega)]
    rcases Nat.lt_or_ge i passed with hlt' | hge'
    · rw [Array.getElem?_append_left (by omega), if_neg (by omega), Array.getElem?_extract, if_pos (by omega),
        Nat.zero_add]
    · rw [Array.getElem?_append_right (by omega), if_pos ⟨hge', hlt⟩, Array.getElem?_replicate, if_pos (by omega)]
  · rw [Array.getElem?_append_right (by omega), hmiddle, if_neg (by omega), Array.getElem?_extract]
    split
    · rw [Nat.add_sub_cancel' hge]
    · rw [Array.getElem?_eq_none (by omega)]

theorem getElem?_filled {params : Nat} {args : List Value} (hs : s.slots = Array.replicate size .empty)
    (hparams : params ≤ size) (hi : i < size) (hargs : args.length ≤ params) :
    ((s.fill args).fillMissing args.length params).slots[i]? =
      some ((args[i]?).getD (if i < params then .undefined else .empty)) := by
  rw [getElem?_fillMissing hargs (by rw [size_fill]; simpa [hs] using hparams), getElem?_fill hs hi]
  rcases Nat.lt_or_ge i args.length with hlt | hge
  · rw [if_neg (by omega), List.getElem?_eq_getElem hlt]
    rfl
  · by_cases hi' : i < params
    · simp [hge, hi']
    · simp [hi']

/-- All arguments move into the record, also where they take the slots of locals. -/
theorem getElem?_withArguments {params : Nat} (hs : s.slots = Array.replicate size .empty) (hparams : params ≤ size)
    (hi : i < size) (args : List Value) :
    (s.withArguments args params).slots[i]? =
      some ((args[i]?).getD (if i < params then .undefined else .empty)) := by
  unfold withArguments
  split
  case isTrue hmore =>
    rw [getElem?_fill hs hi]
    rcases Nat.lt_or_ge i args.length with hlt | hge
    · rw [List.getElem?_eq_getElem hlt]
      rfl
    · rw [if_neg (by omega)]
  case isFalse hmore => exact getElem?_filled hs hparams hi (Nat.not_lt.mp hmore)

theorem getElem?_withCopies {copied : Nat} (hs : s.slots = Array.replicate size .empty) (hcopied : copied ≤ size)
    (hi : i < size) (args : List Value) (params : Nat) :
    (s.withCopies args params copied).slots[i]? =
      some (((args.take copied)[i]?).getD (if i < copied then .undefined else .empty)) := by
  unfold withCopies
  split
  case isTrue hmore =>
    have hslots : (if params < args.length then { s.fill (args.take copied) with surplus := args.drop params }
        else s.fill (args.take copied)).slots = (s.fill (args.take copied)).slots := by
      split <;> rfl
    rw [hslots, getElem?_fill hs hi]
    rcases Nat.lt_or_ge i copied with hlt | hge
    · rw [List.getElem?_take_of_lt hlt, List.getElem?_eq_getElem (by omega)]
      rfl
    · rw [if_neg (by omega)]
  case isFalse hmore =>
    rw [List.take_of_length_le (Nat.not_lt.mp hmore)]
    exact getElem?_filled hs hcopied hi (Nat.not_lt.mp hmore)

theorem surplus_fillMissing (s : Scope) (passed params : Nat) : (s.fillMissing passed params).surplus = s.surplus := by
  unfold fillMissing
  split <;> rfl

theorem surplus_withArguments (hs : s.surplus = []) (args : List Value) (params : Nat) :
    (s.withArguments args params).surplus = args.drop params := by
  unfold withArguments
  split
  · rfl
  · rw [surplus_fillMissing, List.drop_eq_nil_of_le (by omega)]
    exact hs

theorem surplus_withCopies (hs : s.surplus = []) (args : List Value) (params : Nat) :
    (s.withCopies args params params).surplus = args.drop params := by
  unfold withCopies
  split
  · rfl
  · rw [surplus_fillMissing, List.drop_eq_nil_of_le (by omega)]
    exact hs

end Scope

namespace VM

/-! ### Setting up a frame -/

/-- Receiver and arguments of a call are on top of the stack, above the callee. -/
structure Entering (m : Machine) (callee this : Value) (args : List Value) : Prop where
  stack : ∃ below, m.stack.Holds (below ++ callee :: this :: args)
  count : m.regs.args = args.length

/-- A frame has been set up: values stand above callee and receiver. -/
structure Frame (m : Machine) (callee this : Value) (above : List Value) (count : Nat) : Prop where
  stack : ∃ below, m.stack.Holds (below ++ callee :: this :: above) ∧ m.regs.base = some (below.length + 1)
  count : m.regs.args = count

section Entering

variable {m m' : Machine} {callee this : Value} {args above : List Value} {n count : Nat}

theorem beginFrame_of_entering (h : Entering m callee this args) :
    ∃ b, beginFrame m = .ok args { m with regs := { m.regs with base := b } } ∧
      Frame { m with regs := { m.regs with base := b } } callee this args args.length := by
  obtain ⟨below, hstack⟩ := h.stack
  have htop : m.stack.top = below.length + (args.length + 2) := by simpa using hstack.top_eq
  refine ⟨some (below.length + 1), ?_, ⟨below, hstack, rfl⟩, h.count⟩
  have hframe : ¬ m.stack.top < m.regs.args + 1 := by
    rw [h.count]
    omega
  have hbase : m.stack.top - (m.regs.args + 1) = below.length + 1 := by
    rw [h.count]
    omega
  have hargs : m.stack.Holds ((below ++ [callee, this]) ++ (args ++ [])) := by simpa using hstack
  have hslice : m.stack.slice (m.stack.top - m.regs.args) m.stack.top = .ok args :=
    hargs.slice (by rw [h.count, List.length_append]; simp; omega) (by rw [List.length_append]; simp; omega)
  show (if m.stack.top < m.regs.args + 1 then _ else _ : VM (List Value)) m = _
  rw [if_neg hframe, hbase]
  exact slots_of_slice hslice

theorem Frame.congr (h : Frame m callee this above count) (hstack : m'.stack = m.stack)
    (hbase : m'.regs.base = m.regs.base) (hargs : m'.regs.args = m.regs.args) : Frame m' callee this above count := by
  constructor
  · rw [hstack, hbase]
    exact h.stack
  · exact hargs.trans h.count

theorem Frame.reserve (h : Frame m callee this above count) (k : Nat) :
    ∃ more, Frame { m with stack := m.stack.reserve k } callee this (above ++ more) count := by
  obtain ⟨below, hstack, hbase⟩ := h.stack
  obtain ⟨more, _, hmore⟩ := hstack.reserve k
  exact ⟨more, ⟨below, by simpa using hmore, hbase⟩, h.count⟩

/-- The arguments, and undefined for the parameters that were not passed. -/
def padded (args : List Value) (n : Nat) : List Value := args ++ List.replicate (n - args.length) .undefined

theorem getElem?_padded {i : Nat} (hi : i < n) : (padded args n)[i]? = some ((args[i]?).getD .undefined) := by
  unfold padded
  rcases Nat.lt_or_ge i args.length with hlt | hge
  · rw [List.getElem?_append_left hlt, List.getElem?_eq_getElem hlt]
    rfl
  · rw [List.getElem?_append_right hge, List.getElem?_replicate, if_pos (by omega), List.getElem?_eq_none hge]
    rfl

theorem padArguments_of_frame (h : Frame m callee this args args.length) (n : Nat) :
    ∃ s count, padArguments n m = .ok () { m with stack := s, regs := { m.regs with args := count } } ∧
      Frame { m with stack := s, regs := { m.regs with args := count } } callee this (padded args n)
        (padded args n).length := by
  obtain ⟨below, hstack, hbase⟩ := h.stack
  have hpad : padArguments n m = (if m.regs.args < n then do
      pushAll (List.replicate (n - m.regs.args) .undefined)
      modifyRegs fun r => { r with args := n }
    else pure ()) m := rfl
  rw [hpad, h.count]
  split
  case isTrue hlt =>
    refine ⟨(List.replicate (n - args.length) Value.undefined).foldl OperandStack.push m.stack, n, rfl,
      ⟨below, ?_, hbase⟩, ?_⟩
    · simpa [padded] using hstack.pushAll (List.replicate (n - args.length) .undefined)
    · simp only [padded, List.length_append, List.length_replicate]
      omega
  case isFalse hge =>
    have hnone : padded args n = args := by simp [padded, Nat.sub_eq_zero_of_le (Nat.not_lt.mp hge)]
    rw [hnone]
    exact ⟨m.stack, m.regs.args, rfl, h⟩

/-- The record that is made for a function, before arguments are put into it. -/
def emptyRecord (m : Machine) (size : Nat) (names : Option ScopeNames) : Scope :=
  { Scope.withLayout (some m.regs.scope) size names with holdsVars := true }

theorem slots_emptyRecord (m : Machine) (size : Nat) (names : Option ScopeNames) :
    (emptyRecord m size names).slots = Array.replicate size .empty := rfl

/-- A state after a record has been made the current one. -/
def withRecord (m : Machine) (x : Scope) : Machine :=
  { m with
    store := { m.store with scopes := m.store.scopes.push x }
    regs := { m.regs with scope := ⟨m.store.scopes.size⟩ }
    scopesMade := m.scopesMade + 1 }

theorem record_withRecord (m : Machine) (x : Scope) : (withRecord m x).store.scope (withRecord m x).regs.scope = x := by
  simp [withRecord, Store.scope]

/-- A frame set up by an instruction that makes a record. -/
structure SetUp (m m' : Machine) (callee this : Value) (above : List Value) (count : Nat) (x : Scope) : Prop where
  pc : m'.regs.pc = m.regs.pc + 1
  frame : ∃ more, Frame m' callee this (above ++ more) count
  record : m'.store.scope m'.regs.scope = x

theorem setUp_enterScope (h : Frame m callee this above count) (x : Scope) (k : Nat) :
    ∃ m', (do enterScope x; reserve k; advance : VM Unit) m = .ok () m' ∧ SetUp m m' callee this above count x := by
  have hentered : Frame (withRecord m x) callee this above count := h.congr rfl rfl rfl
  obtain ⟨more, hmore⟩ := hentered.reserve k
  exact ⟨_, rfl, ⟨rfl, ⟨more, hmore.congr rfl rfl rfl⟩, record_withRecord m x⟩⟩

theorem SetUp.of_pc {m₁ : Machine} {x : Scope} (h : SetUp m₁ m' callee this above count x)
    (hpc : m₁.regs.pc = m.regs.pc) : SetUp m m' callee this above count x :=
  ⟨by rw [h.pc, hpc], h.frame, h.record⟩

theorem innerScope_eq (size : Nat) (names : Option ScopeNames) (m : Machine) :
    innerScope size names m = .ok (.withLayout (some m.regs.scope) size names) m := rfl

theorem enterFunction_of_moving (h : Entering m callee this args) {e : FunctionEntry} (hmove : e.argsToScope = true) :
    ∃ m', enterFunction e m = .ok () m' ∧ SetUp m m' callee this [] args.length
      ((emptyRecord m e.scopeSize e.names).withArguments args e.params) := by
  obtain ⟨b, hbegin, hframe⟩ := beginFrame_of_entering h
  obtain ⟨below, hstack, hbase⟩ := hframe.stack
  have hcut : m.stack.top - args.length = (below ++ [callee, this]).length := by
    rw [hstack.top_eq]
    simp
    omega
  have hargs : m.stack.Holds ((below ++ [callee, this]) ++ args) := by simpa using hstack
  have hcleared := hargs.setTop
  rw [← hcut] at hcleared
  have hclear : Frame { m with
      stack := m.stack.setTop (m.stack.top - args.length), regs := { m.regs with base := b } } callee this []
      args.length := ⟨⟨below, by simpa using hcleared, hbase⟩, hframe.count⟩
  obtain ⟨m', hrun, hm'⟩ := setUp_enterScope hclear
    ((emptyRecord m e.scopeSize e.names).withArguments args e.params) e.stackSize
  refine ⟨m', ?_, hm'.of_pc rfl⟩
  unfold enterFunction
  rw [bind_ok hbegin, bind_ok (innerScope_eq _ _ _), if_pos hmove]
  exact hrun

theorem enterFunction_of_staying (h : Entering m callee this args) {e : FunctionEntry} (hstay : e.argsToScope = false) :
    ∃ m', enterFunction e m = .ok () m' ∧ SetUp m m' callee this (padded args e.params) (padded args e.params).length
      (emptyRecord m e.scopeSize e.names) := by
  obtain ⟨b, hbegin, hframe⟩ := beginFrame_of_entering h
  obtain ⟨s, count, hpad, hpadded⟩ := padArguments_of_frame hframe e.params
  obtain ⟨m', hrun, hm'⟩ := setUp_enterScope hpadded (emptyRecord m e.scopeSize e.names) e.stackSize
  refine ⟨m', ?_, hm'.of_pc rfl⟩
  unfold enterFunction
  rw [bind_ok hbegin, bind_ok (innerScope_eq _ _ _), if_neg (by simp [hstay]), bind_ok hpad]
  exact hrun

theorem enterParameters_of_entering (h : Entering m callee this args) (e : ParameterEntry) :
    ∃ m', enterParameters e m = .ok () m' ∧ SetUp m m' callee this args args.length
      ((emptyRecord m e.scopeSize e.names).withCopies args e.params e.copied) := by
  obtain ⟨b, hbegin, hframe⟩ := beginFrame_of_entering h
  unfold enterParameters
  rw [bind_ok hbegin]
  exact ⟨_, rfl, ⟨rfl, ⟨[], by rw [List.append_nil]; exact hframe.congr rfl rfl rfl⟩, record_withRecord _ _⟩⟩

theorem enterBare_of_entering (h : Entering m callee this args) (stackSize n : Nat) :
    ∃ m' more, enterBare stackSize n m = .ok () m' ∧ m'.regs.pc = m.regs.pc + 1 ∧
      Frame m' callee this (padded args n ++ more) (padded args n).length := by
  obtain ⟨b, hbegin, hframe⟩ := beginFrame_of_entering h
  obtain ⟨s, count, hpad, hpadded⟩ := padArguments_of_frame hframe n
  obtain ⟨more, hmore⟩ := hpadded.reserve stackSize
  unfold enterBare
  rw [bind_ok hbegin, bind_ok hpad]
  exact ⟨_, more, rfl, rfl, hmore.congr rfl rfl rfl⟩

end Entering

/-! ### Locals -/

section Locals

variable {m : Machine} {v : Value} {i : Nat}

theorem readEmpty_of_ordinary (h : v.orUndefined = v) (lexical : Bool) (name : Option Text) :
    readEmpty v lexical name = .ok v := by
  cases v <;> first | rfl | cases h

theorem loadScope_of_getElem? (h : (m.store.scope m.regs.scope).slots[i]? = some v) (lexical : Bool) :
    loadScope ⟨0, i⟩ lexical m =
      (do pushNext (← ofOutcome (readEmpty v lexical ((m.store.scope m.regs.scope).nameOf? i))) : VM Unit) m := by
  have hscope : scopeAt 0 m = .ok m.regs.scope m := rfl
  have hrecord : scopeRecord m.regs.scope m = .ok (m.store.scope m.regs.scope) m := rfl
  unfold loadScope
  rw [bind_ok hscope, bind_ok hrecord, h]

theorem loadScope_of_slot (h : (m.store.scope m.regs.scope).slots[i]? = some v) (hord : v.orUndefined = v)
    (lexical : Bool) : loadScope ⟨0, i⟩ lexical m = pushNext v m := by
  rw [loadScope_of_getElem? h, readEmpty_of_ordinary hord]
  rfl

/-- A slot of the current record is not initialised: reading it as a lexical binding fails, otherwise it reads
undefined. -/
structure Uninitialised (enter : Enter) (fuel : Nat) (m : Machine) (i : Nat) : Prop where
  slot : (m.store.scope m.regs.scope).slots[i]? = some .empty
  lexical : execute enter fuel (.loadScope ⟨0, i⟩ true) m =
    .error (.fault (.uninitialized ((m.store.scope m.regs.scope).nameOf? i))) m
  hoisted : execute enter fuel (.loadScope ⟨0, i⟩ false) m = pushNext .undefined m

theorem uninitialised_of_slot (h : (m.store.scope m.regs.scope).slots[i]? = some .empty) (enter : Enter) (fuel : Nat) :
    Uninitialised enter fuel m i :=
  ⟨h, (loadScope_of_getElem? h true).trans rfl, (loadScope_of_getElem? h false).trans rfl⟩

/-- **Locals**: which locals of a function start uninitialised.  Those of a function whose arguments stay on the stack,
or are copied, all do, however many arguments there are.  Of a function whose arguments move into its record those do
that lie beyond the last argument; the others start as the argument at their place. -/
theorem locals_uninitialised {callee this : Value} {args : List Value} (h : Entering m callee this args) (enter : Enter)
    (fuel : Nat) :
    (∀ e : FunctionEntry, e.params ≤ e.scopeSize → ∃ m', execute enter fuel (.enterFunction e) m = .ok () m' ∧
      ∀ i, e.params ≤ i → i < e.scopeSize →
        (¬ (e.argsToScope = true ∧ i < args.length) → Uninitialised enter fuel m' i) ∧
        (e.argsToScope = true → ∀ v, args[i]? = some v →
          (m'.store.scope m'.regs.scope).slots[i]? = some v ∧
          (v.orUndefined = v → ∀ lexical, execute enter fuel (.loadScope ⟨0, i⟩ lexical) m' = pushNext v m'))) ∧
    (∀ e : ParameterEntry, e.copied ≤ e.scopeSize → ∃ m', execute enter fuel (.enterParameters e) m = .ok () m' ∧
      ∀ i, e.copied ≤ i → i < e.scopeSize → Uninitialised enter fuel m' i) := by
  constructor
  · intro e he
    cases hmove : e.argsToScope with
    | true =>
      obtain ⟨m', hrun, hm'⟩ := enterFunction_of_moving h hmove
      refine ⟨m', hrun, fun i hparams hi => ?_⟩
      have hslot : (m'.store.scope m'.regs.scope).slots[i]? = some ((args[i]?).getD .empty) := by
        rw [hm'.record, Scope.getElem?_withArguments (slots_emptyRecord ..) he hi, if_neg (Nat.not_lt.mpr hparams)]
      constructor
      · intro hbeyond
        rw [List.getElem?_eq_none (by simp at hbeyond; exact hbeyond)] at hslot
        exact uninitialised_of_slot hslot enter fuel
      · intro _ v hv
        rw [hv] at hslot
        exact ⟨hslot, fun hord lexical => loadScope_of_slot hslot hord lexical⟩
    | false =>
      obtain ⟨m', hrun, hm'⟩ := enterFunction_of_staying h hmove
      refine ⟨m', hrun, fun i _ hi => ⟨fun _ => uninitialised_of_slot ?_ enter fuel, nofun⟩⟩
      rw [hm'.record]
      exact (Array.getElem?_replicate ..).trans (if_pos hi)
  · intro e he
    obtain ⟨m', hrun, hm'⟩ := enterParameters_of_entering h e
    refine ⟨m', hrun, fun i hcopied hi => uninitialised_of_slot ?_ enter fuel⟩
    rw [hm'.record, Scope.getElem?_withCopies (slots_emptyRecord ..) he hi, if_neg (Nat.not_lt.mpr hcopied),
      List.getElem?_eq_none (by rw [List.length_take]; omega)]
    rfl

/-- A machine about to set up the frame of a call with these arguments. -/
def calledWith (args : List Value) : Machine :=
  let m := Machine.new .default
  { m with
    stack := args.foldl OperandStack.push ((OperandStack.new.push .null).push .undefined)
    regs := { m.regs with args := args.length } }

theorem entering_calledWith (args : List Value) : Entering (calledWith args) .null .undefined args := by
  have hnew : OperandStack.new.Holds [] := ⟨rfl, rfl⟩
  exact ⟨⟨[], ((hnew.push .null).push .undefined).pushAll args⟩, rfl⟩

/-- The only local of a function without parameters starts as the argument of the call. -/
theorem locals_uninitialised_surplus :
    Entering (calledWith [.int 7]) .null .undefined [.int 7] ∧
      ∃ m', execute (VM.enter 0) 0 (.enterFunction ⟨none, 1, 0, 0, true⟩) (calledWith [.int 7]) = .ok () m' ∧
        execute (VM.enter 0) 0 (.loadScope ⟨0, 0⟩ true) m' = pushNext (.int 7) m' := by
  refine ⟨entering_calledWith _, ?_⟩
  obtain ⟨m', hrun, hlocals⟩ := (locals_uninitialised (entering_calledWith [.int 7]) (VM.enter 0) 0).1
    ⟨none, 1, 0, 0, true⟩ (Nat.zero_le 1)
  exact ⟨m', hrun, ((hlocals 0 (Nat.le_refl 0) Nat.zero_lt_one).2 rfl (.int 7) rfl).2 rfl true⟩

end Locals

end VM

end ScriptMachine
