import ScriptMachine.Proofs.Bindings.Uninitialized

/-!
# Constants

A constant that is initialised keeps its value.  Its name is resolved to a reference by one instruction, and another one
assigns to the reference, perhaps much later; the reference holds whether the binding or the code that resolved it is
strict.  In this case the assignment is reported, and otherwise dropped.

Main result: `bindings_guarded`.
-/

namespace ScriptMachine.VM

open Store (Makes)

/-! ### Resolving -/

/-- Instructions that resolve a binding, and whether this is in strict mode.  With a fixed address goes the kind of the
binding. -/
inductive ResolvesBinding (m : Machine) (b : Binding) : Instruction → Bool → Prop where
  | name {strict n s i} (nearest : Nearest m b n s i) : ResolvesBinding m b (.resolveName b.name strict) strict
  | near {write index n s i} (name : write.target.name = b.name) (nearest : Nearest m b n s i)
      (within : n < write.target.level) : ResolvesBinding m b (.resolveMixed write index) write.strict
  | nearSlot {write a n s i} (name : write.target.name = b.name) (nearest : Nearest m b n s i)
      (within : n < write.target.level) : ResolvesBinding m b (.resolveMixedSlot write a) write.strict
  | mixed {write index s} (name : write.target.name = b.name) (kind : write.kind = b.kind)
      (site : b.site = .record s index) (reached : m.store.outward write.target.level m.regs.scope = some s)
      (absent : AbsentBelow m b.name write.target.level) :
      ResolvesBinding m b (.resolveMixed write index) write.strict
  | mixedSlot {write a i s} (name : write.target.name = b.name) (kind : write.kind = b.kind)
      (site : b.site = .stack i) (addressed : slotIndex a m = .ok (some i) m)
      (reached : m.store.outward write.target.level m.regs.scope = some s)
      (absent : AbsentBelow m b.name write.target.level) :
      ResolvesBinding m b (.resolveMixedSlot write a) write.strict

section Resolve

variable {m : Machine} {b : Binding} {n i : Nat} {s : ScopeId} {instr : Instruction} {strict : Bool}

theorem Nearest.reference_eq (h : Nearest m b n s i) (strict : Bool) :
    b.reference strict = .scope b.name s i (b.kind.foldStrict strict) := by
  rw [Binding.reference, h.site]

theorem Nearest.scan_reference (h : Nearest m b n s i) (strict : Bool) {level : Nat} (hn : n < level) :
    ∃ σ, Makes m.store σ ∧ scan (referenceIn? b.name strict) level m.regs.scope m =
      .ok (.inl (b.reference strict)) (VM.withStore m σ) := by
  obtain ⟨σ, rest, hσ, hscan⟩ := scan_of_first (looks_referenceIn b.name strict) hn h.reached h.absent
  refine ⟨σ, hσ, hscan.trans ?_⟩
  have hthere := h.withStore hσ
  have hlook : referenceIn? b.name strict s (VM.withStore m σ) = .ok (some (b.reference strict)) (VM.withStore m σ) := by
    rw [referenceIn_of_slots strict hthere.slotBacked, hthere.bound, h.reference_eq]
    rfl
  rw [scan, bind_ok hlook]
  rfl

theorem ResolvesBinding.execute (h : ResolvesBinding m b instr strict) (enter : Enter) (fuel : Nat) :
    ∃ σ, Makes m.store σ ∧ VM.execute enter fuel instr m =
      advance { withStore m σ with refs := b.reference strict :: m.refs } := by
  cases h with
  | name nearest =>
    obtain ⟨σ, hσ, hresolve⟩ := nearest.found.resolve strict
    rw [Place.reference, ← nearest.reference_eq] at hresolve
    refine ⟨σ, hσ, ?_⟩
    show resolveName b.name strict m = _
    rw [resolveName, bind_ok hresolve]
    rfl
  | @near write index n s i name nearest within =>
    obtain ⟨σ, hσ, hscan⟩ := nearest.scan_reference write.strict within
    rw [← name] at hscan
    refine ⟨σ, hσ, ?_⟩
    show resolveMixed write index m = _
    rw [resolveMixed, regs_bind, bind_ok hscan]
    rfl
  | @nearSlot write a n s i name nearest within =>
    obtain ⟨σ, hσ, hscan⟩ := nearest.scan_reference write.strict within
    rw [← name] at hscan
    refine ⟨σ, hσ, ?_⟩
    show resolveMixedSlot write a m = _
    rw [resolveMixedSlot, regs_bind, bind_ok hscan]
    rfl
  | @mixed write index s name kind site reached absent =>
    rw [← name] at absent
    obtain ⟨σ, hσ, hscan⟩ := scan_of_absent (looks_referenceIn write.target.name write.strict) reached absent
    refine ⟨σ, hσ, ?_⟩
    show resolveMixed write index m = _
    rw [resolveMixed, regs_bind, bind_ok hscan, Binding.reference, site, ← name, ← kind]
    rfl
  | @mixedSlot write a i s name kind site addressed reached absent =>
    rw [← name] at absent
    obtain ⟨σ, hσ, hscan⟩ := scan_of_absent (looks_referenceIn write.target.name write.strict) reached absent
    refine ⟨σ, hσ, ?_⟩
    have haddress : slotOrFault a .missingArgumentReference (withStore m σ) = .ok i (withStore m σ) := by
      have hindex : slotIndex a (withStore m σ) = .ok (some i) (withStore m σ) := slotIndex_congr addressed rfl
      rw [slotOrFault, bind_ok hindex]
      rfl
    show resolveMixedSlot write a m = _
    rw [resolveMixedSlot, regs_bind, bind_ok hscan, Binding.reference, site, ← name, ← kind]
    dsimp only
    rw [bind_ok haddress]
    rfl

end Resolve

/-! ### Assigning -/

section Assign

variable {m : Machine} {b : Binding} {v : Value} {fixed strict : Bool}

theorem admits_constant (hv : v ≠ .empty) (fixed strict : Bool) (name : Text) :
    ((BindingKind.constant fixed).foldStrict strict).admits name v =
      if strict || fixed then .error (.type .constant) else .ok false := by
  have hempty : v.isEmpty = false := by
    cases v with
    | empty => exact absurd rfl hv
    | _ => rfl
  simp [BindingKind.foldStrict, BindingKind.admits, hempty]

theorem writeReference_constant (hb : b.kind = .constant fixed) (hv : b.site.value? m = some v) (hne : v ≠ .empty)
    (strict : Bool) (w : Value) :
    writeReference (b.reference strict) w m =
      (if strict || fixed then raise (.type .constant) else pure () : VM Unit) m := by
  have hadmits := admits_constant hne fixed strict b.name
  rw [← hb] at hadmits
  cases hstrict : strict || fixed with
  | true =>
    rw [hstrict] at hadmits
    exact writeReference_of_refused hv hadmits nofun w
  | false =>
    rw [hstrict] at hadmits
    exact writeReference_of_refused hv hadmits nofun w

theorem putValue_constant (hb : b.kind = .constant fixed) (hv : b.site.value? m = some v) (hne : v ≠ .empty)
    {rest : List Reference} (hrefs : m.refs = b.reference strict :: rest) (ho : HasOperand m b) (popped : Bool) :
    putValue popped m = (if strict || fixed then raise (.type .constant) else advance : VM Unit)
      { m with refs := rest, stack := m.stack.taken popped } := by
  obtain ⟨w, htake⟩ := ho.takeTop popped rest
  have hpop : popRef m = .ok (b.reference strict) { m with refs := rest } := by
    rw [popRef, get_bind, hrefs]
    rfl
  have hwrite := writeReference_constant hb ((ho.value?_taken popped rest).trans hv) hne strict w
  rw [putValue, bind_ok hpop, bind_ok htake, bind_congr_at hwrite]
  split <;> rfl

theorem setGlobal_constant (hb : b.kind = .constant fixed) (hv : b.site.value? m = some v) (hne : v ≠ .empty) {i : Nat}
    (hglobal : IsGlobal m b i) (ho : HasOperand m b) (strict : Bool) :
    setGlobal b.name strict m = (if strict || fixed then raise (.type .constant) else advance : VM Unit) m := by
  obtain ⟨w, hpeek⟩ := ho.peek
  have hassign : assignGlobal b.name w strict m = writeReference (b.reference strict) w m := by
    rw [assignGlobal, realm_bind, bind_ok (hglobal.referenceIn strict)]
  rw [setGlobal, bind_ok hpeek, bind_congr_at (hassign.trans (writeReference_constant hb hv hne strict w))]
  split <;> rfl

end Assign

/-! ### Again and again -/

/-- The states that come about when a binding is resolved and assigned any number of times.  In between the machine may do
whatever leaves the value of the binding where it is, and may also drop references.  The list tells of the references
that were resolved and not used yet whether this was in strict mode. -/
inductive Tried (enter : Enter) (fuel : Nat) (b : Binding) (m : Machine) : List Bool → Machine → Prop where
  | start : Tried enter fuel b m [] m
  | elsewhere {dropped pending m₁ m₂} (before : Tried enter fuel b m (dropped ++ pending) m₁)
      (value : b.site.value? m₂ = b.site.value? m₁) (refs : m₂.refs = m₁.refs.drop dropped.length) :
      Tried enter fuel b m pending m₂
  | resolve {pending m₁ instr strict} (before : Tried enter fuel b m pending m₁)
      (resolves : ResolvesBinding m₁ b instr strict) :
      Tried enter fuel b m (strict :: pending) (endOf (execute enter fuel instr m₁))
  | put {strict pending m₁ popped} (before : Tried enter fuel b m (strict :: pending) m₁) (operand : HasOperand m₁ b) :
      Tried enter fuel b m pending (endOf (execute enter fuel (.putValue popped) m₁))
  | setGlobal {strict pending m₁ i} (before : Tried enter fuel b m pending m₁) (isGlobal : IsGlobal m₁ b i)
      (operand : HasOperand m₁ b) :
      Tried enter fuel b m pending (endOf (execute enter fuel (.setGlobal b.name strict) m₁))

section Runs

variable {enter : Enter} {fuel : Nat} {b : Binding} {m m' : Machine} {pending : List Bool} {v : Value} {fixed : Bool}

/-- **A constant keeps its value**, and the references to it stay on top of those that were there before. -/
theorem Tried.kept (h : Tried enter fuel b m pending m') (hb : b.kind = .constant fixed)
    (hv : b.site.value? m = some v) (hne : v ≠ .empty) :
    b.site.value? m' = some v ∧ m'.refs = pending.map b.reference ++ m.refs := by
  induction h with
  | start => exact ⟨hv, rfl⟩
  | @elsewhere dropped pending m₁ m₂ before value refs ih =>
    refine ⟨value.trans ih.1, ?_⟩
    rw [refs, ih.2, List.map_append, List.append_assoc]
    exact List.drop_left' (List.length_map _)
  | @resolve pending m₁ instr strict before resolves ih =>
    obtain ⟨σ, hσ, hrun⟩ := resolves.execute enter fuel
    rw [hrun]
    refine ⟨(value?_withStore hσ b.site).trans ih.1, ?_⟩
    rw [ih.2]
    rfl
  | @put strict pending m₁ popped before operand ih =>
    have hput := putValue_constant hb ih.1 hne ih.2 operand popped
    rw [show execute enter fuel (.putValue popped) m₁ = _ from hput]
    have hvalue := (operand.value?_taken popped (pending.map b.reference ++ m.refs)).trans ih.1
    split <;> exact ⟨hvalue, rfl⟩
  | @setGlobal strict pending m₁ i before isGlobal operand ih =>
    have hset := setGlobal_constant hb ih.1 hne isGlobal operand strict
    rw [show execute enter fuel (.setGlobal b.name strict) m₁ = _ from hset]
    split <;> exact ih

end Runs

/-- **Lexical bindings are guarded.**  Before the binding is initialised, every instruction that reads it or assigns to it
reports this and leaves its slot empty.  Once a constant is initialised, no attempts to assign to it change its value:
each is reported if the binding or the code that resolved it is strict, and otherwise only the operand is taken. -/
theorem bindings_guarded (enter : Enter) (fuel : Nat) (m : Machine) (b : Binding) :
    (b.kind.isLexical = true → b.site.value? m = some .empty →
      ∀ instr, ReadsBinding m b instr ∨ WritesBinding m b instr →
        ∃ name m', execute enter fuel instr m = .error (.fault (.uninitialized name)) m' ∧
          b.site.value? m' = some .empty) ∧
    ∀ fixed v, b.kind = .constant fixed → b.site.value? m = some v → v ≠ .empty →
      ∀ pending m', Tried enter fuel b m pending m' →
        b.site.value? m' = some v ∧
        (∀ strict rest popped, pending = strict :: rest → HasOperand m' b →
          execute enter fuel (.putValue popped) m' =
            (if strict || fixed then raise (.type .constant) else advance : VM Unit)
              { m' with refs := rest.map b.reference ++ m.refs, stack := m'.stack.taken popped }) ∧
        ∀ strict i, IsGlobal m' b i → HasOperand m' b →
          execute enter fuel (.setGlobal b.name strict) m' =
            (if strict || fixed then raise (.type .constant) else advance : VM Unit) m' := by
  refine ⟨fun hkind hempty instr hinstr => ?_, fun fixed v hb hv hne pending m' htried => ?_⟩
  · rcases hinstr with hread | hwrite
    · obtain ⟨name, σ, hσ, hrun⟩ := hread.uninitialized hkind hempty enter fuel
      exact ⟨name, withStore m σ, hrun, (value?_withStore hσ b.site).trans hempty⟩
    · exact hwrite.uninitialized hkind hempty enter fuel
  · obtain ⟨hvalue, hrefs⟩ := htried.kept hb hv hne
    refine ⟨hvalue, fun strict rest popped hpending ho => ?_, fun strict i hglobal ho => ?_⟩
    · subst hpending
      exact putValue_constant hb hvalue hne hrefs ho popped
    · exact setGlobal_constant hb hvalue hne hglobal ho strict

/-- In a block that declares one name. -/
def inBlock (kind : BindingKind) (v : Value) : Machine :=
  { emptyWorld with
    store := { emptyWorld.store with
      scopes := #[.new none, { Scope.new (some ⟨0⟩) with
        slots := #[v], names := some (.ofList [(.ofUnits [120], kind)]) }] }
    regs := .idle ⟨1⟩ }

def blockBinding (kind : BindingKind) : Binding := ⟨.ofUnits [120], kind, .record ⟨1⟩ 0⟩

theorem nearest_inBlock (kind : BindingKind) (v : Value) : Nearest (inBlock kind v) (blockBinding kind) 0 ⟨1⟩ 0 where
  site := rfl
  reached := rfl
  slotBacked := rfl
  bound := rfl
  absent _ hj := absurd hj (Nat.not_lt_zero _)

theorem hasOperand_inBlock (kind : BindingKind) (v : Value) : HasOperand (inBlock kind v) (blockBinding kind) where
  present := ⟨.bool true, _, rfl⟩
  above _ hsite := by cases hsite

/-- Without an operand, a store to a binding that is not initialised reports that there is none; and a constant is changed
by code that resolves it as a variable. -/
theorem unguarded_when_misused : storeScope ⟨0, 0⟩ true true { inBlock .lexical .empty with stack := .new } =
      .error (.fault (.internal .operandUnderflow)) { inBlock .lexical .empty with stack := .new } ∧
    (blockBinding (.constant true)).site.value? (endOf ((do
      resolveMixed ⟨⟨.ofUnits [120], 0⟩, .lexical, true⟩ 0
      putValue true : VM Unit) (inBlock (.constant true) .undefined))) = some (.bool true) :=
  ⟨rfl, rfl⟩

/-- A store to a binding that is not initialised, and an assignment to a constant that is not strict itself through a
reference that strict code has resolved. -/
theorem bindings_guarded_inBlock :
    (∃ name m', execute (fun _ => outOfFuel) 0 (.storeScope ⟨0, 0⟩ true true) (inBlock .lexical .empty) =
        .error (.fault (.uninitialized name)) m' ∧ (blockBinding .lexical).site.value? m' = some .empty) ∧
    let m := endOf (execute (fun _ => outOfFuel) 0 (.resolveName (.ofUnits [120]) true) (inBlock (.constant false) .undefined))
    (blockBinding (.constant false)).site.value? m = some .undefined ∧
    execute (fun _ => outOfFuel) 0 (.putValue true) m =
      raise (.type .constant) { m with refs := [], stack := m.stack.taken true } := by
  refine ⟨(bindings_guarded _ 0 _ (blockBinding .lexical)).1 rfl rfl _ (.inr (.scope rfl rfl (hasOperand_inBlock _ _))), ?_⟩
  have htried : Tried (fun _ => outOfFuel) 0 (blockBinding (.constant false)) (inBlock (.constant false) .undefined) [true]
      (endOf (execute (fun _ => outOfFuel) 0 (.resolveName (.ofUnits [120]) true)
        (inBlock (.constant false) .undefined))) :=
    .resolve .start (.name (nearest_inBlock _ _))
  obtain ⟨hvalue, hput, -⟩ := (bindings_guarded (fun _ => outOfFuel) 0 _ (blockBinding (.constant false))).2
    false .undefined rfl rfl (by simp) _ _ htried
  exact ⟨hvalue, hput true [] true rfl ⟨⟨.bool true, _, rfl⟩, fun _ hsite => by cases hsite⟩⟩

end ScriptMachine.VM
