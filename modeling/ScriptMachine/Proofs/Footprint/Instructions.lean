import ScriptMachine.Dispatch
import ScriptMachine.Proofs.Footprint.Values

/-!
# What instructions leave alone

* `obeys_execute` — all instructions but calls, returns, `halt` and `guard` leave control alone: they obey every law
  that allows the rest to be changed and that the calls they make obey.
-/

namespace ScriptMachine

variable {i : Instruction}

/-- Whether an instruction sets the base of the running code. -/
def Instruction.beginsFrame : Instruction → Bool
  | .enterFunction _ | .enterParameters _ | .enterBare .. => true
  | _ => false

/-- Whether an instruction opens, changes or leaves a loop. -/
def Instruction.isLoop : Instruction → Bool
  | .enumerate | .nextKey _ | .leaveLoop | .closeLoop | .iterate _ | .nextItem _ | .nextItemOrUndefined
  | .restArray => true
  | _ => false

/-- Whether an instruction declares global names or forgets one, or replaces the current record. -/
def Instruction.declares : Instruction → Bool
  | .bindGlobals _ | .deleteGlobal _ | .copyScope => true
  | _ => false

/-- Whether an instruction starts or ends a call or a section of a try statement. -/
def Instruction.isTransfer : Instruction → Bool
  | .halt | .guard .. | .ret | .call _ | .callVariadic | .callEval .. | .callEvalVariadic _ | .construct _
  | .constructVariadic => true
  | _ => false

def Instruction.isCall : Instruction → Bool
  | .call _ | .callVariadic | .callEval .. | .callEvalVariadic _ | .construct _ | .constructVariadic => true
  | _ => false

theorem Instruction.transfer_cases (h : i.isTransfer = true) :
    i = .halt ∨ (∃ catchOffset finallyOffset, i = .guard catchOffset finallyOffset) ∨ i = .ret ∨ i.isCall = true := by
  cases i with
  | halt => exact .inl rfl
  | guard catchOffset finallyOffset => exact .inr (.inl ⟨_, _, rfl⟩)
  | ret => exact .inr (.inr (.inl rfl))
  | _ => exact .inr (.inr (.inr h))

namespace Scope

theorem outer_fillMissing (x : Scope) (passed params : Nat) : (x.fillMissing passed params).outer = x.outer := by
  unfold fillMissing
  split <;> rfl

theorem outer_withArguments (x : Scope) (args : List Value) (params : Nat) :
    (x.withArguments args params).outer = x.outer := by
  unfold withArguments
  dsimp only
  split
  · rfl
  · exact outer_fillMissing _ _ _

theorem outer_withCopies (x : Scope) (args : List Value) (params copied : Nat) :
    (x.withCopies args params copied).outer = x.outer := by
  unfold withCopies
  dsimp only
  split
  · split <;> rfl
  · exact outer_fillMissing _ _ _

end Scope

/-- What is called is a function that was made, or no function of a script. -/
def Callee.Made : Callee → Machine → Prop
  | .script f, m => ∃ o, (m.store.settled o).kind.holds? = some (f.scope, some f)
  | _, _ => True

theorem Callee.Made.sees {f : Closure} {m : Machine} (h : Callee.Made (.script f) m) : m.Sees f.scope := h.elim fun _ => .held

namespace VM

variable {L : Law} {R : Machine → Machine → Prop} {m m' : Machine}

/-! ### Names, declarations and scopes -/

@[grind ←] theorem obeys_slotIndex (a : SlotAddress) : Heeds L (slotIndex a) := by
  grind [slotIndex]

@[grind ←] theorem obeys_slotOrFault (a : SlotAddress) (cause : InternalCause) : Heeds L (slotOrFault a cause) := by
  grind [slotOrFault]

@[grind ←] theorem obeys_readSlot (a : SlotAddress) (lexical : Bool) (name : Option Text) :
    Heeds L (readSlot a lexical name) := by
  grind [readSlot]

@[grind ←] theorem obeys_outerScope (s : ScopeId) (n : Nat) : Heeds L (outerScope s n) := by
  induction n generalizing s <;> grind [outerScope]

@[grind ←] theorem obeys_scopeAt (level : Nat) : Heeds L (scopeAt level) := by
  grind [scopeAt]

@[grind ←] theorem obeys_scopeReceiver (s : ScopeId) : Heeds L (scopeReceiver s) := by
  grind [scopeReceiver]

@[grind ←] theorem obeys_calleeOfFrame : Heeds L calleeOfFrame := by
  grind [calleeOfFrame]

@[grind ←] theorem obeys_isGlobalLexical (name : Text) : Heeds L (isGlobalLexical name) := by
  grind [isGlobalLexical]

@[grind ←] theorem obeys_returned (v : Value) (base : Nat) : Heeds L (returned v base) := by
  grind [returned]

@[grind ←] theorem obeys_scan {look : ScopeId → VM (Option α)} (h : ∀ s, Heeds L (look s)) (n : Nat)
    (s : ScopeId) : Heeds L (scan look n s) := by
  induction n generalizing s <;> grind [scan]

section Store

variable [L.Store]

@[grind ←] theorem obeys_lookAlong {look : ScopeId → VM (Option α)} (h : ∀ s, Heeds L (look s))
    (name : Text) : Heeds L (lookAlong look name) := by
  refine obeys_regs.bind fun r => (obeys_onStore _).bind fun found => ?_
  grind

@[grind ←] theorem obeys_readIn (name : Text) (s : ScopeId) : Heeds L (readIn? name s) := by
  grind [readIn?]

@[grind ←] theorem obeys_lookup (name : Text) : Heeds L (lookup? name) := by
  refine (obeys_lookAlong (obeys_readIn name) name).bind fun found => ?_
  grind

@[grind ←] theorem obeys_referenceIn (name : Text) (strict : Bool) (s : ScopeId) :
    Heeds L (referenceIn? name strict s) := by
  grind [referenceIn?]

@[grind ←] theorem obeys_globalReference (name : Text) (strict : Bool) : Heeds L (globalReference name strict) := by
  grind [globalReference]

@[grind ←] theorem obeys_resolve (name : Text) (strict : Bool) : Heeds L (resolve name strict) := by
  refine (obeys_lookAlong (obeys_referenceIn name strict) name).bind fun found => ?_
  grind

@[grind ←] theorem obeys_readReference (r : Reference) : Heeds L (readReference r) := by
  cases r <;> grind [readReference]

@[grind ←] theorem obeys_writeScopeSlot (s : ScopeId) (index : Nat) (v : Value) :
    Heeds L (writeScopeSlot s index v) := by
  refine (obeys_scopeRecord s).bind fun x => ?_
  split
  · exact obeys_modifyScope s (fun _ _ => rfl) fun _ => rfl
  · exact obeys_raise _

theorem obeys_updateScope (s : ScopeId) {f : Scope → Outcome Scope}
    (hf : ∀ x y, f x = .ok y → y.names = x.names ∧ y.outer = x.outer) : Heeds L (updateScope s f) := by
  refine obeys_self fun m _ => ?_
  have hread : scopeRecord s m = .ok (m.store.scope s) m := rfl
  unfold updateScope
  rw [bind_ok hread]
  cases hx : f (m.store.scope s) with
  | error e => exact L.weaken (L.refl m)
  | ok y =>
    obtain ⟨hnames, houter⟩ := hf _ _ hx
    exact Law.Store.store m (.modifyScope m.store s (Scope.lexical?_of_names hnames) houter)

theorem obeys_writeBinding (s : ScopeId) (name : Text) (index : Nat) (v : Value) :
    Heeds L (updateScope s (·.writeSlot name index v)) :=
  obeys_updateScope s fun _ _ => Scope.kept_of_writeSlot

theorem obeys_initBinding (s : ScopeId) (name : Text) (v : Value) : Heeds L (updateScope s (·.init name v)) :=
  obeys_updateScope s fun _ _ => Scope.kept_of_init

@[grind ←] theorem obeys_deleteFromGlobal (name : Text) : Heeds L (deleteFromGlobal name) := by
  grind [deleteFromGlobal]

@[grind ←] theorem obeys_deleteFromScope (s : ScopeId) (name : Text) : Heeds L (deleteFromScope s name) := by
  refine obeys_self fun m hm => ?_
  have hread : scopeRecord s m = .ok (m.store.scope s) m := rfl
  unfold deleteFromScope
  rw [bind_ok hread]
  cases (m.store.scope s).object with
  | some o => exact (obeys_demand _).allows hm
  | none =>
    cases hfind : (m.store.scope s).find? name with
    | none => exact L.refl m
    | some info =>
      simp only [Option.any_some]
      by_cases hkind : info.kind = .hoisted true
      · have hkept := Scope.lexical?_deleteBinding hfind (by rw [hkind]; rfl)
        rw [if_pos (decide_eq_true hkind)]
        exact Law.Store.store m (.modifyScope m.store s hkept (Scope.outer_deleteBinding _ _))
      · rw [if_neg (by simpa using hkind)]
        exact L.refl m

@[grind ←] theorem obeys_putItems (o : ObjectId) (i : Nat) (vs : List Value) : Heeds L (putItems o i vs) := by
  induction vs generalizing i <;> grind [putItems]

@[grind ←] theorem obeys_defineHidden (o : ObjectId) (key : PropertyKey) (v : Value) :
    Heeds L (defineHidden o key v) := by
  grind [defineHidden]

@[grind ←] theorem obeys_globalProperty (name : Text) : Heeds L (globalProperty? name) := by
  grind [globalProperty?]

@[grind ←] theorem obeys_checkFunction (name : Text) : Heeds L (checkFunction name) := by
  grind [checkFunction]

@[grind ←] theorem obeys_checkLexical (name : Text) : Heeds L (checkLexical name) := by
  grind [checkLexical]

@[grind ←] theorem obeys_checkVariable (name : Text) : Heeds L (checkVariable name) := by
  grind [checkVariable]

@[grind ←] theorem obeys_openCursor (v : Value) : Heeds L (openCursor v) := by
  grind [openCursor]

end Store

theorem obeys_forM_mem {l : List α} {f : α → VM PUnit} (h : ∀ a ∈ l, Heeds L (f a)) : Heeds L (l.forM f) := by
  induction l with
  | nil => exact obeys_pure _
  | cons a l ih =>
    rw [List.forall_mem_cons] at h
    exact h.1.bind fun _ => ih h.2

@[grind ←] theorem obeys_forM {l : List α} {f : α → VM PUnit} (h : ∀ a, Heeds L (f a)) :
    Heeds L (l.forM f) := obeys_forM_mem fun a _ => h a

section Operands

variable [L.Operands] {R : Machine → Machine → Prop} [L.Landing R]

@[grind ←] theorem lands_bindVars (b : VarBindings) : Arrives L R (bindVars b) := by
  refine obeys_regs.lands fun r => obeys_get.lands fun m => (obeys_ofOutcome _).lands fun target => ?_
  exact (obeys_modifyScope _ (fun _ => Scope.lexical?_createVars _ _) fun _ => Scope.outer_createVars _ _).lands
    fun _ => lands_advance

@[grind ←] theorem obeys_writeReference (r : Reference) (v : Value) : Heeds L (writeReference r v) := by
  cases r with
  | scope name s i kind =>
    have hwrite := obeys_writeBinding (L := L) s name i v
    grind [writeReference]
  | _ => grind [writeReference]

@[grind ←] theorem obeys_initReference (r : Reference) (v : Value) : Heeds L (initReference r v) := by
  cases r with
  | scope name s i kind => exact obeys_writeBinding s name i v
  | _ => grind [initReference]

/-! ### Instructions that make no calls -/

@[grind ←] theorem lands_drop : Arrives L R drop := by
  grind [drop]

omit [L.Operands] in
@[grind ←] theorem lands_jump (offset : Int) : Arrives L R (jump offset) := by
  refine obeys_regs.lands fun r => ?_
  dsimp only
  split
  · exact lands_raise _
  · exact lands_modifyRegs fun _ => .operands

omit [L.Operands] in
@[grind ←] theorem lands_jumpIf (condition : Bool) (offset : Int) : Arrives L R (jumpIf condition offset) := by
  grind [jumpIf]

@[grind ←] theorem lands_jumpKeeping (condition : Bool) (offset : Int) :
    Arrives L R (jumpKeeping condition offset) := by
  grind [jumpKeeping]

@[grind ←] theorem lands_jumpOn (test : JumpTest) (offset : Int) : Arrives L R (jumpOn test offset) := by
  cases test <;> grind [jumpOn]

@[grind ←] theorem lands_setResult (v : Value) : Arrives L R (setResult v) :=
  Obeys.lands (obeys_modifyRegsInPlace (fun _ => .operands) fun _ => rfl) fun _ => lands_advance

@[grind ←] theorem lands_initGlobal (name : Text) : Arrives L R (initGlobal name) :=
  obeys_pop.lands fun v => obeys_realm.lands fun _ => (obeys_initBinding _ name v).lands fun _ => lands_advance

@[grind ←] theorem lands_pushRead (read : DynamicRead) (v receiver : Value) :
    Arrives L R (pushRead read v receiver) := by
  grind [pushRead]

@[grind ←] theorem lands_loadMixed (read : DynamicRead) (index : Nat) : Arrives L R (loadMixed read index) := by
  refine obeys_regs.lands fun r => (obeys_scan (obeys_readIn _) _ _).lands fun found => ?_
  grind

@[grind ←] theorem lands_loadMixedSlot (read : DynamicRead) (a : SlotAddress) : Arrives L R (loadMixedSlot read a) := by
  grind [loadMixedSlot]

/-- What a search found refers to no record out of sight. -/
def Shown (m : Machine) : Reference ⊕ ScopeId → Prop
  | .inl r => ∀ s, r.record? = some s → m.Sees s
  | .inr s => m.Sees s

/-- The law that records stay in sight. -/
def sighted : Law :=
  .ofRel (fun _ => True) (fun m m' => ∀ s, m.Sees s → m'.Sees s) (fun _ _ => id) (fun h h' s => h' s ∘ h s)
    (fun _ _ => trivial)

instance : sighted.Store := ⟨fun _ _ h _ => (Machine.sees_of_links h.toLinks).mpr⟩

omit [L.Operands] [L.Landing R] in
theorem shown_of_referenceIn {name : Text} {strict : Bool} {s : ScopeId} {r : Reference}
    (h : referenceIn? name strict s m = .ok (some r) m') : Shown m' (.inl r) := by
  have hread : scopeRecord s m = .ok (m.store.scope s) m := rfl
  unfold referenceIn? at h
  rw [bind_ok hread] at h
  cases hobject : (m.store.scope s).object with
  | some o =>
    rw [hobject] at h
    obtain ⟨provided, m₁, _, h⟩ := bind_eq_ok.mp h
    cases provided <;> cases h
    rintro _ ⟨⟩
  | none =>
    rw [hobject] at h
    cases hfind : (m.store.scope s).find? name with
    | none =>
      rw [hfind] at h
      cases h
    | some i =>
      rw [hfind] at h
      cases h
      rintro t ⟨⟩
      refine .known (Nat.lt_of_not_le fun hle => ?_)
      rw [Store.scope, Array.getElem?_eq_none hle] at hfind
      cases hfind

omit [L.Operands] [L.Landing R] in
theorem shown_of_scan {name : Text} {strict : Bool} {n : Nat} {s : ScopeId} {found : Reference ⊕ ScopeId}
    (hs : m.Sees s) (h : scan (referenceIn? name strict) n s m = .ok found m') : Shown m' found := by
  induction n generalizing m s with
  | zero =>
    cases h
    exact hs
  | succ n ih =>
    obtain ⟨r, m₁, hlook, h⟩ := bind_eq_ok.mp h
    have hs₁ := (obeys_referenceIn (L := sighted) name strict s).rel_of_ok trivial hlook s hs
    cases r with
    | some r =>
      cases h
      exact shown_of_referenceIn hlook
    | none =>
      obtain ⟨t, m₂, houter, h⟩ := bind_eq_ok.mp h
      have hread : scopeRecord s m₁ = .ok (m₁.store.scope s) m₁ := rfl
      unfold outerScope at houter
      rw [bind_ok hread] at houter
      cases ht : (m₁.store.scope s).outer with
      | none =>
        rw [ht] at houter
        cases houter
      | some t' =>
        rw [ht] at houter
        cases houter
        exact ih (.outer ht) h

omit [L.Operands] [L.Landing R] in
theorem shown_of_resolve {name : Text} {strict : Bool} {r : Reference} (h : resolve name strict m = .ok r m') :
    Shown m' (.inl r) := by
  obtain ⟨found, m₁, hlook, h⟩ := bind_eq_ok.mp h
  cases found with
  | some r' =>
    cases h
    unfold lookAlong at hlook
    rw [regs_bind] at hlook
    obtain ⟨provider, m₂, _, hlook⟩ := bind_eq_ok.mp hlook
    cases provider with
    | some s => exact shown_of_referenceIn hlook
    | none => cases hlook
  | none =>
    cases strict with
    | false =>
      cases h
      rintro _ ⟨⟩
    | true =>
      dsimp only at h
      unfold globalReference at h
      rw [realm_bind] at h
      obtain ⟨known, m₂, _, h⟩ := bind_eq_ok.mp h
      cases known <;> cases h <;> rintro _ ⟨⟩

omit [L.Landing R] in
@[grind ←] theorem obeys_pushProperty (o : ObjectId) (key : PropertyKey) (strict binding : Bool) :
    Heeds L (pushRef (.property o key strict binding)) :=
  LandsWhen.now ((obeys_pushRef _).imp fun _ _ => by rintro _ ⟨⟩)

theorem lands_pushRef {r : Reference} : LandsWhen L (Shown · (.inl r)) R (do pushRef r; advance) (do pushRef r; advance) :=
  (obeys_pushRef r).landsWith fun _ => lands_advance

@[grind ←] theorem lands_resolveName (name : Text) (strict : Bool) : Arrives L R (resolveName name strict) :=
  LandsWhen.now (((obeys_resolve name strict).when _).lands Law.Landing.after (fun _ => shown_of_resolve) fun _ =>
    lands_pushRef)

@[grind ←] theorem lands_resolveMixed (write : DynamicWrite) (index : Nat) :
    Arrives L R (resolveMixed write index) := by
  refine lands_regs_bind fun r => ((obeys_scan (obeys_referenceIn _ _) _ _).when _).lands Law.Landing.after
    (fun hr h => shown_of_scan (hr ▸ .current) h) fun found => ?_
  cases found with
  | inl r => exact lands_pushRef
  | inr s =>
    refine LandsWhen.imp lands_pushRef fun m hs t ht => ?_
    cases ht
    exact hs

@[grind ←] theorem lands_resolveMixedSlot (write : DynamicWrite) (a : SlotAddress) :
    Arrives L R (resolveMixedSlot write a) := by
  refine lands_regs_bind fun r => ((obeys_scan (obeys_referenceIn _ _) _ _).when _).lands Law.Landing.after
    (fun hr h => shown_of_scan (hr ▸ .current) h) fun found => ?_
  cases found with
  | inl r => exact lands_pushRef
  | inr s =>
    exact Lands.when ((obeys_slotOrFault _ _).lands fun i =>
      LandsWhen.now (lands_pushRef.imp fun _ _ => by rintro _ ⟨⟩)) _

@[grind ←] theorem lands_getValue : Arrives L R getValue := by
  grind [getValue]

@[grind ←] theorem lands_initValue : Arrives L R initValue := by
  grind [initValue]

@[grind ←] theorem obeys_assignGlobal (name : Text) (v : Value) (strict : Bool) :
    Heeds L (assignGlobal name v strict) := by
  grind [assignGlobal]

theorem obeys_enterScope {x : Scope} {s : ScopeId} (hx : x.outer = some s) :
    ObeysWhen L (fun m => m.Sees s) (enterScope x) (enterScope x) := fun _ _ hs =>
  ⟨.inl rfl, Law.Operands.operands (.of_advances (.of_newScope hx hs _)) rfl⟩

omit [L.Operands] in
@[grind ←] theorem obeys_beginFrame [L.Base] : Heeds L beginFrame := by
  refine obeys_regs.bind fun r => obeys_top.bind fun top => ?_
  split
  · exact obeys_raise _
  · exact (obeys_modify fun m => Law.Base.base m _).bind fun _ => obeys_slots _ _

@[grind ←] theorem obeys_padArguments (params : Nat) : Heeds L (padArguments params) := by
  refine obeys_regs.bind fun r => ?_
  dsimp only
  split
  · exact (obeys_pushAll _).bind fun _ => obeys_modifyRegsInPlace (fun _ => .operands) fun _ => rfl
  · exact obeys_pure _

omit [L.Operands] [L.Landing R] in
theorem lands_innerScope {size : Nat} {names : Option ScopeNames} {f g : Scope → VM α}
    (h : ∀ s, LandsWhen L (fun m => m.regs.scope = s) R (f (.withLayout (some s) size names))
      (g (.withLayout (some s) size names))) : Lands L R (innerScope size names >>= f) (innerScope size names >>= g) :=
  fun m hm => h m.regs.scope m hm rfl

/-- A record for the running code. -/
theorem lands_enterInner {x : Scope} {s : ScopeId} {f : Unit → VM α} (hx : x.outer = some s)
    (hf : ∀ a, Arrives L R (f a)) :
    LandsWhen L (fun m => m.regs.scope = s) R (enterScope x >>= f) (enterScope x >>= f) :=
  ObeysWhen.landsWith (LandsWhen.imp (obeys_enterScope hx) fun _ hs => hs ▸ .current) hf

/-- What is done after the base of a frame is set. -/
theorem begins_frame (hb : i.beginsFrame = true) :
    ∃ k, (∀ enter fuel, execute enter fuel i = beginFrame >>= k) ∧ ∀ args, Arrives L R (k args) := by
  cases i with
  | enterFunction e =>
    have hrest : Arrives L R (do reserve e.stackSize; advance) := (obeys_reserve _).lands fun _ => lands_advance
    refine ⟨_, fun _ _ => rfl, fun args => lands_innerScope fun s => ?_⟩
    dsimp only
    split
    · refine LandsWhen.read (fun _ => obeys_top) fun top => (obeys_setTop _).landsStill ?_ fun _ => ?_
      · rintro m _ _ hs ⟨⟩
        exact hs
      · exact lands_enterInner (Scope.outer_withArguments _ _ _) fun _ => hrest
    · refine (obeys_padArguments _).landsStill ?_ fun _ => lands_enterInner rfl fun _ => hrest
      intro m _ m' hs h
      unfold padArguments at h
      rw [regs_bind] at h
      split at h <;> cases h <;> exact hs
  | enterParameters e =>
    exact ⟨_, fun _ _ => rfl, fun _ => lands_innerScope fun _ =>
      lands_enterInner (Scope.outer_withCopies _ _ _ _) fun _ => lands_advance⟩
  | enterBare stackSize params => exact ⟨_, fun _ _ => rfl, fun _ => by grind⟩
  | _ => cases hb

@[grind ←] theorem lands_enterBody (e : BodyEntry) : Arrives L R (enterBody e) := by
  by_cases hsize : 0 < e.layout.scopeSize
  · simp only [enterBody, if_pos hsize]
    refine lands_innerScope fun s => lands_enterInner rfl fun _ => ?_
    grind
  · simp only [enterBody, if_neg hsize]
    grind

@[grind ←] theorem lands_enterBlock (l : ScopeLayout) : Arrives L R (enterBlock l) := by
  by_cases hsize : 0 < l.scopeSize
  · simp only [enterBlock, if_pos hsize]
    refine lands_innerScope fun s => lands_enterInner rfl fun _ => ?_
    grind
  · simp only [enterBlock, if_neg hsize]
    grind

@[grind ←] theorem lands_enterCatch (l : ScopeLayout) : Arrives L R (enterCatch l) := by
  refine lands_innerScope fun s => obeys_pop.landsStill ?_ fun caught => ?_
  · intro m _ _ hs h
    unfold pop onStack at h
    split at h <;> cases h
    exact hs
  · exact lands_enterInner rfl fun _ => (obeys_reserve _).lands fun _ => lands_advance

@[grind ←] theorem lands_enterWith : Arrives L R enterWith :=
  obeys_pop.lands fun _ => (obeys_toObject _).lands fun _ => lands_regs_bind fun _ =>
    (lands_enterInner rfl fun _ => lands_advance).imp fun _ hr => congrArg Activation.scope hr

@[grind ←] theorem obeys_leaveScope : Heeds L leaveScope := by
  refine obeys_self fun m _ => ?_
  have hread : (do scopeRecord (← regs).scope) m = .ok (m.store.scope m.regs.scope) m := rfl
  unfold leaveScope
  rw [← bind_assoc, bind_ok hread]
  cases houter : (m.store.scope m.regs.scope).outer with
  | none => exact L.weaken (L.refl m)
  | some outer =>
    exact Law.Operands.operands (.of_advances (.of_activations (.outer houter) fun _ => .frame)) rfl

@[grind ←] theorem lands_leaveWith : Arrives L R leaveWith := by
  grind [leaveWith]

@[grind ←] theorem lands_boxReceiver : Arrives L R boxReceiver := by
  grind [boxReceiver]

@[grind ←] theorem lands_loadCallee : Arrives L R loadCallee := by
  grind [loadCallee]

@[grind ←] theorem lands_createArguments (params : Nat) (mapped : Bool) :
    Arrives L R (createArguments params mapped) := by
  refine lands_regs_bind fun r => LandsWhen.read (fun _ => obeys_realm) fun realm =>
    LandsWhen.read (fun _ => obeys_scopeRecord _) fun x => ?_
  have hnew : ∀ kind : ObjectKind, kind.isLazy = false → (∀ h, kind.holds? = some h → h.1 = r.scope) →
      ObeysWhen L (fun m => m.regs = r) (onStore (Store.newObject (.ofKind (some realm.objectPrototype) kind))) _ :=
    fun kind hlazy hkind m _ hr =>
      ⟨.inl rfl, Law.Operands.operands
        (.of_advances (.of_newObject hlazy fun h hh => hkind h hh ▸ hr ▸ .current)) rfl⟩
  refine ObeysWhen.landsWith (hnew _ rfl ?_) fun o => ?_
  · rintro _ ⟨⟩
    rfl
  cases mapped with
  | true =>
    refine (obeys_putItems _ _ _).lands fun _ => (obeys_defineHidden _ _ _).lands fun _ => ?_
    refine obeys_calleeOfFrame.lands fun callee => (obeys_defineHidden _ _ _).lands fun _ => ?_
    exact (obeys_defineHidden _ _ _).lands fun _ => lands_pushNext _
  | false =>
    refine (obeys_putItems _ _ _).lands fun _ => (obeys_defineHidden _ _ _).lands fun _ => ?_
    exact (obeys_pure _).lands fun _ => (obeys_defineHidden _ _ _).lands fun _ => lands_pushNext _

@[grind ←] theorem lands_pushArray (items : List Value) : Arrives L R (pushArray items) := by
  grind [pushArray]

@[grind ←] theorem lands_restFromScope : Arrives L R restFromScope := by
  refine obeys_regs.lands fun r => (obeys_scopeRecord _).lands fun x => ?_
  exact Obeys.lands (obeys_modifyScope _ (fun _ _ => rfl) fun _ => rfl) fun _ => lands_pushArray _

theorem obeys_newFunction (realm : Realm) (f : Closure) : ObeysWhen L (fun m => m.regs.scope = f.scope)
    (onStore (realm.newFunction f)) (onStore (realm.newFunction f)) := by
  intro m _ hf
  have hnew : ∀ m' : Machine, m'.regs.scope = f.scope → ∀ x : Object, x.kind = .function f →
      m'.Advances { m' with store := { m'.store with objects := m'.store.objects.push x } } := fun m' hm' x hx =>
    .of_newObject (by rw [hx]; rfl) fun h hh => by
      rw [hx] at hh
      cases hh
      exact hm' ▸ .current
  refine ⟨.inl rfl, ?_⟩
  unfold Realm.newFunction
  dsimp only
  split
  · have hfirst := Machine.Advances.of_store (Store.persists_run realm.newObject m.store)
    have hsecond := hnew { m with store := (realm.newObject.run m.store).2 } hf
    exact Law.Operands.operands (.of_advances (hfirst.trans (hsecond _ rfl))) rfl
  · exact Law.Operands.operands (.of_advances (hnew m hf _ rfl)) rfl

@[grind ←] theorem lands_newFunction (form : FunctionForm) (template : FunctionTemplate) :
    Arrives L R (newFunction form template) := by
  refine lands_regs_bind fun r => ?_
  have hrest : ∀ kind, LandsWhen L (fun m => m.regs = r) R
      (realm >>= fun realm => onStore (realm.newFunction ⟨template, r.scope, kind⟩) >>= fun o => pushNext (.object o)) _ :=
    fun kind => LandsWhen.read (fun _ => obeys_realm) fun realm =>
      ObeysWhen.landsWith ((obeys_newFunction realm _).imp fun _ hr => congrArg Activation.scope hr) fun _ =>
        lands_pushNext _
  cases form with
  | normal | method => exact LandsWhen.read (fun _ => obeys_pure _) hrest
  | arrow =>
    exact LandsWhen.read (fun _ => obeys_receiver) fun _ => LandsWhen.read (fun _ => obeys_pure _) hrest

@[grind ←] theorem lands_assigned (x : Value) (popped : Bool) : Arrives L R (assigned x popped) := by
  grind [assigned]

@[grind ←] theorem lands_setPrototype : Arrives L R setPrototype := by
  grind [setPrototype]

@[grind ←] theorem lands_pushItem : Arrives L R pushItem := by
  grind [pushItem]

@[grind ←] theorem lands_copyMembers : Arrives L R copyMembers := by
  grind [copyMembers]

@[grind ←] theorem lands_restObject : Arrives L R restObject := by
  grind [restObject]

omit [L.Operands] in
@[grind ←] theorem lands_checkCoercible : Arrives L R checkCoercible := by
  grind [checkCoercible]

@[grind ←] theorem lands_enumerate [L.Loops] : Arrives L R enumerate := by
  grind [enumerate]

@[grind ←] theorem lands_nextKey [L.Loops] (offset : Int) : Arrives L R (nextKey offset) := by
  have hset : ∀ l, Obeys L (modify fun m => { m with loops := l }) _ := fun l =>
    obeys_modify fun m => Law.Loops.loops m l
  refine obeys_get.lands fun m => ?_
  split
  · exact lands_raise _
  · refine (obeys_onStore _).lands fun found => ?_
    split
    · exact (hset _).lands fun _ => lands_advance
    · exact (hset _).lands fun _ => lands_jump _
  · exact lands_raise _

@[grind ←] theorem lands_loopValue : Arrives L R loopValue := by
  grind [loopValue]

omit [L.Operands] in
@[grind ←] theorem lands_leaveLoop [L.Drops] : Arrives L R leaveLoop := by
  grind [leaveLoop]

@[grind ←] theorem obeys_operands : Heeds L operands := by
  grind [operands]

@[grind ←] theorem lands_testInstance : Arrives L R testInstance := by
  grind [testInstance]

@[grind ←] theorem lands_endVariadic : Arrives L R endVariadic := by
  grind [endVariadic]

theorem obeys_handBack : Heeds L handBack := by
  refine obeys_pop.bind fun v => obeys_frameBase.bind fun base => ?_
  cases base with
  | zero => exact obeys_raise _
  | succ calleeSlot => exact (obeys_returned _ _).bind fun _ => (obeys_setTop _).bind fun _ => obeys_setSlot _ _

/-! ### Instructions that may make calls -/

section Calls

variable {e₁ e₂ : Enter}
  (hcall : ∀ callee this args, Obeys L (e₁ (.call callee this args)) (e₂ (.call callee this args)))

include hcall

theorem lands_add : Lands L R (add e₁) (add e₂) := by
  refine obeys_operands.lands fun operands => ?_
  refine (obeys_toPrimitive hcall _ _).lands fun l => (obeys_toPrimitive hcall _ _).lands fun r => ?_
  exact (obeys_ofOutcome _).lands fun _ => lands_replaceNext _

theorem lands_numeric (op : Value → Value → Value) : Lands L R (numeric e₁ op) (numeric e₂ op) := by
  refine obeys_operands.lands fun operands => ?_
  exact (obeys_toNumber hcall _).lands fun l => (obeys_toNumber hcall _).lands fun r => lands_replaceNext _

theorem lands_unary (op : UnaryOp) : Lands L R (unary e₁ op) (unary e₂ op) :=
  (obeys_peek 0).lands fun _ => (obeys_toNumber hcall _).lands fun _ => lands_replaceNext _

theorem lands_relation (r : Relation) : Lands L R (relation e₁ r) (relation e₂ r) := by
  refine obeys_operands.lands fun operands => ?_
  refine (obeys_toPrimitive hcall _ _).lands fun a => (obeys_toPrimitive hcall _ _).lands fun b => ?_
  exact (obeys_ofOutcome _).lands fun _ => lands_replaceNext _

theorem lands_equality (strict negated : Bool) : Lands L R (equality e₁ strict negated) (equality e₂ strict negated) := by
  refine obeys_operands.lands fun operands => ?_
  cases strict with
  | true => exact (obeys_pure _).lands fun _ => lands_replaceNext _
  | false => exact (obeys_looseEquals hcall _ _).lands fun _ => lands_replaceNext _

theorem lands_testMember : Lands L R (testMember e₁) (testMember e₂) :=
  obeys_operands.lands fun _ => (obeys_hasIn hcall _ _).lands fun _ => lands_replaceNext _

theorem lands_convertKey : Lands L R (convertKey e₁) (convertKey e₂) :=
  (obeys_peek 0).lands fun _ => (obeys_toPropertyKey hcall _).lands fun _ => lands_replaceNext _

theorem lands_convertText : Lands L R (convertText e₁) (convertText e₂) :=
  (obeys_peek 0).lands fun _ => (obeys_toText hcall _).lands fun _ => lands_replaceNext _

omit [L.Operands] in
theorem obeys_joinUnits [L.Store] (units : List UInt16) (vs : List Value) :
    Obeys L (joinUnits e₁ units vs) (joinUnits e₂ units vs) := by
  induction vs generalizing units with
  | nil => exact obeys_pure _
  | cons v rest ih => exact (obeys_toText hcall v).bind fun _ => ih _

theorem lands_concat (n : Nat) : Lands L R (concat e₁ n) (concat e₂ n) :=
  (obeys_popMany n).lands fun _ => (obeys_joinUnits hcall _ _).lands fun _ => lands_pushNext _

theorem lands_getElement (read : ElementRead) : Lands L R (getElement e₁ read) (getElement e₂ read) := by
  refine obeys_pop.lands fun key => (obeys_peek 0).lands fun v => ?_
  split
  · exact (obeys_display _).lands fun _ => (obeys_display _).lands fun _ => lands_raise _
  · split
    · exact (obeys_ofOutcome _).lands fun _ => (obeys_propertyOrMarker _ _ _).lands fun _ => lands_replaceNext _
    · exact (obeys_toPropertyKey hcall _).lands fun _ =>
        (obeys_propertyOrMarker _ _ _).lands fun _ => lands_replaceNext _

theorem lands_setElement (strict popped : Bool) :
    Lands L R (setElement e₁ strict popped) (setElement e₂ strict popped) := by
  refine obeys_pop.lands fun x => obeys_pop.lands fun key => obeys_pop.lands fun v => ?_
  split
  · exact (obeys_display _).lands fun _ => (obeys_display _).lands fun _ => lands_raise _
  · refine (obeys_toPropertyKey hcall _).lands fun _ => ?_
    exact (obeys_putProperty _ _ _ _).lands fun _ => lands_assigned _ _

theorem lands_defineElement : Lands L R (defineElement e₁) (defineElement e₂) := by
  refine obeys_pop.lands fun x => obeys_pop.lands fun key => (obeys_toPropertyKey hcall _).lands fun _ => ?_
  exact obeys_literalTarget.lands fun _ => (obeys_definePlain _ _ _).lands fun _ => lands_advance

theorem lands_elementReference (strict : Bool) : Lands L R (elementReference e₁ strict) (elementReference e₂ strict) := by
  refine obeys_pop.lands fun key => obeys_pop.lands fun v => (obeys_toObject _).lands fun o => ?_
  exact (obeys_toPropertyKey hcall _).lands fun _ => (obeys_pushProperty _ _ _ _).lands fun _ => lands_advance

theorem lands_deleteElement (strict : Bool) : Lands L R (deleteElement e₁ strict) (deleteElement e₂ strict) := by
  refine obeys_pop.lands fun key => (obeys_peek 0).lands fun v => (obeys_toObject _).lands fun o => ?_
  exact (obeys_toPropertyKey hcall _).lands fun _ => (obeys_demand _).lands fun _ => lands_replaceNext _

end Calls

/-! ### Instructions about loops and items -/

section Items

variable [L.Iterators] {e₁ e₂ : Enter} (he : ∀ e, e.evaluates = false → ObeysWhen L e.Due (e₁ e) (e₂ e))

include he

theorem lands_closeLoop [L.Drops] : Lands L R (closeLoop e₁) (closeLoop e₂) := by
  refine obeys_popLoop.lands fun l => ?_
  split
  · exact lands_advance
  · exact (obeys_closeIterator he _).lands fun _ => lands_advance

theorem lands_iterate [L.Loops] (popped : Bool) : Lands L R (iterate e₁ popped) (iterate e₂ popped) := by
  refine (obeys_takeTop popped).lands fun v => (obeys_openIterator he v).lands fun i => ?_
  exact (obeys_pushLoop _).lands fun _ => lands_advance

variable [L.Strict]

omit [L.Operands] in
theorem obeys_stepLoop [L.Store] [L.Drops] : Obeys L (stepLoop e₁) (stepLoop e₂) := by
  refine obeys_popLoop.bind fun l => ?_
  split
  · exact obeys_raise _
  · exact (obeys_stepIterator he _).bind fun r => (obeys_ofOutcome _).bind fun _ => obeys_pure _

theorem lands_nextItem [L.Loops] (offset : Int) : Lands L R (nextItem e₁ offset) (nextItem e₂ offset) := by
  refine (obeys_stepLoop he).lands fun r => ?_
  split
  · exact (obeys_pushLoop _).lands fun _ => lands_advance
  · exact (obeys_pushLoop _).lands fun _ => lands_jump _

theorem lands_nextItemOrUndefined [L.Loops] : Lands L R (nextItemOrUndefined e₁) (nextItemOrUndefined e₂) :=
  (obeys_stepLoop he).lands fun _ => (obeys_pushLoop _).lands fun _ => lands_pushNext _

theorem lands_restArray [L.Drops] (fuel : Nat) : Lands L R (restArray e₁ fuel) (restArray e₂ fuel) := by
  refine obeys_popLoop.lands fun l => ?_
  split
  · exact lands_raise _
  · exact (obeys_drain he _ _ _).lands fun _ => lands_pushArray _

theorem lands_pushItems (fuel : Nat) : Lands L R (pushItems e₁ fuel) (pushItems e₂ fuel) := by
  refine obeys_pop.lands fun v => obeys_literalTarget.lands fun o => ?_
  exact (obeys_forItems he (fun _ => obeys_demand _) fuel v).lands fun _ => lands_advance

theorem lands_pushArguments (fuel : Nat) : Lands L R (pushArguments e₁ fuel) (pushArguments e₂ fuel) :=
  obeys_pop.lands fun v => (obeys_forItems he obeys_push fuel v).lands fun _ => lands_advance

end Items

end Operands

/-! ### Global declarations -/

section Names

variable [L.Names]

@[grind ←] theorem obeys_createLexical (isConstant : Bool) (name : Text) : Heeds L (createLexical isConstant name) :=
  obeys_realm.bind fun _ => obeys_self fun m _ =>
    Law.Names.names m m.varNames ⟨fun _ _ => rfl, rfl⟩ (.modifyScope m.store _ (Scope.outer_create ..))

@[grind ←] theorem obeys_declareVarName (name : Text) : Heeds L (declareVarName name) :=
  obeys_modify fun m => Law.Names.names m _ (.refl _) (Store.Persists.refl _).toLinks

variable [L.Operands] {R : Machine → Machine → Prop} [L.Landing R]

@[grind ←] theorem obeys_createFunction (deletable : Bool) (name : Text) (v : Value) :
    Heeds L (createFunction deletable name v) := by
  grind [createFunction]

@[grind ←] theorem obeys_createFunctions (deletable : Bool) (l : List (Text × Value)) :
    Heeds L (createFunctions deletable l) := by
  induction l <;> grind [createFunctions]

@[grind ←] theorem obeys_createVariable (deletable : Bool) (name : Text) : Heeds L (createVariable deletable name) := by
  grind [createVariable]

theorem lands_bindGlobals (b : GlobalBindings) : Arrives L R (bindGlobals b) := by
  refine (obeys_forM obeys_checkFunction).lands fun _ => (obeys_forM obeys_checkLexical).lands fun _ => ?_
  refine (obeys_forM obeys_checkLexical).lands fun _ => (obeys_forM obeys_checkVariable).lands fun _ => ?_
  refine (obeys_forM (obeys_createLexical _)).lands fun _ => (obeys_forM (obeys_createLexical _)).lands fun _ => ?_
  refine (obeys_popMany _).lands fun _ => (obeys_createFunctions _ _).lands fun _ => ?_
  exact (obeys_forM (obeys_createVariable _)).lands fun _ => lands_advance

theorem lands_deleteGlobal (name : Text) : Arrives L R (deleteGlobal name) := by
  refine obeys_realm.lands fun r => (obeys_onStore _).lands fun found => ?_
  split
  · refine (obeys_demand _).lands fun deleted => ?_
    have hforget : Obeys L (modify fun m => { m with varNames := m.varNames.filter (· ≠ name) }) _ :=
      obeys_modify fun _ => Law.Names.names _ _ (.refl _) (Store.Persists.refl _).toLinks
    split
    · exact hforget.lands fun _ => lands_pushNext _
    · exact (obeys_pure _).lands fun _ => lands_pushNext _
  · exact lands_pushNext _

end Names

theorem lands_copyScope [L.Declares] [L.Landing R] : Arrives L R copyScope := by
  refine obeys_regs.lands fun r => (obeys_scopeRecord _).lands fun x => Obeys.lands ?_ fun _ => lands_advance
  exact obeys_self fun m _ => Law.Declares.declares m _ _ _ ⟨fun _ _ => rfl, rfl⟩

def next? (m : Machine) : Option Instruction := do
  let p ← m.regs.program
  (m.store.program p).code[m.regs.pc]?

/-- Global declarations that the running code makes obey a law, and so do copies of records, if a condition is met before
interrupts are taken. -/
class Law.Declaring (L : Law) (Q : outParam (Machine → Prop)) : Prop where
  binds : ∀ b, ObeysWhen L (fun m => next? m = some (.bindGlobals b)) (bindGlobals b) (bindGlobals b)
  deletes : ∀ name, Heeds L (deleteGlobal name)
  copies : ∀ {m₀}, Q m₀ →
    ObeysWhen L (fun m => next? m = some .copyScope ∧ takeInterrupt m₀ = .ok () m) copyScope copyScope

instance (priority := low) [L.Quiet] [L.Declares] : L.Declaring fun _ => True where
  binds b := (lands_bindGlobals b).obeys.when _
  deletes name := (lands_deleteGlobal name).obeys
  copies _ := lands_copyScope.when _

theorem lands_executeFrame [L.Operands] [L.Landing R] [L.Base] (e₁ e₂ : Enter)
    (fuel : Nat) (hb : i.beginsFrame = true) : Lands L R (execute e₁ fuel i) (execute e₂ fuel i) := by
  obtain ⟨k, hexecute, hk⟩ := begins_frame (L := L) (R := R) hb
  rw [hexecute, hexecute]
  exact obeys_beginFrame.lands hk

theorem lands_executeDeclaration [L.Operands] [L.Landing R] [L.Declares] (e₁ e₂ : Enter)
    (fuel : Nat) (hd : i.declares = true) : Lands L R (execute e₁ fuel i) (execute e₂ fuel i) := by
  cases i with
  | bindGlobals b => exact lands_bindGlobals b
  | deleteGlobal name => exact lands_deleteGlobal name
  | copyScope => exact lands_copyScope
  | _ => cases hd

/-- Instructions about loops obey a law that nested entries obey. -/
class Law.Looping (L : Law) : Prop where
  looping : ∀ {e₁ e₂ : Enter}, (∀ e, e.evaluates = false → ObeysWhen L e.Due (e₁ e) (e₂ e)) → ∀ (fuel : Nat)
    {i : Instruction}, i.isLoop = true → Obeys L (execute e₁ fuel i) (execute e₂ fuel i)

section Landing

variable [L.Operands] {R : Machine → Machine → Prop} [L.Landing R] [L.Iterators] [L.Strict] {e₁ e₂ : Enter}
  (he : ∀ e, e.evaluates = false → ObeysWhen L e.Due (e₁ e) (e₂ e))

include he

theorem lands_executeLoop [L.Loops] (fuel : Nat) (hi : i.isLoop = true) :
    Lands L R (execute e₁ fuel i) (execute e₂ fuel i) := by
  cases i with
  | enumerate => exact lands_enumerate
  | nextKey offset => exact lands_nextKey offset
  | leaveLoop => exact lands_leaveLoop
  | closeLoop => exact lands_closeLoop he
  | iterate popped => exact lands_iterate he popped
  | nextItem offset => exact lands_nextItem he offset
  | nextItemOrUndefined => exact lands_nextItemOrUndefined he
  | restArray => exact lands_restArray he fuel
  | _ => cases hi

theorem lands_executeSimple (fuel : Nat) (hi : i.isTransfer = false) (hb : i.beginsFrame = false)
    (hd : i.declares = false) (hl : i.isLoop = false) : Lands L R (execute e₁ fuel i) (execute e₂ fuel i) := by
  have hcall := fun callee this args => (he (.call callee this args) rfl).now
  cases i with
  | halt | guard | ret | call | callVariadic | callEval | callEvalVariadic | construct | constructVariadic => cases hi
  | enterFunction | enterParameters | enterBare => cases hb
  | bindGlobals | deleteGlobal | copyScope => cases hd
  | enumerate | nextKey | leaveLoop | closeLoop | iterate | nextItem | nextItemOrUndefined | restArray => cases hl
  | unary op => exact lands_unary hcall op
  | add => exact lands_add hcall
  | arith op => exact lands_numeric hcall op.apply
  | bitwise op => exact lands_numeric hcall op.apply
  | relation r => exact lands_relation hcall r
  | equality strict negated => exact lands_equality hcall strict negated
  | hasIn => exact lands_testMember hcall
  | toPropertyKey => exact lands_convertKey hcall
  | toText => exact lands_convertText hcall
  | concat n => exact lands_concat hcall n
  | getElement read => exact lands_getElement hcall read
  | setElement strict popped => exact lands_setElement hcall strict popped
  | defineElement => exact lands_defineElement hcall
  | elementReference strict => exact lands_elementReference hcall strict
  | deleteElement strict => exact lands_deleteElement hcall strict
  | pushItems => exact lands_pushItems he fuel
  | pushArguments => exact lands_pushArguments he fuel
  | _ =>
    -- sequences of computations that obey the law
    grind [execute, loadConstant, copyTo, loadSlot, storeSlot, initSlot, loadScope, storeScope, initScope, loadName,
      loadNameOrMarker, loadNameCallee, putValue, deleteName, setGlobal, leaveBlock, restFromStack, getMember, setMember, defineMember, memberReference, deleteMember]

/-- **Instructions that transfer no control obey a law until they move on.** -/
theorem lands_execute [L.Loops] [L.Base] [L.Declares] (fuel : Nat) (hi : i.isTransfer = false) :
    Lands L R (execute e₁ fuel i) (execute e₂ fuel i) := by
  cases hl : i.isLoop with
  | true => exact lands_executeLoop he fuel hl
  | false =>
    cases hb : i.beginsFrame with
    | true => exact lands_executeFrame e₁ e₂ fuel hb
    | false =>
      cases hd : i.declares with
      | true => exact lands_executeDeclaration e₁ e₂ fuel hd
      | false => exact lands_executeSimple he fuel hi hb hd hl

end Landing

instance (priority := low) [L.Quiet] [L.Loops] [L.Iterators] [L.Strict] : L.Looping where
  looping he fuel _ hi := (lands_executeLoop he fuel hi).obeys

section Execute

variable [L.Quiet] [L.Iterators] [L.Looping] [L.Strict] {e₁ e₂ : Enter}
  (he : ∀ e, e.evaluates = false → ObeysWhen L e.Due (e₁ e) (e₂ e))

include he

theorem obeys_executeSimple (fuel : Nat) (hi : i.isTransfer = false) (hb : i.beginsFrame = false)
    (hd : i.declares = false) : Obeys L (execute e₁ fuel i) (execute e₂ fuel i) := by
  cases hl : i.isLoop with
  | true => exact Law.Looping.looping he fuel hl
  | false => exact (lands_executeSimple he fuel hi hb hd hl).obeys

theorem obeys_executePlain [L.Declares] (fuel : Nat) (hi : i.isTransfer = false) (hb : i.beginsFrame = false) :
    Obeys L (execute e₁ fuel i) (execute e₂ fuel i) := by
  cases hd : i.declares with
  | false => exact obeys_executeSimple he fuel hi hb hd
  | true => exact (lands_executeDeclaration e₁ e₂ fuel hd).obeys

theorem obeys_executeNext {Q : Machine → Prop} [L.Base] [L.Declaring Q] {m₀ : Machine} (hQ : Q m₀) (fuel : Nat)
    (hi : i.isTransfer = false) :
    ObeysWhen L (fun m => next? m = some i ∧ takeInterrupt m₀ = .ok () m) (execute e₁ fuel i) (execute e₂ fuel i) := by
  cases hb : i.beginsFrame with
  | false =>
    cases hd : i.declares with
    | false => exact (obeys_executeSimple he fuel hi hb hd).when _
    | true =>
      cases i with
      | bindGlobals b => exact LandsWhen.imp (Law.Declaring.binds b) fun _ hm => hm.1
      | deleteGlobal name => exact (Law.Declaring.deletes name).when _
      | copyScope => exact Law.Declaring.copies hQ
      | _ => cases hd
  | true => exact (lands_executeFrame e₁ e₂ fuel hb).obeys.when _

/-- **Instructions that transfer no control leave it alone.** -/
theorem obeys_execute [L.Base] [L.Declares] (fuel : Nat) (hi : i.isTransfer = false) :
    Obeys L (execute e₁ fuel i) (execute e₂ fuel i) := by
  cases hb : i.beginsFrame with
  | false => exact obeys_executePlain he fuel hi hb
  | true => exact (lands_executeFrame e₁ e₂ fuel hb).obeys

end Execute

/-! ### Steps -/

theorem fetch_eq (m : Machine) :
    (∃ i, next? m = some i ∧ fetch m = .ok i m) ∨ ∃ f, next? m = none ∧ fetch m = .error (.fault f) m := by
  unfold next? fetch
  rw [get_bind]
  cases hp : m.regs.program with
  | none => exact .inr ⟨_, rfl, rfl⟩
  | some p =>
    cases hi : (m.store.program p).code[m.regs.pc]? with
    | none => exact .inr ⟨_, by simpa using hi, by dsimp only; rw [hi]; rfl⟩
    | some i => exact .inl ⟨i, by simpa using hi, by dsimp only; rw [hi]; rfl⟩

theorem takeInterrupt_ok (h : takeInterrupt m = .ok () m') :
    m' = m ∨ ∃ lines, m' = { m with interrupt := none, store := m.store.log lines } := by
  unfold takeInterrupt at h
  rw [get_bind] at h
  cases hi : m.interrupt with
  | none =>
    rw [hi] at h
    cases h
    exact .inl rfl
  | some i =>
    rw [hi] at h
    cases i with
    | callback lines failure =>
      cases failure with
      | none =>
        cases h
        exact .inr ⟨lines, rfl⟩
      | some e => cases h
    | error e => cases h
    | data text => cases h

theorem next_of_takeInterrupt (h : takeInterrupt m = .ok () m') : next? m' = next? m := by
  rcases takeInterrupt_ok h with rfl | ⟨lines, rfl⟩ <;> rfl

theorem obeys_takeInterrupt_of [L.Store] (hforget : ∀ m, L.rel m { m with interrupt := none }) :
    Heeds L takeInterrupt := by
  refine obeys_get.bind fun m => ?_
  split
  · exact obeys_pure _
  · refine Obeys.bind (obeys_modify hforget) fun _ => ?_
    split
    · refine (obeys_onStore _).bind fun _ => ?_
      split
      · exact obeys_trace.bind fun _ => obeys_raise _
      · exact obeys_pure _
    · exact obeys_trace.bind fun _ => obeys_raise _
    · exact obeys_trace.bind fun _ => obeys_raise _

theorem obeys_takeInterrupt [L.Host] : Heeds L takeInterrupt :=
  obeys_takeInterrupt_of fun m => Law.Host.interrupt m none

theorem step_eq (enter : Enter) (fuel : Nat) {m₁ : Machine} (h : takeInterrupt m = .ok () m₁)
    (hi : next? m = some i) : step enter fuel m = execute enter fuel i m₁ := by
  have hfetch : fetch m₁ = .ok i m₁ := by
    rcases fetch_eq m₁ with ⟨j, hj, hf⟩ | ⟨f, hn, _⟩
    · rw [next_of_takeInterrupt h, hi] at hj
      cases hj
      exact hf
    · rw [next_of_takeInterrupt h, hi] at hn
      cases hn
  unfold step
  rw [bind_ok h, bind_ok hfetch]

/-! ### Calls -/

@[grind ←] theorem obeys_callBase (n : Nat) : Heeds L (callBase n) := by
  grind [callBase]

@[grind ←] theorem obeys_variadicCount (fixed : Nat) : Heeds L (variadicCount fixed) := by
  grind [variadicCount]

section Falling

variable [L.Falling]

theorem obeys_setRegs (f : Activation → Activation) :
    ObeysWhen L (fun m => m.Sees (f m.regs).scope) (modifyRegs f) (modifyRegs f) := fun _ _ hs =>
  ⟨.inl rfl, Law.Falling.falling rfl rfl rfl rfl rfl rfl (Nat.le_refl _) (.of_activations hs fun _ => .frame)⟩

omit [L.Falling] in
theorem obeys_changeRegs [L.Calm] (f : Activation → Activation) : Heeds L (modifyRegs f) :=
  obeys_modify fun _ => Law.Calm.calm rfl rfl (.refl _)

theorem obeys_moveRegs {f : Activation → Activation} (hf : ∀ r, (f r).scope = r.scope) : Heeds L (modifyRegs f) :=
  LandsWhen.now ((obeys_setRegs f).imp fun m _ => hf m.regs ▸ .current)

theorem obeys_popFrame : Heeds L popFrame := by
  refine obeys_get_bind fun m _ => ?_
  cases hf : m.frames with
  | nil => exact L.weaken (L.refl m)
  | cons r frames =>
    have hmem : ∀ r' ∈ r :: frames, m.Sees r'.scope := fun r' hr => .frame (hf ▸ hr)
    rw [List.forall_mem_cons] at hmem
    refine Law.Falling.falling rfl rfl rfl rfl rfl rfl ?_
      (.of_activations hmem.1 hmem.2)
    rw [hf]
    exact Nat.le_succ _

theorem obeys_endLoop : Heeds L endLoop :=
  obeys_modify fun _ =>
    Law.Falling.falling rfl rfl rfl rfl rfl rfl (Nat.le_refl _) (.of_activations .current fun _ => .frame)

theorem obeys_leaveFinally (h : Handler) : Heeds L (leaveFinally h) := by
  refine obeys_get.bind fun m => ?_
  split
  · refine Obeys.bind (obeys_moveRegs fun _ => rfl) fun _ => ?_
    split
    · exact obeys_raise _
    · exact obeys_pure _
  · exact obeys_pure _

end Falling

/-- Frames may be saved. -/
class Law.Saves (L : Law) : Prop where
  saves : Heeds L pushFrame

instance (priority := low) [L.Mild] : L.Saves where
  saves := by
    refine obeys_get_bind fun m _ => ?_
    split
    · exact L.weaken (L.refl m)
    · refine Law.Mild.mild rfl rfl rfl rfl rfl (.of_activations .current ?_)
      exact List.forall_mem_cons.mpr ⟨.current, fun _ => .frame⟩

theorem obeys_pushFrame [L.Saves] : Heeds L pushFrame := Law.Saves.saves

@[grind ←] theorem obeys_finishCall [L.Operands] (first : Nat) (v : Value) : Heeds L (finishCall first v) := by
  grind [finishCall]

/-- The law that objects go on to refer to the same records. -/
def lasting : Law :=
  .ofRel (fun _ => True) (fun m m' => m.store.Retains m'.store) (fun _ => (Store.Persists.refl _).retains) .trans
    (fun _ _ => trivial)

instance : lasting.Lax where
  strict := id
  lax _ _ _ h := h.store

theorem made_of_lasting {x : VM α} {a : α} {c : Callee} (hx : Heeds lasting x) (hm : c.Made m)
    (h : x m = .ok a m') : c.Made m' := by
  cases c with
  | script f =>
    obtain ⟨o, ho⟩ := hm
    exact ⟨o, (hx.rel_of_ok trivial h).held ho⟩
  | _ => trivial

theorem made_of_calleeOf {v : Value} {o : ObjectId} {c : Callee} (h : calleeOf v m = .ok (o, c) m') : c.Made m' := by
  unfold calleeOf at h
  split at h
  case h_1 o =>
    have hmade : ((Store.made o).run m.store).1 = ((Store.made o).run m.store).2.settled o := by
      rw [(Store.reads_made o m.store).1.settled_eq]
      exact Store.run_made o m.store
    have hread : onStore (Store.made o) m = .ok ((Store.made o).run m.store).1
        { m with store := ((Store.made o).run m.store).2 } := rfl
    rw [bind_ok hread, hmade] at h
    cases hkind : (Store.settled ((Store.made o).run m.store).2 o).kind with
    | function f =>
      rw [hkind] at h
      cases h
      exact ⟨o, (congrArg ObjectKind.holds? hkind).trans rfl⟩
    | _ =>
      rw [hkind] at h
      cases h <;> trivial
  all_goals cases h

theorem made_of_attempt {v : Value} {o : ObjectId} {c : Callee} (h : attempt (calleeOf v) m = .ok (.ok (o, c)) m') :
    c.Made m' := by
  rcases hv : calleeOf v m with ⟨r, m₁⟩ | ⟨f | _, m₁⟩
  · cases (attempt_ok hv).symm.trans h
    exact made_of_calleeOf hv
  · cases (attempt_fault hv).symm.trans h
  · cases (attempt_outOfFuel hv).symm.trans h

theorem made_of_scriptConstructor {v : Value} {f : Closure} (h : scriptConstructor? v m = .ok (some f) m') :
    Callee.Made (.script f) m' := by
  obtain ⟨r, m₁, hr, h⟩ := bind_eq_ok.mp h
  split at h
  case h_1 =>
    split at h <;> cases h
    exact made_of_attempt hr
  case h_2 => cases h

section Entering

variable [L.Saves] [L.Falling] [L.Quiet] {f : Closure}

theorem obeys_pushCaller [L.Strict] : Heeds L pushCaller := by
  refine obeys_advance.bind fun _ => obeys_pushFrame.attempt.bind fun r => ?_
  split
  · exact obeys_pure _
  · exact Obeys.bind (obeys_moveRegs fun _ => rfl) fun _ => obeys_raise _

omit [L.Saves] [L.Falling] [L.Quiet] in
theorem Obeys.holding {c : Callee} {x y : VM α} {f g : α → VM β} (h : Obeys L x y) (hx : Heeds lasting x)
    (k : ∀ a, ObeysWhen L c.Made (f a) (g a)) : ObeysWhen L c.Made (x >>= f) (y >>= g) :=
  (h.when _).seq (made_of_lasting hx) k

theorem obeys_enterScript [L.Strict] (first n : Nat) (newTarget : Option Value) :
    ObeysWhen L (Callee.Made (.script f)) (enterScript f first n newTarget) (enterScript f first n newTarget) := by
  refine obeys_pushCaller.holding obeys_pushCaller fun _ => ?_
  split
  · refine LandsWhen.read (fun _ => obeys_slot _) fun _ => (obeys_setSlot _ _).holding (obeys_setSlot _ _) fun _ => ?_
    refine (obeys_setSlot _ _).holding (obeys_setSlot _ _) fun _ => LandsWhen.read (fun _ => obeys_pure _) fun _ => ?_
    exact (obeys_setRegs _).imp fun _ => Callee.Made.sees
  all_goals
    refine (obeys_writeStack _).holding (obeys_writeStack _) fun _ => LandsWhen.read (fun _ => obeys_pure _) fun _ => ?_
    exact (obeys_setRegs _).imp fun _ => Callee.Made.sees

theorem obeys_enterFromOutside (callee : ObjectId) (this : Value) (args : List Value) (newTarget : Value) :
    ObeysWhen L (Callee.Made (.script f)) (enterFromOutside callee f this args newTarget)
      (enterFromOutside callee f this args newTarget) := by
  refine obeys_pushFrame.holding obeys_pushFrame fun _ =>
    Obeys.holding (obeys_moveRegs fun _ => rfl) (obeys_moveRegs fun _ => rfl) fun _ => ?_
  refine (obeys_push _).holding (obeys_push _) fun _ => LandsWhen.read (fun _ => obeys_top) fun _ => ?_
  refine (obeys_push _).holding (obeys_push _) fun _ => (obeys_pushAll _).holding (obeys_pushAll _) fun _ => ?_
  exact obeys_pushFrame.holding obeys_pushFrame fun _ => (obeys_setRegs _).imp fun _ => Callee.Made.sees

end Entering

/-- What obeys the first law obeys the second, from the states that the first speaks of.  Calls obey the first until
others take over, whose runs obey the second only. -/
class Law.Within (K L : Law) : Prop where
  within : ∀ {α : Type} {p : Machine → Prop} {x y : VM α}, ObeysWhen K p x y → ObeysWhen L (fun m => K.pre m ∧ p m) x y

instance : L.Within L := ⟨fun h m hm hp => h m hm hp.2⟩

/-- From the states that the first law speaks of and that meet a condition, two computations do the same, and what they do
the second allows. -/
abbrev PassesWhen (K L : Law) (p : Machine → Prop) (x y : VM α) : Prop := ObeysWhen L (fun m => K.pre m ∧ p m) x y

abbrev Passes (K L : Law) (x y : VM α) : Prop := ObeysWhen L K.pre x y

theorem Passes.obeys {x y : VM α} (h : Passes L L x y) : Obeys L x y := fun m hm => h m hm hm

section Passing

variable {K : Law} [K.Within L]

theorem Obeys.passes {x y : VM α} (h : Obeys K x y) : Passes K L x y :=
  (Law.Within.within (h.when fun _ => True)).imp fun _ hm => ⟨hm, trivial⟩

theorem Obeys.passTo {x y : VM α} {f g : α → VM β} (h : Obeys K x y) (k : ∀ a, Passes K L (f a) (g a)) :
    Passes K L (x >>= f) (y >>= g) := h.passes.seq (fun hm hx => K.keeps hm (h.rel_of_ok hm hx)) k

/-- Others take over after something has been found. -/
theorem Obeys.passFound {x y : VM α} {f g : α → VM β} {p : Machine → Prop} {q : α → Machine → Prop} (h : Obeys K x y)
    (hq : ∀ {m a m'}, p m → x m = .ok a m' → q a m') (k : ∀ a, PassesWhen K L (q a) (f a) (g a)) :
    PassesWhen K L p (x >>= f) (y >>= g) :=
  (Law.Within.within (h.when p)).seq (fun hm hx => ⟨K.keeps hm.1 (h.rel_of_ok hm.1 hx), hq hm.2 hx⟩) k

variable [K.Saves] [K.Falling] [K.Quiet] [L.Falling] [L.Quiet]

omit [K.Quiet] [L.Quiet] in
theorem passes_behindNative (name : Text) {x y : VM Value} (h : Obeys L x y) :
    Passes K L (behindNative name x) (behindNative name y) := by
  refine obeys_pushFrame.passTo fun _ => Obeys.passTo (obeys_moveRegs fun _ => rfl) fun _ => ?_
  exact (h.bind fun _ => obeys_popFrame.bind fun _ => obeys_pure _).when _

section Runs

variable {x y : VM Unit} (hrun : Obeys L x y)

include hrun

theorem passes_runScript (callee : ObjectId) {f : Closure} (this : Value) (args : List Value) (newTarget : Value) :
    PassesWhen K L (Callee.Made (.script f)) (runScript x callee f this args newTarget)
      (runScript y callee f this args newTarget) :=
  (Law.Within.within (obeys_enterFromOutside callee this args newTarget)).bind fun _ =>
    hrun.bind fun _ => obeys_pop.bind fun _ => obeys_popFrame.bind fun _ => obeys_pure _

omit [K.Saves] in
theorem passes_startProgram (p : ProgramId) (this : Value) (top : Nat) :
    Passes K L (startProgram p this >>= fun _ => x >>= fun _ => endProgram top)
      (startProgram p this >>= fun _ => y >>= fun _ => endProgram top) := by
  have hstart : Heeds K (startProgram p this) :=
    obeys_top.bind fun _ => Obeys.bind (obeys_moveRegs fun _ => rfl) fun _ => obeys_push _
  refine hstart.passTo fun _ => (hrun.bind fun _ => ?_).when _
  refine obeys_regs.bind fun _ => Obeys.bind (obeys_moveRegs fun _ => rfl) fun _ => obeys_popFrame.bind fun _ => ?_
  exact (obeys_setTop _).bind fun _ => obeys_pure _

omit [K.Saves] [K.Quiet] [L.Falling] [L.Quiet] hrun in
/-- What is done in the global scope. -/
theorem passes_globally {x y : Realm → VM α} {f : Realm → Activation → Activation}
    (hf : ∀ realm r, (f realm r).scope = realm.globalScope) (h : ∀ realm, Passes K L (x realm) (y realm)) :
    Passes K L (realm >>= fun realm => modifyRegs (f realm) >>= fun _ => x realm)
      (realm >>= fun realm => modifyRegs (f realm) >>= fun _ => y realm) := by
  have hset : ∀ realm, ObeysWhen K (fun m => m.realm = realm) (modifyRegs (f realm)) (modifyRegs (f realm)) := fun realm =>
    (obeys_setRegs _).imp fun _ hr => (hf realm _) ▸ hr ▸ .global
  intro m hm hk
  refine (Law.Within.within (hset m.realm)).seq (q := fun _ => K.pre) (fun hm' hx => ?_) (fun _ => h m.realm) m hm ⟨hk, rfl⟩
  exact K.keeps hm'.1 ((hset m.realm).rel_of_ok hm'.1 hm'.2 hx)

theorem passes_evaluate (source : Text) (direct strict : Bool) (this : Value) :
    Passes K L (evaluate x source direct strict this) (evaluate y source direct strict this) := by
  cases direct with
  | true =>
    refine obeys_inFunction.passTo fun _ => (obeys_compile _ _).passTo fun p => ?_
    refine obeys_top.passTo fun top => obeys_pushFrame.passTo fun _ => ?_
    exact (obeys_pure PUnit.unit).passTo fun _ => passes_startProgram hrun p this top
  | false =>
    refine (obeys_pure _).passTo fun _ => (obeys_compile _ _).passTo fun p => ?_
    refine obeys_top.passTo fun top => obeys_pushFrame.passTo fun _ => ?_
    exact passes_globally (fun _ _ => rfl) fun _ => passes_startProgram hrun p this top

theorem passes_runGlobally (p : ProgramId) : Passes K L (runGlobally x p) (runGlobally y p) :=
  obeys_top.passTo fun _ => obeys_pushFrame.passTo fun _ =>
    passes_globally (fun _ _ => rfl) fun _ => passes_startProgram hrun _ _ _

end Runs

omit [K.Saves] [K.Falling] [K.Quiet] [L.Falling] [L.Quiet] [K.Within L] in
theorem Passes.when {x y : VM α} (h : Passes K L x y) (p : Machine → Prop) : PassesWhen K L p x y := h.imp fun _ hm => hm.1

omit [K.Saves] [K.Falling] [L.Falling] [L.Quiet] in
theorem passes_calleeOf (v : Value) {f g : ObjectId × Callee → VM α}
    (h : ∀ o c, PassesWhen K L c.Made (f (o, c)) (g (o, c))) : Passes K L (calleeOf v >>= f) (calleeOf v >>= g) := by
  refine LandsWhen.imp (p := fun m => K.pre m ∧ True) ?_ fun _ hm => ⟨hm, trivial⟩
  exact (obeys_calleeOf v).passFound (q := fun found => found.2.Made) (fun _ => made_of_calleeOf) fun found => h _ _

section Nested

variable [K.Strict] [L.Guard] [L.Iterators] [L.Strict] {e₁ e₂ : Enter} (he : ∀ e, ObeysWhen L e.Due (e₁ e) (e₂ e))
  {x y : VM Unit} (hrun : Obeys L x y)

include he

omit [L.Falling] [L.Guard] [L.Iterators] [L.Strict] in
theorem passes_construct (n : Nat) : Passes K L (construct e₁ n) (construct e₂ n) := by
  refine obeys_checkDepth.passTo fun _ => obeys_top.passTo fun top => ?_
  split
  · exact (obeys_raise _).when _
  · refine (obeys_slot _).passTo fun callee => LandsWhen.imp (p := fun m => K.pre m ∧ True) ?_ fun _ hm => ⟨hm, trivial⟩
    refine (obeys_scriptConstructor callee).passFound (q := fun f m => ∀ g, f = some g → Callee.Made (.script g) m) (fun _ h g hg => made_of_scriptConstructor (hg ▸ h)) fun f => ?_
    split
    case h_1 f =>
      refine LandsWhen.imp (p := fun m => K.pre m ∧ Callee.Made (.script f) m) ?_ fun _ hm => ⟨hm.1, hm.2 f rfl⟩
      refine (obeys_freshReceiver _).passFound (made_of_lasting (obeys_freshReceiver _)) fun _ => ?_
      refine (obeys_writeStack _).passFound (made_of_lasting (obeys_writeStack _)) fun _ => ?_
      exact Law.Within.within (obeys_enterScript _ _ _)
    · exact ((obeys_popMany _).bind fun _ => (he (.construct _ _ _)).now.bind fun _ => obeys_replaceNext _).when _

theorem passes_callWithin (fuel k n : Nat) : Passes K L (callWithin e₁ fuel k n) (callWithin e₂ fuel k n) := by
  have hnative : ∀ name b first, Passes K L
      (nativeInLoop name (runHost e₁ fuel b) >>= fun v => finishCall first v)
      (nativeInLoop name (runHost e₂ fuel b) >>= fun v => finishCall first v) := fun name b first =>
    ObeysWhen.bind (obeys_advance.passTo fun _ => passes_behindNative name (obeys_runHost he fuel b)) fun _ =>
      obeys_finishCall _ _
  induction k generalizing n with
  | zero => exact obeys_outOfFuel.when _
  | succ k ih =>
    refine obeys_checkDepth.passTo fun _ => (obeys_callBase n).passTo fun first => ?_
    refine (obeys_slot _).passTo fun v => passes_calleeOf v fun o callee => ?_
    cases callee with
    | script f => exact Law.Within.within (obeys_enterScript _ _ _)
    | native | proxy =>
      refine Passes.when ?_ _
      exact (obeys_slot _).passTo fun _ => obeys_top.passTo fun _ => (obeys_slots _ _).passTo fun _ => hnative _ _ _
    | bound f =>
      refine Passes.when ?_ _
      refine (obeys_setSlot _ _).passTo fun _ => (obeys_setSlot _ _).passTo fun _ => ?_
      exact (obeys_writeStack _).passTo fun _ => ih _

theorem passes_call (fuel n : Nat) : Passes K L (call e₁ fuel n) (call e₂ fuel n) :=
  obeys_get.passTo fun _ => passes_callWithin he fuel _ n

theorem passes_callEval (fuel n : Nat) (strict : Bool) :
    Passes K L (callEval e₁ fuel n strict) (callEval e₂ fuel n strict) := by
  refine (obeys_callBase n).passTo fun first => (obeys_slot _).passTo fun callee => ?_
  split
  · refine obeys_realm.passTo fun realm => ?_
    split
    · have hfinish : ∀ v, Heeds L (finishCall first v >>= fun _ => advance) :=
        fun v => (obeys_finishCall first v).bind fun _ => obeys_advance
      refine Obeys.when ?_ _
      split
      · exact (obeys_pure _).bind hfinish
      · refine (obeys_slot _).bind fun source => ?_
        split
        · exact obeys_receiver.bind fun _ => (he (.evaluate _ _ _ _)).now.bind hfinish
        · exact (obeys_pure _).bind hfinish
    · exact passes_call he fuel n
  · exact (obeys_raise _).when _
  · exact (obeys_raise _).when _

/-- **Instructions that make calls** obey the laws that allow frames and registers to be changed. -/
theorem passes_execute (fuel : Nat) (hi : i.isCall = true) : Passes K L (execute e₁ fuel i) (execute e₂ fuel i) := by
  cases i with
  | call n => exact passes_call he fuel n
  | callVariadic => exact (obeys_variadicCount 2).passTo fun n => passes_call he fuel n
  | callEval n strict => exact passes_callEval he fuel n strict
  | callEvalVariadic strict => exact (obeys_variadicCount 2).passTo fun n => passes_callEval he fuel n strict
  | construct n => exact passes_construct he n
  | constructVariadic => exact (obeys_variadicCount 1).passTo fun n => passes_construct he n
  | _ => cases hi

/-! ### Entries -/

omit [K.Saves] [K.Falling] [K.Quiet] [L.Falling] [L.Quiet] [K.Strict] [L.Iterators] [K.Within L] in
theorem passes_guarded {p : Machine → Prop} {x y : VM α} (h : ObeysWhen L p x y) :
    ObeysWhen L p (guarded e₁ x) (guarded e₂ y) :=
  (h.guarded fun i => (he (.close i)).now.strict).weaken

omit [K.Strict] [K.Quiet] [L.Quiet] in
theorem passes_callNative (fuel : Nat) (name : Text) (b : Behaviour) :
    Passes K L (callNative e₁ name (runHost e₁ fuel b)) (callNative e₂ name (runHost e₂ fuel b)) :=
  passes_guarded he (passes_behindNative name (obeys_runHost he fuel b))

include hrun

omit [K.Strict] [L.Iterators] in
theorem passes_callScript (callee : ObjectId) {f : Closure} (this : Value) (args : List Value) (newTarget : Value) :
    PassesWhen K L (Callee.Made (.script f)) (callScript e₁ x callee f this args newTarget)
      (callScript e₂ y callee f this args newTarget) :=
  LandsWhen.read (fun _ => obeys_checkDepth) fun _ => passes_guarded he (passes_runScript hrun callee this args newTarget)

omit [K.Strict] in
theorem passes_callValue (fuel : Nat) (callee this : Value) (args : List Value) :
    Passes K L (callValue e₁ fuel x callee this args) (callValue e₂ fuel y callee this args) := by
  refine passes_calleeOf callee fun o c => ?_
  cases c with
  | script f => exact passes_callScript he hrun _ _ _ _
  | native | proxy => exact Passes.when (passes_callNative he fuel _ _) _
  | bound f => exact (he (.call _ _ _)).now.when _

theorem passes_constructValue (fuel : Nat) (callee : Value) (args : List Value) (newTarget : Option Value) :
    Passes K L (constructValue e₁ fuel x callee args newTarget) (constructValue e₂ fuel y callee args newTarget) := by
  refine LandsWhen.imp (p := fun m => K.pre m ∧ True) ?_ fun _ hm => ⟨hm, trivial⟩
  refine (obeys_calleeOf callee).attempt.passFound
    (q := fun found m => ∀ o c, found = .ok (o, c) → c.Made m) (fun _ h o c hc => made_of_attempt (hc ▸ h)) fun found => ?_
  split
  · exact (obeys_refuseConstruct _).when _
  case h_2 o f =>
    split
    · refine LandsWhen.imp (p := fun m => K.pre m ∧ Callee.Made (.script f) m) ?_ fun _ hm => ⟨hm.1, hm.2 _ _ rfl⟩
      refine (obeys_freshReceiver _).passFound (made_of_lasting (obeys_freshReceiver _)) fun _ => ?_
      exact (passes_callScript he hrun _ _ _ _).bind fun _ => obeys_pure _
    · exact (obeys_refuseConstruct _).when _
  · exact Passes.when (passes_callNative he fuel _ _) _
  · exact (he (.construct _ _ _)).now.when _
  · exact Passes.when (passes_callNative he fuel _ _) _

/-- **Entries obey the laws that their dispatch loop and the entries nested in them obey**, if these laws allow frames
and registers to be changed. -/
theorem passes_start [K.Iterators] (fuel : Nat) (e : Entry) : Passes K L (start e₁ fuel x e) (start e₂ fuel y e) := by
  cases e with
  | call callee this args => exact passes_callValue he hrun fuel _ _ _
  | construct callee args newTarget => exact passes_constructValue he hrun fuel _ _ _
  | evaluate source direct strict this => exact passes_evaluate hrun _ _ _ _
  | program p => exact passes_guarded he (passes_runGlobally hrun p)
  | next i => exact (obeys_iterator i).passTo fun _ => passes_callValue he hrun fuel _ _ _
  | finish i method =>
    exact (obeys_endIterator i).passTo fun _ => (obeys_iterator i).passTo fun _ => passes_callValue he hrun fuel _ _ _
  | close i =>
    have hbody := obeys_closeIterator (fun e _ => he e) i
    exact (passes_guarded he (hbody.when _)).bind fun _ => obeys_pure _

end Nested

end Passing

end VM

end ScriptMachine
