import ScriptMachine.Machine.Calls
import ScriptMachine.Proofs.Footprint

/-!
# Conversions, members, iterators and host requests

What these do themselves is confined to the store and to iterators; all else they do by nested entries.  So they obey
every law that allows this and that their entries obey, and host functions obey every law that also allows what a host
may set.
-/

namespace ScriptMachine

/-- Whether an entry runs source text. -/
def Entry.evaluates : Entry → Bool
  | .evaluate .. => true
  | _ => false

/-- Whether an entry is due: an iterator is asked for its next item while it is active, and is finished while it is
being closed. -/
def Entry.Due : Entry → Machine → Prop
  | .next i, m => (m.iterator i).status = .active
  | .finish i _, m => (m.iterator i).status = .closing
  | _, _ => True

/-- Whether a host function asks to run source text. -/
def HostOp.evaluates : HostOp → Bool
  | .evaluate .. => true
  | _ => false

theorem HostOp.eq_evaluate {op : HostOp} (h : op.evaluates = true) :
    ∃ source direct strict this, op = .evaluate source direct strict this := by
  cases op with
  | evaluate => exact ⟨_, _, _, _, rfl⟩
  | _ => cases h

namespace VM

variable {L : Law} [L.Store]

/-! ### Without nested entries -/

@[grind ←] theorem obeys_toObject (v : Value) : Heeds L (toObject v) := obeys_realm.bind fun _ => obeys_demand _

@[grind ←] theorem obeys_typeOf (v : Value) : Heeds L (typeOf v) := by
  cases v with
  | object o => exact (obeys_onStore _).bind fun _ => obeys_pure _
  | _ => exact obeys_pure _

@[grind ←] theorem obeys_inheritsFrom (v : Value) (target : ObjectId) : Heeds L (inheritsFrom v target) := by
  unfold inheritsFrom
  split
  · refine (obeys_onStore _).bind fun prototype => ?_
    split
    · exact obeys_onStore _
    · exact (obeys_display _).bind fun _ => obeys_raise _
  · exact obeys_pure _

@[grind ←] theorem obeys_instanceOf (v target : Value) : Heeds L (instanceOf v target) := by
  unfold instanceOf
  split
  · refine (obeys_onStore _).bind fun callable => ?_
    split
    · exact obeys_get.bind fun _ => obeys_inheritsFrom _ _
    · exact obeys_raise _
  · exact obeys_raise _

@[grind ←] theorem obeys_getProperty (v : Value) (key : PropertyKey) : Heeds L (getProperty v key) := by
  unfold getProperty
  split
  · exact obeys_onStore _
  case h_6 => exact (obeys_toObject _).bind fun _ => obeys_onStore _
  all_goals exact (obeys_display _).bind fun _ => obeys_raise _

@[grind ←] theorem obeys_propertyOrMarker (v : Value) (key : PropertyKey) (callee : Bool) :
    Heeds L (propertyOrMarker v key callee) := by
  refine (obeys_getProperty v key).bind fun found => ?_
  split <;> exact obeys_pure _

@[grind ←] theorem obeys_putProperty (v : Value) (key : PropertyKey) (x : Value) (strict : Bool) :
    Heeds L (putProperty v key x strict) := by
  unfold putProperty
  split
  · exact (obeys_demand _).bind fun _ => obeys_pure _
  case h_6 =>
    split
    · exact (obeys_typeOf _).bind fun _ => (obeys_display _).bind fun _ => obeys_raise _
    · exact obeys_pure _
  all_goals exact (obeys_display _).bind fun _ => obeys_raise _

omit [L.Store] in
@[grind ←] theorem obeys_literalTarget : Heeds L literalTarget := by
  refine (obeys_peek 0).bind fun v => ?_
  split
  · exact obeys_pure _
  · exact (obeys_display _).bind fun _ => obeys_raise _

@[grind ←] theorem obeys_definePlain (o : ObjectId) (key : PropertyKey) (x : Value) : Heeds L (definePlain o key x) :=
  (obeys_demand _).bind fun _ => obeys_pure _

@[grind ←] theorem obeys_copyKey (target source : ObjectId) (key : PropertyKey) :
    Heeds L (copyKey target source key) := by
  refine (obeys_onStore _).bind fun p => ?_
  split
  · split
    · exact obeys_definePlain _ _ _
    · exact obeys_pure _
  · exact obeys_pure _

@[grind ←] theorem obeys_copyKeys (target source : ObjectId) (keys : List PropertyKey) :
    Heeds L (copyKeys target source keys) := by
  induction keys with
  | nil => exact obeys_pure _
  | cons key rest ih => exact (obeys_copyKey target source key).bind fun _ => ih

@[grind ←] theorem obeys_copyProperties (target : ObjectId) (source : Value) :
    Heeds L (copyProperties target source) := by
  unfold copyProperties
  split
  · exact obeys_pure _
  · exact (obeys_toObject _).bind fun _ => (obeys_onStore _).bind fun _ => obeys_copyKeys _ _ _

/-! ### Calls -/

@[grind ←] theorem obeys_calleeOf (v : Value) : Heeds L (calleeOf v) := by
  unfold calleeOf
  split
  · refine (obeys_onStore _).bind fun o => ?_
    split
    · exact obeys_pure _
    · exact (obeys_display _).bind fun _ => obeys_raise _
  · exact obeys_raise _
  · exact obeys_raise _
  · exact (obeys_display _).bind fun _ => obeys_raise _

omit [L.Store] in
@[grind ←] theorem obeys_checkDepth : Heeds L checkDepth := by
  refine obeys_get.bind fun m => ?_
  split
  · exact obeys_raise _
  · exact obeys_pure _

@[grind ←] theorem obeys_namedPrototype (newTarget : Value) : Heeds L (namedPrototype newTarget) := by
  unfold namedPrototype
  split
  · refine (obeys_onStore _).bind fun named => ?_
    split
    · exact obeys_pure _
    · exact obeys_realm.bind fun _ => obeys_pure _
  · exact obeys_realm.bind fun _ => obeys_pure _

@[grind ←] theorem obeys_freshReceiver (newTarget : Value) : Heeds L (freshReceiver newTarget) :=
  (obeys_namedPrototype _).bind fun _ => (obeys_onStore _).bind fun _ => obeys_pure _

@[grind ←] theorem obeys_scriptConstructor (v : Value) : Heeds L (scriptConstructor? v) := by
  refine (obeys_calleeOf v).attempt.weaken.bind fun r => ?_
  split <;> exact obeys_pure _

omit [L.Store] in
theorem obeys_refuseConstruct (v : Value) : Heeds L (refuseConstruct v : VM α) :=
  (obeys_display v).bind fun _ => obeys_raise _

omit [L.Store] in
@[grind ←] theorem obeys_inFunction : Heeds L inFunction := obeys_get.bind fun _ => obeys_pure _

@[grind ←] theorem obeys_compile (source : Text) (options : CompileOptions) : Heeds L (compile source options) := by
  refine obeys_get.bind fun m => ?_
  split
  · exact obeys_raise _
  · refine (obeys_onStore _).bind fun _ => ?_
    split
    · exact obeys_pure _
    · exact obeys_raise _

/-! ### Conversions -/

section Conversions

variable {e₁ e₂ : Enter}
  (hcall : ∀ callee this args, Obeys L (e₁ (.call callee this args)) (e₂ (.call callee this args)))

include hcall

theorem obeys_primitiveBy (o : ObjectId) (names : List String) :
    Obeys L (primitiveBy e₁ o names) (primitiveBy e₂ o names) := by
  induction names with
  | nil => exact obeys_raise _
  | cons name rest ih =>
    refine (obeys_onStore _).bind fun method => ?_
    split
    · refine (obeys_onStore _).bind fun callable => ?_
      split
      · refine (hcall _ _ _).bind fun v => ?_
        split
        · exact ih
        · exact obeys_pure _
      · exact ih
    · exact ih

theorem obeys_toPrimitive (v : Value) (hint : Hint) : Obeys L (toPrimitive e₁ v hint) (toPrimitive e₂ v hint) := by
  unfold toPrimitive
  split
  · refine (obeys_onStore _).bind fun o => ?_
    split
    · exact obeys_pure _
    · exact obeys_primitiveBy hcall _ _
  · exact obeys_pure _

theorem obeys_toNumber (v : Value) : Obeys L (toNumber e₁ v) (toNumber e₂ v) :=
  (obeys_toPrimitive hcall v _).bind fun _ => obeys_ofOutcome _

theorem obeys_toText (v : Value) : Obeys L (toText e₁ v) (toText e₂ v) :=
  (obeys_toPrimitive hcall v _).bind fun _ => obeys_ofOutcome _

theorem obeys_toPropertyKey (v : Value) : Obeys L (toPropertyKey e₁ v) (toPropertyKey e₂ v) :=
  (obeys_toPrimitive hcall v _).bind fun _ => obeys_ofOutcome _

theorem obeys_looseEquals (a b : Value) : Obeys L (looseEquals e₁ a b) (looseEquals e₂ a b) := by
  unfold looseEquals
  dsimp only
  split
  · exact obeys_pure _
  · split
    · exact obeys_pure _
    · exact (obeys_toPrimitive hcall _ _).bind fun _ => obeys_pure _
    · exact (obeys_toPrimitive hcall _ _).bind fun _ => obeys_pure _
    · exact obeys_pure _

theorem obeys_hasIn (key target : Value) : Obeys L (hasIn e₁ key target) (hasIn e₂ key target) := by
  unfold hasIn
  split
  · exact (obeys_toPropertyKey hcall _).bind fun _ => obeys_onStore _
  · exact (obeys_display _).bind fun _ => (obeys_display _).bind fun _ => obeys_raise _

end Conversions

/-! ### Iterators -/

@[grind ←] theorem obeys_iteratorMethod (v : Value) : Heeds L (iteratorMethod v) := by
  unfold iteratorMethod
  split
  · exact obeys_pure _
  · exact obeys_getProperty _ _

@[grind ←] theorem obeys_memberCallable (member : Option Value) : Heeds L (memberCallable member) := by
  unfold memberCallable
  split
  · exact obeys_onStore _
  · exact obeys_pure _

@[grind ←] theorem obeys_itemOf (answer : Outcome Value) : Heeds L (itemOf answer) := by
  unfold itemOf
  split
  · exact obeys_pure _
  · refine (obeys_onStore _).bind fun done => ?_
    split
    · exact obeys_pure _
    · exact (obeys_onStore _).bind fun _ => obeys_pure _
  · exact (obeys_display _).bind fun _ => obeys_pure _

/-- The law that no iterator changes. -/
def uniterating : Law :=
  .ofRel (fun _ => True) (fun m m' => m'.iterators = m.iterators) (fun _ => rfl) (fun h h' => h'.trans h)
    (fun _ _ => trivial)

instance : uniterating.Store := ⟨fun _ _ _ => rfl⟩

section Iterators

variable [L.Iterators] {e₁ e₂ : Enter} (he : ∀ e, e.evaluates = false → ObeysWhen L e.Due (e₁ e) (e₂ e))

include he

theorem obeys_openIterator (v : Value) : Obeys L (openIterator e₁ v) (openIterator e₂ v) := by
  refine (obeys_iteratorMethod v).bind fun method => (obeys_memberCallable method).bind fun callable => ?_
  split
  · refine (he (.call _ _ _) rfl).now.bind fun iterator => ?_
    split
    case isTrue hobject => exact (obeys_getProperty _ _).bind fun _ => obeys_newIterator hobject rfl
    case isFalse => exact obeys_raise _
  · exact (obeys_display _).bind fun _ => obeys_raise _

/-- Closing is finished while the iterator is still being closed: looking for its `return` method does not change it. -/
theorem obeys_closeIterator (i : IteratorId) : Obeys L (closeIterator e₁ i) (closeIterator e₂ i) := by
  refine obeys_iterator_bind fun r => ?_
  split
  case isFalse => exact (obeys_pure _).when _
  case isTrue hactive =>
    have hcloses : ObeysWhen L (fun m => m.iterator i = r) (setStatus i .closing) (setStatus i .closing) :=
      fun m _ hr => ⟨.inl rfl, Law.Iterators.closes m i (hr ▸ hactive)⟩
    refine hcloses.seq (q := fun _ m => (m.iterator i).status = .closing) (fun {m _ _} hr hset => ?_) fun _ => ?_
    · cases hset
      have hlt : i.index < m.iterators.size := Machine.index_lt_of_not_ended (by rw [hr, hactive]; simp)
      rw [Machine.iterator_setStatus_self hlt]
    refine ((obeys_getProperty _ _).when _).seq (q := fun _ m => (m.iterator i).status = .closing)
      (fun {m _ m'} hr hget => ?_) fun found => ?_
    · have hsame := (obeys_getProperty (L := uniterating) r.iterator (.ofString "return")).allows (m := m) trivial
      rw [hget] at hsame
      rw [Machine.iterator, hsame]
      exact hr
    extract_lets method
    split
    · exact (obeys_endIterator i).when _
    · refine (he (.finish i method) rfl).bind fun v => ?_
      split
      · exact obeys_pure _
      · exact (obeys_display _).bind fun _ => obeys_raise _

variable [L.Strict]

theorem obeys_stepIterator (i : IteratorId) : Obeys L (stepIterator e₁ i) (stepIterator e₂ i) := by
  refine obeys_iterator_bind fun r => ?_
  split
  case isFalse => exact (obeys_pure _).when _
  case isTrue hactive =>
    have hnext : ObeysWhen L (fun m => m.iterator i = r) (e₁ (.next i)) (e₂ (.next i)) :=
      (he (.next i) rfl).imp fun m hr => (congrArg IteratorRecord.status hr).trans hactive
    refine hnext.attempt.bind fun answer => (obeys_itemOf answer).bind fun item => ?_
    split
    · exact obeys_pure _
    · exact (obeys_endIterator i).bind fun _ => obeys_pure _

theorem obeys_feed {f : σ → Value → VM σ} (hf : ∀ s v, Heeds L (f s v)) (n : Nat) (i : IteratorId)
    (s : σ) : Obeys L (feed e₁ f n i s) (feed e₂ f n i s) := by
  induction n generalizing s with
  | zero => exact obeys_outOfFuel
  | succ n ih =>
    refine (obeys_stepIterator he i).bind fun item => ?_
    split
    · exact obeys_pure _
    · exact obeys_pure _
    · refine (hf _ _).attempt.bind fun fed => ?_
      split
      · exact ih _
      · refine (obeys_closeIterator he _).attempt.bind fun closed => ?_
        split <;> exact obeys_pure _

theorem obeys_feedItems {f : σ → Value → VM σ} (hf : ∀ s v, Heeds L (f s v)) (fuel : Nat) (v : Value)
    (s : σ) : Obeys L (feedItems e₁ fuel v f s) (feedItems e₂ fuel v f s) := by
  refine (obeys_openIterator he v).attempt.bind fun r => ?_
  split
  · exact obeys_pure _
  · exact obeys_feed he hf _ _ _

theorem obeys_forItems {f : Value → VM Unit} (hf : ∀ v, Heeds L (f v)) (fuel : Nat) (v : Value) :
    Obeys L (forItems e₁ fuel v f) (forItems e₂ fuel v f) :=
  (obeys_feedItems he (fun _ v => hf v) fuel v ()).bind fun _ => obeys_ofOutcome _

theorem obeys_collectItems (fuel : Nat) (v : Value) (limit : Option ItemLimit) :
    Obeys L (collectItems e₁ fuel v limit) (collectItems e₂ fuel v limit) := by
  refine obeys_feedItems he (fun taken x => ?_) fuel v []
  split
  · split
    · exact obeys_raise _
    · exact obeys_pure _
  · exact obeys_pure _

theorem obeys_allItems (fuel : Nat) (v : Value) (limit : Option ItemLimit) :
    Obeys L (allItems e₁ fuel v limit) (allItems e₂ fuel v limit) := by
  refine (obeys_collectItems he fuel v limit).bind fun collected => ?_
  exact (obeys_ofOutcome _).bind fun _ => obeys_pure _

theorem obeys_drain (n : Nat) (i : IteratorId) (taken : List Value) :
    Obeys L (drain e₁ n i taken) (drain e₂ n i taken) := by
  induction n generalizing taken with
  | zero => exact obeys_outOfFuel
  | succ n ih =>
    refine (obeys_stepIterator he i).bind fun item => (obeys_ofOutcome _).bind fun v => ?_
    split
    · exact ih _
    · exact obeys_pure _

end Iterators

/-! ### Host functions -/

section Host

variable {L : Law} [L.Guard] [L.Iterators] [L.Strict] {e₁ e₂ : Enter}

section Requests

variable (he : ∀ e, e.evaluates = false → ObeysWhen L e.Due (e₁ e) (e₂ e))

include he

omit [L.Iterators] in
theorem obeys_tryCall (callee this : Value) (args : List Value) :
    Obeys L (tryCall e₁ callee this args) (tryCall e₂ callee this args) := by
  have hbody := (he (.call callee this args) rfl).now
  refine (obeys_guarded (fun i => (he (.close i) rfl).now.strict) hbody).weaken.attempt.bind fun r => ?_
  split
  · exact obeys_pure _
  · exact obeys_pure _
  · exact obeys_raise _

/-- The machine obeys a law in what a host function asks for, the evaluation of source text apart. -/
theorem obeys_perform (fuel : Nat) {op : HostOp} (hop : op.evaluates = false) :
    Obeys L (perform e₁ fuel op) (perform e₂ fuel op) := by
  have hcall := fun callee this args => (he (.call callee this args) rfl).now
  cases op with
  | call => exact (hcall _ _ _).attempt
  | tryCall => exact (obeys_tryCall he _ _ _).attempt
  | construct => exact (he (.construct _ _ _) rfl).now.attempt
  | evaluate => cases hop
  | runProgram => exact (he (.program _) rfl).now.attempt
  | toPrimitive => exact (obeys_toPrimitive hcall _ _).attempt
  | toNumber => exact (obeys_toNumber hcall _).attempt
  | toText => exact (obeys_toText hcall _).attempt
  | toPropertyKey => exact (obeys_toPropertyKey hcall _).attempt
  | toObject => exact (obeys_toObject _).attempt
  | looseEquals => exact (obeys_looseEquals hcall _ _).attempt
  | instanceOf => exact (obeys_instanceOf _ _).attempt
  | hasIn => exact (obeys_hasIn hcall _ _).attempt
  | items => exact (obeys_allItems he fuel _ _).attempt
  | openIterator => exact (obeys_openIterator he _).attempt
  | stepIterator => exact obeys_stepIterator he _
  | closeIterator => exact (obeys_closeIterator he _).attempt
  | getProperty => exact (obeys_getProperty _ _).attempt
  | putProperty => exact (obeys_putProperty _ _ _ _).attempt
  | copyProperties => exact (obeys_copyProperties _ _).attempt
  | newArray | newBound | newError => exact obeys_realm.bind fun _ => obeys_onStore _
  | readCell | interrupted | depths | memory => exact obeys_get.bind fun _ => obeys_pure _
  | setInterrupt | clearInterrupt => exact obeys_modify fun m => Law.Host.interrupt m _
  | setLimits => exact obeys_modify fun m => Law.Host.limits m _
  | setCompiler => exact obeys_modify fun m => Law.Host.compiler m _
  | trace => exact obeys_trace
  | display => exact obeys_display _
  | realm => exact obeys_realm
  | _ =>
    unfold perform
    exact obeys_onStore _

end Requests

theorem obeys_runHost (he : ∀ e, ObeysWhen L e.Due (e₁ e) (e₂ e)) (fuel : Nat) (b : Behaviour) :
    Obeys L (runHost e₁ fuel b) (runHost e₂ fuel b) := by
  induction b with
  | done outcome => exact obeys_ofOutcome _
  | ask op next ih =>
    refine Obeys.bind ?_ ih
    cases hop : op.evaluates with
    | false => exact obeys_perform (fun e _ => he e) fuel hop
    | true =>
      obtain ⟨source, direct, strict, this, rfl⟩ := HostOp.eq_evaluate hop
      exact (he (.evaluate _ _ _ _)).now.attempt
  | makeNative name length body next _ ih =>
    exact obeys_realm.bind fun _ => (obeys_onStore _).bind ih

end Host

end VM

end ScriptMachine
