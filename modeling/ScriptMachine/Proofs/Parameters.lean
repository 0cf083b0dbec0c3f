import ScriptMachine.Proofs.FunctionEntry
import ScriptMachine.Proofs.OwnProperties

/-!
# How parameters are passed

Four instructions set up the frame of a function.  They differ in where they leave the arguments, and so do the
instructions that read them.

Main result: `parameters_passed`.
-/

namespace ScriptMachine

variable {i j count : Nat} {p : Passing} {callee : Value} {m' : Machine} {above : List Value}

/-! ### A new object -/

theorem PropertyKey.ofNat_ne_ofString {s : String} (h : Text.digitsValue? (Text.ofString s).units 0 = none) (n : Nat) :
    ofNat n ≠ ofString s := by
  intro heq
  have htext : Text.ofNat n = Text.ofString s := PropertyKey.text.inj heq
  rw [← htext, Text.digitsValue?_ofNat] at h
  cases h

namespace Store

def added (σ : Store) (x : Object) : Store := { σ with objects := σ.objects.push x }

/-- The name of the next object. -/
def fresh (σ : Store) : ObjectId := ⟨σ.objects.size⟩

variable {σ : Store} {x : Object} {key : PropertyKey}

theorem object_added (σ : Store) (x : Object) : (σ.added x).object σ.fresh = x := by
  simp [object, added, fresh]

theorem setObject_added (σ : Store) (x y : Object) : (σ.added x).setObject σ.fresh y = σ.added y := by
  have hobjects : (σ.objects.push x).setIfInBounds σ.objects.size y = σ.objects.push y := by
    apply Array.ext_getElem?
    intro i
    rw [Array.getElem?_setIfInBounds, Array.getElem?_push, Array.getElem?_push]
    by_cases hi : i = σ.objects.size
    · simp [hi]
    · rw [if_neg hi, if_neg (Ne.symm hi), if_neg hi]
  simp only [setObject, added, fresh, hobjects]

theorem own_added (hx : x.kind.isLazy = false) : (σ.added x).own σ.fresh key = x.ownProperty? σ.scopes key := by
  rw [own_eq, settled, object_added, Object.settled_of_not_isLazy hx]
  rfl

theorem run_define_of_table {o : ObjectId} {σ' : Store} {p : Property} (hmade : (σ.object o).settled = σ.object o)
    (hown : (σ.object o).ownProperty? σ.scopes key = (σ.object o).properties.find? key)
    (hext : (σ.object o).extensible = true)
    (hconf : ∀ c, (σ.object o).properties.find? key = some c → c.configurable = true)
    (hallowed : defineAllowed σ o key p = .ok σ') (strict : Bool) : (define o key p strict).run σ = (.ok true, σ') := by
  have hmay : mayDefine true ((σ.object o).properties.find? key) p = true := by
    cases hc : (σ.object o).properties.find? key with
    | none => rfl
    | some c => simp [mayDefine, hconf c hc]
  rw [run_define, run_materialize_of_settled hmade, own_eq, settled, hmade, hown, hext, if_pos hmay, hallowed]

theorem run_define_added (p : Property) (hlazy : x.kind.isLazy = false)
    (hown : x.ownProperty? σ.scopes key = x.properties.find? key) (hext : x.extensible = true)
    (hconf : ∀ c, x.properties.find? key = some c → c.configurable = true)
    (hallowed : defineAllowed (σ.added x) σ.fresh key p =
      .ok ((σ.added x).setObject σ.fresh { x with properties := x.properties.insert key p })) :
    (define σ.fresh key p false).run (σ.added x) =
      (.ok true, σ.added { x with properties := x.properties.insert key p }) := by
  have hobject := object_added σ x
  rw [setObject_added] at hallowed
  exact run_define_of_table (by rw [hobject, Object.settled_of_not_isLazy hlazy]) (by rw [hobject]; exact hown)
    (by rw [hobject, hext]) (by rw [hobject]; exact hconf) hallowed false

theorem run_define_arguments {s : ScopeId} {mapped : List Bool} (p : Property) (hkind : x.kind = .arguments s mapped)
    (hkey : Object.mappedIndex? mapped key = none) (hext : x.extensible = true)
    (hconf : ∀ c, x.properties.find? key = some c → c.configurable = true) :
    (define σ.fresh key p false).run (σ.added x) =
      (.ok true, σ.added { x with properties := x.properties.insert key p }) :=
  run_define_added p (by rw [hkind]; rfl) (by simp only [Object.ownProperty?, hkind, hkey]) hext hconf
    (by simp only [defineAllowed, object_added, hkind, hkey])

end Store

namespace VM

/-! ### Where parameters are -/

/-- Where a function finds its parameters. -/
inductive Passing where
  | onStack
  | inScope

/-- The instructions that set up the frame of a function with `n` parameters. -/
inductive SetsUp (n : Nat) : Passing → Instruction → Prop where
  | bare (stackSize : Nat) : SetsUp n .onStack (.enterBare stackSize n)
  | left {e : FunctionEntry} (params : e.params = n) (stay : e.argsToScope = false) :
      SetsUp n .onStack (.enterFunction e)
  | moved {e : FunctionEntry} (params : e.params = n) (move : e.argsToScope = true) (room : n ≤ e.scopeSize) :
      SetsUp n .inScope (.enterFunction e)
  | copied {e : ParameterEntry} (params : e.params = n) (copied : e.copied = n) (room : n ≤ e.scopeSize) :
      SetsUp n .inScope (.enterParameters e)

namespace Passing

/-- The instruction that reads a parameter, counted from zero. -/
def load (p : Passing) (i : Nat) (lexical : Bool) : Instruction :=
  match p with
  | .onStack => .loadSlot ⟨-(i + 1 : Nat), false⟩ lexical
  | .inScope => .loadScope ⟨0, i⟩ lexical

/-- The instruction that makes the rest parameter after `n` others. -/
def rest (p : Passing) (n : Nat) : Instruction :=
  match p with
  | .onStack => .restFromStack n
  | .inScope => .restFromScope

end Passing

/-- The current record holds the parameters, and the arguments beyond them. -/
structure Recorded (m : Machine) (args : List Value) (n : Nat) : Prop where
  slots : ∀ i < n, (m.store.scope m.regs.scope).slots[i]? = some ((args[i]?).getD .undefined)
  surplus : (m.store.scope m.regs.scope).surplus = args.drop n

/-- A later state of an activation that has overwritten nothing of its frame. -/
structure Undisturbed (m m' : Machine) : Prop where
  stack : ∃ above, m'.stack.Holds (m.stack.toList ++ above)
  base : m'.regs.base = m.regs.base
  args : m'.regs.args = m.regs.args
  scope : m'.regs.scope = m.regs.scope
  record : m'.store.scope m.regs.scope = m.store.scope m.regs.scope

section Undisturbed

variable {m m' : Machine} {callee this : Value} {args above : List Value} {n count : Nat}

theorem Undisturbed.frame (h : Undisturbed m m') (hm : Frame m callee this above count) :
    ∃ more, Frame m' callee this (above ++ more) count := by
  obtain ⟨below, hstack, hbase⟩ := hm.stack
  obtain ⟨more, hmore⟩ := h.stack
  rw [hstack.toList_eq] at hmore
  exact ⟨more, ⟨⟨below, by simpa using hmore, h.base.trans hbase⟩, h.args.trans hm.count⟩⟩

theorem Undisturbed.recorded (h : Undisturbed m m') (hm : Recorded m args n) : Recorded m' args n := by
  constructor
  · rw [h.scope, h.record]
    exact hm.slots
  · rw [h.scope, h.record]
    exact hm.surplus

end Undisturbed

/-! ### Reading parameters -/

section Reading

variable {m : Machine} {callee this v : Value} {args above : List Value} {i n : Nat}

theorem loadSlot_of_frame (h : Frame m callee this (args ++ above) args.length) (hv : args[i]? = some v)
    (hord : v.orUndefined = v) (lexical : Bool) :
    loadSlot ⟨-(i + 1 : Nat), false⟩ lexical m = pushNext v m := by
  obtain ⟨below, hstack, hbase⟩ := h.stack
  have hi : i < args.length := (List.getElem?_eq_some_iff.mp hv).1
  have hindex : slotIndex ⟨-(i + 1 : Nat), false⟩ m = .ok (some (below.length + 1 + (i + 1))) m := by
    have hnotPositive : ¬ 0 < (-(i + 1 : Nat) : Int) := by omega
    have habs : (-(i + 1 : Nat) : Int).natAbs = i + 1 := by omega
    have hpassed : i + 1 ≤ m.regs.args := by rw [h.count]; exact hi
    unfold slotIndex
    rw [bind_ok (frameBase_of_base hbase), regs_bind, habs, if_pos hpassed]
    rfl
  have hslot : slot (below.length + 1 + (i + 1)) m = .ok v m := by
    refine readStack_of_ok (hstack.get ?_)
    rw [List.getElem?_append_right (by omega), show below.length + 1 + (i + 1) - below.length = i + 2 by omega]
    simpa [List.getElem?_append_left hi] using hv
  have hread : readSlot ⟨-(i + 1 : Nat), false⟩ lexical none m = .ok v m := by
    unfold readSlot
    rw [bind_ok hindex]
    dsimp only
    rw [bind_ok hslot, readEmpty_of_ordinary hord]
    rfl
  unfold loadSlot
  rw [bind_ok hread]

def arrayOf (m : Machine) (items : List Value) : Object := .ofKind (some m.realm.arrayPrototype) (.array items.toArray)

theorem restFromStack_of_frame (h : Frame m callee this (padded args n ++ above) (padded args n).length) :
    restFromStack n m =
      pushNext (.object m.store.fresh) { m with store := m.store.added (arrayOf m (args.drop n)) } := by
  obtain ⟨below, hstack, hbase⟩ := h.stack
  have hlength : (padded args n).length = max args.length n := by
    simp only [padded, List.length_append, List.length_replicate]
    omega
  show (if n < m.regs.args then _ else pushArray []) m = _
  rw [h.count, hlength]
  split
  case isTrue hmore =>
    have hless : n < args.length := by omega
    have hnone : padded args n = args := by simp [padded, Nat.sub_eq_zero_of_le (Nat.le_of_lt hless)]
    have hitems : m.stack.Holds ((below ++ callee :: this :: args.take n) ++ (args.drop n ++ above)) := by
      have hsplit : args ++ above = args.take n ++ (args.drop n ++ above) := by
        rw [← List.append_assoc, List.take_append_drop]
      rw [hnone, hsplit] at hstack
      simpa using hstack
    have hslots : slots (below.length + 1 + n + 1) (below.length + 1 + max args.length n + 1) m =
        .ok (args.drop n) m := by
      refine slots_of_slice (hitems.slice ?_ ?_)
      · simp
        omega
      · simp
        omega
    rw [bind_ok (frameBase_of_base hbase), bind_ok hslots]
    rfl
  case isFalse hmore =>
    rw [List.drop_eq_nil_of_le (by omega)]
    rfl

theorem restFromScope_of_recorded (h : Recorded m args n) :
    ∃ σ : Store, restFromScope m =
      pushNext (.object σ.fresh) { m with store := σ.added (arrayOf m (args.drop n)) } := by
  refine ⟨m.store.modifyScope m.regs.scope fun x => { x with surplus := [] }, ?_⟩
  rw [← h.surplus]
  rfl

end Reading

/-! ### The arguments object -/

/-- A table with plain properties at ascending indices put in. -/
def withItems (t : PropertyTable) : Nat → List Value → PropertyTable
  | _, [] => t
  | i, v :: rest => withItems (t.insert (.ofNat i) (.plain v)) (i + 1) rest

theorem find?_withItems (t : PropertyTable) (vs : List Value) (i k : Nat) :
    (withItems t i vs).find? (.ofNat k) =
      if i ≤ k ∧ k < i + vs.length then (vs[k - i]?).map .plain else t.find? (.ofNat k) := by
  induction vs generalizing t i with
  | nil =>
    rw [if_neg (by simp only [List.length_nil]; omega)]
    rfl
  | cons v rest ih =>
    rw [withItems, ih, PropertyTable.find?_insert]
    by_cases hk : k = i
    · subst hk
      rw [if_neg (by omega), if_pos rfl, if_pos (by simp only [List.length_cons]; omega), Nat.sub_self]
      rfl
    · rw [if_neg fun h => hk (PropertyKey.ofNat_injective h)]
      rcases Nat.lt_or_gt_of_ne hk with hlt | hgt
      · rw [if_neg (by omega), if_neg (by omega)]
      · obtain ⟨d, rfl⟩ : ∃ d, k = i + 1 + d := ⟨k - (i + 1), by omega⟩
        rw [show i + 1 + d - (i + 1) = d by omega, show i + 1 + d - i = d + 1 by omega]
        simp only [List.length_cons, List.getElem?_cons_succ]
        congr 1
        simp only [eq_iff_iff]
        omega

def Configurable (t : PropertyTable) : Prop := ∀ key c, t.find? key = some c → c.configurable = true

theorem Configurable.insert {t : PropertyTable} (h : Configurable t) (key : PropertyKey) {p : Property}
    (hp : p.configurable = true) : Configurable (t.insert key p) := by
  intro key' c hc
  rw [PropertyTable.find?_insert] at hc
  split at hc
  · cases hc
    exact hp
  · exact h key' c hc

theorem Configurable.withItems {t : PropertyTable} (h : Configurable t) (i : Nat) (vs : List Value) :
    Configurable (withItems t i vs) := by
  induction vs generalizing t i with
  | nil => exact h
  | cons v rest ih => exact ih (h.insert (.ofNat i) rfl) (i + 1)

def withArgumentsObject (m : Machine) (mapped : List Bool) (t : PropertyTable) : Machine :=
  { m with store := m.store.added ⟨⟨some m.realm.objectPrototype, t, true⟩, .arguments m.regs.scope mapped⟩ }

section Arguments

variable {m : Machine} {mapped : List Bool} {t : PropertyTable} {key : PropertyKey}

theorem mappedIndex?_of_index?_none (h : key.index? = none) : Object.mappedIndex? mapped key = none := by
  rw [Object.mappedIndex?, h]
  rfl

theorem mappedIndex?_of_length_le (h : mapped.length ≤ i) : Object.mappedIndex? mapped (.ofNat i) = none := by
  rw [Option.eq_none_iff_forall_ne_some]
  intro j hj
  obtain ⟨hindex, hmapped⟩ := Object.mappedIndex?_eq_some.mp hj
  obtain ⟨_, hkey⟩ := PropertyKey.index?_eq_some.mp hindex
  have hsame := PropertyKey.ofNat_injective hkey
  rw [List.getElem?_eq_none (by omega)] at hmapped
  cases hmapped

theorem putItems_withArgumentsObject (ht : Configurable t) (hi : mapped.length ≤ i) (vs : List Value) :
    putItems m.store.fresh i vs (withArgumentsObject m mapped t) =
      .ok () (withArgumentsObject m mapped (withItems t i vs)) := by
  induction vs generalizing t i with
  | nil => rfl
  | cons v rest ih =>
    have hput : onStore (Store.put m.store.fresh (.ofNat i) v) (withArgumentsObject m mapped t) =
        .ok true (withArgumentsObject m mapped (t.insert (.ofNat i) (.plain v))) := by
      refine onStore_of_run ?_
      rw [Store.put, Store.run_bind, withArgumentsObject,
        Store.run_define_arguments (.plain v) rfl (mappedIndex?_of_length_le hi) rfl (ht _)]
      rfl
    unfold putItems
    rw [bind_ok hput]
    exact ih (ht.insert _ rfl) (Nat.le_succ_of_le hi)

theorem defineHidden_withArgumentsObject (ht : Configurable t) (hkey : key.index? = none) (v : Value) :
    defineHidden m.store.fresh key v (withArgumentsObject m mapped t) =
      .ok () (withArgumentsObject m mapped (t.insert key (.hidden v))) := by
  have hdefine : onStore (Store.define m.store.fresh key (.hidden v) false) (withArgumentsObject m mapped t) =
      .ok (.ok true) (withArgumentsObject m mapped (t.insert key (.hidden v))) :=
    onStore_of_run (Store.run_define_arguments (.hidden v) rfl (mappedIndex?_of_index?_none hkey) rfl (ht _))
  have hdemand : demand (Store.define m.store.fresh key (.hidden v) false) (withArgumentsObject m mapped t) =
      .ok true (withArgumentsObject m mapped (t.insert key (.hidden v))) := (bind_ok hdefine).trans rfl
  unfold defineHidden
  rw [bind_ok hdemand]
  rfl

theorem calleeOfFrame_eq_ok :
    calleeOfFrame m = .ok callee m' ↔
    m' = m ∧ ∃ base, m.regs.base = some (base + 1) ∧ m.stack.get base = .ok callee := by
  have hslot : ∀ base, m.regs.base = some (base + 1) → calleeOfFrame m = ofOutcome (m.stack.get base) m := fun _ hbase =>
    bind_ok (frameBase_of_base hbase)
  constructor
  · intro h
    cases hb : m.regs.base with
    | none =>
      have houtside : frameBase m = .error (.fault (.internal .outsideFunction)) m := by
        unfold frameBase
        rw [regs_bind, hb]
        rfl
      cases (bind_error houtside).symm.trans h
    | some base =>
      cases base with
      | zero => cases (bind_ok (frameBase_of_base hb)).symm.trans h
      | succ base =>
        rw [hslot base hb] at h
        cases hget : m.stack.get base with
        | error f =>
          rw [hget] at h
          cases h
        | ok v =>
          rw [hget] at h
          cases h
          exact ⟨rfl, base, rfl, hget⟩
  · rintro ⟨rfl, base, hbase, hget⟩
    rw [hslot base hbase, hget]
    rfl

theorem calleeOfFrame_congr (h : calleeOfFrame m = .ok callee m) (hbase : m'.regs.base = m.regs.base)
    (hstack : m'.stack = m.stack) : calleeOfFrame m' = .ok callee m' := by
  obtain ⟨_, base, hb, hget⟩ := calleeOfFrame_eq_ok.mp h
  exact calleeOfFrame_eq_ok.mpr ⟨rfl, base, hbase.trans hb, hstack ▸ hget⟩

theorem calleeOfFrame_of_frame {this : Value} (h : Frame m callee this above count) :
    calleeOfFrame m = .ok callee m := by
  obtain ⟨below, hstack, hbase⟩ := h.stack
  unfold calleeOfFrame
  rw [bind_ok (frameBase_of_base hbase)]
  exact readStack_of_ok (hstack.get (by simp))

/-- The items that an arguments object holds itself, with the index of the first. -/
def ownItems (x : Scope) (count : Nat) (mapped : Bool) : Nat × List Value :=
  if mapped then (count, x.surplus) else (0, (x.slots.toList.take count).map Value.orUndefined ++ x.surplus)

/-- The items of an arguments object and its length, as properties. -/
def argumentsTable (m : Machine) (n : Nat) (mapped : Bool) : PropertyTable :=
  let items := ownItems (m.store.scope m.regs.scope) (min n m.regs.args) mapped
  (withItems .empty items.1 items.2).insert .length (.hidden (.ofNat m.regs.args))

theorem configurable_argumentsTable (m : Machine) (n : Nat) (mapped : Bool) :
    Configurable (argumentsTable m n mapped) := by
  have hempty : Configurable .empty := nofun
  exact (hempty.withItems _ _).insert .length rfl

theorem createArguments_eq (n : Nat) (mapped : Bool) (m : Machine) :
    createArguments n mapped m = (do
      if mapped then defineHidden m.store.fresh (.ofString "callee") (← calleeOfFrame)
      defineHidden m.store.fresh (.symbol .iterator) (.object m.realm.arrayValues)
      pushNext (.object m.store.fresh) : VM Unit)
        (withArgumentsObject m (if mapped then List.replicate (min n m.regs.args) true else [])
          (argumentsTable m n mapped)) := by
  have hempty : Configurable .empty := nofun
  have hrun : createArguments n mapped m = (do
      putItems m.store.fresh (ownItems (m.store.scope m.regs.scope) (min n m.regs.args) mapped).1
        (ownItems (m.store.scope m.regs.scope) (min n m.regs.args) mapped).2
      defineHidden m.store.fresh .length (.ofNat m.regs.args)
      if mapped then defineHidden m.store.fresh (.ofString "callee") (← calleeOfFrame)
      defineHidden m.store.fresh (.symbol .iterator) (.object m.realm.arrayValues)
      pushNext (.object m.store.fresh))
        (withArgumentsObject m (if mapped then List.replicate (min n m.regs.args) true else []) .empty) := by
    cases mapped <;> rfl
  rw [hrun, bind_ok (putItems_withArgumentsObject hempty (by cases mapped <;> simp [ownItems]) _),
    bind_ok (defineHidden_withArgumentsObject (hempty.withItems _ _) PropertyKey.index?_length _)]
  rfl

theorem createArguments_of_callee (mapped : Bool) (h : mapped = true → calleeOfFrame m = .ok callee m) (n : Nat) :
    ∃ t, createArguments n mapped m = pushNext (.object m.store.fresh)
        (withArgumentsObject m (if mapped then List.replicate (min n m.regs.args) true else []) t) ∧
      t.find? .length = some (.hidden (.ofNat m.regs.args)) ∧
      ∀ k, t.find? (.ofNat k) = (withItems .empty (ownItems (m.store.scope m.regs.scope) (min n m.regs.args) mapped).1
        (ownItems (m.store.scope m.regs.scope) (min n m.regs.args) mapped).2).find? (.ofNat k) := by
  have hcallee : (PropertyKey.ofString "callee").index? = none := by decide
  have hcalleeLength : PropertyKey.ofString "callee" ≠ .length := by decide
  have hnat : ∀ k, PropertyKey.ofNat k ≠ .length := PropertyKey.ofNat_ne_ofString (by decide)
  have hnat' : ∀ k, PropertyKey.ofNat k ≠ .ofString "callee" := PropertyKey.ofNat_ne_ofString (by decide)
  have hiterator : (PropertyKey.symbol .iterator).index? = none := rfl
  have htable := configurable_argumentsTable m n mapped
  rw [createArguments_eq]
  cases mapped with
  | true =>
    have hown := htable.insert (.ofString "callee") (p := .hidden callee) rfl
    have hreads : ∀ list t, calleeOfFrame (withArgumentsObject m list t) = .ok callee (withArgumentsObject m list t) :=
      fun _ _ => calleeOfFrame_congr (h rfl) rfl rfl
    rw [if_pos rfl, bind_ok (hreads _ _),
      bind_ok (defineHidden_withArgumentsObject htable hcallee callee)]
    refine ⟨_, bind_ok (defineHidden_withArgumentsObject hown hiterator _), ?_, fun k => ?_⟩
    · simp only [argumentsTable, PropertyTable.find?_insert]
      rw [if_neg nofun, if_neg hcalleeLength.symm, if_pos trivial]
    · simp only [argumentsTable, PropertyTable.find?_insert]
      rw [if_neg nofun, if_neg (hnat' k), if_neg (hnat k)]
  | false =>
    refine ⟨_, bind_ok (defineHidden_withArgumentsObject htable hiterator _), ?_, fun k => ?_⟩
    · simp only [argumentsTable, PropertyTable.find?_insert]
      rw [if_neg nofun, if_pos trivial]
    · simp only [argumentsTable, PropertyTable.find?_insert]
      rw [if_neg nofun, if_neg (hnat k)]

theorem own_withArgumentsObject {args : List Value} {n : Nat} (hr : Recorded m args n)
    (hargs : ∀ v ∈ args, v.orUndefined = v) (hn : n < UInt32.size) (mapped : Bool)
    (ht : ∀ k, t.find? (.ofNat k) = (withItems .empty (ownItems (m.store.scope m.regs.scope) (min n args.length) mapped).1 (ownItems (m.store.scope m.regs.scope) (min n args.length) mapped).2).find? (.ofNat k))
    {v : Value} (hj : args[j]? = some v) :
    (withArgumentsObject m (if mapped then List.replicate (min n args.length) true else []) t).store.own m.store.fresh
      (.ofNat j) = some (.plain v) := by
  have hlt : j < args.length := (List.getElem?_eq_some_iff.mp hj).1
  have hbound : n ≤ Text.indexBound := Nat.le_of_lt_succ hn
  have hslot : j < n → (m.store.scope m.regs.scope).slots[j]? = some v := fun hjn => by
    rw [hr.slots j hjn, hj]
    rfl
  have hord : v.orUndefined = v := hargs v (List.mem_of_getElem? hj)
  rw [withArgumentsObject, Store.own_added rfl]
  cases mapped with
  | true =>
    simp only [if_true]
    rcases Nat.lt_or_ge j n with hjn | hjn
    · -- the element stands for the parameter in the record
      have hmapped : Object.mappedIndex? (List.replicate (min n args.length) true) (.ofNat j) = some j :=
        Object.mappedIndex?_eq_some.mpr ⟨PropertyKey.index?_ofNat (by omega), by
          rw [List.getElem?_replicate, if_pos (by omega)]⟩
      rw [Object.ownProperty?_mapped rfl hmapped]
      have hvalue : Object.mappedValue m.store.scopes m.regs.scope j = v := by
        show (((m.store.scope m.regs.scope).slots[j]?).getD .undefined).orUndefined = v
        rw [hslot hjn]
        exact hord
      rw [hvalue]
    · have hunmapped : Object.mappedIndex? (List.replicate (min n args.length) true) (.ofNat j) = none :=
        mappedIndex?_of_length_le (by rw [List.length_replicate]; omega)
      simp only [Object.ownProperty?, hunmapped]
      rw [ht, find?_withItems]
      simp only [ownItems, if_true, hr.surplus]
      rw [if_pos (by rw [List.length_drop]; omega), List.getElem?_drop,
        show n + (j - min n args.length) = j by omega, hj]
      rfl
  | false =>
    have hunmapped : Object.mappedIndex? [] (.ofNat j) = none := mappedIndex?_of_length_le (Nat.zero_le j)
    have hitems : ((m.store.scope m.regs.scope).slots.toList.take (min n args.length)).map Value.orUndefined =
        args.take n := by
      refine List.ext_getElem? fun i => ?_
      rw [List.getElem?_map, List.getElem?_take, List.getElem?_take, Array.getElem?_toList]
      rcases Nat.lt_or_ge i n with hi | hi
      · rw [hr.slots i hi, if_pos hi]
        rcases Nat.lt_or_ge i args.length with hi' | hi'
        · rw [if_pos (by omega), List.getElem?_eq_getElem hi']
          exact congrArg some (hargs _ (List.getElem_mem hi'))
        · rw [if_neg (by omega), List.getElem?_eq_none hi']
          rfl
      · rw [if_neg (by omega), if_neg (by omega)]
        rfl
    simp only [Object.ownProperty?, Bool.false_eq_true, if_false, hunmapped]
    rw [ht, find?_withItems]
    simp only [ownItems, Bool.false_eq_true, if_false, hr.surplus, hitems, List.take_append_drop]
    rw [if_pos (by omega), Nat.sub_zero, hj]
    rfl

end Arguments

/-! ### All entries pass parameters alike -/

section Main

variable {m : Machine} {callee this : Value} {args : List Value} {n : Nat} {size : Nat} {names : Option ScopeNames}

theorem recorded_withArguments
    (h : SetUp m m' callee this above count ((emptyRecord m size names).withArguments args n)) (hn : n ≤ size) :
    Recorded m' args n := by
  constructor
  · intro i hi
    rw [h.record, Scope.getElem?_withArguments (slots_emptyRecord ..) hn (by omega), if_pos hi]
  · rw [h.record, Scope.surplus_withArguments rfl]

theorem recorded_withCopies
    (h : SetUp m m' callee this above count ((emptyRecord m size names).withCopies args n n)) (hn : n ≤ size) :
    Recorded m' args n := by
  constructor
  · intro i hi
    rw [h.record, Scope.getElem?_withCopies (slots_emptyRecord ..) hn (by omega), if_pos hi,
      List.getElem?_take_of_lt hi]
  · rw [h.record, Scope.surplus_withCopies rfl]

/-- What an entry leaves, by where it leaves the parameters. -/
def ParametersAt (m : Machine) (callee this : Value) (args : List Value) (n : Nat) : Passing → Prop
  | .onStack => ∃ above, Frame m callee this (padded args n ++ above) (padded args n).length
  | .inScope => (∃ above, Frame m callee this above args.length) ∧ Recorded m args n

theorem parametersAt_of_setsUp {i : Instruction} (h : Entering m callee this args) (hi : SetsUp n p i) (enter : Enter)
    (fuel : Nat) :
    ∃ m', execute enter fuel i m = .ok () m' ∧ m'.regs.pc = m.regs.pc + 1 ∧ ParametersAt m' callee this args n p := by
  cases hi with
  | bare stackSize =>
    obtain ⟨m', above, hrun, hpc, hframe⟩ := enterBare_of_entering h stackSize n
    exact ⟨m', hrun, hpc, above, hframe⟩
  | left params stay =>
    obtain ⟨m', hrun, hm'⟩ := enterFunction_of_staying h stay
    rw [params] at hm'
    exact ⟨m', hrun, hm'.pc, hm'.frame⟩
  | moved params move room =>
    obtain ⟨m', hrun, hm'⟩ := enterFunction_of_moving h move
    rw [params] at hm'
    obtain ⟨above, hframe⟩ := hm'.frame
    exact ⟨m', hrun, hm'.pc, ⟨_, hframe⟩, recorded_withArguments hm' room⟩
  | copied params copied room =>
    obtain ⟨m', hrun, hm'⟩ := enterParameters_of_entering h _
    rw [params, copied] at hm'
    obtain ⟨above, hframe⟩ := hm'.frame
    exact ⟨m', hrun, hm'.pc, ⟨_, hframe⟩, recorded_withCopies hm' room⟩

theorem Undisturbed.parametersAt (h : Undisturbed m m') (hm : ParametersAt m callee this args n p) :
    ParametersAt m' callee this args n p := by
  cases p with
  | onStack =>
    obtain ⟨above, hframe⟩ := hm
    obtain ⟨more, hmore⟩ := h.frame hframe
    exact ⟨above ++ more, by simpa using hmore⟩
  | inScope =>
    obtain ⟨⟨above, hframe⟩, hrecorded⟩ := hm
    obtain ⟨more, hmore⟩ := h.frame hframe
    exact ⟨⟨_, hmore⟩, h.recorded hrecorded⟩

theorem load_of_parametersAt (h : ParametersAt m callee this args n p) (hargs : ∀ v ∈ args, v.orUndefined = v)
    (enter : Enter) (fuel : Nat) (hj : j < n) (lexical : Bool) :
    execute enter fuel (p.load j lexical) m = pushNext ((args[j]?).getD .undefined) m := by
  have hord : ((args[j]?).getD .undefined).orUndefined = (args[j]?).getD .undefined := by
    cases hv : args[j]? with
    | none => rfl
    | some v => exact hargs v (List.mem_of_getElem? hv)
  cases p with
  | onStack =>
    obtain ⟨above, hframe⟩ := h
    exact loadSlot_of_frame hframe (getElem?_padded hj) hord lexical
  | inScope => exact loadScope_of_slot (h.2.slots j hj) hord lexical

theorem rest_of_parametersAt (h : ParametersAt m callee this args n p) (enter : Enter) (fuel : Nat) :
    ∃ σ : Store, execute enter fuel (p.rest n) m =
      pushNext (.object σ.fresh) { m with store := σ.added (arrayOf m (args.drop n)) } := by
  cases p with
  | onStack =>
    obtain ⟨above, hframe⟩ := h
    exact ⟨m.store, restFromStack_of_frame hframe⟩
  | inScope => exact restFromScope_of_recorded h.2

theorem undisturbed_refl (h : ParametersAt m callee this args n p) : Undisturbed m m := by
  obtain ⟨vs, hvs⟩ : ∃ vs, m.stack.Holds vs := by
    cases p with
    | onStack =>
      obtain ⟨_, hframe⟩ := h
      obtain ⟨_, hstack, _⟩ := hframe.stack
      exact ⟨_, hstack⟩
    | inScope =>
      obtain ⟨⟨_, hframe⟩, _⟩ := h
      obtain ⟨_, hstack, _⟩ := hframe.stack
      exact ⟨_, hstack⟩
  refine ⟨⟨[], ?_⟩, rfl, rfl, rfl, rfl⟩
  rw [List.append_nil, hvs.toList_eq]
  exact hvs

/-- **Parameter passing**: whichever instruction sets up the frame of a call, parameter `j` reads as argument `j` or
undefined, the rest parameter is the array of the arguments from `n` on, and the length and the elements of an arguments
object are those of the list of arguments.  This is so right after the instruction, and as long as the function has
overwritten nothing of its frame. -/
theorem parameters_passed {p : Passing} {i : Instruction} (h : Entering m callee this args)
    (hargs : ∀ v ∈ args, v.orUndefined = v) (hn : n < UInt32.size) (hi : SetsUp n p i) (enter : Enter) (fuel : Nat) :
    ∃ m₁, execute enter fuel i m = .ok () m₁ ∧ m₁.regs.pc = m.regs.pc + 1 ∧ Undisturbed m₁ m₁ ∧
      ∀ m₂, Undisturbed m₁ m₂ → (∀ j < n, ∀ lexical,
        execute enter fuel (p.load j lexical) m₂ = pushNext ((args[j]?).getD .undefined) m₂) ∧
      (∃ σ o, execute enter fuel (p.rest n) m₂ = pushNext (.object o) { m₂ with store := σ } ∧
        σ.object o = .ofKind (some m₂.realm.arrayPrototype) (.array (args.drop n).toArray)) ∧
      (p = .inScope → ∀ mapped, ∃ σ o,
        execute enter fuel (.createArguments n mapped) m₂ = pushNext (.object o) { m₂ with store := σ } ∧
          σ.own o .length = some (.hidden (.ofNat args.length)) ∧
          ∀ j v, args[j]? = some v → σ.own o (.ofNat j) = some (.plain v)) := by
  obtain ⟨m₁, hrun, hpc, hpassed⟩ := parametersAt_of_setsUp h hi enter fuel
  refine ⟨m₁, hrun, hpc, undisturbed_refl hpassed, fun m₂ hm₂ => ?_⟩
  replace hpassed := hm₂.parametersAt hpassed
  refine ⟨fun j hj lexical => load_of_parametersAt hpassed hargs enter fuel hj lexical, ?_, ?_⟩
  · obtain ⟨σ, hrest⟩ := rest_of_parametersAt hpassed enter fuel
    exact ⟨_, _, hrest, Store.object_added _ _⟩
  · rintro rfl mapped
    obtain ⟨⟨above, hframe⟩, hrecorded⟩ := hpassed
    obtain ⟨t, hcreate, hlength, helements⟩ :=
      createArguments_of_callee mapped (fun _ => calleeOfFrame_of_frame hframe) n
    rw [hframe.count] at hcreate hlength helements
    refine ⟨_, _, hcreate, ?_, fun j v hj => own_withArgumentsObject hrecorded hargs hn mapped helements hj⟩
    rw [Store.own_added rfl]
    simp only [Object.ownProperty?, mappedIndex?_of_index?_none PropertyKey.index?_length, hlength]

/-- A call with three arguments of a function that declares two parameters and has one local: they move into its record,
the second one also where it is read as a lexical binding, and the third one is the rest. -/
theorem parameters_passed_moved :
    Entering (calledWith [.int 1, .int 2, .int 3]) .null .undefined [.int 1, .int 2, .int 3] ∧
      ∃ m₁, execute (VM.enter 0) 0 (.enterFunction ⟨none, 3, 0, 2, true⟩) (calledWith [.int 1, .int 2, .int 3]) =
          .ok () m₁ ∧
        execute (VM.enter 0) 0 (.loadScope ⟨0, 1⟩ true) m₁ = pushNext (.int 2) m₁ ∧
        ∃ σ o, execute (VM.enter 0) 0 .restFromScope m₁ = pushNext (.object o) { m₁ with store := σ } ∧
          σ.object o = .ofKind (some m₁.realm.arrayPrototype) (.array #[.int 3]) := by
  refine ⟨entering_calledWith _, ?_⟩
  have hordinary : ∀ v ∈ [Value.int 1, .int 2, .int 3], v.orUndefined = v := by simp [Value.orUndefined]
  obtain ⟨m₁, hrun, _, hsame, hread⟩ := parameters_passed (entering_calledWith [.int 1, .int 2, .int 3]) hordinary
    (by decide) (.moved (e := ⟨none, 3, 0, 2, true⟩) rfl rfl (by decide)) (VM.enter 0) 0
  obtain ⟨hload, hrest, _⟩ := hread m₁ hsame
  exact ⟨m₁, hrun, hload 1 (by decide) true, hrest⟩

end Main

end VM

end ScriptMachine
