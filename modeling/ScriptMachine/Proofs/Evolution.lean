import ScriptMachine.Machine.Names
import ScriptMachine.Proofs.LexicalNames
import ScriptMachine.Proofs.ObjectChanges

/-!
# Objects once made stay made

Operations make lazy objects, change objects that are made, and add new ones.  None makes an object lazy.  Records are
added and their slots are written, but only global declarations bind names lexically, and no such binding is lost.  No
record gets another outer one, and no object refers to another record than before.

* `Store.Evolving op` — the store evolves in the course of the operation.  This holds of every operation the machine
  carries out, but for global declarations and where records and objects that refer to one are made.
* `Machine.Rooted` — records lead to the global one, and all records that the machine refers to are there.
-/

namespace ScriptMachine

/-- The record that an object refers to, with the function if it is one. -/
def ObjectKind.holds? : ObjectKind → Option (ScopeId × Option Closure)
  | .function f => some (f.scope, some f)
  | .arguments s _ => some (s, none)
  | _ => none

theorem Object.Assigned.holds {x y : Object} {key : PropertyKey} {v : Value} (h : x.Assigned key v y) :
    y.kind.holds? = x.kind.holds? := by
  cases h with
  | element kind | length kind => rw [kind]; rfl
  | written | added => rfl

theorem Object.Defined.holds {x y : Object} {key : PropertyKey} {p : Property} (h : x.Defined key p y) :
    y.kind.holds? = x.kind.holds? := by
  cases h with
  | element kind | length kind | unmapped kind => rw [kind]; rfl
  | stored => rfl

theorem Object.Deleted.holds {x y : Object} {key : PropertyKey} (h : x.Deleted key y) :
    y.kind.holds? = x.kind.holds? := by
  cases h with
  | element kind | unmapped kind => rw [kind]; rfl
  | erased | missing => rfl

namespace Store

/-! ### Stores over time -/

/-- What is lazy was so before, and has not been changed.  No program is added or changed. -/
structure Grows (σ σ' : Store) : Prop where
  unmade : ∀ o, (σ'.object o).kind.isLazy = true → σ'.object o = σ.object o
  programs : σ'.programs = σ.programs

/-- The store grows.  Records are kept, and bind the same names lexically. -/
structure Evolves (σ σ' : Store) : Prop extends Grows σ σ' where
  scopes : σ.scopes.size ≤ σ'.scopes.size
  lexical : ∀ s : ScopeId, s.index < σ.scopes.size → ∀ name, (σ'.scope s).lexical? name = (σ.scope s).lexical? name

/-- Moreover objects refer to the same records. -/
structure Retains (σ σ' : Store) : Prop extends Evolves σ σ' where
  held : ∀ {o h}, (σ.settled o).kind.holds? = some h → (σ'.settled o).kind.holds? = some h

/-- Records are the same and have the same outer ones, and objects refer to the same records. -/
structure Links (σ σ' : Store) : Prop where
  scopes : σ'.scopes.size = σ.scopes.size
  outer : ∀ s, (σ'.scope s).outer = (σ.scope s).outer
  held : ∀ o, (σ'.settled o).kind.holds? = (σ.settled o).kind.holds?

/-- The store grows.  Records are the same, and objects refer to the same.  Records bind the same names lexically. -/
structure Persists (σ σ' : Store) : Prop extends Grows σ σ', Links σ σ' where
  lexical : ∀ s name, (σ'.scope s).lexical? name = (σ.scope s).lexical? name

theorem scope_of_size_le {σ : Store} {s : ScopeId} (h : σ.scopes.size ≤ s.index) : σ.scope s = default := by
  rw [scope, Array.getElem?_eq_none h]
  rfl

theorem scope_modifyScope {σ : Store} {s : ScopeId} (hs : s.index < σ.scopes.size) (f : Scope → Scope) :
    (σ.modifyScope s f).scope s = f (σ.scope s) := by
  simp [scope, Store.modifyScope, Array.getElem?_modify, Array.getElem?_eq_getElem hs]

theorem modifyScope_congr (σ : Store) (s : ScopeId) {f : Scope → Scope} {g : Scope → α}
    (hf : g (f (σ.scope s)) = g (σ.scope s)) (t : ScopeId) : g ((σ.modifyScope s f).scope t) = g (σ.scope t) := by
  by_cases hs : s.index = t.index
  · obtain rfl : s = t := congrArg ScopeId.mk hs
    rcases Nat.lt_or_ge s.index σ.scopes.size with hlt | hge
    · rw [scope_modifyScope hlt, hf]
    · simp [scope, Store.modifyScope, Array.getElem?_modify, Array.getElem?_eq_none hge]
  · simp [scope, Store.modifyScope, Array.getElem?_modify, hs]

theorem scope_push (σ : Store) (x : Scope) (t : ScopeId) :
    ({ σ with scopes := σ.scopes.push x } : Store).scope t = if t.index = σ.scopes.size then x else σ.scope t := by
  simp only [scope, Array.getElem?_push]
  split <;> rfl

namespace Grows

theorem refl (σ : Store) : Grows σ σ := ⟨fun _ _ => rfl, rfl⟩

theorem trans {a b c : Store} (h : Grows a b) (h' : Grows b c) : Grows a c where
  unmade o hlazy := by
    have hc := h'.unmade o hlazy
    exact hc.trans (h.unmade o (hc ▸ hlazy))
  programs := h'.programs.trans h.programs

theorem isLazy {σ σ' : Store} (h : Grows σ σ') {o : ObjectId} (ho : (σ.object o).kind.isLazy = false) :
    (σ'.object o).kind.isLazy = false := by
  cases hlazy : (σ'.object o).kind.isLazy with
  | false => rfl
  | true => rw [← hlazy, h.unmade o hlazy, ho]

end Grows

theorem Evolves.trans {a b c : Store} (h : Evolves a b) (h' : Evolves b c) : Evolves a c where
  toGrows := h.toGrows.trans h'.toGrows
  scopes := Nat.le_trans h.scopes h'.scopes
  lexical s hs name := (h'.lexical s (Nat.lt_of_lt_of_le hs h.scopes) name).trans (h.lexical s hs name)

namespace Retains

theorem trans {a b c : Store} (h : Retains a b) (h' : Retains b c) : Retains a c :=
  ⟨h.toEvolves.trans h'.toEvolves, fun hh => h'.held (h.held hh)⟩

/-- An object that is not lazy is added. -/
theorem added {σ : Store} {x : Object} (hx : x.kind.isLazy = false) : Retains σ { σ with objects := σ.objects.push x } where
  unmade p hlazy := by
    simp only [object, Array.getElem?_push] at hlazy ⊢
    split at hlazy
    · rw [Option.getD_some, hx] at hlazy
      cases hlazy
    · rw [if_neg ‹_›]
  programs := rfl
  scopes := Nat.le_refl _
  lexical _ _ _ := rfl
  held {o h} hh := by
    have ho : o.index ≠ σ.objects.size := by
      intro ho
      rw [settled_of_size_le (Nat.le_of_eq ho.symm)] at hh
      cases hh
    rw [← hh]
    simp only [settled, object, Array.getElem?_push, if_neg ho]

theorem newScope (σ : Store) (x : Scope) : Retains σ { σ with scopes := σ.scopes.push x } where
  unmade _ _ := rfl
  programs := rfl
  scopes := by simp
  lexical s hs name := by rw [scope_push, if_neg (Nat.ne_of_lt hs)]
  held := id

end Retains

theorem Links.modifyScope (σ : Store) (s : ScopeId) {f : Scope → Scope}
    (houter : (f (σ.scope s)).outer = (σ.scope s).outer) : Links σ (σ.modifyScope s f) where
  scopes := by simp [Store.modifyScope]
  outer := modifyScope_congr σ s houter
  held _ := rfl

namespace Persists

variable {σ σ' : Store} {o : ObjectId} {x : Object}

theorem refl (σ : Store) : Persists σ σ := ⟨.refl σ, ⟨rfl, fun _ => rfl, fun _ => rfl⟩, fun _ _ => rfl⟩

theorem trans {a b c : Store} (h : Persists a b) (h' : Persists b c) : Persists a c where
  toGrows := h.toGrows.trans h'.toGrows
  scopes := h'.scopes.trans h.scopes
  outer s := (h'.outer s).trans (h.outer s)
  held o := (h'.held o).trans (h.held o)
  lexical s name := (h'.lexical s name).trans (h.lexical s name)

theorem retains (h : Persists σ σ') : Retains σ σ' where
  toGrows := h.toGrows
  scopes := Nat.le_of_eq h.scopes.symm
  lexical s _ name := h.lexical s name
  held hh := (h.held _).trans hh

theorem of_scopes (hscopes : σ'.scopes = σ.scopes) (hgrows : Grows σ σ')
    (hheld : ∀ o, (σ'.settled o).kind.holds? = (σ.settled o).kind.holds?) : Persists σ σ' where
  toGrows := hgrows
  scopes := congrArg Array.size hscopes
  lexical s name := by rw [scope, scope, hscopes]
  outer s := by rw [scope, scope, hscopes]
  held := hheld

theorem of_makes (h : Makes σ σ') : Persists σ σ' :=
  .of_scopes h.scopes ⟨fun _ => h.unmade, h.programs⟩ fun o => by rw [h.settled_eq]

theorem of_updates (h : Updates σ o x σ') (hx : x.kind.holds? = (σ.settled o).kind.holds?) : Persists σ σ' := by
  refine .of_scopes h.scopes ⟨h.unmade, h.programs⟩ fun p => ?_
  rw [h.objects]
  split
  case isTrue hp => rw [hp.1, hx]
  case isFalse => rfl

theorem modifyScope (σ : Store) (s : ScopeId) {f : Scope → Scope}
    (hf : ∀ name, (f (σ.scope s)).lexical? name = (σ.scope s).lexical? name)
    (houter : (f (σ.scope s)).outer = (σ.scope s).outer) : Persists σ (σ.modifyScope s f) where
  toGrows := ⟨fun _ _ => rfl, rfl⟩
  toLinks := .modifyScope σ s houter
  lexical t name := modifyScope_congr σ s (g := (·.lexical? name)) (hf name) t

end Persists

theorem Effect.persists {σ σ' : Store} {op : Operation} (h : Effect σ op σ') : Persists σ σ' := by
  cases h with
  | assigned assigned updates => exact .of_updates updates assigned.holds
  | defined _ _ defined updates => exact .of_updates updates defined.holds
  | deleted deleted updates => exact .of_updates updates deleted.holds
  | pushed kind _ updates => exact .of_updates updates (by rw [kind]; rfl)
  | inherits _ _ updates | closed updates => exact .of_updates updates rfl
  | written _ made => exact (Persists.modifyScope σ _ (fun _ => rfl) rfl).trans (.of_makes made)
  | kept made => exact .of_makes made

/-! ### Operations -/

/-- The store evolves in the course of the operation. -/
class Evolving (op : Op α) : Prop where
  persists : ∀ σ, Persists σ (op.run σ).2

theorem persists_run (op : Op α) [Evolving op] (σ : Store) : Persists σ (op.run σ).2 := Evolving.persists σ

namespace Evolving

instance pure (a : α) : Evolving (Pure.pure a : Op α) := ⟨.refl⟩

instance bind (x : Op α) (f : α → Op β) [Evolving x] [∀ a, Evolving (f a)] : Evolving (x >>= f) :=
  ⟨fun σ => (persists σ).trans (persists _)⟩

theorem seq {x : Op α} {f : α → Op β} [Evolving x] (hf : ∀ a, Evolving (f a)) : Evolving (x >>= f) := bind x f

instance : Evolving (get : Op Store) := ⟨.refl⟩

end Evolving

theorem Reads.evolving {op : Op α} (h : Reads op) : Evolving op := ⟨fun σ => .of_makes (h σ).1⟩

section Reading

instance (o : ObjectId) : Evolving (made o) := (reads_made o).evolving

instance (o : ObjectId) : Evolving (prototype? o) := Evolving.bind _ _

instance (o : ObjectId) : Evolving (isExtensible o) := Evolving.bind _ _

instance (o : ObjectId) : Evolving (className o) := Evolving.bind _ _

instance (o : ObjectId) (key : PropertyKey) : Evolving (ownProperty? o key) := Evolving.bind _ _

instance (o : ObjectId) : Evolving (ownKeys o) := Evolving.bind _ _

instance (o : ObjectId) (key : PropertyKey) : Evolving (hasOwn o key) := Evolving.bind _ _

instance (o : ObjectId) (key : PropertyKey) : Evolving (find? o key) := (reads_find o key).evolving

instance (o : ObjectId) (key : PropertyKey) : Evolving (get? o key) := Evolving.bind _ _

instance (o : ObjectId) (key : PropertyKey) : Evolving (has o key) := Evolving.bind _ _

instance (o : ObjectId) (name : Text) : Evolving (provides o name) := (reads_provides o name).evolving

instance (o : ObjectId) (n : Nat) (start : Option ObjectId) : Evolving (reachesWithin o n start) :=
  (reads_reachesWithin o n start).evolving

theorem evolving_isCallableWithin (n : Nat) (o : ObjectId) : Evolving (isCallableWithin n o) := by
  induction n generalizing o with
  | zero => exact Evolving.pure _
  | succ n ih =>
    refine .seq fun x => ?_
    split <;> first | exact Evolving.pure _ | exact ih _

instance (o : ObjectId) : Evolving (isCallable o) := .seq fun σ => evolving_isCallableWithin σ.objects.size o

theorem evolving_isConstructorWithin (n : Nat) (o : ObjectId) : Evolving (isConstructorWithin n o) := by
  induction n generalizing o with
  | zero => exact Evolving.pure _
  | succ n ih =>
    refine .seq fun x => ?_
    split <;> first | exact Evolving.pure _ | exact ih _

instance (o : ObjectId) : Evolving (isConstructor o) := .seq fun σ => evolving_isConstructorWithin σ.objects.size o

instance (o : ObjectId) : Evolving (elements? o) := by
  refine .seq fun x => ?_
  split <;> exact Evolving.pure _

theorem reads_recordProvides (s : ScopeId) (name : Text) : Reads (recordProvides s name) := by
  refine .ofStore (fun σ => ?_) fun σ σ' h => by simp only [h.scope]
  dsimp only
  split
  · exact reads_provides _ _
  · exact .pure _

instance (s : ScopeId) (name : Text) : Evolving (recordProvides s name) := (reads_recordProvides s name).evolving

theorem evolving_providerWithin (name : Text) (n : Nat) (s : ScopeId) : Evolving (providerWithin name n s) := by
  induction n generalizing s with
  | zero => exact Evolving.pure _
  | succ n ih =>
    refine .seq fun found => ?_
    split
    · exact Evolving.pure _
    · refine .seq fun σ => ?_
      split
      · exact ih _
      · exact Evolving.pure _

instance (s : ScopeId) (name : Text) : Evolving (provider? s name) :=
  .seq fun σ => evolving_providerWithin name σ.scopes.size s

instance (s : ScopeId) (name : Text) : Evolving (readName s name) := by
  refine .seq fun σ => ?_
  dsimp only
  split
  · refine .seq fun found => ?_
    split <;> infer_instance
  · exact Evolving.pure _

end Reading

section Changing

variable (o : ObjectId) (key : PropertyKey)

instance (v : Value) (strict : Bool) : Evolving (assign o key v strict) :=
  ⟨fun σ => (effect σ (.assign o key v strict)).persists⟩

instance (p : Property) (strict : Bool) : Evolving (define o key p strict) :=
  ⟨fun σ => (effect σ (.define o key p strict)).persists⟩

instance (v : Value) : Evolving (put o key v) := Evolving.bind _ _

instance (strict : Bool) : Evolving (delete o key strict) := ⟨fun σ => (effect σ (.delete o key strict)).persists⟩

instance (prototype : Option ObjectId) : Evolving (setPrototype o prototype) :=
  ⟨fun σ => (effect σ (.setPrototype o prototype)).persists⟩

instance : Evolving (preventExtensions o) := ⟨fun σ => (effect σ (.preventExtensions o)).persists⟩

instance (v : Value) : Evolving (pushItem o v) := ⟨fun σ => (effect σ (.pushItem o v)).persists⟩

end Changing

/-! ### What is added to the store -/

section Adding

/-- An object that refers to no record is added. -/
theorem evolving_newObject {x : Object} (hx : x.kind.isLazy = false) (hheld : x.kind.holds? = none) :
    Evolving (newObject x) where
  persists σ := by
    refine .of_scopes rfl (Retains.added hx).toGrows fun o => ?_
    show (Store.settled { σ with objects := σ.objects.push x } o).kind.holds? = _
    rw [settled_push, Object.settled_of_not_isLazy hx]
    split
    case isTrue ho =>
      rw [hheld, settled_of_size_le (Nat.le_of_eq (congrArg ObjectId.index ho.symm))]
      rfl
    case isFalse => rfl

instance (prototype : Option ObjectId) : Evolving (newObject (.ofKind prototype .ordinary)) := evolving_newObject rfl rfl

instance (n : Nat) : Evolving (newCell n) := ⟨fun _ => .of_scopes rfl ⟨fun _ _ => rfl, rfl⟩ fun _ => rfl⟩

instance (lines : List String) : Evolving (modify fun σ => σ.log lines : Op Unit) :=
  ⟨fun _ => .of_scopes rfl ⟨fun _ _ => rfl, rfl⟩ fun _ => rfl⟩

instance (c : CellId) (n : Nat) : Evolving (modify fun σ => σ.setCell c n : Op Unit) :=
  ⟨fun _ => .of_scopes rfl ⟨fun _ _ => rfl, rfl⟩ fun _ => rfl⟩

variable (realm : Realm)

instance : Evolving realm.newObject := evolving_newObject rfl rfl

instance (elements : List Value) : Evolving (realm.newArray elements) := evolving_newObject rfl rfl

instance (f : NativeFunction) : Evolving (realm.newNative f) := evolving_newObject rfl rfl

instance (f : BoundFunction) : Evolving (realm.newBound f) := .seq fun _ => .seq fun _ => evolving_newObject rfl rfl

instance (kind : ErrorKind) (message : Text) : Evolving (realm.newError kind message) := evolving_newObject rfl rfl

instance (e : HostError) : Evolving (realm.newHostError e) := evolving_newObject rfl rfl

instance (f : Fault) : Evolving (realm.errorValue f) := by
  cases f <;> first | exact Evolving.pure _ | exact .seq fun _ => Evolving.pure _

instance (v : Value) : Evolving (realm.toObject v) := by
  unfold Realm.toObject
  split
  · exact Evolving.pure _
  · split
    · have := evolving_newObject (x := .ofKind (some ‹_›) (.primitive v)) rfl rfl
      exact .seq fun _ => Evolving.pure _
    · exact Evolving.pure _

end Adding

/-! ### Cursors -/

instance (o : Option ObjectId) : Evolving (KeyCursor.start o) := by
  unfold KeyCursor.start
  split <;> infer_instance

instance (c : KeyCursor) : Evolving c.next := (KeyCursor.reads_next c).evolving

end Store

/-! ### Machines -/

def Reference.record? : Reference → Option ScopeId
  | .scope _ s .. => some s
  | _ => none

namespace Machine

/-- Records that are there, or that registers, handlers, references, records and objects refer to. -/
inductive InSight (σ : Store) (global current : ScopeId) (frames : List Activation) (handlers : List Handler)
    (refs : List Reference) : ScopeId → Prop where
  | known {s : ScopeId} (h : s.index < σ.scopes.size) : InSight σ global current frames handlers refs s
  | global : InSight σ global current frames handlers refs global
  | current : InSight σ global current frames handlers refs current
  | frame {r : Activation} (h : r ∈ frames) : InSight σ global current frames handlers refs r.scope
  | handler {h : Handler} (hh : h ∈ handlers) : InSight σ global current frames handlers refs h.snapshot.regs.scope
  | ref {r : Reference} {s : ScopeId} (h : r ∈ refs) (hs : r.record? = some s) :
    InSight σ global current frames handlers refs s
  | outer {s t : ScopeId} (h : (σ.scope t).outer = some s) : InSight σ global current frames handlers refs s
  | held {o : ObjectId} {s : ScopeId} {c : Option Closure} (h : (σ.settled o).kind.holds? = some (s, c)) :
    InSight σ global current frames handlers refs s

def Sees (m : Machine) (s : ScopeId) : Prop :=
  InSight m.store m.realm.globalScope m.regs.scope m.frames m.handlers m.refs s

/-- All records in sight are there, and all but the global one have an outer one that was made before. -/
def Rooted (m : Machine) : Prop :=
  (m.store.scope m.realm.globalScope).outer = none ∧
    (∀ s : ScopeId, s.index < m.store.scopes.size → s ≠ m.realm.globalScope →
      ∃ t, (m.store.scope s).outer = some t ∧ t.index < s.index) ∧
    ∀ s, m.Sees s → s.index < m.store.scopes.size

/-- Only records are referred to that were in sight. -/
structure Looks (m m' : Machine) : Prop where
  store : m'.store = m.store := by rfl
  realm : m'.realm = m.realm := by rfl
  varNames : m'.varNames = m.varNames := by rfl
  current : m.Sees m'.regs.scope := by exact .current
  frames : ∀ r ∈ m'.frames, m.Sees r.scope := by exact fun _ => .frame
  handlers : ∀ h ∈ m'.handlers, m.Sees h.snapshot.regs.scope := by exact fun _ => .handler
  refs : ∀ r ∈ m'.refs, ∀ s, r.record? = some s → m.Sees s := by exact fun _ h _ => .ref h

/-- The store evolves, and no global name is added or forgotten. -/
structure Evolves (m m' : Machine) : Prop where
  store : m.store.Evolves m'.store
  varNames : m'.varNames = m.varNames

/-- Moreover objects refer to the same records, and records go on to lead to the global one. -/
structure Advances (m m' : Machine) : Prop where
  store : m.store.Retains m'.store := by exact (Store.Persists.refl _).retains
  varNames : m'.varNames = m.varNames := by rfl
  rooted : m.Rooted → m'.Rooted := by exact id

variable {m m' : Machine}

theorem sees_of_links {σ : Store} (h : m.store.Links σ) {s : ScopeId} : Sees { m with store := σ } s ↔ m.Sees s := by
  constructor
  all_goals
    intro hs
    cases hs with
    | known hs => exact .known (by simpa only [h.scopes] using hs)
    | global => exact .global
    | current => exact .current
    | frame hr => exact .frame hr
    | handler hh => exact .handler hh
    | ref hr hs => exact .ref hr hs
    | outer ht => exact .outer (by simpa only [h.outer] using ht)
    | held hc => exact .held (by simpa only [h.held] using hc)

theorem Rooted.of_links {σ : Store} (h : m.store.Links σ) (hm : m.Rooted) : Rooted { m with store := σ } := by
  refine ⟨(h.outer _).trans hm.1, fun s hs hne => ?_, fun s hs => ?_⟩
  · rw [h.outer]
    exact hm.2.1 s (h.scopes ▸ hs) hne
  · rw [h.scopes]
    exact hm.2.2 s ((sees_of_links h).mp hs)

theorem Looks.sees (h : m.Looks m') {s : ScopeId} (hs : m'.Sees s) : m.Sees s := by
  cases hs with
  | known hs => exact .known (h.store ▸ hs)
  | global => exact h.realm ▸ .global
  | current => exact h.current
  | frame hr => exact h.frames _ hr
  | handler hh => exact h.handlers _ hh
  | ref hr hs => exact h.refs _ hr _ hs
  | outer ht => exact .outer (h.store ▸ ht)
  | held hc => exact .held (h.store ▸ hc)

theorem Looks.advances (h : m.Looks m') : m.Advances m' where
  store := h.store ▸ (Store.Persists.refl _).retains
  varNames := h.varNames
  rooted hm := by
    unfold Rooted
    rw [h.store, h.realm]
    exact ⟨hm.1, hm.2.1, fun s hs => hm.2.2 s (h.sees hs)⟩

theorem Evolves.refl (m : Machine) : Evolves m m := ⟨(Store.Persists.refl _).retains.toEvolves, rfl⟩

theorem Evolves.trans {a b c : Machine} (h : Evolves a b) (h' : Evolves b c) : Evolves a c :=
  ⟨h.store.trans h'.store, h'.varNames.trans h.varNames⟩

namespace Advances

theorem refl (m : Machine) : Advances m m := ⟨(Store.Persists.refl _).retains, rfl, id⟩

theorem trans {a b c : Machine} (h : Advances a b) (h' : Advances b c) : Advances a c :=
  ⟨h.store.trans h'.store, h'.varNames.trans h.varNames, h'.rooted ∘ h.rooted⟩

theorem evolves {m m' : Machine} (h : Advances m m') : m.Evolves m' := ⟨h.store.toEvolves, h.varNames⟩

theorem of_store {σ : Store} (h : m.store.Persists σ) : Advances m { m with store := σ } :=
  ⟨h.retains, rfl, Rooted.of_links h.toLinks⟩

/-- Registers and frames are set, from records in sight. -/
theorem of_activations {regs : Activation} {frames : List Activation} {halted : Bool} (hcurrent : m.Sees regs.scope)
    (hframes : ∀ r ∈ frames, m.Sees r.scope) : Advances m { m with regs, frames, halted } :=
  Looks.advances ⟨rfl, rfl, rfl, hcurrent, hframes, fun _ => .handler, fun _ h _ => .ref h⟩

theorem of_handlers {handlers : List Handler} {regs : Activation} {stack : OperandStack} {depth : Nat} {halted : Bool}
    (hhandlers : ∀ h ∈ handlers, m.Sees h.snapshot.regs.scope) (hcurrent : m.Sees regs.scope) :
    Advances m { m with handlers, regs, stack, depth, halted } :=
  Looks.advances ⟨rfl, rfl, rfl, hcurrent, fun _ => .frame, hhandlers, fun _ h _ => .ref h⟩

/-- A record is made whose outer one is in sight, and becomes the current one. -/
theorem of_newScope {x : Scope} {s : ScopeId} (hx : x.outer = some s) (hs : m.Sees s) (n : Nat) :
    Advances m { m with
      store := { m.store with scopes := m.store.scopes.push x }, regs := { m.regs with scope := ⟨m.store.scopes.size⟩ }
      scopesMade := n } := by
  have hscope := m.store.scope_push x
  have hsize : (m.store.scopes.push x).size = m.store.scopes.size + 1 := Array.size_push _
  refine ⟨.newScope m.store x, rfl, fun hm => ?_⟩
  obtain ⟨hglobal, hlinked, hknown⟩ := hm
  refine ⟨by rw [hscope, if_neg (Nat.ne_of_lt (hknown _ .global))]; exact hglobal, fun t ht hne => ?_, fun t ht => ?_⟩
  · simp only [hsize] at ht
    rw [hscope]
    split
    case isTrue hnew => exact ⟨s, hx, hnew ▸ hknown s hs⟩
    case isFalse hne' => exact hlinked t (by omega) hne
  · refine Nat.lt_of_lt_of_eq ?_ hsize.symm
    cases ht with
    | known ht => exact hsize ▸ ht
    | current => exact Nat.lt_succ_self _
    | global => exact Nat.lt_succ_of_lt (hknown _ .global)
    | frame hr => exact Nat.lt_succ_of_lt (hknown _ (.frame hr))
    | handler hh => exact Nat.lt_succ_of_lt (hknown _ (.handler hh))
    | ref hr ht => exact Nat.lt_succ_of_lt (hknown _ (.ref hr ht))
    | held hc => exact Nat.lt_succ_of_lt (hknown _ (.held hc))
    | outer ht =>
      rw [hscope] at ht
      split at ht
      · cases hx.symm.trans ht
        exact Nat.lt_succ_of_lt (hknown s hs)
      · exact Nat.lt_succ_of_lt (hknown _ (.outer ht))

/-- An object is made that refers to a record in sight. -/
theorem of_newObject {x : Object} (hx : x.kind.isLazy = false) (hheld : ∀ h, x.kind.holds? = some h → m.Sees h.1) :
    Advances m { m with store := { m.store with objects := m.store.objects.push x } } := by
  refine ⟨.added hx, rfl, fun hm => ⟨hm.1, hm.2.1, fun s hs => hm.2.2 s ?_⟩⟩
  cases hs with
  | known hs => exact .known hs
  | global => exact .global
  | current => exact .current
  | frame hr => exact .frame hr
  | handler hh => exact .handler hh
  | ref hr hs => exact .ref hr hs
  | outer ht => exact .outer ht
  | held hc =>
    rw [Store.settled_push, Object.settled_of_not_isLazy hx] at hc
    split at hc
    · exact hheld _ hc
    · exact .held hc

end Advances

end Machine

end ScriptMachine
