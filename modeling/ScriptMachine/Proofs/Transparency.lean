import ScriptMachine.Proofs.Watch

/-!
# Lazy objects are transparent

A lazy object is made when something is first asked of it.  Requests to an object are therefore answered as if it had
been made before the first of them, with one exception: an item cannot be pushed onto an array that is not made yet.
Such a push is refused, as for an object that is no array, and makes nothing.

* `VM.answers_making_iff` — the answers are those of the object made before, but for early pushes onto lazy arrays.
-/

namespace ScriptMachine

/-! ### Requests -/

/-- What can be asked of an object. -/
inductive Request where
  | ownProperty (key : PropertyKey)
  | get (key : PropertyKey)
  | has (key : PropertyKey)
  | assign (key : PropertyKey) (v : Value) (strict : Bool)
  | define (key : PropertyKey) (p : Property) (strict : Bool)
  | put (key : PropertyKey) (v : Value)
  | delete (key : PropertyKey) (strict : Bool)
  | ownKeys
  | prototype
  | setPrototype (prototype : Option ObjectId)
  | preventExtensions
  | isCallable
  | isConstructor
  | className
  | elements
  | pushItem (v : Value)
  | call (this : Value) (args : List Value)
  | construct (args : List Value) (newTarget : Option Value)

/-- Answers to requests. -/
inductive Reply where
  | property (p : Option Property)
  | value (v : Option Value)
  | flag (b : Bool)
  | granted (r : Outcome Bool)
  | keys (keys : List PropertyKey)
  | prototype (o : Option ObjectId)
  | done
  | name (s : String)
  | elements (items : Option (List Value))
  | pushed (r : Outcome Unit)
  | result (r : Outcome Value)

def Request.isPush : Request → Bool
  | .pushItem _ => true
  | _ => false

namespace VM

def answer (fuel : Nat) (o : ObjectId) : Request → VM Reply
  | .ownProperty key => return .property (← onStore (Store.ownProperty? o key))
  | .get key => return .value (← onStore (Store.get? o key))
  | .has key => return .flag (← onStore (Store.has o key))
  | .assign key v strict => return .granted (← onStore (Store.assign o key v strict))
  | .define key p strict => return .granted (← onStore (Store.define o key p strict))
  | .put key v => return .flag (← onStore (Store.put o key v))
  | .delete key strict => return .granted (← onStore (Store.delete o key strict))
  | .ownKeys => return .keys (← onStore (Store.ownKeys o))
  | .prototype => return .prototype (← onStore (Store.prototype? o))
  | .setPrototype prototype => return .flag (← onStore (Store.setPrototype o prototype))
  | .preventExtensions => do
    onStore (Store.preventExtensions o)
    return .done
  | .isCallable => return .flag (← onStore (Store.isCallable o))
  | .isConstructor => return .flag (← onStore (Store.isConstructor o))
  | .className => return .name (← onStore (Store.className o))
  | .elements => return .elements (← onStore (Store.elements? o))
  | .pushItem v => return .pushed (← onStore (Store.pushItem o v))
  | .call this args => return .result (← attempt (enter fuel (.call (.object o) this args)))
  | .construct args newTarget => return .result (← attempt (enter fuel (.construct (.object o) args newTarget)))

/-- The answers to requests made one after the other, as far as fuel reaches. -/
def answers (fuel : Nat) (o : ObjectId) : List Request → Machine → List Reply
  | [], _ => []
  | r :: rest, m =>
    match answer fuel o r m with
    | .ok a m' => a :: answers fuel o rest m'
    | .error _ _ => []

end VM

/-! ### Making an object first -/

/-- The journal lines of the levels of a lazy object, the outermost first. -/
def ObjectKind.initialisers : ObjectKind → List String
  | .lazy line _ kind => line :: kind.initialisers
  | _ => []

theorem ObjectKind.settle_lines (shell : Shell) (kind : ObjectKind) : (kind.settle shell).2 = kind.initialisers := by
  induction kind generalizing shell with
  | lazy line inner kind ih => exact congrArg (line :: ·) (ih inner)
  | _ => rfl

def Machine.making (m : Machine) (o : ObjectId) : Machine := { m with store := ((Store.materialize o).run m.store).2 }

namespace Store

variable {σ : Store} {o : ObjectId}

def IsMade (σ : Store) (o : ObjectId) : Prop := (σ.object o).kind.isLazy = false

theorem log_nil (σ : Store) : σ.log [] = σ := by
  unfold log
  rw [Array.append_empty]

/-- Making an object puts the object in its place that it becomes, and writes the line of each of its levels. -/
theorem run_materialize_eq (o : ObjectId) (σ : Store) :
    ((materialize o).run σ).2 = (σ.setObject o (σ.settled o)).log (σ.object o).kind.initialisers := by
  rw [← ObjectKind.settle_lines (σ.object o).toShell]
  cases hlazy : (σ.object o).kind.isLazy with
  | true =>
    show (if _ then _ else _) = _
    rw [if_pos hlazy]
    rfl
  | false =>
    rw [settled, Object.settled_of_not_isLazy hlazy, setObject_self, ObjectKind.settle_of_not_isLazy _ hlazy, log_nil,
      run_materialize_of_settled (Object.settled_of_not_isLazy hlazy)]

theorem isMade_materialize (o : ObjectId) (σ : Store) : ((materialize o).run σ).2.IsMade o := by
  rw [IsMade, (run_materialize o σ).2]
  exact Object.isLazy_settled _

theorem run_materialize_of_isMade (h : σ.IsMade o) : (materialize o).run σ = ((), σ) :=
  run_materialize_of_settled (Object.settled_of_not_isLazy h)

/-- The operation starts with making an object: it does the same if the object is made before. -/
def Opens (o : ObjectId) (op : Op α) : Prop := ∀ σ, op.run ((materialize o).run σ).2 = op.run σ

theorem opens_materialize (o : ObjectId) : Opens o (materialize o) :=
  fun σ => run_materialize_of_isMade (isMade_materialize o σ)

theorem Opens.bind {x : Op α} (h : Opens o x) (f : α → Op β) : Opens o (x >>= f) := by
  intro σ
  rw [run_bind, run_bind, h σ]

theorem opens_made (o : ObjectId) : Opens o (made o) := (opens_materialize o).bind _

theorem Opens.ofSize {f : Nat → Op α} (h : ∀ n, Opens o (f (n + 1))) : Opens o (get >>= fun σ => f σ.objects.size) := by
  intro σ
  rw [run_get_bind, run_get_bind, (run_materialize o σ).1.size]
  cases hlazy : (σ.object o).kind.isLazy with
  | true =>
    obtain ⟨n, hn⟩ := Nat.exists_eq_add_one_of_ne_zero (Nat.ne_zero_of_lt (lt_size_of_isLazy hlazy))
    rw [hn]
    exact h n σ
  | false => rw [run_materialize_of_isMade hlazy]

theorem opens_find (o : ObjectId) (key : PropertyKey) : Opens o (find? o key) :=
  .ofSize (f := (findWithin key · o)) fun _ => (opens_made o).bind _

theorem opens_isCallable (o : ObjectId) : Opens o (isCallable o) :=
  .ofSize (f := (isCallableWithin · o)) fun _ => (opens_made o).bind _

theorem opens_isConstructor (o : ObjectId) : Opens o (isConstructor o) :=
  .ofSize (f := (isConstructorWithin · o)) fun _ => (opens_made o).bind _

theorem opens_ownProperty (o : ObjectId) (key : PropertyKey) : Opens o (ownProperty? o key) := (opens_made o).bind _

theorem opens_define (o : ObjectId) (key : PropertyKey) (p : Property) (strict : Bool) :
    Opens o (define o key p strict) := (opens_ownProperty o key).bind _

/-! ### Pushing items -/

theorem run_pushItem_of_not_array (h : ∀ elements, (σ.object o).kind ≠ .array elements) (v : Value) :
    (pushItem o v).run σ = (.error (.type .notArray), σ) := by
  unfold pushItem
  rw [run_get_bind]
  split
  · exact absurd ‹_› (h _)
  · rfl

theorem run_pushItem_of_array {elements : Array Value} (h : (σ.object o).kind = .array elements) (v : Value) :
    ((pushItem o v).run σ).1 ≠ .error (.type .notArray) := by
  unfold pushItem
  rw [run_get_bind, h]
  dsimp only
  split
  · intro hrun
    cases hrun
  · intro hrun
    cases hrun

end Store

namespace VM

open Store

/-- The computation starts with making an object: it does the same if the object is made before. -/
def Opens (o : ObjectId) (x : VM α) : Prop := ∀ m, x (m.making o) = x m

section Opens

variable {o : ObjectId}

theorem opens_onStore {op : Store.Op α} (h : Store.Opens o op) : Opens o (onStore op) := by
  intro m
  unfold onStore
  rw [show op.run (m.making o).store = op.run m.store from h m.store]
  rfl

theorem Opens.bind {x : VM α} (h : Opens o x) (f : α → VM β) : Opens o (x >>= f) := by
  intro m
  show EStateM.bind x f _ = EStateM.bind x f _
  unfold EStateM.bind
  rw [h m]

theorem Opens.attempt {x : VM α} (h : Opens o x) : Opens o (attempt x) := by
  intro m
  unfold VM.attempt
  rw [h m]

theorem opens_calleeOf (o : ObjectId) : Opens o (calleeOf (.object o)) := (opens_onStore (opens_made o)).bind _

theorem opens_call (fuel : Nat) (o : ObjectId) (this : Value) (args : List Value) :
    Opens o (enter (fuel + 1) (.call (.object o) this args)) := (opens_calleeOf o).bind _

theorem opens_construct (fuel : Nat) (o : ObjectId) (args : List Value) (newTarget : Option Value) :
    Opens o (enter (fuel + 1) (.construct (.object o) args newTarget)) := (opens_calleeOf o).attempt.bind _

theorem opens_answer (fuel : Nat) (o : ObjectId) {r : Request} (h : r.isPush = false) :
    Opens o (answer (fuel + 1) o r) := by
  have hmade := opens_made o
  have hmaterialize := opens_materialize o
  cases r with
  | pushItem v => cases h
  | ownProperty key => exact (opens_onStore (opens_ownProperty o key)).bind _
  | get key | has key => exact (opens_onStore ((opens_find o key).bind _)).bind _
  | assign | setPrototype | preventExtensions => exact (opens_onStore (hmaterialize.bind _)).bind _
  | define key p strict => exact (opens_onStore (opens_define o key p strict)).bind _
  | put key v => exact (opens_onStore ((opens_define o key _ false).bind _)).bind _
  | delete | ownKeys | prototype | className | elements => exact (opens_onStore (hmade.bind _)).bind _
  | isCallable => exact (opens_onStore (opens_isCallable o)).bind _
  | isConstructor => exact (opens_onStore (opens_isConstructor o)).bind _
  | call this args => exact (opens_call fuel o this args).attempt.bind _
  | construct args newTarget => exact (opens_construct fuel o args newTarget).attempt.bind _

end Opens

/-! ### Answers before and after -/

section Answers

variable {fuel : Nat} {o : ObjectId} {m m' : Machine}

theorem answer_pushItem (fuel : Nat) (o : ObjectId) (v : Value) (m : Machine) :
    answer fuel o (.pushItem v) m =
      .ok (.pushed ((Store.pushItem o v).run m.store).1) { m with store := ((Store.pushItem o v).run m.store).2 } := rfl

theorem answer_pushItem_of_not_array (h : ∀ elements, (m.store.object o).kind ≠ .array elements) (v : Value) :
    answer fuel o (.pushItem v) m = .ok (.pushed (.error (.type .notArray))) m := by
  rw [answer_pushItem, run_pushItem_of_not_array h]

theorem ne_array_of_isLazy (h : (m.store.object o).kind.isLazy = true) (elements : Array Value) :
    (m.store.object o).kind ≠ .array elements := by
  intro harray
  rw [harray] at h
  cases h

theorem making_of_isMade (h : m.store.IsMade o) : m.making o = m := by
  unfold Machine.making
  rw [run_materialize_of_isMade h]

theorem object_making (m : Machine) (o : ObjectId) : (m.making o).store.object o = m.store.settled o :=
  (run_materialize o m.store).2

theorem answers_cons_of_ok {r : Request} {a : Reply} (h : answer fuel o r m = .ok a m') (rest : List Request) :
    answers fuel o (r :: rest) m = a :: answers fuel o rest m' := by
  rw [answers, h]

theorem answers_making_of_not_isPush {r : Request} (h : r.isPush = false) (rest : List Request) (m : Machine) :
    answers (fuel + 1) o (r :: rest) (m.making o) = answers (fuel + 1) o (r :: rest) m := by
  rw [answers, answers, opens_answer fuel o h m]

theorem answers_making_of_not_array (hlazy : (m.store.object o).kind.isLazy = true)
    (h : ∀ elements, (m.store.settled o).kind ≠ .array elements) (requests : List Request) :
    answers (fuel + 1) o requests (m.making o) = answers (fuel + 1) o requests m := by
  induction requests with
  | nil => rfl
  | cons r rest ih =>
    cases hpush : r.isPush with
    | false => exact answers_making_of_not_isPush hpush rest m
    | true =>
      obtain ⟨v, rfl⟩ : ∃ v, r = .pushItem v := by
        cases r with
        | pushItem v => exact ⟨v, rfl⟩
        | _ => cases hpush
      have hmade : ∀ elements, ((m.making o).store.object o).kind ≠ .array elements := by
        rw [object_making]
        exact h
      rw [answers_cons_of_ok (answer_pushItem_of_not_array hmade v),
        answers_cons_of_ok (answer_pushItem_of_not_array (ne_array_of_isLazy hlazy) v), ih]

/-- The first of the requests pushes an item onto an array that is not made yet. -/
def EarlyPush (σ : Store) (o : ObjectId) (requests : List Request) : Prop :=
  (σ.object o).kind.isLazy = true ∧ (∃ elements, (σ.settled o).kind = .array elements) ∧
    ∃ v rest, requests = .pushItem v :: rest

/-- An early push is refused, and would not be if the array had been made. -/
theorem answers_making_ne {requests : List Request} (h : EarlyPush m.store o requests) :
    answers fuel o requests (m.making o) ≠ answers fuel o requests m := by
  obtain ⟨hlazy, ⟨elements, harray⟩, v, rest, rfl⟩ := h
  rw [answers_cons_of_ok (answer_pushItem fuel o v (m.making o)),
    answers_cons_of_ok (answer_pushItem_of_not_array (ne_array_of_isLazy hlazy) v)]
  intro heq
  injection heq with hhead
  injection hhead with hpushed
  rw [← object_making] at harray
  exact run_pushItem_of_array harray v hpushed

theorem answers_making_iff (fuel : Nat) (o : ObjectId) (requests : List Request) (m : Machine) :
    answers (fuel + 1) o requests (m.making o) = answers (fuel + 1) o requests m ↔ ¬ EarlyPush m.store o requests := by
  constructor
  · intro heq hearly
    exact answers_making_ne hearly heq
  · intro hearly
    cases hlazy : (m.store.object o).kind.isLazy with
    | false => rw [making_of_isMade hlazy]
    | true =>
      by_cases harray : ∃ elements, (m.store.settled o).kind = .array elements
      · -- the first request is no push, or there is none
        rcases requests with _ | ⟨r, rest⟩
        · rfl
        · refine answers_making_of_not_isPush ?_ rest m
          cases r with
          | pushItem v => exact absurd ⟨hlazy, harray, v, rest, rfl⟩ hearly
          | _ => rfl
      · exact answers_making_of_not_array hlazy (fun elements h => harray ⟨elements, h⟩) requests

end Answers

/-! ### Objects stay made -/

def retaining (o : ObjectId) : Law := .keeping fun m => m.store.IsMade o

section Retaining

variable {o : ObjectId}

instance : (retaining o).Lax where
  strict := id
  lax _ _ _ h hm := h.store.isLazy hm

instance : (retaining o).Declares := ⟨fun _ _ _ _ _ hσ hm => hσ.isLazy hm⟩

instance : (retaining o).Loops := ⟨fun _ _ => id⟩

instance : (retaining o).Iterators where
  opens _ _ _ _ := id
  closes _ _ _ := id
  ends _ _ := id

instance : (retaining o).Guard where
  restore hσ h hm := hσ.isLazy (h hm)
  refs _ _ := id

instance : (retaining o).Exact := inferInstanceAs (Law.Exact (.keeping _))

/-- **An object once made stays made**, throughout every run and at its end. -/
theorem isMade_throughout {fuel : Nat} {e : Entry} {m : Machine} (hm : m.store.IsMade o) (hdue : e.Due m) :
    Throughout (fun m => m.store.IsMade o) fuel e m ∧ ∀ m', Ends (enter fuel e) m m' → m'.store.IsMade o := by
  refine ⟨throughout_of_law (L := retaining o) (fun _ => id) hm hdue, fun m' h => ?_⟩
  exact (lax_enter (L := retaining o) fuel e).ends hm hdue h hm

theorem retaining_answer (fuel : Nat) (p : ObjectId) (r : Request) : Heeds (retaining o) (answer fuel p r) := by
  cases r with
  | call this args => exact (lax_enter fuel (.call (.object p) this args)).now.attempt.bind fun _ => obeys_pure _
  | construct args newTarget =>
    exact (lax_enter fuel (.construct (.object p) args newTarget)).now.attempt.bind fun _ => obeys_pure _
  | _ => exact (obeys_onStore _).bind fun _ => obeys_pure _

end Retaining

/-- **Lazy objects are transparent and made once.**  Requests to an object are answered as if it had been made before
the first of them, unless that is a push onto a lazy array; a request that is no push leads to the same state too, and a
push onto a lazy object is refused and does nothing.  Making an object writes the line of each of its levels once; from
then on it stays made, and making it again does nothing. -/
theorem lazy_transparent (fuel : Nat) (o : ObjectId) (m : Machine) :
    (∀ requests, answers (fuel + 1) o requests (m.making o) = answers (fuel + 1) o requests m ↔
        ¬ EarlyPush m.store o requests) ∧
      (∀ r, r.isPush = false → answer (fuel + 1) o r (m.making o) = answer (fuel + 1) o r m) ∧
      (∀ v, (m.store.object o).kind.isLazy = true →
        answer fuel o (.pushItem v) m = .ok (.pushed (.error (.type .notArray))) m) ∧
      (m.making o).store = (m.store.setObject o (m.store.settled o)).log (m.store.object o).kind.initialisers ∧
      (m.making o).store.IsMade o ∧
      ∀ m₁ : Machine, m₁.store.IsMade o → m₁.making o = m₁ ∧
        (∀ p r a m', answer fuel p r m₁ = .ok a m' → m'.store.IsMade o) ∧
        ∀ e, e.Due m₁ → Throughout (fun m => m.store.IsMade o) fuel e m₁ ∧
          ∀ m', Ends (enter fuel e) m₁ m' → m'.store.IsMade o := by
  refine ⟨fun requests => answers_making_iff fuel o requests m, fun r hr => opens_answer fuel o hr m,
    fun v hlazy => answer_pushItem_of_not_array (ne_array_of_isLazy hlazy) v, run_materialize_eq o m.store,
    isMade_materialize o m.store, fun m₁ hm₁ => ⟨making_of_isMade hm₁, ?_, ?_⟩⟩
  · intro p r a m' h
    exact (retaining_answer fuel p r).rel_of_ok hm₁ h hm₁
  · intro e hdue
    exact isMade_throughout hm₁ hdue

/-- A machine whose only object is an array of two items behind two lazy levels. -/
def unmadeArray : Machine :=
  { Machine.new .default with
    store := { Store.empty with
      objects := #[.ofKind none (.lazy "outer" (.new none) (.lazy "inner" (.new none) (.array #[.int 1, .int 2])))] } }

/-- A push that comes first is refused, and the array stays lazy; after another request it is carried out. -/
theorem lazy_transparent_array :
    answers 1 ⟨0⟩ [.pushItem (.int 3), .elements] (unmadeArray.making ⟨0⟩) ≠
        answers 1 ⟨0⟩ [.pushItem (.int 3), .elements] unmadeArray ∧
      answers 1 ⟨0⟩ [.pushItem (.int 3), .elements] unmadeArray =
        [.pushed (.error (.type .notArray)), .elements (some [.int 1, .int 2])] ∧
      answers 1 ⟨0⟩ [.elements, .pushItem (.int 3), .elements] (unmadeArray.making ⟨0⟩) =
        [.elements (some [.int 1, .int 2]), .pushed (.ok ()), .elements (some [.int 1, .int 2, .int 3])] ∧
      answers 1 ⟨0⟩ [.elements, .pushItem (.int 3), .elements] (unmadeArray.making ⟨0⟩) =
        answers 1 ⟨0⟩ [.elements, .pushItem (.int 3), .elements] unmadeArray ∧
      (unmadeArray.making ⟨0⟩).store.journal = #["outer", "inner"] := by
  obtain ⟨hanswers, -, -, hstore, -⟩ := lazy_transparent 0 ⟨0⟩ unmadeArray
  refine ⟨fun heq => ?_, rfl, rfl, ?_, ?_⟩
  · exact (hanswers _).mp heq ⟨rfl, ⟨_, rfl⟩, _, _, rfl⟩
  · refine (hanswers _).mpr fun hearly => ?_
    obtain ⟨-, -, v, rest, hrequests⟩ := hearly
    cases hrequests
  · rfl

end VM

end ScriptMachine
