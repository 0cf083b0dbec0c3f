import Mathlib.Algebra.BigOperators.Group.List.Basic
import Mathlib.Logic.Relation
import Mathlib.Order.WellFounded
import ScriptMachine.Proofs.Memory.Graph

/-!
# Each node is counted once

A walk under way has a total, nodes it has visited, and links it has yet to look at.  What it still has to charge is
settled by the nodes and the links: the texts among the links, and once each the nodes that the links reach past those
visited.  Each step of a walk moves a part of this into the total, whichever of its links it looks at next.

Main result: `counted_once`.
-/

namespace ScriptMachine.Memory

/-! ### What is still to be charged -/

/-- The texts among some links, and the nodes that these reach past those visited. -/
noncomputable def due (σ : Store) (visited : List Node) (ls : List Link) : Nat :=
  (ls.map Link.charge).sum + ∑ n ∈ remaining σ visited ls, n.weight σ

section Due

variable {σ : Store} {visited : List Node} {ls rest : List Link} {n : Node}

theorem due_nil : due σ visited [] = 0 := by
  have hnone : remaining σ visited [] = ∅ := by
    refine Finset.eq_empty_of_forall_notMem fun n hn => ?_
    induction mem_remaining.mp hn with
    | link h => exact leads_nil h
    | entry h _ _ _ ih => exact ih (mem_remaining.mpr h)
  simp [due, hnone]

theorem due_perm {ls' : List Link} (h : ls.Perm ls') : due σ visited ls = due σ visited ls' := by
  have hsame : remaining σ visited ls = remaining σ visited ls' := by
    ext
    simp [reaches_perm h]
  rw [due, due, (h.map Link.charge).sum_eq, hsame]

theorem due_object {v : Value} {o : ObjectId} (h : v.object? = some o) :
    due σ visited (.value v :: rest) = due σ visited (.object o :: rest) := by
  obtain rfl := object?_eq_some.mp h
  have hsame : remaining σ visited (.value (.object o) :: rest) = remaining σ visited (.object o :: rest) := by
    ext
    simp only [mem_remaining]
    exact ⟨(·.of_leads fun _ _ _ => by simp), (·.of_leads fun _ _ _ => by simp)⟩
  rw [due, hsame]
  rfl

theorem due_value {v : Value} (h : v.object? = none) :
    due σ visited (.value v :: rest) = (valueCharges v).sum + due σ visited rest := by
  have hsame : remaining σ visited (.value v :: rest) = remaining σ visited rest := by
    ext
    simp only [mem_remaining]
    refine ⟨(·.of_leads fun _ _ _ hl => ?_), (·.of_leads fun _ _ _ hl => leads_cons.mpr (.inr hl))⟩
    refine (leads_cons.mp hl).resolve_left fun ht => ?_
    rw [Link.target?, h] at ht
    cases ht
  rw [due, hsame, List.map_cons, List.sum_cons, Nat.add_assoc]
  rfl

theorem due_skip (h : ¬ (n.exists σ = true ∧ n ∉ visited)) : due σ visited (.node n :: rest) = due σ visited rest := by
  have hsame : remaining σ visited (.node n :: rest) = remaining σ visited rest := by
    ext
    simp [reaches_skip h]
  rw [due, due, hsame, List.map_cons, List.sum_cons, Link.charge, Nat.zero_add]

theorem due_visit (hn : n.exists σ = true) (hv : n ∉ visited) :
    due σ visited (.node n :: rest) = (n.entry σ).charges.sum + due σ (n :: visited) ((n.entry σ).links ++ rest) := by
  have hsplit : remaining σ visited (.node n :: rest) =
      insert n (remaining σ (n :: visited) ((n.entry σ).links ++ rest)) := by
    ext
    simp [reaches_visit hn hv]
  have hnew : n ∉ remaining σ (n :: visited) ((n.entry σ).links ++ rest) := fun h =>
    (mem_remaining.mp h).not_mem List.mem_cons_self
  rw [due, due, hsplit, Finset.sum_insert hnew, Node.weight, Entry.weight, List.map_cons, List.sum_cons, Link.charge,
    List.map_append, List.sum_append]
  omega

end Due

/-! ### Walks in any order -/

/-- A walk under way. -/
structure Progress where
  total : Nat
  visited : List Node
  pending : List Link

namespace Progress

/-- A step of a walk, which takes one of its links out and looks at it. -/
inductive Step (σ : Store) : Progress → Progress → Prop where
  | object {p v o rest} (hp : p.pending.Perm (.value v :: rest)) (hv : v.object? = some o) :
      Step σ p { p with pending := .object o :: rest }
  | value {p v rest} (hp : p.pending.Perm (.value v :: rest)) (hv : v.object? = none) :
      Step σ p { p with total := p.total + (valueCharges v).sum, pending := rest }
  | visit {p n rest} (hp : p.pending.Perm (.node n :: rest)) (hn : n.exists σ = true) (hv : n ∉ p.visited) :
      Step σ p ⟨p.total + (n.entry σ).charges.sum, n :: p.visited, (n.entry σ).links ++ rest⟩
  | skip {p n rest} (hp : p.pending.Perm (.node n :: rest)) (hn : ¬ (n.exists σ = true ∧ n ∉ p.visited)) :
      Step σ p { p with pending := rest }

variable {σ : Store} {p q : Progress}

/-- **What a step keeps**: the total and what is still to be charged, together. -/
theorem Step.total_add_due (h : Step σ p q) : q.total + due σ q.visited q.pending = p.total + due σ p.visited p.pending := by
  cases h with
  | object hp hv => rw [due_perm hp, due_object hv]
  | value hp hv =>
    rw [due_perm hp, due_value hv]
    exact Nat.add_assoc ..
  | visit hp hn hv =>
    rw [due_perm hp, due_visit hn hv]
    exact Nat.add_assoc ..
  | skip hp hn => rw [due_perm hp, due_skip hn]

theorem total_add_due (h : Relation.ReflTransGen (Step σ) p q) :
    q.total + due σ q.visited q.pending = p.total + due σ p.visited p.pending := by
  induction h with
  | refl => rfl
  | tail _ hstep ih => rw [hstep.total_add_due, ih]

theorem work_perm {ls ls' : List Link} (h : ls.Perm ls') : work ls = work ls' := by
  induction h with
  | nil => rfl
  | cons l _ ih => cases l <;> simp [work, ih]
  | swap l l' => cases l <;> cases l' <;> simp [work]
  | trans _ _ ih ih' => rw [ih, ih']

/-- The measure that a step decreases: nodes not visited, then work still to be done. -/
def measure (σ : Store) (p : Progress) : Nat × Nat := ((unvisited σ p.visited).length, work p.pending)

theorem Step.measure_lt (h : Step σ p q) : Prod.Lex (· < ·) (· < ·) (measure σ q) (measure σ p) := by
  cases h with
  | object hp hv => exact Prod.Lex.right _ (by rw [work_perm hp]; exact work_object_lt_value ..)
  | value hp hv => exact Prod.Lex.right _ (by rw [work_perm hp]; exact work_lt_cons ..)
  | visit hp hn hv => exact Prod.Lex.left _ _ (unvisited_cons_lt hn hv)
  | skip hp hn => exact Prod.Lex.right _ (by rw [work_perm hp]; exact work_lt_cons ..)

theorem wellFounded_step (σ : Store) : WellFounded fun q p => Step σ p q :=
  Subrelation.wf (fun h => h.measure_lt) (InvImage.wf (measure σ) (Nat.lt_wfRel.wf.prod_lex Nat.lt_wfRel.wf))

theorem pending_eq_nil (h : ∀ q, ¬ Step σ p q) : p.pending = [] := by
  cases hp : p.pending with
  | nil => rfl
  | cons l rest =>
    have hperm : p.pending.Perm (l :: rest) := .of_eq hp
    exfalso
    cases l with
    | value v =>
      cases hv : v.object? with
      | some o => exact h _ (.object hperm hv)
      | none => exact h _ (.value hperm hv)
    | node n =>
      by_cases hn : n.exists σ = true ∧ n ∉ p.visited
      · exact h _ (.visit hperm hn.1 hn.2)
      · exact h _ (.skip hperm hn)

end Progress

/-! ### Limits -/

/-- The answer of an estimate within a limit, where the total is known: the total if it is within the limit, and
otherwise an amount on the way to it that is beyond. -/
def Answers (limit : Option Nat) (total : Nat) : Except Excess Nat → Prop
  | .ok t => t = total ∧ ∀ b ∈ limit, total ≤ b
  | .error e => limit = some e.limit ∧ e.limit < e.used ∧ e.used ≤ total

theorem Answers.error_mono {limit : Option Nat} {total total' : Nat} {e : Excess} (h : Answers limit total (.error e))
    (hle : total ≤ total') : Answers limit total' (.error e) :=
  ⟨h.1, h.2.1, Nat.le_trans h.2.2 hle⟩

theorem charge_answers {limit : Option Nat} {total : Nat} (charges : List Nat) (h : ∀ b ∈ limit, total ≤ b) :
    Answers limit (total + charges.sum) (charge limit total charges) := by
  induction charges generalizing total with
  | nil => exact ⟨rfl, h⟩
  | cons bytes rest ih =>
    rw [List.sum_cons, ← Nat.add_assoc]
    cases limit with
    | none => exact ih (by simp)
    | some b =>
      unfold charge
      dsimp only
      split
      case isTrue hb => exact ⟨rfl, hb, Nat.le_add_right ..⟩
      case isFalse hb =>
        refine ih fun b' hb' => ?_
        cases hb'
        exact Nat.le_of_not_lt hb

/-- **The walk** charges what is due. -/
theorem walk_answers (σ : Store) (limit : Option Nat) (total : Nat) (visited : List Node) (ls : List Link)
    (h : ∀ b ∈ limit, total ≤ b) : Answers limit (total + due σ visited ls) (walk σ limit total visited ls) := by
  fun_induction walk σ limit total visited ls with
  | case1 total visited =>
    rw [due_nil]
    exact ⟨rfl, h⟩
  | case2 total visited v rest o hv ih =>
    rw [due_object hv]
    exact ih h
  | case3 total visited v rest hv total' hcharge ih =>
    obtain ⟨rfl, hwithin⟩ := hcharge ▸ charge_answers (valueCharges v) h
    rw [due_value hv, ← Nat.add_assoc]
    exact ih hwithin
  | case4 total visited v rest hv e hcharge =>
    have herror := hcharge ▸ charge_answers (valueCharges v) h
    rw [due_value hv, ← Nat.add_assoc]
    exact herror.error_mono (Nat.le_add_right ..)
  | case5 total visited n rest hn entry total' hcharge ih =>
    obtain ⟨rfl, hwithin⟩ := hcharge ▸ charge_answers entry.charges h
    rw [due_visit hn.1 hn.2, ← Nat.add_assoc, ← due_perm ((List.reverse_perm _).append_right rest)]
    exact ih hwithin
  | case6 total visited n rest hn entry e hcharge =>
    have herror := hcharge ▸ charge_answers entry.charges h
    rw [due_visit hn.1 hn.2, ← Nat.add_assoc]
    exact herror.error_mono (Nat.le_add_right ..)
  | case7 total visited n rest hn ih =>
    rw [due_skip hn]
    exact ih h

/-! ### The estimate -/

/-- All that the estimate charges: the stacks with the texts on them, and each node that can be reached from what machine
and realm refer to. -/
noncomputable def totalOf (m : Machine) : Nat :=
  (roots m).weight + ∑ n ∈ reachable m.store (Leads (roots m).links), n.weight m.store

def Progress.start (m : Machine) : Progress := ⟨(roots m).charges.sum, [], (roots m).links⟩

theorem total_add_due_start (m : Machine) : (roots m).charges.sum + due m.store [] (roots m).links = totalOf m := by
  rw [totalOf, Entry.weight, due, remaining_nil_visited, Nat.add_assoc]

theorem memory_answers (m : Machine) (limit : Option Nat) : Answers limit (totalOf m) (m.memory limit) := by
  have hcharge : Answers limit _ _ := charge_answers (roots m).charges fun b _ => Nat.zero_le b
  rw [Nat.zero_add] at hcharge
  rw [← total_add_due_start]
  show Answers limit _ (charge limit 0 (roots m).charges >>= fun total => walk m.store limit total [] _)
  cases hr : charge limit 0 (roots m).charges with
  | error e =>
    rw [hr] at hcharge
    exact hcharge.error_mono (Nat.le_add_right ..)
  | ok total =>
    rw [hr] at hcharge
    obtain ⟨rfl, hwithin⟩ := hcharge
    rw [← due_perm (List.reverse_perm (roots m).links)]
    exact walk_answers m.store limit _ [] _ hwithin

theorem memory_none (m : Machine) : m.memory none = .ok (totalOf m) := by
  have h := memory_answers m none
  cases hr : m.memory none with
  | ok t => exact congrArg Except.ok (hr ▸ h).1
  | error e => cases (hr ▸ h).1

/-- **Each node is counted once.**  The estimate is what the stacks are charged, and once each the weights of the
objects, scope records and programs that can be reached, with cycles and sharing of any kind.  Within a limit it is the
same if it does not pass the limit, and else an amount is reported that is beyond the limit and not beyond the total.
Whichever of its links a walk looks at next, it comes to an end, and then this is its total. -/
theorem counted_once (m : Machine) :
    let total := (roots m).weight + ∑ n ∈ reachable m.store (Leads (roots m).links), n.weight m.store
    m.memory none = .ok total ∧
    (∀ limit, total ≤ limit → m.memory (some limit) = .ok total) ∧
    (∀ limit, limit < total → ∃ used, m.memory (some limit) = .error ⟨used, limit⟩ ∧ limit < used ∧ used ≤ total) ∧
    (WellFounded fun q p => Progress.Step m.store p q) ∧
    ∀ p, Relation.ReflTransGen (Progress.Step m.store) (.start m) p → (∀ q, ¬ Progress.Step m.store p q) →
      p.total = total := by
  refine ⟨memory_none m, fun limit hlimit => ?_, fun limit hlimit => ?_, Progress.wellFounded_step m.store,
    fun p hp hend => ?_⟩
  · have h := memory_answers m (some limit)
    cases hr : m.memory (some limit) with
    | ok t => exact congrArg Except.ok (hr ▸ h).1
    | error e =>
      obtain ⟨hsome, hused, htotal⟩ := hr ▸ h
      cases hsome
      exact absurd hlimit (Nat.not_le.mpr (Nat.lt_of_lt_of_le hused htotal))
  · have h := memory_answers m (some limit)
    cases hr : m.memory (some limit) with
    | ok t => exact absurd ((hr ▸ h).2 limit rfl) (Nat.not_le.mpr hlimit)
    | error e =>
      obtain ⟨hsome, hused, htotal⟩ := hr ▸ h
      cases hsome
      exact ⟨e.used, rfl, hused, htotal⟩
  · have hkept := Progress.total_add_due hp
    rw [Progress.pending_eq_nil hend, due_nil] at hkept
    exact hkept.trans (total_add_due_start m)

def withOperand : Machine := { Machine.new .default with stack := OperandStack.new.push .undefined }

theorem counted_once_withOperand :
    ∃ total, withOperand.memory none = .ok total ∧ withOperand.memory (some total) = .ok total ∧
      (∃ used, withOperand.memory (some 0) = .error ⟨used, 0⟩ ∧ 0 < used ∧ used ≤ total) ∧
      ∃ p, Relation.ReflTransGen (Progress.Step withOperand.store) (.start withOperand) p ∧ p.total = total := by
  obtain ⟨hnone, hwithin, hbeyond, hends, hany⟩ := counted_once withOperand
  have hweight : 0 < (roots withOperand).weight := by decide
  have hstart : Set.Nonempty {p | Relation.ReflTransGen (Progress.Step withOperand.store) (.start withOperand) p} :=
    ⟨_, .refl⟩
  obtain ⟨p, hp, hlast⟩ := hends.has_min _ hstart
  exact ⟨_, hnone, hwithin _ (Nat.le_refl _), hbeyond 0 (Nat.lt_of_lt_of_le hweight (Nat.le_add_right _ _)), p, hp,
    hany p hp fun q hq => hlast q (hp.tail hq) hq⟩

end ScriptMachine.Memory
