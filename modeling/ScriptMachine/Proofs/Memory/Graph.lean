import Mathlib.Algebra.BigOperators.Group.Finset.Basic
import Mathlib.Algebra.GroupWithZero.Nat
import Mathlib.Data.Finset.Dedup
import ScriptMachine.Memory

/-!
# Objects, scope records and programs as a graph

What the memory estimate charges once are the nodes of a graph, and the links of their entries lead from node to node.

* `Reaches σ visited ls n` — links lead to the node past those that have been visited.  This is how a walk sees it that
  is under way; without visited nodes it is `Reachable` (`reaches_nil_iff`).
* `Node.weight` — what a node is charged, which depends on its own contents only.
-/

namespace ScriptMachine.Memory

/-! ### References -/

/-- One node refers to another one. -/
inductive Refers (σ : Store) : Node → Node → Prop where
  | prototype {o p} (h : (σ.object o).prototype = some p) : Refers σ (.object o) (.object p)
  | property {o p e} (h : e ∈ (σ.object o).properties.entries) (hv : e.2.value = .object p) :
      Refers σ (.object o) (.object p)
  | element {o p elements} (h : (σ.object o).kind = .array elements) (hv : .object p ∈ elements) :
      Refers σ (.object o) (.object p)
  | arguments {o s mapped} (h : (σ.object o).kind = .arguments s mapped) : Refers σ (.object o) (.scope s)
  | wrapped {o p} (h : (σ.object o).kind = .primitive (.object p)) : Refers σ (.object o) (.object p)
  | closureScope {o f} (h : (σ.object o).kind = .function f) : Refers σ (.object o) (.scope f.scope)
  | closureCode {o f} (h : (σ.object o).kind = .function f) : Refers σ (.object o) (.program f.template.program)
  | capturedThis {o p f target} (h : (σ.object o).kind = .function f) (hf : f.kind = .arrow (.object p) target) :
      Refers σ (.object o) (.object p)
  | capturedTarget {o p f this} (h : (σ.object o).kind = .function f) (hf : f.kind = .arrow this (.object p)) :
      Refers σ (.object o) (.object p)
  | boundTarget {o f} (h : (σ.object o).kind = .bound f) : Refers σ (.object o) (.object f.target)
  | boundThis {o p f} (h : (σ.object o).kind = .bound f) (hv : f.this = .object p) : Refers σ (.object o) (.object p)
  | boundArgument {o p f} (h : (σ.object o).kind = .bound f) (hv : .object p ∈ f.args) :
      Refers σ (.object o) (.object p)
  | proxyTarget {o p handler} (h : (σ.object o).kind = .proxy p handler) : Refers σ (.object o) (.object p)
  | slot {s p} (h : .object p ∈ (σ.scope s).slots) : Refers σ (.scope s) (.object p)
  | surplus {s p} (h : .object p ∈ (σ.scope s).surplus) : Refers σ (.scope s) (.object p)
  | backing {s p} (h : (σ.scope s).object = some p) : Refers σ (.scope s) (.object p)
  | outer {s t} (h : (σ.scope s).outer = some t) : Refers σ (.scope s) (.scope t)
  | constant {q p} (h : .object p ∈ (σ.program q).constants) : Refers σ (.program q) (.object p)
  | template {q form t} (h : .newFunction form t ∈ (σ.program q).code) : Refers σ (.program q) (.program t.program)

/-- A node that is there, and to which references lead from a node that `start` names. -/
inductive Reachable (σ : Store) (start : Node → Prop) : Node → Prop where
  | start {n} (h : start n) (hn : n.exists σ = true) : Reachable σ start n
  | refers {n n'} (h : Reachable σ start n) (hr : Refers σ n n') (hn : n'.exists σ = true) : Reachable σ start n'

theorem Reachable.mono {σ : Store} {start start' : Node → Prop} (hstart : ∀ n, start n → start' n) {n : Node}
    (h : Reachable σ start n) : Reachable σ start' n := by
  induction h with
  | start h hn => exact .start (hstart _ h) hn
  | refers _ hr hn ih => exact .refers ih hr hn

theorem Reachable.exists {σ : Store} {start : Node → Prop} {n : Node} (h : Reachable σ start n) :
    n.exists σ = true := by
  cases h <;> assumption

/-! ### Links -/

def Link.target? : Link → Option Node
  | .value v => v.object?.map .object
  | .node n => some n

def Leads (ls : List Link) (n : Node) : Prop := ∃ l ∈ ls, l.target? = some n

theorem object?_eq_some {v : Value} {o : ObjectId} : v.object? = some o ↔ v = .object o := by
  cases v <;> simp [Value.object?]

section Leads

variable {ls ls' : List Link} {n : Node}

@[simp] theorem leads_nil : ¬ Leads [] n := by simp [Leads]

@[simp] theorem leads_cons {l : Link} : Leads (l :: ls) n ↔ l.target? = some n ∨ Leads ls n := by simp [Leads]

@[simp] theorem leads_append : Leads (ls ++ ls') n ↔ Leads ls n ∨ Leads ls' n := by
  simp [Leads, or_and_right, exists_or]

@[simp] theorem leads_flatMap {f : α → List Link} {l : List α} : Leads (l.flatMap f) n ↔ ∃ a ∈ l, Leads (f a) n := by
  simp only [Leads, List.mem_flatMap]
  grind

theorem leads_perm (h : ls.Perm ls') : Leads ls n ↔ Leads ls' n := by simp [Leads, h.mem_iff]

@[simp] theorem target?_object (o : ObjectId) : (Link.object o).target? = some (.object o) := rfl

@[simp] theorem target?_scope (s : ScopeId) : (Link.scope s).target? = some (.scope s) := rfl

@[simp] theorem target?_program (p : ProgramId) : (Link.program p).target? = some (.program p) := rfl

@[simp] theorem target?_value {v : Value} : (Link.value v).target? = some n ↔ ∃ o, v = .object o ∧ .object o = n := by
  simp [Link.target?, object?_eq_some]

@[simp] theorem leads_links {vs : List Value} : Leads (links vs) n ↔ ∃ o, .object o ∈ vs ∧ .object o = n := by
  simp only [Leads, links, List.mem_map]
  constructor
  · rintro ⟨_, ⟨v, hv, rfl⟩, ht⟩
    obtain ⟨o, rfl, hn⟩ := target?_value.mp ht
    exact ⟨o, hv, hn⟩
  · rintro ⟨o, ho, hn⟩
    exact ⟨_, ⟨_, ho, rfl⟩, target?_value.mpr ⟨o, rfl, hn⟩⟩

@[simp] theorem leads_objects {os : Option ObjectId} :
    Leads (os.toList.map .object) n ↔ ∃ o, os = some o ∧ .object o = n := by
  cases os <;> simp

@[simp] theorem leads_scopes {ss : Option ScopeId} :
    Leads (ss.toList.map .scope) n ↔ ∃ s, ss = some s ∧ .scope s = n := by
  cases ss <;> simp

@[simp] theorem leads_programs {ps : List ProgramId} : Leads (ps.map .program) n ↔ ∃ p ∈ ps, .program p = n := by
  simp [Leads]

end Leads

/-! ### The links of a node -/

section Entries

variable {σ : Store} {n n' : Node}

theorem leads_ofKind {o : ObjectId} (h : Leads (ofKind (σ.object o).kind).links n) : Refers σ (.object o) n := by
  cases hkind : (σ.object o).kind with
  | ordinary | error | native | lazy => simp [hkind, ofKind] at h
  | array elements =>
    obtain ⟨p, hp, rfl⟩ := by simpa [hkind, ofKind] using h
    exact .element hkind hp
  | arguments s mapped =>
    obtain rfl := by simpa [hkind, ofKind] using h
    exact .arguments hkind
  | primitive v =>
    obtain ⟨p, rfl, rfl⟩ := by simpa [hkind, ofKind] using h
    exact .wrapped hkind
  | function f =>
    cases hf : f.kind with
    | arrow this target =>
      obtain rfl | rfl | ⟨p, rfl, rfl⟩ | ⟨p, rfl, rfl⟩ := by simpa [hkind, ofKind, hf] using h
      · exact .closureScope hkind
      · exact .closureCode hkind
      · exact .capturedThis hkind hf
      · exact .capturedTarget hkind hf
    | normal | method =>
      obtain rfl | rfl := by simpa [hkind, ofKind, hf] using h
      · exact .closureScope hkind
      · exact .closureCode hkind
  | bound f =>
    obtain rfl | ⟨p, hp, rfl⟩ | ⟨p, hp, rfl⟩ := by simpa [hkind, ofKind] using h
    · exact .boundTarget hkind
    · exact .boundThis hkind hp
    · exact .boundArgument hkind hp
  | proxy p handler =>
    obtain rfl := by simpa [hkind, ofKind] using h
    exact .proxyTarget hkind

theorem leads_ofProgram {q : ProgramId} (h : Leads (ofProgram (σ.program q)).links n) : Refers σ (.program q) n := by
  obtain ⟨p, hp, rfl⟩ | ⟨p, ⟨i, hi, hp⟩, rfl⟩ := by simpa [ofProgram] using h
  · exact .constant hp
  · cases i with
    | newFunction form t =>
      cases hp
      exact .template hi
    | _ => cases hp

theorem refers_iff : Refers σ n n' ↔ Leads (n.entry σ).links n' := by
  constructor
  · intro h
    cases h with
    | prototype h => simp [Node.entry, ofObject, h]
    | property h hv =>
      refine leads_append.mpr (.inl (leads_append.mpr (.inr (leads_links.mpr ⟨_, ?_, rfl⟩))))
      exact List.mem_map.mpr ⟨_, h, hv⟩
    | element h hv => simp [Node.entry, ofObject, ofKind, h, hv]
    | arguments h | wrapped h | closureScope h | closureCode h | boundTarget h | proxyTarget h =>
      simp [Node.entry, ofObject, ofKind, h]
    | capturedThis h hf | capturedTarget h hf => simp [Node.entry, ofObject, ofKind, h, hf]
    | boundThis h hv | boundArgument h hv => simp [Node.entry, ofObject, ofKind, h, hv]
    | slot h | surplus h | backing h | outer h => simp [Node.entry, ofScope, h]
    | constant h => simp [Node.entry, ofProgram, h]
    | template h =>
      refine leads_append.mpr (.inr (leads_programs.mpr ⟨_, ?_, rfl⟩))
      exact List.mem_filterMap.mpr ⟨_, Array.mem_toList_iff.mpr h, rfl⟩
  · intro h
    cases n with
    | object o =>
      obtain ⟨p, hp, rfl⟩ | ⟨p, ⟨key, q, he, hv⟩, rfl⟩ | h := by simpa [Node.entry, ofObject] using h
      · exact .prototype hp
      · exact .property he hv
      · exact leads_ofKind h
    | scope s =>
      obtain ⟨p, hp | hp, rfl⟩ | ⟨p, hp, rfl⟩ | ⟨t, ht, rfl⟩ := by simpa [Node.entry, ofScope] using h
      · exact .slot hp
      · exact .surplus hp
      · exact .backing hp
      · exact .outer ht
    | program q => exact leads_ofProgram h

end Entries

/-! ### What is left to be visited -/

/-- Some of the links lead to the node, which is there and has not been visited, directly or through such nodes. -/
inductive Reaches (σ : Store) (visited : List Node) (ls : List Link) : Node → Prop where
  | link {n} (h : Leads ls n) (hn : n.exists σ = true) (hv : n ∉ visited) : Reaches σ visited ls n
  | entry {n n'} (h : Reaches σ visited ls n) (hl : Leads (n.entry σ).links n') (hn : n'.exists σ = true)
      (hv : n' ∉ visited) : Reaches σ visited ls n'

section Reaches

variable {σ : Store} {visited : List Node} {ls rest : List Link} {n k : Node}

theorem Reaches.exists (h : Reaches σ visited ls n) : n.exists σ = true := by
  cases h <;> assumption

theorem Reaches.not_mem (h : Reaches σ visited ls n) : n ∉ visited := by
  cases h <;> assumption

theorem reaches_nil_iff : Reaches σ [] ls n ↔ Reachable σ (Leads ls) n := by
  constructor
  · intro h
    induction h with
    | link h hn => exact .start h hn
    | entry _ hl hn _ ih => exact .refers ih (refers_iff.mpr hl) hn
  · intro h
    induction h with
    | start h hn => exact .link h hn List.not_mem_nil
    | refers _ hr hn ih => exact .entry ih (refers_iff.mp hr) hn List.not_mem_nil

theorem Reaches.of_leads {ls' : List Link} (h : Reaches σ visited ls n)
    (hls : ∀ k, k.exists σ = true → k ∉ visited → Leads ls k → Leads ls' k) : Reaches σ visited ls' n := by
  induction h with
  | link h hn hv => exact .link (hls _ hn hv h) hn hv
  | entry _ hl hn hv ih => exact .entry ih hl hn hv

theorem reaches_perm {ls' : List Link} (h : ls.Perm ls') : Reaches σ visited ls n ↔ Reaches σ visited ls' n :=
  ⟨(·.of_leads fun _ _ _ => (leads_perm h).mp), (·.of_leads fun _ _ _ => (leads_perm h).mpr)⟩

theorem reaches_skip (hn : ¬ (n.exists σ = true ∧ n ∉ visited)) :
    Reaches σ visited (.node n :: rest) k ↔ Reaches σ visited rest k := by
  refine ⟨(·.of_leads fun x hx hv h => ?_), (·.of_leads fun _ _ _ h => leads_cons.mpr (.inr h))⟩
  rcases leads_cons.mp h with h | h
  · cases h
    exact absurd ⟨hx, hv⟩ hn
  · exact h

/-- **A visit**: what a link to a new node reaches is this node, and what is reached once it has been visited from its
own links and the other ones. -/
theorem reaches_visit (hn : n.exists σ = true) (hv : n ∉ visited) :
    Reaches σ visited (.node n :: rest) k ↔ k = n ∨ Reaches σ (n :: visited) ((n.entry σ).links ++ rest) k := by
  constructor
  · intro h
    induction h with
    | @link k h hk hkv =>
      by_cases heq : k = n
      · exact .inl heq
      · have hrest := (leads_cons.mp h).resolve_left fun h => heq (Option.some.inj h).symm
        exact .inr (.link (leads_append.mpr (.inr hrest)) hk (by simp [heq, hkv]))
    | @entry j k h hl hk hkv ih =>
      by_cases heq : k = n
      · exact .inl heq
      · have hkv' : k ∉ n :: visited := by simp [heq, hkv]
        rcases ih with rfl | ih
        · exact .inr (.link (leads_append.mpr (.inl hl)) hk hkv')
        · exact .inr (.entry ih hl hk hkv')
  · have hself : Reaches σ visited (.node n :: rest) n := .link (leads_cons.mpr (.inl rfl)) hn hv
    rintro (rfl | h)
    · exact hself
    · induction h with
      | link h hk hkv =>
        have hkv' := fun hmem => hkv (List.mem_cons_of_mem n hmem)
        rcases leads_append.mp h with h | h
        · exact .entry hself h hk hkv'
        · exact .link (leads_cons.mpr (.inr h)) hk hkv'
      | entry _ hl hk hkv ih => exact .entry ih hl hk fun hmem => hkv (List.mem_cons_of_mem n hmem)

end Reaches

/-! ### Sets of nodes -/

open Classical in
noncomputable def reachable (σ : Store) (start : Node → Prop) : Finset Node :=
  (nodes σ).toFinset.filter (Reachable σ start)

open Classical in
noncomputable def remaining (σ : Store) (visited : List Node) (ls : List Link) : Finset Node :=
  (nodes σ).toFinset.filter (Reaches σ visited ls)

section Sets

variable {σ : Store} {visited : List Node} {ls rest : List Link} {n k : Node}

@[simp] theorem mem_reachable {start : Node → Prop} : n ∈ reachable σ start ↔ Reachable σ start n := by
  simp only [reachable, Finset.mem_filter, List.mem_toFinset, and_iff_right_iff_imp]
  exact fun h => mem_nodes h.exists

@[simp] theorem mem_remaining : n ∈ remaining σ visited ls ↔ Reaches σ visited ls n := by
  simp only [remaining, Finset.mem_filter, List.mem_toFinset, and_iff_right_iff_imp]
  exact fun h => mem_nodes h.exists

theorem remaining_nil_visited : remaining σ [] ls = reachable σ (Leads ls) := by
  ext
  simp [reaches_nil_iff]

end Sets

/-! ### Weights -/

def Link.charge : Link → Nat
  | .value v => (valueCharges v).sum
  | .node _ => 0

/-- The charges of a thing and of the texts it holds. -/
def Entry.weight (e : Entry) : Nat := e.charges.sum + (e.links.map Link.charge).sum

/-- The charges of a node and of the texts it holds. -/
def Node.weight (σ : Store) (n : Node) : Nat := (n.entry σ).weight

end ScriptMachine.Memory
