import ScriptMachine.Machine

/-!
# Memory estimate

An estimate of the bytes that everything reachable from the machine takes.  Objects, scope records and programs
are nodes of a graph; each reachable node is charged once.  What a walk finds last it looks at first.
-/

namespace ScriptMachine

namespace Memory

/-! ### Sizes -/

def frameSize : Nat := 144
def instructionSize : Nat := 32
def loopSize : Nat := 120
def objectSize : Nat := 152
def programSize : Nat := 104
def propertySize : Nat := 64
def referenceSize : Nat := 48
def scopeSize : Nat := 80
def valueSize : Nat := 32

/-! ### Nodes -/

inductive Node where
  | object (o : ObjectId)
  | scope (s : ScopeId)
  | program (p : ProgramId)
  deriving DecidableEq

inductive Link where
  | value (v : Value)
  | node (n : Node)

namespace Link

def object (o : ObjectId) : Link := .node (.object o)
def scope (s : ScopeId) : Link := .node (.scope s)
def program (p : ProgramId) : Link := .node (.program p)

end Link

structure Entry where
  charges : List Nat
  links : List Link

def links (vs : List Value) : List Link := vs.map .value

def ofKind : ObjectKind → Entry
  | .array elements => ⟨[elements.size * valueSize], links elements.toList⟩
  | .arguments scope mapped => ⟨[mapped.length], [.scope scope]⟩
  | .primitive v => ⟨[], [.value v]⟩
  | .function f =>
    let captured := match f.kind with
      | .arrow this newTarget => [.value this, .value newTarget]
      | _ => []
    ⟨[], [.scope f.scope, .program f.template.program] ++ captured⟩
  | .bound f => ⟨[f.args.length * valueSize], [.object f.target, .value f.this] ++ links f.args⟩
  | .proxy target _ => ⟨[], [.object target]⟩
  | .ordinary | .error .. | .native _ | .lazy .. => ⟨[], []⟩

def keyCharge? : PropertyKey → Option Nat
  | .text t => some t.byteSize
  | .symbol _ => none

def ofObject (o : Object) : Entry :=
  let entries := o.properties.entries
  let kind := ofKind o.kind
  { charges := [objectSize, o.properties.size * propertySize] ++ entries.filterMap (keyCharge? ·.1) ++ kind.charges
    links := o.prototype.toList.map .object ++ links (entries.map (·.2.value)) ++ kind.links }

def ofScope (s : Scope) : Entry where
  charges := [scopeSize, (s.slots.size + s.surplus.length) * valueSize]
  links := links (s.slots.toList ++ s.surplus) ++ s.object.toList.map .object ++ s.outer.toList.map .scope

def templateProgram? : Instruction → Option ProgramId
  | .newFunction _ template => some template.program
  | _ => none

def ofProgram (p : Program) : Entry where
  charges := [programSize, p.code.size * instructionSize, p.constants.size * valueSize]
  links := links p.constants.toList ++ (p.code.toList.filterMap templateProgram?).map .program

def Node.entry (σ : Store) : Node → Entry
  | .object o => ofObject (σ.object o)
  | .scope s => ofScope (σ.scope s)
  | .program p => ofProgram (σ.program p)

def valueCharges : Value → List Nat
  | .text t => [t.byteSize]
  | .unresolved name _ => [name.byteSize]
  | _ => []

/-! ### The walk -/

structure Excess where
  used : Nat
  limit : Nat

def Excess.message (e : Excess) : String := s!"memory limit exceeded: {e.used} bytes used, limit is {e.limit}"

def charge (limit : Option Nat) (total : Nat) : List Nat → Except Excess Nat
  | [] => .ok total
  | bytes :: rest =>
    let total := total + bytes
    match limit with
    | some limit => if limit < total then .error ⟨total, limit⟩ else charge (some limit) total rest
    | none => charge none total rest

def nodes (σ : Store) : List Node :=
  (List.range σ.objects.size).map (fun i => .object ⟨i⟩) ++ (List.range σ.scopes.size).map (fun i => .scope ⟨i⟩)
    ++ (List.range σ.programs.size).map (fun i => .program ⟨i⟩)

def Node.exists (σ : Store) : Node → Bool
  | .object o => decide (o.index < σ.objects.size)
  | .scope s => decide (s.index < σ.scopes.size)
  | .program p => decide (p.index < σ.programs.size)

theorem mem_nodes {σ : Store} {n : Node} (h : n.exists σ = true) : n ∈ nodes σ := by
  cases n with
  | object o => simpa [nodes, Node.exists] using ⟨o.index, by simpa [Node.exists] using h, rfl⟩
  | scope s => simpa [nodes, Node.exists] using ⟨s.index, by simpa [Node.exists] using h, rfl⟩
  | program p => simpa [nodes, Node.exists] using ⟨p.index, by simpa [Node.exists] using h, rfl⟩

def unvisited (σ : Store) (visited : List Node) : List Node := (nodes σ).filter (· ∉ visited)

theorem unvisited_cons_lt {σ : Store} {visited : List Node} {n : Node} (h : n.exists σ = true) (h' : n ∉ visited) :
    (unvisited σ (n :: visited)).length < (unvisited σ visited).length := by
  have split : unvisited σ (n :: visited) = (unvisited σ visited).filter (· ≠ n) := by
    simp only [unvisited, List.filter_filter]
    congr 1
    simp [not_or]
  rw [split, List.length_filter_lt_length_iff_exists]
  exact ⟨n, by simp [unvisited, mem_nodes h, h'], by simp⟩

/-- Work still to be done for some links: looking at a value may leave a node. -/
def work : List Link → Nat
  | [] => 0
  | .value _ :: rest => work rest + 2
  | .node _ :: rest => work rest + 1

theorem work_lt_cons (l : Link) (rest : List Link) : work rest < work (l :: rest) := by
  cases l <;> simp [work]

theorem work_object_lt_value (o : ObjectId) (v : Value) (rest : List Link) :
    work (.object o :: rest) < work (.value v :: rest) := by
  simp [work, Link.object]

/-- Charge everything reachable from some links that has not been visited. -/
def walk (σ : Store) (limit : Option Nat) (total : Nat) (visited : List Node) : List Link → Except Excess Nat
  | [] => .ok total
  | .value v :: rest =>
    match v.object? with
    | some o => walk σ limit total visited (.object o :: rest)
    | none =>
      match charge limit total (valueCharges v) with
      | .ok total => walk σ limit total visited rest
      | .error e => .error e
  | .node n :: rest =>
    if _h : n.exists σ ∧ n ∉ visited then
      let entry := n.entry σ
      match charge limit total entry.charges with
      | .ok total => walk σ limit total (n :: visited) (entry.links.reverse ++ rest)
      | .error e => .error e
    else walk σ limit total visited rest
termination_by ls => ((unvisited σ visited).length, work ls)
decreasing_by
  · exact Prod.Lex.right _ (work_object_lt_value o v rest)
  · exact Prod.Lex.right _ (work_lt_cons _ rest)
  · exact Prod.Lex.left _ _ (unvisited_cons_lt _h.1 _h.2)
  · exact Prod.Lex.right _ (work_lt_cons _ rest)

/-! ### The machine -/

def ofActivation (a : Activation) : List Link :=
  [.scope a.scope] ++ a.program.toList.map .program ++ [.value a.result, .value a.newTarget]

def ofLoop (m : Machine) (l : OpenLoop) : List Link :=
  match l.source with
  | .keys _ => [.value l.value]
  | .items i => [.value l.value, .value (m.iterator i).iterator, .value (m.iterator i).next]

def ofReference : Reference → List Link
  | .scope _ s _ _ => [.scope s]
  | .property o .. => [.value (.object o)]
  | .slot .. | .unresolved _ => []

def roots (m : Machine) : Entry where
  charges :=
    [m.stack.capacity * valueSize, m.frames.length * frameSize, m.loops.length * loopSize,
      m.refs.length * referenceSize]
  links :=
    links m.stack.toList ++ ofActivation m.regs ++ m.frames.reverse.flatMap ofActivation
      ++ m.loops.reverse.flatMap (ofLoop m) ++ m.refs.reverse.flatMap ofReference
      ++ [.value (.object m.realm.global), .scope m.realm.globalScope]

end Memory

/-- The bytes reachable from the machine.  With a limit, the walk ends where the limit is passed. -/
def Machine.memory (m : Machine) (limit : Option Nat) : Except Memory.Excess Nat := do
  let entry := Memory.roots m
  let total ← Memory.charge limit 0 entry.charges
  Memory.walk m.store limit total [] entry.links.reverse

end ScriptMachine
