import ScriptMachine.Machine.Monad

/-!
# Declarations

Global declarations are checked as a whole before any of them is carried out.  Evaluated code declares its
hoisted names in the nearest record that holds such names.
-/

namespace ScriptMachine

namespace VM

/-! ### Global declarations -/

def globalProperty? (name : Text) : VM (Option Property) := do
  onStore (Store.ownProperty? (← realm).global (.text name))

def isGlobalLexical (name : Text) : VM Bool := do
  return ((← scopeRecord (← realm).globalScope).find? name).isSome

def redeclared (name : Text) : Fault := .grammar (.redeclared name.display)

/-- A global function must not meet a lexical name, nor a property that cannot hold it. -/
def checkFunction (name : Text) : VM Unit := do
  if ← isGlobalLexical name then raise (redeclared name)
  else
    let allowed ← match ← globalProperty? name with
      | none => onStore (Store.isExtensible (← realm).global)
      | some p => pure (p.configurable || (p.writable && p.enumerable))
    if allowed then return () else raise (.type (.globalFunction name.display))

/-- A lexical name must not meet another global name, nor a permanent property. -/
def checkLexical (name : Text) : VM Unit := do
  if (← get).varNames.contains name then raise (redeclared name)
  else if ← isGlobalLexical name then raise (redeclared name)
  else if (← globalProperty? name).any (fun p => !p.configurable) then raise (redeclared name)
  else return ()

/-- A variable needs room in the global object and must not meet a lexical name. -/
def checkVariable (name : Text) : VM Unit := do
  let extensible ← onStore (Store.isExtensible (← realm).global)
  if !extensible && (← globalProperty? name).isNone then raise (.type (.globalVariable name.display))
  else if ← isGlobalLexical name then raise (redeclared name)
  else return ()

def declareVarName (name : Text) : VM Unit :=
  modify fun m => { m with varNames := if m.varNames.contains name then m.varNames else name :: m.varNames }

def createLexical (isConstant : Bool) (name : Text) : VM Unit := do
  modifyScope (← realm).globalScope (·.createLexical name isConstant)

/-- Define a global function.  A permanent property keeps its attributes. -/
def createFunction (deletable : Bool) (name : Text) (v : Value) : VM Unit := do
  let p : Property := match ← globalProperty? name with
    | some p => if p.configurable then ⟨v, true, true, deletable⟩ else ⟨v, p.writable, p.enumerable, false⟩
    | none => ⟨v, true, true, deletable⟩
  let _ ← demand (Store.define (← realm).global (.text name) p true)
  declareVarName name

def createFunctions (deletable : Bool) : List (Text × Value) → VM Unit
  | [] => return ()
  | (name, v) :: rest => do
    createFunction deletable name v
    createFunctions deletable rest

def createVariable (deletable : Bool) (name : Text) : VM Unit := do
  let global := (← realm).global
  if (← globalProperty? name).isNone then
    if ← onStore (Store.isExtensible global) then
      let _ ← demand (Store.define global (.text name) ⟨.undefined, true, true, deletable⟩ true)
  declareVarName name

def bindGlobals (b : GlobalBindings) : VM Unit := do
  b.funcs.forM checkFunction
  b.lets.forM checkLexical
  b.consts.forM checkLexical
  b.vars.forM checkVariable
  b.lets.forM (createLexical false)
  b.consts.forM (createLexical true)
  let values ← popMany b.funcs.length
  createFunctions b.deletable (b.funcs.zip values)
  b.vars.forM (createVariable b.deletable)
  advance

end VM

/-! ### Hoisted names of evaluated code -/

namespace Store

/-- The nearest record that holds hoisted names, if no record up to it binds `name` lexically. -/
def varScopeWithin (σ : Store) (name : Text) : Nat → ScopeId → Outcome (Option ScopeId)
  | 0, _ => .ok none
  | n + 1, s =>
    let x := σ.scope s
    if (x.find? name).any (·.kind.isLexical) then .error (VM.redeclared name)
    else if x.holdsVars then .ok (some s)
    else match x.outer with
      | some outer => σ.varScopeWithin name n outer
      | none => .ok none

/-- The nearest record that holds hoisted names, if no record up to it binds one of the names lexically. -/
def varScope? (σ : Store) (s : ScopeId) : List Text → Outcome (Option ScopeId)
  | [] => .ok none
  | name :: rest => do
    let found ← σ.varScopeWithin name σ.scopes.size s
    return found.or (← σ.varScope? s rest)

end Store

namespace VM

def bindVars (b : VarBindings) : VM Unit := do
  let s := (← regs).scope
  let target ← ofOutcome ((← get).store.varScope? s b.names)
  modifyScope (target.getD s) fun x => b.names.foldl (fun x name => x.createVar name b.deletable) x
  advance

end VM

end ScriptMachine
