import ScriptMachine.Program.Binding
import ScriptMachine.Value.Arithmetic

/-!
# Instructions

Most instructions pop their operands from the operand stack and push their result.  Jump offsets are relative
to the jump itself.
-/

namespace ScriptMachine

structure ProgramId where
  index : Nat
  deriving DecidableEq, Inhabited

structure FunctionTemplate where
  program : ProgramId
  name : Text
  length : Nat
  strict : Bool

inductive FunctionForm where
  | normal | method | arrow
  deriving DecidableEq

/-- When a jump is taken, and whether the tested value leaves the stack. -/
inductive JumpTest where
  | always
  | falsy
  | truthy
  /-- Jump and keep a truthy value, pop any other. -/
  | keepTruthy
  /-- Jump and keep a falsy value, pop any other. -/
  | keepFalsy
  /-- Jump and keep a value that is not undefined, pop undefined. -/
  | keepDefined
  /-- Pop the value; jump when it is not undefined. -/
  | defined
  deriving DecidableEq

inductive ElementRead where
  | plain
  | convertedKey
  /-- A missing member is reported by the call that follows. -/
  | callee
  deriving DecidableEq

inductive Instruction where
  -- Constants and the operand stack
  | loadConstant (index : Nat)
  | loadUndefined
  | loadEmpty
  | loadGlobalObject
  | loadCallee
  | loadNewTarget
  | saveResult
  | clearResult
  | pop
  | dup
  | copyFrom (n : Nat)
  | copyTo (n : Nat)
  /-- End the running section of a try statement, or the dispatch loop. -/
  | halt
  -- Slots on the operand stack
  | loadSlot (slot : SlotAddress) (lexical : Bool)
  | storeSlot (slot : SlotAddress) (lexical pop : Bool)
  | initSlot (slot : SlotAddress)
  -- Slots of scope records
  | loadScope (slot : ScopeAddress) (lexical : Bool)
  | storeScope (slot : ScopeAddress) (lexical pop : Bool)
  | initScope (slot : ScopeAddress)
  | initGlobal (name : Text)
  -- Names
  | loadMixed (read : DynamicRead) (index : Nat)
  | loadMixedSlot (read : DynamicRead) (slot : SlotAddress)
  | resolveMixed (write : DynamicWrite) (index : Nat)
  | resolveMixedSlot (write : DynamicWrite) (slot : SlotAddress)
  | resolveName (name : Text) (strict : Bool)
  | loadName (name : Text)
  /-- Like `loadName`, but a name that does not resolve leaves a marker. -/
  | loadNameOrMarker (name : Text)
  /-- Push receiver and value of a name for a call. -/
  | loadNameCallee (name : Text)
  | deleteName (name : Text)
  | deleteGlobal (name : Text)
  | setGlobal (name : Text) (strict : Bool)
  | getValue
  | putValue (pop : Bool)
  | initValue
  -- Operators
  | unary (op : UnaryOp)
  | add
  | arith (op : ArithOp)
  | bitwise (op : BitOp)
  | not
  | relation (r : Relation)
  | equality (strict negated : Bool)
  | instanceOf
  | hasIn
  | typeOf
  | toPropertyKey
  | toText
  | concat (n : Nat)
  -- Jumps
  | jump (test : JumpTest) (offset : Int)
  -- Members and literals
  | getMember (name : Text) (callee : Bool)
  | getElement (read : ElementRead)
  | setMember (name : Text) (strict pop : Bool)
  | setElement (strict pop : Bool)
  /-- `[object, key, value]` to `[object]`, in a literal. -/
  | defineElement
  /-- `[object, value]` to `[object]`, in a literal. -/
  | defineMember (name : Text)
  | setPrototype
  | memberReference (name : Text) (strict : Bool)
  | elementReference (strict : Bool)
  | deleteMember (name : Text) (strict : Bool)
  | deleteElement (strict : Bool)
  | newObject
  | newArray (room : Nat)
  | pushItem
  | pushItems
  | pushArguments
  | restArray
  /-- `[target, source]` to `[target]`. -/
  | copyMembers
  /-- `[source]` to `[source, copy]`. -/
  | restObject
  | checkCoercible
  -- Calls
  | startVariadic
  | callVariadic
  | endVariadic
  | constructVariadic
  | callEvalVariadic (strict : Bool)
  | call (args : Nat)
  | callEval (args : Nat) (strict : Bool)
  | construct (args : Nat)
  | ret
  | boxReceiver
  -- Functions and scopes
  | newFunction (form : FunctionForm) (template : FunctionTemplate)
  | enterFunction (entry : FunctionEntry)
  | enterParameters (entry : ParameterEntry)
  | enterBody (entry : BodyEntry)
  | enterBare (stackSize params : Nat)
  | enterBlock (layout : ScopeLayout)
  /-- Enter a catch scope; the caught value moves into slot 0. -/
  | enterCatch (layout : ScopeLayout)
  | leaveBlock (stackSize : Nat) (leaveScope : Bool)
  /-- Continue in a copy of the current scope record. -/
  | copyScope
  | bindVars (bindings : VarBindings)
  | bindGlobals (bindings : GlobalBindings)
  | createArguments (params : Nat) (mapped : Bool)
  | restFromStack (params : Nat)
  | restFromScope
  | enterWith
  | leaveWith
  -- Loops over keys and items
  | enumerate
  | nextKey (offset : Int)
  | loopValue
  | leaveLoop
  | closeLoop
  | iterate (pop : Bool)
  | nextItem (offset : Int)
  | nextItemOrUndefined
  -- Exceptions
  /-- Run the code that follows under a handler; an offset of zero means there is no such section. -/
  | guard (catchOffset finallyOffset : Int)
  /-- Marks the normal end of a finally section. -/
  | endFinally
  | raise
  | raiseConstant (name : Text)
  deriving Inhabited

end ScriptMachine
