import ScriptMachine.Text

/-!
# Causes of failure

What went wrong, and in one function per class how it is worded.  Values and keys that a message mentions are
carried as they were shown when the failure arose.
-/

namespace ScriptMachine

/-- Why an operation was applied to the wrong kind of value. -/
inductive TypeCause where
  | symbolToNumber
  | symbolToText
  | noObject (shown : String)
  | readOnly (key : String)
  | redefinition (key : String)
  | undeletable (key : String)
  | notArray
  | bindTarget
  | notFunction (shown : String)
  | memberNotFunction (name : String)
  | notConstructor (shown : String)
  | evalNotFunction
  | noCompiler
  | noPrimitive
  | instanceTarget
  | instancePrototype (shown : String)
  | searchTarget (key shown : String)
  | memberRead (key shown : String)
  | memberWrite (key shown : String)
  | memberOnPrimitive (key type shown : String)
  | destructured (shown : String)
  | iteratorResult (shown : String)
  | notIterable (shown : String)
  | iteratorNotObject
  | constant
  | namedConstant (name : String)
  | globalFunction (name : String)
  | globalVariable (name : String)
  | reported (message : String)

def TypeCause.message : TypeCause → String
  | .symbolToNumber => "Cannot convert a Symbol value to a number"
  | .symbolToText => "Cannot convert a Symbol value to a string"
  | .noObject v => "Cannot convert " ++ v ++ " to object"
  | .readOnly k => "Cannot assign to read only property '" ++ k ++ "' of object"
  | .redefinition k => "Cannot redefine property: " ++ k
  | .undeletable k => "Cannot delete property '" ++ k ++ "' of object"
  | .notArray => "not an array"
  | .bindTarget => "Bind must be called on a function"
  | .notFunction v => "Not a function: " ++ v
  | .memberNotFunction n => "'" ++ n ++ "' is not a function"
  | .notConstructor v => v ++ " is not a constructor"
  | .evalNotFunction => "'eval' is not a function"
  | .noCompiler => "eval is not supported: no compiler installed"
  | .noPrimitive => "Cannot convert object to primitive value"
  | .instanceTarget => "Right-hand side of 'instanceof' is not callable"
  | .instancePrototype v => "Function has non-object prototype '" ++ v ++ "' in instanceof check"
  | .searchTarget k v => "Cannot use 'in' operator to search for '" ++ k ++ "' in " ++ v
  | .memberRead k v => "Cannot access member '" ++ k ++ "' of " ++ v
  | .memberWrite k v => "Cannot set property '" ++ k ++ "' of " ++ v
  | .memberOnPrimitive k t v => "Cannot create property '" ++ k ++ "' on " ++ t ++ " '" ++ v ++ "'"
  | .destructured v => "Cannot destructure '" ++ v ++ "' as it is " ++ v ++ "."
  | .iteratorResult v => "Iterator result " ++ v ++ " is not an object"
  | .notIterable v => v ++ " is not iterable"
  | .iteratorNotObject => "Result of the Symbol.iterator method is not an object"
  | .constant => "Assignment to constant variable."
  | .namedConstant n => "Assignment to constant variable '" ++ n ++ "'."
  | .globalFunction n => "Cannot redefine global function '" ++ n ++ "'"
  | .globalVariable n =>
    "Cannot define global variable '" ++ n ++ "', global object is not extensible"
  | .reported m => m

inductive RangeCause where
  | callDepth
  | arrayLength
  | reported (message : String)

def RangeCause.message : RangeCause → String
  | .callDepth => "Maximum call stack size exceeded"
  | .arrayLength => "Invalid array length"
  | .reported m => m

/-- Why source text or a declaration was refused. -/
inductive SyntaxCause where
  | redeclared (name : String)
  | reported (message : String)

def SyntaxCause.message : SyntaxCause → String
  | .redeclared n => "Identifier '" ++ n ++ "' has already been declared"
  | .reported m => m

/-- How bytecode broke the rules of the machine. -/
inductive InternalCause where
  | noProgram
  | outsideProgram (pc : Nat)
  | jumpBeforeStart (target : Int)
  | constant (index : Nat)
  | noCallee
  | returnWithoutCallee
  | copyUnderflow
  | operandUnderflow
  | slotAboveTop (slot top : Nat)
  | frameUnderflow
  | callOperands
  | constructOperands
  | variadicMarker
  | variadicOperands
  | outsideFunction
  | receiverStore
  | missingArgumentStore
  | missingArgumentInit
  | missingArgumentReference
  | scopeLevel
  | scopeSlot (index : Nat)
  | bindingSlot (name : String)
  | referenceUnderflow
  | entryArguments
  | bodyBelowFrame
  | outermostScope
  | blockBelowFrame
  | loopUnderflow
  | cursorExpected
  | iteratorExpected
  | restFromCursor
  | literalTarget (shown : String)
  | reported (message : String)

def InternalCause.message : InternalCause → String
  | .noProgram => "dispatch without a program"
  | .outsideProgram pc => s!"pc {pc} outside the program"
  | .jumpBeforeStart target => s!"jump to {target} before program start"
  | .constant index => s!"constant {index} out of range"
  | .noCallee => "frame without a callee slot"
  | .returnWithoutCallee => "return from a frame without a callee slot"
  | .copyUnderflow => "stack underflow"
  | .operandUnderflow => "operand stack underflow"
  | .slotAboveTop slot top => s!"stack slot {slot} above stack pointer {top}"
  | .frameUnderflow => "call frame underflow"
  | .callOperands => "call operands missing"
  | .constructOperands => "construct operands missing"
  | .variadicMarker => "variadic call without a marker"
  | .variadicOperands => "variadic call operands missing"
  | .outsideFunction => "stack slot access outside a function frame"
  | .receiverStore => "illegal store into the receiver slot"
  | .missingArgumentStore => "store into a missing argument slot"
  | .missingArgumentInit => "init of a missing argument slot"
  | .missingArgumentReference => "reference to a missing argument slot"
  | .scopeLevel => "scope level out of range"
  | .scopeSlot index => s!"stash slot {index} out of range"
  | .bindingSlot name => "no slot for binding '" ++ name ++ "'"
  | .referenceUnderflow => "reference stack underflow"
  | .entryArguments => "function entry without arguments on the stack"
  | .bodyBelowFrame => "function body entry below the frame"
  | .outermostScope => "left the outermost scope"
  | .blockBelowFrame => "block exit below the frame"
  | .loopUnderflow => "iterator stack underflow"
  | .cursorExpected => "EnumNext on an iterator record"
  | .iteratorExpected => "iterator step on a for-in cursor"
  | .restFromCursor => "array rest on a for-in cursor"
  | .literalTarget v => "literal target " ++ v ++ " is not an object"
  | .reported m => m

end ScriptMachine
