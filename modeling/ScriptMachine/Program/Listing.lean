import ScriptMachine.Program

/-!
# Program listings

The printed form of instructions: a mnemonic, alone, with operands in parentheses, or with named operands in
braces.
-/

namespace ScriptMachine

inductive Operands where
  | none
  | positional (operands : List String)
  | named (operands : List (String × String))

namespace Operands

def record (name : String) (fields : List (String × String)) : String :=
  name ++ " \x7b " ++ ", ".intercalate (fields.map fun f => f.1 ++ ": " ++ f.2) ++ " \x7d"

def print (mnemonic : String) : Operands → String
  | .none => mnemonic
  | .positional ops => mnemonic ++ "(" ++ ", ".intercalate ops ++ ")"
  | .named fields => record mnemonic fields

end Operands

open Operands (record)

def BindingKind.print : BindingKind → String
  | .hoisted deletable => record "Var" [("deletable", toString deletable)]
  | .lexical => "Let"
  | .constant strict => record "Const" [("strict", toString strict)]

def SlotInfo.print (s : SlotInfo) : String := record "SlotInfo" [("index", toString s.index), ("kind", s.kind.print)]

def ScopeNames.print (names : ScopeNames) : String :=
  "\x7b" ++ ", ".intercalate (names.entries.map fun e => e.1.quoted ++ ": " ++ e.2.print) ++ "\x7d"

def printOption (print : α → String) : Option α → String
  | none => "None"
  | some a => "Some(" ++ print a ++ ")"

def printList (print : α → String) (xs : List α) : String := "[" ++ ", ".intercalate (xs.map print) ++ "]"

def ScopeLayout.print (l : ScopeLayout) : String :=
  record "ScopeLayout" [("names", printOption ScopeNames.print l.names),
    ("stash_size", toString l.scopeSize), ("stack_size", toString l.stackSize)]

def FunctionEntry.print (e : FunctionEntry) : String :=
  record "FuncEntry" [("names", printOption ScopeNames.print e.names),
    ("stash_size", toString e.scopeSize), ("stack_size", toString e.stackSize),
    ("num_args", toString e.params), ("args_to_stash", toString e.argsToScope)]

def ParameterEntry.print (e : ParameterEntry) : String :=
  record "FuncEntry1" [("names", printOption ScopeNames.print e.names),
    ("stash_size", toString e.scopeSize), ("num_args", toString e.params),
    ("args_to_copy", toString e.copied)]

def BodyEntry.print (e : BodyEntry) : String :=
  record "FuncBodyEntry" [("layout", e.layout.print), ("adjust_stack", toString e.overArguments)]

def VarBindings.print (b : VarBindings) : String :=
  record "VarBindings" [("names", printList Text.quoted b.names), ("deletable", toString b.deletable)]

def GlobalBindings.print (b : GlobalBindings) : String :=
  record "GlobalBindings" [("vars", printList Text.quoted b.vars), ("funcs", printList Text.quoted b.funcs),
    ("lets", printList Text.quoted b.lets), ("consts", printList Text.quoted b.consts),
    ("deletable", toString b.deletable)]

def ScopeAddress.print (a : ScopeAddress) : String :=
  record "StashIndex" [("level", toString a.level), ("index", toString a.index)]

def DynamicRead.print (kind : String) (index : String) (r : DynamicRead)
    (more : List (String × String)) : String :=
  record kind ([("name", r.target.name.quoted), ("level", toString r.target.level), ("index", index),
    ("callee", toString r.callee), ("lexical", toString r.lexical)] ++ more)

def DynamicWrite.print (kind : String) (index : String) (w : DynamicWrite)
    (more : List (String × String)) : String :=
  record kind ([("name", w.target.name.quoted), ("level", toString w.target.level), ("index", index),
    ("kind", w.kind.print), ("strict", toString w.strict)] ++ more)

def JumpTest.mnemonic : JumpTest → String
  | .always => "Jump"
  | .falsy => "Jne"
  | .truthy => "Jeq"
  | .keepTruthy => "Jeq1"
  | .keepFalsy => "Jneq1"
  | .keepDefined => "Jdef"
  | .defined => "JdefP"

def UnaryOp.mnemonic : UnaryOp → String
  | .toNumber => "ToNumber"
  | .plus => "Plus"
  | .neg => "Neg"
  | .inc => "Inc"
  | .dec => "Dec"
  | .bitNot => "BNot"

def ArithOp.mnemonic : ArithOp → String
  | .sub => "Sub"
  | .mul => "Mul"
  | .div => "Div"
  | .mod => "Mod"

def BitOp.mnemonic : BitOp → String
  | .and => "And"
  | .or => "Or"
  | .xor => "Xor"
  | .shiftLeft => "Sal"
  | .shiftRight => "Sar"
  | .shiftRightZero => "Shr"

def Relation.mnemonic : Relation → String
  | .less => "Lt"
  | .lessEqual => "Lte"
  | .greater => "Gt"
  | .greaterEqual => "Gte"

/-- Mnemonics of slot instructions end in `1` when the arguments live in the scope record, and then in `Lex` for
lexical bindings. -/
def SlotAddress.mnemonic (verb : String) (s : SlotAddress) (lexical : Bool) : String :=
  verb ++ "Stack" ++ (if s.argsInScope then "1" else "") ++ (if lexical then "Lex" else "")

def Instruction.parts (showProgram : ProgramId → String) : Instruction → String × Operands
  | .loadConstant i => ("LoadVal", .positional [toString i])
  | .loadUndefined => ("LoadUndef", .none)
  | .loadEmpty => ("LoadEmpty", .none)
  | .loadGlobalObject => ("LoadGlobalObject", .none)
  | .loadCallee => ("LoadCallee", .none)
  | .loadNewTarget => ("LoadNewTarget", .none)
  | .saveResult => ("SaveResult", .none)
  | .clearResult => ("ClearResult", .none)
  | .pop => ("Pop", .none)
  | .dup => ("Dup", .none)
  | .copyFrom n => ("DupN", .positional [toString n])
  | .copyTo n => ("RDupN", .positional [toString n])
  | .halt => ("Halt", .none)
  | .loadSlot s lexical => (s.mnemonic "Load" lexical, .positional [toString s.index])
  | .storeSlot s lexical popped =>
    (s.mnemonic "Store" lexical, .named [("index", toString s.index), ("pop", toString popped)])
  | .initSlot s => (s.mnemonic "Init" false, .positional [toString s.index])
  | .loadScope a lexical => (if lexical then "LoadStashLex" else "LoadStash", .positional [a.print])
  | .storeScope a lexical popped =>
    (if lexical then "StoreStashLex" else "StoreStash", .named [("at", a.print), ("pop", toString popped)])
  | .initScope a => ("InitStash", .positional [a.print])
  | .initGlobal name => ("InitGlobal", .positional [name.quoted])
  | .loadMixed r index => ("LoadMixed", .positional [r.print "MixedLoad" (toString index) []])
  | .loadMixedSlot r s => ("LoadMixedStack", .positional [r.print "MixedStackLoad" (toString s.index)
      [("args_in_stash", toString s.argsInScope)]])
  | .resolveMixed w index => ("ResolveMixed", .positional [w.print "MixedResolve" (toString index) []])
  | .resolveMixedSlot w s => ("ResolveMixedStack", .positional [w.print "MixedStackResolve" (toString s.index)
      [("args_in_stash", toString s.argsInScope)]])
  | .resolveName name strict => ("ResolveVar1", .named [("name", name.quoted), ("strict", toString strict)])
  | .loadName name => ("LoadDynamic", .positional [name.quoted])
  | .loadNameOrMarker name => ("LoadDynamicRef", .positional [name.quoted])
  | .loadNameCallee name => ("LoadDynamicCallee", .positional [name.quoted])
  | .deleteName name => ("DeleteVar", .positional [name.quoted])
  | .deleteGlobal name => ("DeleteGlobal", .positional [name.quoted])
  | .setGlobal name strict => ("SetGlobal", .named [("name", name.quoted), ("strict", toString strict)])
  | .getValue => ("GetValue", .none)
  | .putValue popped => ("PutValue", .named [("pop", toString popped)])
  | .initValue => ("InitValueP", .none)
  | .unary op => (op.mnemonic, .none)
  | .add => ("Add", .none)
  | .arith op => (op.mnemonic, .none)
  | .bitwise op => (op.mnemonic, .none)
  | .not => ("Not", .none)
  | .relation r => (r.mnemonic, .none)
  | .equality strict negated =>
    ((if strict then "Strict" else "") ++ (if negated then "Neq" else "Eq"), .none)
  | .instanceOf => ("InstanceOf", .none)
  | .hasIn => ("In", .none)
  | .typeOf => ("TypeOf", .none)
  | .toPropertyKey => ("ToPropertyKey", .none)
  | .toText => ("ToString", .none)
  | .concat n => ("ConcatStrings", .positional [toString n])
  | .jump test offset => (test.mnemonic, .positional [toString offset])
  | .getMember name callee => (if callee then "GetPropCallee" else "GetProp", .positional [name.quoted])
  | .getElement .plain => ("GetElem", .none)
  | .getElement .convertedKey => ("GetKey", .none)
  | .getElement .callee => ("GetElemCallee", .none)
  | .setMember name strict popped =>
    ("SetProp", .named [("name", name.quoted), ("strict", toString strict), ("pop", toString popped)])
  | .setElement strict popped => ("SetElem", .named [("strict", toString strict), ("pop", toString popped)])
  | .defineElement => ("SetElem1", .none)
  | .defineMember name => ("SetProp1", .positional [name.quoted])
  | .setPrototype => ("SetProto", .none)
  | .memberReference name strict =>
    ("GetPropRef", .named [("name", name.quoted), ("strict", toString strict)])
  | .elementReference strict => ("GetElemRef", .named [("strict", toString strict)])
  | .deleteMember name strict =>
    ("DeleteProp", .named [("name", name.quoted), ("strict", toString strict)])
  | .deleteElement strict => ("DeleteElem", .named [("strict", toString strict)])
  | .newObject => ("NewObject", .none)
  | .newArray n => ("NewArray", .positional [toString n])
  | .pushItem => ("PushArrayItem", .none)
  | .pushItems => ("PushArraySpread", .none)
  | .pushArguments => ("PushSpread", .none)
  | .restArray => ("NewArrayFromIter", .none)
  | .copyMembers => ("CopySpread", .none)
  | .restObject => ("CopyRest", .none)
  | .checkCoercible => ("CheckObjectCoercible", .none)
  | .startVariadic => ("StartVariadic", .none)
  | .callVariadic => ("CallVariadic", .none)
  | .endVariadic => ("EndVariadic", .none)
  | .constructVariadic => ("NewVariadic", .none)
  | .callEvalVariadic strict => ("CallEvalVariadic", .named [("strict", toString strict)])
  | .call n => ("Call", .positional [toString n])
  | .callEval n strict => ("CallEval", .named [("args", toString n), ("strict", toString strict)])
  | .construct n => ("New", .positional [toString n])
  | .ret => ("Ret", .none)
  | .boxReceiver => ("BoxThis", .none)
  | .newFunction form t =>
    ((match form with
      | .normal => "NewFunc"
      | .method => "NewMethod"
      | .arrow => "NewArrowFunc"),
      .positional [record "FuncTemplate" [("program", showProgram t.program), ("name", t.name.quoted),
        ("length", toString t.length), ("strict", toString t.strict)]])
  | .enterFunction e => ("EnterFunc", .positional [e.print])
  | .enterParameters e => ("EnterFunc1", .positional [e.print])
  | .enterBody e => ("EnterFuncBody", .positional [e.print])
  | .enterBare stackSize params =>
    ("EnterFuncStashless", .named [("stack_size", toString stackSize), ("num_args", toString params)])
  | .enterBlock l => ("EnterBlock", .positional [l.print])
  | .enterCatch l => ("EnterCatchBlock", .positional [l.print])
  | .leaveBlock stackSize leaveScope =>
    ("LeaveBlock", .named [("stack_size", toString stackSize), ("pop_stash", toString leaveScope)])
  | .copyScope => ("CopyStash", .none)
  | .bindVars b => ("BindVars", .positional [b.print])
  | .bindGlobals b => ("BindGlobal", .positional [b.print])
  | .createArguments n mapped =>
    (if mapped then "CreateArgsMapped" else "CreateArgsUnmapped", .positional [toString n])
  | .restFromStack n => ("CreateArgsRestStack", .positional [toString n])
  | .restFromScope => ("CreateArgsRestStash", .none)
  | .enterWith => ("EnterWith", .none)
  | .leaveWith => ("LeaveWith", .none)
  | .enumerate => ("Enumerate", .none)
  | .nextKey offset => ("EnumNext", .positional [toString offset])
  | .loopValue => ("EnumGet", .none)
  | .leaveLoop => ("EnumPop", .none)
  | .closeLoop => ("EnumPopClose", .none)
  | .iterate popped => (if popped then "IterateP" else "Iterate", .none)
  | .nextItem offset => ("IterNext", .positional [toString offset])
  | .nextItemOrUndefined => ("IterGetNextOrUndef", .none)
  | .guard catchOffset finallyOffset => ("Try",
      .named [("catch_offset", toString catchOffset), ("finally_offset", toString finallyOffset)])
  | .endFinally => ("RetFinally", .none)
  | .raise => ("Throw", .none)
  | .raiseConstant name => ("ThrowAssignToConst", .positional [name.quoted])

def Instruction.print (showProgram : ProgramId → String) (i : Instruction) : String :=
  let (mnemonic, operands) := i.parts showProgram
  operands.print mnemonic

def Program.print (p : Program) : String :=
  record "Program" [("func_name", p.name.quoted), ("code", toString p.code.size),
    ("values", toString p.constants.size)]

end ScriptMachine
