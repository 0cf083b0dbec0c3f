import ScriptMachine.Program.Assembler
import ScriptMachine.Program.Listing

/-!
# Reading instructions

An instruction is written as its mnemonic with operands: numbers, flags and names in a fixed order, or a record of
named operands.  A flag that is not given is off, and a number missing from a record is zero.
-/

namespace ScriptMachine

inductive Operand where
  | number (n : Int)
  | flag (b : Bool)
  | text (t : Text)
  | list (items : List Operand)
  | record (fields : List (String × Operand))

namespace Operand

def int? : Operand → Option Int
  | .number n => some n
  | _ => none

def nat? (o : Operand) : Option Nat := o.int?.map Int.toNat

def text? : Operand → Option Text
  | .text t => some t
  | _ => none

def isTrue : Operand → Bool
  | .flag b => b
  | _ => false

def field? (name : String) : Operand → Option Operand
  | .record fields => fields.lookup name
  | _ => none

def natField (name : String) (o : Operand) : Nat := ((o.field? name).bind nat?).getD 0

def isOn (name : String) (o : Operand) : Bool := (o.field? name).any isTrue

def textsField? (name : String) (o : Operand) : Option (List Text) :=
  match o.field? name with
  | some (.list items) => items.mapM text?
  | some _ => none
  | none => some []

def bindingKind? : Operand → Option BindingKind
  | .text t =>
    match t.display with
    | "var" => some (.hoisted false)
    | "vard" => some (.hoisted true)
    | "let" => some .lexical
    | "const" => some (.constant false)
    | "consts" => some (.constant true)
    | _ => none
  | _ => none

def binding? : Operand → Option (Text × BindingKind)
  | .list [name, kind] => do return (← name.text?, ← kind.bindingKind?)
  | _ => none

def scopeNames? : Operand → Option ScopeNames
  | .list items => (items.mapM binding?).map .ofList
  | _ => none

def namesField? (o : Operand) : Option (Option ScopeNames) :=
  match o.field? "names" with
  | some names => names.scopeNames?.map some
  | none => some none

def layout? (o : Operand) : Option ScopeLayout :=
  o.namesField?.map fun names => ⟨names, o.natField "stash", o.natField "stack"⟩

def functionEntry? (o : Operand) : Option FunctionEntry :=
  o.namesField?.map fun names =>
    ⟨names, o.natField "stash", o.natField "stack", o.natField "num_args", o.isOn "args_to_stash"⟩

def parameterEntry? (o : Operand) : Option ParameterEntry :=
  o.namesField?.map fun names => ⟨names, o.natField "stash", o.natField "num_args", o.natField "args_to_copy"⟩

def globals? (o : Operand) : Option GlobalBindings := do
  return ⟨← o.textsField? "vars", ← o.textsField? "funcs", ← o.textsField? "lets", ← o.textsField? "consts",
    o.isOn "deletable"⟩

def target? (o : Operand) : Option DynamicName :=
  ((o.field? "name").bind text?).map fun name => ⟨name, o.natField "level"⟩

def dynamicRead? (o : Operand) : Option DynamicRead :=
  o.target?.map fun target => ⟨target, o.isOn "callee", o.isOn "lexical"⟩

def dynamicWrite? (o : Operand) : Option DynamicWrite := do
  return ⟨← o.target?, ← (o.field? "kind").bind bindingKind?, o.isOn "strict"⟩

def slot? (o : Operand) : Option SlotAddress :=
  ((o.field? "index").bind int?).map fun index => ⟨index, o.isOn "args_in_stash"⟩

end Operand

namespace Instruction

def mnemonic (i : Instruction) : String := (i.parts fun _ => "").1

def plain : List Instruction :=
  List.flatten [
    [.loadUndefined, .loadEmpty, .loadGlobalObject, .loadCallee, .loadNewTarget, .saveResult, .clearResult, .pop, .dup,
      .halt, .getValue, .initValue, .add, .not, .instanceOf, .hasIn, .typeOf, .toPropertyKey, .toText, .defineElement,
      .setPrototype, .newObject, .pushItem, .pushItems, .pushArguments, .restArray, .copyMembers, .restObject,
      .checkCoercible, .startVariadic, .callVariadic, .endVariadic, .constructVariadic, .ret, .boxReceiver, .copyScope,
      .restFromScope, .enterWith, .leaveWith, .enumerate, .loopValue, .leaveLoop, .closeLoop, .nextItemOrUndefined,
      .endFinally, .raise, .iterate false, .iterate true],
    [.toNumber, .plus, .neg, .inc, .dec, .bitNot].map unary,
    [.sub, .mul, .div, .mod].map arith,
    [.and, .or, .xor, .shiftLeft, .shiftRight, .shiftRightZero].map bitwise,
    [.less, .lessEqual, .greater, .greaterEqual].map relation,
    [.equality false false, .equality false true, .equality true false, .equality true true],
    [.plain, .convertedKey, .callee].map getElement]

def jumpForms : List Assembler.JumpForm :=
  [.nextKey, .nextItem, .jump .always, .jump .falsy, .jump .truthy, .jump .keepTruthy, .jump .keepFalsy,
    .jump .keepDefined, .jump .defined]

def jumpForm? (mnemonic : String) : Option Assembler.JumpForm :=
  jumpForms.find? fun form => (form.make 0).mnemonic == mnemonic

def readSlot? (mnemonic : String) (index : Int) (popped : Bool) : Option Instruction :=
  let slots : List SlotAddress := [⟨index, false⟩, ⟨index, true⟩]
  (slots.flatMap fun s =>
    [.initSlot s, .loadSlot s false, .loadSlot s true, .storeSlot s false popped, .storeSlot s true popped]).find?
      fun i => i.mnemonic == mnemonic

def readCount? (mnemonic : String) (n : Nat) (rest : List Operand) : Option Instruction :=
  let second := (rest[0]?).bind Operand.nat?
  let address := second.map fun m => ScopeAddress.mk n m
  let on (i : Nat) : Bool := (rest[i]?).any Operand.isTrue
  let forms : List (String × Option Instruction) := [
    ("LoadVal", some (.loadConstant n)),
    ("DupN", some (.copyFrom n)),
    ("RDupN", some (.copyTo n)),
    ("ConcatStrings", some (.concat n)),
    ("NewArray", some (.newArray n)),
    ("Call", some (.call n)),
    ("New", some (.construct n)),
    ("CreateArgsMapped", some (.createArguments n true)),
    ("CreateArgsUnmapped", some (.createArguments n false)),
    ("CreateArgsRestStack", some (.restFromStack n)),
    ("LoadStash", address.map (.loadScope · false)),
    ("LoadStashLex", address.map (.loadScope · true)),
    ("InitStash", address.map .initScope),
    ("StoreStash", address.map (.storeScope · false (on 1))),
    ("StoreStashLex", address.map (.storeScope · true (on 1))),
    ("CallEval", some (.callEval n (on 0))),
    ("LeaveBlock", some (.leaveBlock n (on 0))),
    ("EnterFuncStashless", second.map (.enterBare n))]
  (forms.lookup mnemonic).join

def readNumber? (mnemonic : String) (n : Int) (rest : List Operand) : Option Instruction :=
  (jumpForm? mnemonic).map (·.make n)
    <|> readSlot? mnemonic n ((rest[0]?).any Operand.isTrue)
    <|> (if mnemonic = "Try" then ((rest[0]?).bind Operand.int?).map (.guard n) else none)
    <|> readCount? mnemonic n.toNat rest

def readName? (templates : Text → Option FunctionTemplate) (mnemonic : String) (name : Text) (rest : List Operand) :
    Option Instruction :=
  let on (i : Nat) : Bool := (rest[i]?).any Operand.isTrue
  let forms : List (String × Option Instruction) := [
    ("InitGlobal", some (.initGlobal name)),
    ("LoadDynamic", some (.loadName name)),
    ("LoadDynamicRef", some (.loadNameOrMarker name)),
    ("LoadDynamicCallee", some (.loadNameCallee name)),
    ("DeleteVar", some (.deleteName name)),
    ("DeleteGlobal", some (.deleteGlobal name)),
    ("GetProp", some (.getMember name false)),
    ("GetPropCallee", some (.getMember name true)),
    ("SetProp1", some (.defineMember name)),
    ("ThrowAssignToConst", some (.raiseConstant name)),
    ("ResolveVar1", some (.resolveName name (on 0))),
    ("SetGlobal", some (.setGlobal name (on 0))),
    ("GetPropRef", some (.memberReference name (on 0))),
    ("DeleteProp", some (.deleteMember name (on 0))),
    ("SetProp", some (.setMember name (on 0) (on 1))),
    ("NewFunc", (templates name).map (.newFunction .normal)),
    ("NewMethod", (templates name).map (.newFunction .method)),
    ("NewArrowFunc", (templates name).map (.newFunction .arrow))]
  (forms.lookup mnemonic).join

def readFlags? (mnemonic : String) (first second : Bool) : Option Instruction :=
  let forms : List (String × Option Instruction) := [
    ("SetElem", some (.setElement first second)),
    ("GetElemRef", some (.elementReference first)),
    ("DeleteElem", some (.deleteElement first)),
    ("CallEvalVariadic", some (.callEvalVariadic first)),
    ("PutValue", some (.putValue first))]
  (forms.lookup mnemonic).join

def readRecord? (mnemonic : String) (o : Operand) : Option Instruction :=
  let forms : List (String × Option Instruction) := [
    ("EnterFunc", o.functionEntry?.map .enterFunction),
    ("EnterFunc1", o.parameterEntry?.map .enterParameters),
    ("EnterFuncBody", o.layout?.map fun layout => .enterBody ⟨layout, o.isOn "adjust_stack"⟩),
    ("EnterBlock", o.layout?.map .enterBlock),
    ("EnterCatchBlock", o.layout?.map .enterCatch),
    ("BindVars", (o.textsField? "names").map fun names => .bindVars ⟨names, o.isOn "deletable"⟩),
    ("BindGlobal", o.globals?.map .bindGlobals),
    ("LoadMixed", o.dynamicRead?.map (.loadMixed · (o.natField "index"))),
    ("LoadMixedStack", do return .loadMixedSlot (← o.dynamicRead?) (← o.slot?)),
    ("ResolveMixed", o.dynamicWrite?.map (.resolveMixed · (o.natField "index"))),
    ("ResolveMixedStack", do return .resolveMixedSlot (← o.dynamicWrite?) (← o.slot?))]
  (forms.lookup mnemonic).join

def read? (templates : Text → Option FunctionTemplate) (mnemonic : String) (operands : List Operand) :
    Option Instruction :=
  plain.find? (fun i => i.mnemonic == mnemonic) <|>
    match operands with
    | .number n :: rest => readNumber? mnemonic n rest
    | .text name :: rest => readName? templates mnemonic name rest
    | .record fields :: _ => readRecord? mnemonic (.record fields)
    | _ => readFlags? mnemonic ((operands[0]?).any Operand.isTrue) ((operands[1]?).any Operand.isTrue)

end Instruction

end ScriptMachine
