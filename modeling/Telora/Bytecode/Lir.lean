import Telora.Value.Value

/-!
# The register IR and its assembly

Assembly runs twice over the items of a function. The first pass gives every
label the index of the next operation. The second pass checks registers, call
windows and constants against the frame and replaces labels by those indices.
Linking then moves constants, texts and prototypes into tables.
-/

namespace Telora.Lir

open Bytecode

mutual

/-- A function of the register IR. -/
inductive Function where
  | mk (name : String) (parameterCount captureCount registerCount : Nat)
      (constants : List Value) (items : List Item)

inductive Item where
  | label (id : LabelId)
  | operation (value : Instr RegisterId ConstantId String Function LabelId)
      (origin : Origin)

end

abbrev Operation := Instr RegisterId ConstantId String Function LabelId

/-- An assembled instruction, still naming texts and nested functions. -/
abbrev Instruction := Instr Register Nat String FunctionRef Nat

namespace Function

def name : Function → String
  | .mk name _ _ _ _ _ => name

def registerCount : Function → Nat
  | .mk _ _ _ registerCount _ _ => registerCount

def parameterCount : Function → Nat
  | .mk _ parameterCount _ _ _ _ => parameterCount

def captureCount : Function → Nat
  | .mk _ _ captureCount _ _ _ => captureCount

def constants : Function → List Value
  | .mk _ _ _ _ constants _ => constants

def items : Function → List Item
  | .mk _ _ _ _ _ items => items

end Function

structure AssembleError where
  message : String
  deriving DecidableEq

/-- The first pass: each label is bound to the index of the next operation. -/
def collectLabels : List Item → Nat → List (LabelId × Nat) →
    Except AssembleError (List (LabelId × Nat))
  | [], _, labels => .ok labels
  | .label id :: rest, pc, labels =>
      if (labels.lookup id).isSome then
        .error ⟨s!"duplicate label {id}"⟩
      else
        collectLabels rest pc ((id, pc) :: labels)
  | .operation _ _ :: rest, pc, labels => collectLabels rest (pc + 1) labels

/-- Extend the last range when the origin repeats, otherwise open a new one. -/
def compressOrigins (origins : List Origin) : List DebugOriginRange :=
  (origins.zipIdx.foldl step []).reverse
where
  /-- The ranges are kept newest first. -/
  step : List DebugOriginRange → Origin × Nat → List DebugOriginRange
    | [], (origin, pc) => [⟨pc, pc + 1, origin⟩]
    | last :: rest, (origin, pc) =>
        if last.origin = origin ∧ last.stop = pc then
          { last with stop := last.stop + 1 } :: rest
        else
          ⟨pc, pc + 1, origin⟩ :: last :: rest

/-- The tables that linking fills. -/
structure LinkingTable where
  values : List Value
  externalValues : List (Option String)
  text : List String
  prototypes : List FunctionRef

namespace LinkingTable

/-- The index of a text, appended when no earlier entry equals it. -/
def linkText (links : LinkingTable) (value : String) : TextLinkId × LinkingTable :=
  match links.text.findIdx? (· == value) with
  | some index => (index, links)
  | none => (links.text.length, { links with text := links.text ++ [value] })

def linkFields (links : LinkingTable) :
    List (String × Register) → List (TextLinkId × Register) × LinkingTable
  | [] => ([], links)
  | (field, register) :: rest =>
      let (id, links) := links.linkText field
      let (fields, links) := linkFields links rest
      ((id, register) :: fields, links)

end LinkingTable

def linkInstruction (links : LinkingTable) : Instruction → Opcode × LinkingTable
  | .loadConst dst constant => (.loadConst dst constant, links)
  | .move dst src => (.move dst src, links)
  | .makeUpLink dst => (.makeUpLink dst, links)
  | .readUpLink dst link => (.readUpLink dst link, links)
  | .initializeUpLink link src => (.initializeUpLink link src, links)
  | .assertUpLinkReady link => (.assertUpLinkReady link, links)
  | .assertFunctionArity value arity => (.assertFunctionArity value arity, links)
  | .add dst left right => (.add dst left right, links)
  | .subtract dst left right => (.subtract dst left right, links)
  | .multiply dst left right => (.multiply dst left right, links)
  | .divide dst left right => (.divide dst left right, links)
  | .negate dst src => (.negate dst src, links)
  | .equal dst left right => (.equal dst left right, links)
  | .lessThan dst left right => (.lessThan dst left right, links)
  | .makeArray dst items => (.makeArray dst items, links)
  | .concatArrays dst arrays => (.concatArrays dst arrays, links)
  | .makeTuple dst items => (.makeTuple dst items, links)
  | .interpolateString dst parts => (.interpolateString dst parts, links)
  | .makeDict dst fields =>
      let (fields, links) := links.linkFields fields
      (.makeDict dst fields, links)
  | .mergeDicts dst dicts => (.mergeDicts dst dicts, links)
  | .getField dst dict field =>
      let (field, links) := links.linkText field
      (.getField dst dict field, links)
  | .fieldExists dst value field =>
      let (field, links) := links.linkText field
      (.fieldExists dst value field, links)
  | .isDict dst value => (.isDict dst value, links)
  | .tupleLengthEquals dst value length => (.tupleLengthEquals dst value length, links)
  | .getTuple dst tuple index => (.getTuple dst tuple index, links)
  | .taggedTagEquals dst value tag => (.taggedTagEquals dst value tag, links)
  | .getTaggedPayload dst value => (.getTaggedPayload dst value, links)
  | .makeClosure dst function captures =>
      (.makeClosure dst links.prototypes.length captures,
        { links with prototypes := links.prototypes ++ [function] })
  | .call base argumentCount => (.call base argumentCount, links)
  | .tailCall base argumentCount => (.tailCall base argumentCount, links)
  | .jump target => (.jump target, links)
  | .jumpIfFalse condition target => (.jumpIfFalse condition target, links)
  | .ret src => (.ret src, links)
  | .fail message => (.fail message, links)
  | .panic message => (.panic message, links)
  | .raise error => (.raise error, links)

def linkInstructions (links : LinkingTable) :
    List Instruction → List Opcode × LinkingTable
  | [] => ([], links)
  | instruction :: rest =>
      let (opcode, links) := linkInstruction links instruction
      let (opcodes, links) := linkInstructions links rest
      (opcode :: opcodes, links)

/-- Link the instructions of a function and move its data into one table. -/
def assembled (name : String) (parameterCount captureCount registerCount : Nat)
    (constants : List Value) (instructions : List Instruction)
    (debugOrigins : List DebugOriginRange) : BytecodeFunction :=
  let (opcodes, links) := linkInstructions
    ⟨constants, List.replicate constants.length none, [], []⟩ instructions
  .mk ⟨name, parameterCount, captureCount, registerCount, opcodes, debugOrigins⟩
    links.values links.externalValues links.text links.prototypes

section Lowering

variable (registerCount constantCount : Nat) (labels : List (LabelId × Nat))

def lowerRegister (id : RegisterId) : Except AssembleError Register :=
  if id ≥ registerCount then
    .error ⟨s!"register {id} is out of bounds"⟩
  else
    .ok id

def lowerRegisters (ids : List RegisterId) : Except AssembleError (List Register) :=
  ids.mapM (lowerRegister registerCount)

def lowerConstant (constant : ConstantId) : Except AssembleError Nat :=
  if constant ≥ constantCount then
    .error ⟨s!"constant {constant} is out of bounds"⟩
  else
    .ok constant

def lowerLabel (id : LabelId) : Except AssembleError Nat :=
  match labels.lookup id with
  | some target => .ok target
  | none => .error ⟨s!"undefined label {id}"⟩

/-- A call window is its base register followed by the arguments. -/
def lowerWindow (base : RegisterId) (argumentCount : Nat) : Except AssembleError Register := do
  let base ← lowerRegister registerCount base
  if base + argumentCount ≥ registerCount then
    .error ⟨"call window is out of bounds"⟩
  else
    .ok base

end Lowering

mutual

/-- Assemble a function. `fresh` is the address the next shared function gets. -/
def assemble (fresh : Nat) : Function → Except AssembleError (BytecodeFunction × Nat)
  | .mk name parameterCount captureCount registerCount constants items => do
      if parameterCount + captureCount > registerCount then
        throw ⟨"parameters and captures exceed the declared register count"⟩
      let labels ← collectLabels items 0 []
      let (instructions, origins, fresh) ←
        lowerItems registerCount constants.length labels fresh items
      if instructions.isEmpty then
        throw ⟨"function contains no executable instructions"⟩
      return (assembled name parameterCount captureCount registerCount constants
        instructions (compressOrigins origins), fresh)

/-- The second pass. -/
def lowerItems (registerCount constantCount : Nat) (labels : List (LabelId × Nat))
    (fresh : Nat) : List Item →
    Except AssembleError (List Instruction × List Origin × Nat)
  | [] => .ok ([], [], fresh)
  | .label _ :: rest => lowerItems registerCount constantCount labels fresh rest
  | .operation value origin :: rest => do
      let (instruction, fresh) ←
        lowerOperation registerCount constantCount labels fresh value
      let (instructions, origins, fresh) ←
        lowerItems registerCount constantCount labels fresh rest
      return (instruction :: instructions, origin :: origins, fresh)

def lowerOperation (registerCount constantCount : Nat) (labels : List (LabelId × Nat))
    (fresh : Nat) : Operation → Except AssembleError (Instruction × Nat)
  | .loadConst dst constant => do
      let constant ← lowerConstant constantCount constant
      return (.loadConst (← lowerRegister registerCount dst) constant, fresh)
  | .move dst src => do
      return (.move (← lowerRegister registerCount dst) (← lowerRegister registerCount src), fresh)
  | .makeUpLink dst => do
      return (.makeUpLink (← lowerRegister registerCount dst), fresh)
  | .readUpLink dst link => do
      return (.readUpLink (← lowerRegister registerCount dst)
        (← lowerRegister registerCount link), fresh)
  | .initializeUpLink link src => do
      return (.initializeUpLink (← lowerRegister registerCount link)
        (← lowerRegister registerCount src), fresh)
  | .assertUpLinkReady link => do
      return (.assertUpLinkReady (← lowerRegister registerCount link), fresh)
  | .assertFunctionArity value arity => do
      return (.assertFunctionArity (← lowerRegister registerCount value) arity, fresh)
  | .add dst left right => do
      return (.add (← lowerRegister registerCount dst) (← lowerRegister registerCount left)
        (← lowerRegister registerCount right), fresh)
  | .subtract dst left right => do
      return (.subtract (← lowerRegister registerCount dst) (← lowerRegister registerCount left)
        (← lowerRegister registerCount right), fresh)
  | .multiply dst left right => do
      return (.multiply (← lowerRegister registerCount dst) (← lowerRegister registerCount left)
        (← lowerRegister registerCount right), fresh)
  | .divide dst left right => do
      return (.divide (← lowerRegister registerCount dst) (← lowerRegister registerCount left)
        (← lowerRegister registerCount right), fresh)
  | .negate dst src => do
      return (.negate (← lowerRegister registerCount dst)
        (← lowerRegister registerCount src), fresh)
  | .equal dst left right => do
      return (.equal (← lowerRegister registerCount dst) (← lowerRegister registerCount left)
        (← lowerRegister registerCount right), fresh)
  | .lessThan dst left right => do
      return (.lessThan (← lowerRegister registerCount dst) (← lowerRegister registerCount left)
        (← lowerRegister registerCount right), fresh)
  | .makeArray dst items => do
      return (.makeArray (← lowerRegister registerCount dst)
        (← lowerRegisters registerCount items), fresh)
  | .concatArrays dst arrays => do
      return (.concatArrays (← lowerRegister registerCount dst)
        (← lowerRegisters registerCount arrays), fresh)
  | .makeTuple dst items => do
      return (.makeTuple (← lowerRegister registerCount dst)
        (← lowerRegisters registerCount items), fresh)
  | .interpolateString dst parts => do
      return (.interpolateString (← lowerRegister registerCount dst)
        (← lowerRegisters registerCount parts), fresh)
  | .makeDict dst fields => do
      let dst ← lowerRegister registerCount dst
      let fields ← fields.mapM fun (name, value) =>
        (lowerRegister registerCount value).map fun value => (name, value)
      return (.makeDict dst fields, fresh)
  | .mergeDicts dst dicts => do
      return (.mergeDicts (← lowerRegister registerCount dst)
        (← lowerRegisters registerCount dicts), fresh)
  | .getField dst dict field => do
      return (.getField (← lowerRegister registerCount dst)
        (← lowerRegister registerCount dict) field, fresh)
  | .fieldExists dst value field => do
      return (.fieldExists (← lowerRegister registerCount dst)
        (← lowerRegister registerCount value) field, fresh)
  | .isDict dst value => do
      return (.isDict (← lowerRegister registerCount dst)
        (← lowerRegister registerCount value), fresh)
  | .tupleLengthEquals dst value length => do
      return (.tupleLengthEquals (← lowerRegister registerCount dst)
        (← lowerRegister registerCount value) length, fresh)
  | .getTuple dst tuple index => do
      return (.getTuple (← lowerRegister registerCount dst)
        (← lowerRegister registerCount tuple) index, fresh)
  | .taggedTagEquals dst value tag => do
      return (.taggedTagEquals (← lowerRegister registerCount dst)
        (← lowerRegister registerCount value) (← lowerRegister registerCount tag), fresh)
  | .getTaggedPayload dst value => do
      return (.getTaggedPayload (← lowerRegister registerCount dst)
        (← lowerRegister registerCount value), fresh)
  | .makeClosure dst function captures => do
      let dst ← lowerRegister registerCount dst
      let (function, fresh) ← assemble fresh function
      let captures ← lowerRegisters registerCount captures
      return (.makeClosure dst (.mk fresh function) captures, fresh + 1)
  | .call base argumentCount => do
      return (.call (← lowerWindow registerCount base argumentCount) argumentCount, fresh)
  | .tailCall base argumentCount => do
      return (.tailCall (← lowerWindow registerCount base argumentCount) argumentCount, fresh)
  | .jump target => do
      return (.jump (← lowerLabel labels target), fresh)
  | .jumpIfFalse condition target => do
      return (.jumpIfFalse (← lowerRegister registerCount condition)
        (← lowerLabel labels target), fresh)
  | .ret src => do
      return (.ret (← lowerRegister registerCount src), fresh)
  | .fail message => .ok (.fail message, fresh)
  | .panic message => do
      return (.panic (← lowerRegister registerCount message), fresh)
  | .raise error => do
      return (.raise (← lowerRegister registerCount error), fresh)

end

end Telora.Lir
