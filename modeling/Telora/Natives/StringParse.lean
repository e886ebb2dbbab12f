import Telora.Json.Lowering
import Telora.Library.Grouping
import Telora.Natives.Regex
import Telora.Natives.ValueRef

/-!
# Parsing texts by type

A parse plan is made of type metadata. A struct is parsed by the regular expression that its
attributes carry, once its captures are known to fit the fields: the names are the same, and
the optional fields are those whose captures may be absent. What a plan makes of a text is a
value of the type.
-/

namespace Telora.StringParse

open Library

section

variable (engine : RegexEngine)

mutual

inductive ParsePlan where
  | string
  | int
  | float
  | regex (compiled : CompiledRegex engine) (fields : List (String × FieldPlan))

inductive FieldPlan where
  | mk (plan : ParsePlan) (optional : Bool)

end

end

inductive ParsedValue where
  | string (value : List Char)
  | int (value : Int)
  | float (value : F64)
  | none
  | some (value : ParsedValue)
  | struct (fields : List (String × ParsedValue))

def parseRegex : Provider where
  key := "std/string.parse"
  tag := "Regex"
  typeName := "std/regex#Regex"
  invalid := "regex parse provider has an invalid payload"

variable {engine : RegexEngine}

section Plan

/-- A failure counts as no result. -/
def recovered {α : Type} (run : NativeRun α) : NativeRun (Option α) :=
  ExceptT.mk (run.run.map fun outcome => .ok outcome.toOption)

/-- The two variants of an option type, and the metadata of its payload. -/
def optionVariants (inner : ValueRef) : Option (ValueRef × ValueRef) :=
  if inner.metadataKind = some "Enum" then
    (inner.dictGet "variants").bind fun variants =>
      if variants.dictFields = some ["None", "Some"] then
        (variants.dictGet "None").bind fun absent => (variants.dictGet "Some").map (absent, ·)
      else none
  else none

def optionPayload (fuel : Nat) (metadata : ValueRef) : NativeRun (Option ValueRef) := do
  let inner ← recovered (strippedMetadata fuel metadata)
  match inner.bind optionVariants with
  | none => return none
  | some (absent, payload) => do
      let absent ← recovered (strippedMetadata fuel absent)
      if absent.bind ValueRef.asAtom ≠ some "None" then return none
      else do
        let payload ← recovered (strippedMetadata fuel payload)
        return payload.filter fun payload => payload.asAtom ≠ some "None"

def presence (optional : Bool) : String := if optional then "optional" else "required"

def debugNames (names : List String) : String :=
  "[" ++ String.intercalate ", " (names.map String.quote) ++ "]"

variable (downcast : OpaquePayload → Option (CompiledRegex engine)) (fuel : Nat)

/-- The plan of one field, whose capture may be absent when the field is optional. -/
def fieldPlan (planField : ValueRef → NativeRun (ParsePlan engine))
    (compiled : CompiledRegex engine) (fields : ValueRef) (name : String) :
    NativeRun (String × FieldPlan engine) := do
  let metadata ← orThrow "field name came from metadata" (fields.dictGet name)
  let payload ← optionPayload fuel metadata
  let plan ← ExceptT.adapt
    (fun message => "regex field " ++ name.quote ++ " is not string-parsable: " ++ message)
    (planField (payload.getD metadata))
  let captureOptional := decide (name ∉ compiled.required)
  if captureOptional ≠ payload.isSome then
    throw ("regex capture " ++ name.quote ++ " is " ++ presence captureOptional ++
      ", but its field is " ++ presence payload.isSome)
  else return (name, .mk plan payload.isSome)

def validateRelation (planField : ValueRef → NativeRun (ParsePlan engine))
    (compiled : CompiledRegex engine) (metadata : ValueRef) :
    NativeRun (List (String × FieldPlan engine)) := do
  let inner ← strippedMetadata fuel metadata
  if inner.metadataKind ≠ some "Struct" then
    throw "std/regex.parse_by requires a struct type"
  else do
    let fields ← orThrow "struct type metadata has no fields" (inner.dictGet "fields")
    let found ← orThrow "struct fields metadata must be a Dict" fields.dictFields
    let names := distinctBy id found
    if names ≠ compiled.captures then
      let missing := names.filter (· ∉ compiled.captures)
      let extra := compiled.captures.filter (· ∉ names)
      throw ("regex captures must match struct fields; missing captures " ++
        debugNames missing ++ ", extra captures " ++ debugNames extra)
    else
      names.mapM (fieldPlan fuel planField compiled fields)

/-- The plan of type metadata; a type that contains itself has none. -/
def parsePlan : Nat → ValueRef → NativeRun (ParsePlan engine)
  | 0, _ => outOfFuel
  | depth + 1, metadata => do
      let attached ← attachedProvider parseRegex downcast fuel metadata
      match attached with
      | some compiled => do
          let fields ← validateRelation fuel (parsePlan depth) compiled metadata
          return .regex compiled fields
      | none => do
          let inner ← strippedMetadata fuel metadata
          if inner.metadataKind = some "String" then return .string
          else if inner.metadataKind = some "Int" then return .int
          else if inner.metadataKind = some "Float" then return .float
          else throw "type has no std/string.parse capability"

end Plan

inductive ParseFailure where
  | invalidInt
  | invalidFloat
  | noMatch
  | absent (name : String)
  | capture (name : String) (failure : ParseFailure)
  deriving DecidableEq

/-- A required capture was absent, here or further inside. -/
def ParseFailure.IsAbsence : ParseFailure → Prop
  | .absent _ => True
  | .capture _ failure => failure.IsAbsence
  | _ => False

mutual

def executePlan (plan : ParsePlan engine) (input : List Char) :
    Except ParseFailure ParsedValue :=
  match plan with
  | .string => .ok (.string input)
  | .int =>
      match Json.parseI64 input with
      | some value => .ok (.int value)
      | none => .error .invalidInt
  | .float =>
      match F64.parse input with
      | some value => .ok (.float value)
      | none => .error .invalidFloat
  | .regex compiled fields =>
      match engine.captures compiled.regex input with
      | some captures => (executeFields fields captures).map .struct
      | none => .error .noMatch
termination_by structural plan

def executeFields (fields : List (String × FieldPlan engine))
    (captures : String → Option (List Char)) :
    Except ParseFailure (List (String × ParsedValue)) :=
  match fields with
  | [] => .ok []
  | field :: rest => do
      let value ← executeEntry field captures
      let values ← executeFields rest captures
      return value :: values
termination_by structural fields

def executeEntry (field : String × FieldPlan engine) (captures : String → Option (List Char)) :
    Except ParseFailure (String × ParsedValue) :=
  match field with
  | (name, field) => do
      let value ← executeField field name (captures name)
      return (name, value)
termination_by structural field

def executeField (field : FieldPlan engine) (name : String) (text : Option (List Char)) :
    Except ParseFailure ParsedValue :=
  match field with
  | .mk plan optional =>
      match text with
      | some text => do
          let value ← (executePlan plan text).mapError (.capture name)
          return if optional then .some value else value
      | none => if optional then .ok .none else .error (.absent name)
termination_by structural field

end

mutual

def materialize : ParsedValue → Value
  | .string value => .string (String.ofList value)
  | .int value => .int value
  | .float value => .float value
  | .none => .atom (.builtin .none)
  | .some value => .tagged (.builtin .some) (materialize value)
  | .struct fields => .dict (fields.map (·.1)) (materializeFields fields)
termination_by structural value => value

def materializeFields : List (String × ParsedValue) → List Value
  | [] => []
  | field :: rest => materializeField field :: materializeFields rest
termination_by structural fields => fields

def materializeField : String × ParsedValue → Value
  | (_, value) => materialize value
termination_by structural field => field

end

end Telora.StringParse
