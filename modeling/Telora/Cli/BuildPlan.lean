import Telora.Json.Writer
import Telora.Library.JsonReader

/-!
# The output plan of a build

A build entry returns the files it would write. Its plan is checked by hand, field by field, and
written as JSON by hand; the paths of the files have to be relative, normalized and different.
-/

namespace Telora.Cli

open Library

inductive PlanFailure where
  | panic
  | message (text : String)

def failed {α : Type} (text : String) : Except PlanFailure α := .error (.message text)

/-- The fields of a dict with the values they have. -/
structure Dict where
  fields : List String
  values : List Value

def Dict.get (dict : Dict) (field : String) : Except PlanFailure Value :=
  match dict.fields.idxOf? field with
  | none => .error .panic
  | some index =>
      match dict.values[index]? with
      | none => .error .panic
      | some value => .ok value

def expectDict (value : Value) (path : String) (fields : List String) : Except PlanFailure Dict :=
  match value with
  | .dict names values =>
      if names ≠ fields then failed s!"{path} has an invalid field shape" else .ok ⟨names, values⟩
  | value => failed s!"{path} must be a Dict, found {value.typeName}"

def expectString (value : Value) (path : String) : Except PlanFailure String :=
  match value with
  | .string text => .ok text
  | value => failed s!"{path} must be a String, found {value.typeName}"

def validatePath (path location : String) : Except PlanFailure Unit :=
  let text := path.toList
  if text = [] ∨ text.head? = some '/' ∨ '\\' ∈ text ∨
      (text.splitOn '/').any (· ∈ [[], ['.'], ['.', '.']]) then
    failed s!"{location} must be a normalized relative path using / separators"
  else .ok ()

/-- `char::is_control`: the codes below 32 and from 127 up to 159. -/
def isControl (c : Char) : Bool := c.toNat < 0x20 || (0x7f ≤ c.toNat && c.toNat < 0xa0)

def writeChar (c : Char) : List Char :=
  if c = '"' then ['\\', '"']
  else if c = '\\' then ['\\', '\\']
  else if c = '\n' then ['\\', 'n']
  else if c = '\r' then ['\\', 'r']
  else if c = '\t' then ['\\', 't']
  else if isControl c then '\\' :: 'u' :: Json.hexQuadText c.toNat
  else [c]

def writeString (value : String) : List Char := '"' :: (value.toList.flatMap writeChar ++ ['"'])

/-- The content and the path of an artifact. -/
def readArtifact (index : Nat) (artifact : Value) : Except PlanFailure (String × String) :=
  match artifact with
  | .tagged tag payload =>
      if tag.name ≠ "TextFile" then
        failed s!"OutputPlan.files[{index}] has unknown Artifact variant {tag.name.quote}"
      else do
        let location := s!"OutputPlan.files[{index}].TextFile"
        let file ← expectDict payload location ["content", "path"]
        let content ← expectString (← file.get "content") s!"{location}.content"
        let path ← expectString (← file.get "path") s!"{location}.path"
        validatePath path s!"{location}.path"
        return (content, path)
  | _ => failed s!"OutputPlan.files[{index}] must be an Artifact Tagged value"

def writeArtifact (content path : String) : List Char :=
  "\x7b\"TextFile\":\x7b\"content\":".toList ++ writeString content ++
    ",\"path\":".toList ++ writeString path ++ "\x7d\x7d".toList

/-- The loop over the files from `index` on, with the paths before and the text so far. -/
def writeFiles : Nat → List String → List Char → List Value → Except PlanFailure (List Char)
  | _, _, output, [] => .ok output
  | index, seen, output, artifact :: rest => do
      let (content, path) ← readArtifact index artifact
      if path ∈ seen then failed s!"OutputPlan contains duplicate path {path.quote}"
      else
        writeFiles (index + 1) (path :: seen)
          (output ++ (if 0 < index then [','] else []) ++ writeArtifact content path) rest

def expectFiles (value : Value) : Except PlanFailure (List Value) :=
  match value with
  | .array files => .ok files
  | _ => failed "OutputPlan.files must be an Array"

def canonicalBuildJson (value : Value) : Except PlanFailure (List Char) := do
  let plan ← expectDict value "OutputPlan" ["files"]
  let files ← expectFiles (← plan.get "files")
  let output ← writeFiles 0 [] "\x7b\"files\":[".toList files
  return output ++ "]\x7d".toList

structure Artifact where
  content : String
  path : String

/-- A dict with these fields; the values of a dict stand in the order of their names. -/
def Record (value : Value) (fields : List (String × Value)) : Prop :=
  ∃ values, value = .dict (fields.map (·.1)) values ∧ fields.map (·.2) <+: values

/-- A component that names something. -/
structure Named (component : List Char) : Prop where
  nonempty : component ≠ []
  notCurrent : component ≠ ['.']
  notParent : component ≠ ['.', '.']
  noSlash : '/' ∉ component
  noBackslash : '\\' ∉ component

/-- Named components with slashes between them. -/
def NormalPath (path : String) : Prop :=
  ∃ components : List (List Char), components ≠ [] ∧ (∀ c ∈ components, Named c) ∧
    path.toList = ['/'].intercalate components

/-- The value of an artifact. -/
def IsTextFile (value : Value) (artifact : Artifact) : Prop :=
  ∃ tag payload, value = .tagged tag payload ∧ tag.name = "TextFile" ∧
    Record payload [("content", .string artifact.content), ("path", .string artifact.path)]

/-- The value of a plan with some artifacts. -/
structure OutputPlan (value : Value) (artifacts : List Artifact) : Prop where
  files : ∃ files, Record value [("files", .array files)] ∧
    List.Forall₂ IsTextFile files artifacts
  normal : ∀ artifact ∈ artifacts, NormalPath artifact.path
  different : (artifacts.map (·.path)).Nodup

open JsonReader (Json)

def Artifact.json (artifact : Artifact) : Json :=
  .object [("TextFile".toList, .object [("content".toList, .string artifact.content.toList),
    ("path".toList, .string artifact.path.toList)])]

def planJson (artifacts : List Artifact) : Json :=
  .object [("files".toList, .array (artifacts.map Artifact.json))]

/-- The text that a plan is written as. -/
def planText (artifacts : List Artifact) : List Char :=
  "\x7b\"files\":[".toList ++
    [','].intercalate
      (artifacts.map fun artifact => writeArtifact artifact.content artifact.path) ++
    "]\x7d".toList

end Telora.Cli
