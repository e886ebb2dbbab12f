import Mathlib.Data.List.Dedup
import Mathlib.Data.List.Sort
import Mathlib.Data.String.Basic
import Telora.Library.Blocks
import Telora.Library.Numbering
import Telora.Modules.Resolver
import Telora.Semantic.Hir

/-!
# Assembly of a workspace snapshot

The analysed modules of a workspace become one snapshot: they are sorted by key, their type graphs
are copied into one, their definitions, references and expressions follow one another, and their
diagnostics are sorted together. Each step has its own table from the numbers of a module to
those of the snapshot; a number that a table does not have is a panic.
-/

namespace Telora.Semantic

open Library

abbrev WorkspaceModuleId := Nat

abbrev WorkspaceTypeId := Nat

inductive WorkspaceModuleKind where
  | telora
  | json
  | toml
  | yaml
  | core
  deriving DecidableEq

inductive WorkspaceModuleState where
  | known
  | partiallyKnown
  | unavailable
  deriving DecidableEq

inductive WorkspaceTypeNode where
  | pending
  | ref (target : WorkspaceTypeId)
  | bound (id : Nat)
  | any
  | never
  | type
  | dyn
  | typeOf (described : WorkspaceTypeId)
  | int
  | float
  | string
  | bytes
  | opaqueType (name : String)
  | atom (name : String)
  | array (item : WorkspaceTypeId)
  | dict (item : WorkspaceTypeId)
  | tagged (tag : String) (payload : WorkspaceTypeId)
  | tuple (items : List WorkspaceTypeId)
  | struct (fields : List (String × WorkspaceTypeId))
  | enum (variants : List (String × Option WorkspaceTypeId))
  | union (variants : List WorkspaceTypeId)
  | function (parameters : List WorkspaceTypeId) (result : WorkspaceTypeId)
  deriving DecidableEq

structure WorkspaceImport where
  name : String
  location : Loc
  target : WorkspaceModuleId
  deriving DecidableEq

structure WorkspaceOption where
  key : String
  location : Loc
  valueLocation : Loc
  deriving DecidableEq

structure WorkspaceModule where
  id : WorkspaceModuleId
  name : String
  path : Option String
  kind : WorkspaceModuleKind
  state : WorkspaceModuleState
  source : Option Nat
  imports : List WorkspaceImport
  options : List WorkspaceOption
  resultLocation : Option Loc
  resultType : Option WorkspaceTypeId
  deriving DecidableEq

structure Definition where
  id : Nat
  module : WorkspaceModuleId
  name : String
  kind : HirDefinitionKind
  location : Loc
  additionalLocations : List Loc
  ty : SemanticFact
  scheme : Option String
  importTarget : Option WorkspaceModuleId
  deriving DecidableEq

structure Reference where
  id : Nat
  module : WorkspaceModuleId
  name : String
  location : Loc
  definition : Option Nat
  external : Bool
  deriving DecidableEq

structure WorkspaceExpression where
  id : Nat
  module : WorkspaceModuleId
  location : Loc
  reference : Option Nat
  ty : SemanticFact
  deriving DecidableEq

structure WorkspaceSnapshot (Diagnostic : Type) where
  modules : List WorkspaceModule
  definitions : List Definition
  references : List Reference
  expressions : List WorkspaceExpression
  types : List WorkspaceTypeNode
  diagnostics : List Diagnostic

/-- An identity that means something inside its module: a definition of it. -/
def FactIdentity.isLocal (definitions : Nat) : FactIdentity → Prop
  | .hirDefinition id => id < definitions
  | .definition _ | .expression _ => False

/-- A fact whose numbers are all of its own module. -/
structure SemanticFact.IsLocal (fact : SemanticFact) (definitions types diagnostics : Nat) :
    Prop where
  value : ∀ ty, fact.value = some ty → ty < types
  state : ∀ cause, fact.state = .unknown (.blockedBy cause) → cause.isLocal definitions
  causes : ∀ cause ∈ fact.causes, cause.isLocal definitions
  diagnostics : ∀ diagnostic ∈ fact.diagnostics, diagnostic < diagnostics

/-- The outcome of a module's analysis. Schemes are there as they are displayed. -/
structure Analysis where
  types : TypeGraph
  resultType : TypeId
  hir : HirProgram
  definitionTypes : List (Nat × TypeId)
  definitionSchemes : List (Nat × String)
  expressionTypes : List (Nat × TypeId)
  result_lt : resultType < types.nodes.length
  definition_lt : ∀ entry ∈ definitionTypes, entry.2 < types.nodes.length
  expression_lt : ∀ entry ∈ expressionTypes, entry.2 < types.nodes.length

/-- The outcome of a partial analysis. -/
structure RecoveredAnalysis (Diagnostic : Type) where
  hir : HirProgram
  definitionFacts : List (Nat × SemanticFact)
  diagnostics : List Diagnostic
  types : TypeGraph
  facts_local : ∀ entry ∈ definitionFacts,
    entry.2.IsLocal hir.definitions.length types.nodes.length diagnostics.length

structure SemanticImport where
  name : String
  location : Loc
  target : ModuleId

/-- The options of a program and where its result is. -/
structure ProgramHeader where
  options : List WorkspaceOption
  resultLocation : Loc

structure SemanticModuleInput (Diagnostic : Type) where
  key : String
  path : Option String
  kind : WorkspaceModuleKind
  source : Option Nat
  program : Option ProgramHeader
  analysis : Option Analysis
  recovered : Option (RecoveredAnalysis Diagnostic)
  state : WorkspaceModuleState
  imports : List SemanticImport
  diagnostics : List Diagnostic

structure MergeState where
  nodes : List WorkspaceTypeNode
  mapped : List (Option WorkspaceTypeId)

abbrev Merge := StateT MergeState Option

/-- A node with what a visit makes of the nodes it refers to, in the order of the visits. -/
def mergeChildren (visit : TypeId → Merge WorkspaceTypeId) : TypeNode → Merge WorkspaceTypeNode
  | .pending => pure .pending
  | .ref child => do return .ref (← visit child)
  | .bound parameter => pure (.bound parameter)
  | .any => pure .any
  | .never => pure .never
  | .type => pure .type
  | .dyn => pure .dyn
  | .typeOf described => do return .typeOf (← visit described)
  | .int => pure .int
  | .float => pure .float
  | .string => pure .string
  | .bytes => pure .bytes
  | .opaqueType nativeType => pure (.opaqueType nativeType.qualifiedName)
  | .atom atom => pure (.atom atom.name)
  | .array child => do return .array (← visit child)
  | .dict child => do return .dict (← visit child)
  | .tagged tag payload => do return .tagged tag.name (← visit payload)
  | .tuple children => do return .tuple (← children.mapM visit)
  | .struct fields => do
      return .struct (← fields.mapM fun field => do return (field.1, ← visit field.2))
  | .enum variants => do
      return .enum (← variants.mapM fun variant => do
        return (variant.1, ← variant.2.mapM visit))
  | .union children => do return .union (← children.mapM visit)
  | .function parameters result => do
      let parameters ← parameters.mapM visit
      let result ← visit result
      return .function parameters result

/-- The copy of a node; its place is taken before the nodes it refers to are copied. -/
def mergeTypeNode (graph : TypeGraph) : Nat → TypeId → Merge WorkspaceTypeId
  | 0, _ => fun _ => none
  | fuel + 1, id => fun state =>
      match state.mapped[id]? with
      | none => none
      | some (some output) => some (output, state)
      | some none => do
          let output := state.nodes.length
          let node ← graph.nodes[id]?
          let (merged, state) ← mergeChildren (mergeTypeNode graph fuel) node
            ⟨state.nodes ++ [.pending], state.mapped.set id (some output)⟩
          return (output, { state with nodes := state.nodes.set output merged })

def mergeTypeGraph (graph : TypeGraph) (target : List WorkspaceTypeNode) :
    Option (List WorkspaceTypeId × List WorkspaceTypeNode) := do
  let size := graph.nodes.length
  let state ← (List.range size).foldlM
    (fun state id => (mergeTypeNode graph (size + 1) id state).map (·.2))
    ⟨target, List.replicate size none⟩
  let mapped ← state.mapped.mapM id
  return (mapped, state.nodes)

/-- The tables from a module's numbers to those of the snapshot. -/
structure FactMaps where
  types : List WorkspaceTypeId
  definitionBase : Nat
  diagnostics : Nat → Option Nat

namespace FactMaps

variable (maps : FactMaps)

def identity : FactIdentity → FactIdentity
  | .hirDefinition id => .definition (maps.definitionBase + id)
  | other => other

def state : FactState → FactState
  | .unknown (.blockedBy cause) => .unknown (.blockedBy (maps.identity cause))
  | state => state

/-- What `map_partial_fact_with_base` makes of a fact. -/
def mapPartialFact (fact : SemanticFact) : Option SemanticFact := do
  let value ← fact.value.mapM (maps.types[·]?)
  let diagnostics ← fact.diagnostics.mapM maps.diagnostics
  return {
    value := value
    state := maps.state fact.state
    causes := fact.causes.map maps.identity
    diagnostics := diagnostics }

def knownType (ty : TypeId) : Option SemanticFact := (maps.types[ty]?).map .known

end FactMaps

section Build

variable {Diagnostic : Type}

namespace SemanticModuleInput

variable (input : SemanticModuleInput Diagnostic)

def hir : Option HirProgram :=
  (input.analysis.map (·.hir)).or (input.recovered.map (·.hir))

def types : Option TypeGraph :=
  (input.analysis.map (·.types)).or (input.recovered.map (·.types))

/-- The diagnostics of the partial analysis, which its facts refer to. -/
def factDiagnostics : List Diagnostic :=
  match input.recovered with
  | some recovered => recovered.diagnostics
  | none => []

def builtinName (target : SemanticImport) : Option String :=
  match target.target with
  | .builtin name => some name
  | .main | .source _ | .dependency .. => none

/-- A built-in module that is only imported. -/
def coreModule (name : String) : SemanticModuleInput Diagnostic where
  key := name
  path := none
  kind := .core
  source := none
  program := none
  analysis := none
  recovered := none
  state := .known
  imports := []
  diagnostics := []

end SemanticModuleInput

open SemanticModuleInput

def coreNames (inputs : List (SemanticModuleInput Diagnostic)) : List String :=
  ((inputs.flatMap (·.imports)).filterMap builtinName).dedup

def addCore (inputs : List (SemanticModuleInput Diagnostic)) (name : String) :
    List (SemanticModuleInput Diagnostic) :=
  if inputs.any (·.key == name) then inputs else inputs ++ [coreModule name]

/-- The modules of the snapshot in their order. -/
def orderedInputs (inputs : List (SemanticModuleInput Diagnostic)) :
    List (SemanticModuleInput Diagnostic) :=
  ((coreNames inputs).foldl addCore inputs).insertionSort fun left right => left.key ≤ right.key

def moduleIds (inputs : List (SemanticModuleInput Diagnostic)) : List (String × WorkspaceModuleId) :=
  collectEntries (inputs.zipIdx.map fun entry => (entry.1.key, entry.2))

def mergeModule (input : SemanticModuleInput Diagnostic) (target : List WorkspaceTypeNode) :
    Option (List WorkspaceTypeId × List WorkspaceTypeNode) :=
  match input.types with
  | some graph => mergeTypeGraph graph target
  | none => some ([], target)

def mergeTypes : List (SemanticModuleInput Diagnostic) → List WorkspaceTypeNode →
    Option (List (List WorkspaceTypeId) × List WorkspaceTypeNode)
  | [], target => some ([], target)
  | input :: rest, target => do
      let (map, target) ← mergeModule input target
      let (maps, target) ← mergeTypes rest target
      return (map :: maps, target)

/-- What is fixed once the modules are ordered and their types are merged. -/
structure Tables where
  ids : List (String × WorkspaceModuleId)
  typeMaps : List (List WorkspaceTypeId)
  diagnosticMaps : Nat → Nat → Option Nat
  definitionMaps : List (List Nat) := []
  referenceMaps : List (List Nat) := []

variable (tables : Tables)

namespace Tables

def target (import_ : SemanticImport) : Option WorkspaceModuleId :=
  tables.ids.lookup import_.target.display

def buildImport (import_ : SemanticImport) : Option WorkspaceImport := do
  let target ← tables.target import_
  return ⟨import_.name, import_.location, target⟩

def typeOf (index : Nat) (ty : TypeId) : Option WorkspaceTypeId :=
  (tables.typeMaps[index]?).bind (·[ty]?)

def buildModule (index : Nat) (input : SemanticModuleInput Diagnostic) : Option WorkspaceModule := do
  let imports ← input.imports.mapM tables.buildImport
  let resultType ← input.analysis.mapM fun analysis => tables.typeOf index analysis.resultType
  return {
    id := index
    name := input.key
    path := input.path
    kind := input.kind
    state := input.state
    source := input.source
    imports := imports
    options := (input.program.map (·.options)).getD []
    resultLocation := input.program.map (·.resultLocation)
    resultType := resultType }

/-- The tables for the facts of a module. -/
def factMaps (index definitionBase : Nat) : FactMaps where
  types := (tables.typeMaps[index]?).getD []
  definitionBase := definitionBase
  diagnostics := tables.diagnosticMaps index

def definitionFact (index definitionBase : Nat) (input : SemanticModuleInput Diagnostic)
    (definition : HirDefinition) : Option SemanticFact :=
  match input.analysis with
  | some analysis =>
      match analysis.definitionTypes.lookup definition.id with
      | some ty => (tables.factMaps index definitionBase).knownType ty
      | none => some (.unknown .unavailableDependency)
  | none =>
      match input.recovered.bind fun recovered => recovered.definitionFacts.lookup definition.id with
      | some fact => (tables.factMaps index definitionBase).mapPartialFact fact
      | none => some (.unknown .unavailableDependency)

def importTargets (input : SemanticModuleInput Diagnostic) :
    Option (List (String × WorkspaceModuleId)) := do
  let targets ← input.imports.mapM fun import_ => do
    let target ← tables.target import_
    return (import_.name, target)
  return collectEntries targets

def buildDefinitions (index definitionBase : Nat) (input : SemanticModuleInput Diagnostic) :
    Option (List Definition) :=
  match input.hir with
  | none => some []
  | some hir => do
      let importTargets ← tables.importTargets input
      (hir.definitions.zipIdx definitionBase).mapM fun (definition, id) => do
        let ty ← tables.definitionFact index definitionBase input definition
        return {
          id := id
          module := index
          name := definition.name
          kind := definition.kind
          location := definition.location
          additionalLocations := definition.additionalLocations
          ty := ty
          scheme := input.analysis.bind fun analysis =>
            analysis.definitionSchemes.lookup definition.id
          importTarget :=
            if definition.kind = .importBinding then importTargets.lookup definition.name
            else none }

def resolvedDefinition (index : Nat) : HirResolution → Option (Option Nat)
  | .definition definition => ((tables.definitionMaps[index]?).bind (·[definition]?)).map some
  | .external | .unresolved => some none

def buildReferences (index referenceBase : Nat) (input : SemanticModuleInput Diagnostic) :
    Option (List Reference) :=
  match input.hir with
  | none => some []
  | some hir =>
      (hir.references.zipIdx referenceBase).mapM fun (reference, id) => do
        let definition ← tables.resolvedDefinition index reference.resolution
        return {
          id := id
          module := index
          name := reference.name
          location := reference.location
          definition := definition
          external := reference.resolution == .external }

/-- What is unknown of an expression without a type. -/
def untypedExpression (hir : HirProgram) (expression : HirExpression) : SemanticFact :=
  match expression.reference.bind hir.reference with
  | some reference =>
      if reference.resolution = .unresolved then .unknown .unresolvedName
      else .unknown .unavailableDependency
  | none => .unknown .unavailableDependency

def typedExpression (index : Nat) (input : SemanticModuleInput Diagnostic) (hir : HirProgram)
    (expression : HirExpression) : Option SemanticFact :=
  match input.analysis with
  | some analysis =>
      match analysis.expressionTypes.lookup expression.id with
      | some ty => (tables.factMaps index 0).knownType ty
      | none => some (untypedExpression hir expression)
  | none => some (untypedExpression hir expression)

def buildExpressions (index expressionBase : Nat) (input : SemanticModuleInput Diagnostic) :
    Option (List WorkspaceExpression) :=
  match input.hir with
  | none => some []
  | some hir =>
      (hir.expressions.zipIdx expressionBase).mapM fun (expression, id) => do
        let reference ← expression.reference.mapM fun reference =>
          (tables.referenceMaps[index]?).bind (·[reference]?)
        let ty ← tables.typedExpression index input hir expression
        return ⟨id, index, expression.location, reference, ty⟩

end Tables

/-- A diagnostic with its module, and its number there when facts may refer to it. -/
structure DiagnosticRecord (Diagnostic : Type) where
  module : Nat
  local_ : Option Nat
  diagnostic : Diagnostic

def moduleRecords (input : SemanticModuleInput Diagnostic) (index : Nat) :
    List (DiagnosticRecord Diagnostic) :=
  input.diagnostics.map (⟨index, none, ·⟩) ++
    input.factDiagnostics.zipIdx.map fun entry => ⟨index, some entry.2, entry.1⟩

/-- Where the first label of a diagnostic starts. -/
def startKey (firstLabel : Diagnostic → Option Loc) (diagnostic : Diagnostic) : Nat × Nat :=
  match firstLabel diagnostic with
  | some location => (location.source, location.start)
  | none => (0, 0)

def startsBefore (left right : Nat × Nat) : Prop :=
  left.1 < right.1 ∨ left.1 = right.1 ∧ left.2 ≤ right.2

instance (left right : Nat × Nat) : Decidable (startsBefore left right) :=
  inferInstanceAs (Decidable (_ ∨ _))

def sortedRecords (firstLabel : Diagnostic → Option Loc)
    (inputs : List (SemanticModuleInput Diagnostic)) : List (DiagnosticRecord Diagnostic) :=
  (inputs.zipIdx.flatMap fun entry => moduleRecords entry.1 entry.2).insertionSort
    fun left right =>
      startsBefore (startKey firstLabel left.diagnostic) (startKey firstLabel right.diagnostic)

/-- The numbers of a module's own diagnostics among all; a number it does not have is a panic. -/
def diagnosticMaps (inputs : List (SemanticModuleInput Diagnostic))
    (records : List (DiagnosticRecord Diagnostic)) (index id : Nat) : Option Nat := do
  let input ← inputs[index]?
  if id < input.factDiagnostics.length then
    some (numbering 0 (records.map fun record => record.local_.map fun id => (record.module, id))
      (fun _ => 0) (index, id))
  else none

def buildSnapshot (firstLabel : Diagnostic → Option Loc)
    (inputs : List (SemanticModuleInput Diagnostic)) : Option (WorkspaceSnapshot Diagnostic) := do
  let inputs := orderedInputs inputs
  let (typeMaps, types) ← mergeTypes inputs []
  let records := sortedRecords firstLabel inputs
  let tables : Tables := {
    ids := moduleIds inputs
    typeMaps := typeMaps
    diagnosticMaps := diagnosticMaps inputs records }
  let modules ← inputs.zipIdx.mapM fun entry => tables.buildModule entry.2 entry.1
  let definitions ← buildBlocks tables.buildDefinitions 0 0 inputs
  let tables := { tables with definitionMaps := definitions.map (List.map Definition.id) }
  let references ← buildBlocks tables.buildReferences 0 0 inputs
  let tables := { tables with referenceMaps := references.map (List.map Reference.id) }
  let expressions ← buildBlocks tables.buildExpressions 0 0 inputs
  return {
    modules := modules
    definitions := definitions.flatten
    references := references.flatten
    expressions := expressions.flatten
    types := types
    diagnostics := records.map (·.diagnostic) }

end Build

end Telora.Semantic
