import Telora.Semantic.TypeMerging

/-!
# Snapshots are disjoint unions

Each module of a snapshot has its own numbers for its definitions, references, expressions, types
and diagnostics. What a number denotes is what the module's own number denoted, and every number
of the snapshot is that of one thing of one module.
-/

namespace Telora.Semantic

open Library SemanticModuleInput

variable {Diagnostic : Type}

/-- The numbers in the snapshot of what a module has under its own numbers. -/
structure Numbers where
  definition : Nat → Nat
  reference : Nat → Nat
  expression : Nat → Nat
  type : TypeId → WorkspaceTypeId
  diagnostic : Nat → Nat

namespace Numbers

variable (numbers : Numbers)

def identity : FactIdentity → FactIdentity
  | .hirDefinition id => .definition (numbers.definition id)
  | other => other

def state : FactState → FactState
  | .unknown (.blockedBy cause) => .unknown (.blockedBy (numbers.identity cause))
  | state => state

/-- A fact of the module in the numbers of the snapshot. -/
def fact (fact : SemanticFact) : SemanticFact where
  value := fact.value.map numbers.type
  state := numbers.state fact.state
  causes := fact.causes.map numbers.identity
  diagnostics := fact.diagnostics.map numbers.diagnostic

end Numbers

namespace SemanticModuleInput

variable (input : SemanticModuleInput Diagnostic)

def definitions : List HirDefinition := (input.hir.map (·.definitions)).getD []

def references : List HirReference := (input.hir.map (·.references)).getD []

def expressions : List HirExpression := (input.hir.map (·.expressions)).getD []

def typeNodes : List TypeNode := (input.types.map (·.nodes)).getD []

/-- What the module's analysis says of a definition. -/
def definitionFact (definition : HirDefinition) : SemanticFact :=
  (match input.analysis with
    | some analysis => (analysis.definitionTypes.lookup definition.id).map SemanticFact.known
    | none =>
        input.recovered.bind fun recovered =>
          recovered.definitionFacts.lookup definition.id).getD
    (.unknown .unavailableDependency)

def isUnresolved (expression : HirExpression) : Bool :=
  match expression.reference.bind fun id => input.hir.bind fun hir => hir.reference id with
  | some reference => reference.resolution == .unresolved
  | none => false

/-- What the module's analysis says of an expression. -/
def expressionFact (expression : HirExpression) : SemanticFact :=
  (input.analysis.bind fun analysis =>
    (analysis.expressionTypes.lookup expression.id).map SemanticFact.known).getD
    (.unknown (if input.isUnresolved expression then .unresolvedName else .unavailableDependency))

/-- Where the value of a definition is written: the path, for an import. -/
def valueLocation (definition : HirDefinition) : Option Loc := do
  let value ← definition.value
  let expression ← input.expressions[value]?
  return expression.location

/-- The import that a definition was written as: it has its name, and its place is that of the
name or of the path. -/
def importOf (definition : HirDefinition) : Option SemanticImport :=
  if definition.kind = .importBinding then
    input.imports.find? fun target => target.name == definition.name &&
      (target.location == definition.location ||
        input.valueLocation definition == some target.location)
  else none

/-- The import that the table of the names has for a definition. -/
def namedImportOf (definition : HirDefinition) : Option SemanticImport :=
  if definition.kind = .importBinding then
    input.imports.reverse.find? (·.name == definition.name)
  else none

/-- The last import of the name of a definition leads where its own import leads. -/
def NamesAgree : Prop :=
  ∀ definition ∈ input.definitions,
    (input.namedImportOf definition).map (·.target.display) =
      (input.importOf definition).map (·.target.display)

end SemanticModuleInput

section Union

variable (all : List (SemanticModuleInput Diagnostic)) (numbers : Numbers)

/-- A number of the module that an import means. -/
def Imports (target : SemanticImport) (id : WorkspaceModuleId) : Prop :=
  ∃ input, all[id]? = some input ∧ input.key = target.target.display

structure ModulePlaced (i : Nat) (input : SemanticModuleInput Diagnostic)
    (found : WorkspaceModule) : Prop where
  same : found = {
    id := i
    name := input.key
    path := input.path
    kind := input.kind
    state := input.state
    source := input.source
    imports := found.imports
    options := (input.program.map (·.options)).getD []
    resultLocation := input.program.map (·.resultLocation)
    resultType := input.analysis.map fun analysis => numbers.type analysis.resultType }
  imports : List.Forall₂ (fun target placed =>
    placed.name = target.name ∧ placed.location = target.location ∧
      Imports all target placed.target) input.imports found.imports

structure DefinitionPlaced (i : Nat) (input : SemanticModuleInput Diagnostic)
    (imported : Option SemanticImport) (definition : HirDefinition) (found : Definition) :
    Prop where
  same : found = {
    id := numbers.definition definition.id
    module := i
    name := definition.name
    kind := definition.kind
    location := definition.location
    additionalLocations := definition.additionalLocations
    ty := numbers.fact (input.definitionFact definition)
    scheme := input.analysis.bind fun analysis => analysis.definitionSchemes.lookup definition.id
    importTarget := found.importTarget }
  none : imported = none → found.importTarget = none
  some : ∀ target, imported = some target →
    ∃ id, found.importTarget = some id ∧ Imports all target id

def placedReference (i id : Nat) (reference : HirReference) : Reference where
  id := numbers.reference id
  module := i
  name := reference.name
  location := reference.location
  definition :=
    match reference.resolution with
    | .definition id => some (numbers.definition id)
    | .external | .unresolved => none
  external := reference.resolution == .external

def placedExpression (i id : Nat) (input : SemanticModuleInput Diagnostic)
    (expression : HirExpression) : WorkspaceExpression where
  id := numbers.expression id
  module := i
  location := expression.location
  reference := expression.reference.map numbers.reference
  ty := numbers.fact (input.expressionFact expression)

variable (numbers : Nat → Numbers)

/-- Nothing of any module is lost, doubled or confused, when a definition stands for the import
that `imported` gives. -/
structure UnionBy
    (imported : SemanticModuleInput Diagnostic → HirDefinition → Option SemanticImport)
    (snapshot : WorkspaceSnapshot Diagnostic) : Prop where
  modules_length : snapshot.modules.length = all.length
  modules : ∀ i input, all[i]? = some input →
    ∃ found, snapshot.modules[i]? = some found ∧ ModulePlaced all (numbers i) i input found
  definitions_once : OneEach (·.definitions.length) all (fun i => (numbers i).definition) 0
    snapshot.definitions.length
  definitions : ∀ i input, all[i]? = some input → ∀ id definition,
    input.definitions[id]? = some definition → ∃ found,
      snapshot.definitions[(numbers i).definition id]? = some found ∧
        DefinitionPlaced all (numbers i) i input (imported input definition) definition found
  references_once : OneEach (·.references.length) all (fun i => (numbers i).reference) 0
    snapshot.references.length
  references : ∀ i input, all[i]? = some input → ∀ id reference,
    input.references[id]? = some reference →
      snapshot.references[(numbers i).reference id]? =
        some (placedReference (numbers i) i id reference)
  expressions_once : OneEach (·.expressions.length) all (fun i => (numbers i).expression) 0
    snapshot.expressions.length
  expressions : ∀ i input, all[i]? = some input → ∀ id expression,
    input.expressions[id]? = some expression →
      snapshot.expressions[(numbers i).expression id]? =
        some (placedExpression (numbers i) i id input expression)
  types_once : OneEach (·.typeNodes.length) all (fun i => (numbers i).type) 0
    snapshot.types.length
  types : ∀ i input, all[i]? = some input → ∀ id node, input.typeNodes[id]? = some node →
    snapshot.types[(numbers i).type id]? = some (relabel (numbers i).type node)
  diagnostics_once : snapshot.diagnostics.Perm
    (all.flatMap fun input => input.diagnostics ++ input.factDiagnostics)
  diagnostics : ∀ i input, all[i]? = some input → ∀ id diagnostic,
    input.factDiagnostics[id]? = some diagnostic →
      snapshot.diagnostics[(numbers i).diagnostic id]? = some diagnostic
  diagnostics_distinct : ∀ i input i' input', all[i]? = some input → all[i']? = some input' →
    ∀ id < input.factDiagnostics.length, ∀ id' < input'.factDiagnostics.length,
      (numbers i).diagnostic id = (numbers i').diagnostic id' → i = i' ∧ id = id'

/-- A snapshot in which each definition stands for the import it was written as. -/
def DisjointUnion (snapshot : WorkspaceSnapshot Diagnostic) : Prop :=
  UnionBy all numbers importOf snapshot

/-- The modules of a snapshot: those of the inputs and each built-in one that is only imported,
in the order of their keys. -/
structure Completes (inputs all : List (SemanticModuleInput Diagnostic)) : Prop where
  keys : (all.map (·.key)).Nodup
  sorted : all.Pairwise (·.key ≤ ·.key)
  perm : ∃ names : List String, all.Perm (inputs ++ names.map coreModule) ∧ names.Nodup ∧
    ∀ name, name ∈ names ↔ name ∉ inputs.map (·.key) ∧
      ∃ input ∈ inputs, ∃ target ∈ input.imports, target.target = .builtin name

end Union

section Modules

variable {inputs : List (SemanticModuleInput Diagnostic)}

theorem foldl_addCore {names : List String} (h : names.Nodup) :
    names.foldl addCore inputs = inputs ++
      (names.filter fun name => !inputs.any (·.key == name)).map coreModule := by
  induction names generalizing inputs with
  | nil => exact (List.append_nil inputs).symm
  | cons name rest ih =>
      obtain ⟨hname, hrest⟩ := List.nodup_cons.mp h
      rw [List.foldl_cons, ih hrest, addCore]
      cases hlisted : inputs.any (·.key == name) with
      | true => rw [if_pos rfl, List.filter_cons_of_neg (by simp [hlisted])]
      | false =>
          rw [if_neg Bool.false_ne_true, List.filter_cons_of_pos (by simp [hlisted]), List.map_cons,
            List.append_assoc, List.singleton_append]
          congr 3
          refine List.filter_congr fun other hother => ?_
          have hne : name ≠ other := fun heq => hname (heq ▸ hother)
          simp [coreModule, hne]

theorem mem_coreNames {name : String} : name ∈ coreNames inputs ↔
    ∃ input ∈ inputs, ∃ target ∈ input.imports, target.target = .builtin name := by
  rw [coreNames, List.mem_dedup, List.mem_filterMap]
  constructor
  · rintro ⟨target, htarget, hname⟩
    obtain ⟨input, hinput, hmem⟩ := List.mem_flatMap.mp htarget
    refine ⟨input, hinput, target, hmem, ?_⟩
    rw [builtinName] at hname
    split at hname
    · rename_i heq
      exact heq.trans (congrArg ModuleId.builtin (Option.some.inj hname))
    all_goals cases hname
  · rintro ⟨input, hinput, target, htarget, hname⟩
    refine ⟨target, List.mem_flatMap.mpr ⟨input, hinput, htarget⟩, ?_⟩
    rw [builtinName, hname]

theorem orderedInputs_completes (hkeys : (inputs.map (·.key)).Nodup) :
    Completes inputs (orderedInputs inputs) := by
  let names := (coreNames inputs).filter fun name => !inputs.any (·.key == name)
  have hnodup : (coreNames inputs).Nodup := List.nodup_dedup _
  have hmem (name : String) : name ∈ names ↔ name ∉ inputs.map (·.key) ∧
      ∃ input ∈ inputs, ∃ target ∈ input.imports, target.target = .builtin name := by
    rw [List.mem_filter, mem_coreNames, and_comm]
    simp
  have hperm : (orderedInputs inputs).Perm (inputs ++ names.map coreModule) := by
    rw [orderedInputs, foldl_addCore hnodup]
    exact List.perm_insertionSort _ _
  refine ⟨?_, ?_, names, hperm, hnodup.filter _, hmem⟩
  · refine (hperm.map _).nodup_iff.mpr ?_
    rw [List.map_append, List.map_map]
    refine List.nodup_append.mpr ⟨hkeys, ?_, ?_⟩
    · exact (List.map_id names).symm ▸ hnodup.filter _
    · intro key hkey other hother heq
      obtain ⟨name, hname, rfl⟩ := List.mem_map.mp hother
      change key = name at heq
      exact ((hmem name).mp hname).1 (heq ▸ hkey)
  · exact List.pairwise_insertionSort _ _

variable {all : List (SemanticModuleInput Diagnostic)}

/-- Every import of an ordered module is of one of the modules. -/
theorem Completes.imports (h : Completes inputs all)
    (hknown : ∀ input ∈ inputs, ∀ target ∈ input.imports,
      (∃ name, target.target = .builtin name) ∨ target.target.display ∈ inputs.map (·.key))
    {input : SemanticModuleInput Diagnostic} (hinput : input ∈ all) {target : SemanticImport}
    (htarget : target ∈ input.imports) : target.target.display ∈ all.map (·.key) := by
  obtain ⟨names, hperm, _, hnames⟩ := h.perm
  have hall (key : String) : key ∈ all.map (·.key) ↔ key ∈ inputs.map (·.key) ∨ key ∈ names := by
    rw [(hperm.map _).mem_iff, List.map_append, List.mem_append, List.map_map]
    exact or_congr_right (by simp [coreModule])
  rcases List.mem_append.mp (hperm.mem_iff.mp hinput) with hlisted | hcore
  · rcases hknown input hlisted target htarget with ⟨name, hname⟩ | hkey
    · rw [hall, hname]
      by_cases hkey : name ∈ inputs.map (·.key)
      · exact .inl hkey
      · exact .inr ((hnames name).mpr ⟨hkey, input, hlisted, target, htarget, hname⟩)
    · exact (hall _).mpr (.inl hkey)
  · obtain ⟨name, _, rfl⟩ := List.mem_map.mp hcore
    exact absurd htarget List.not_mem_nil

theorem moduleIds_target {target : SemanticImport}
    (h : target.target.display ∈ all.map (·.key)) :
    ∃ id, (moduleIds all).lookup target.target.display = some id ∧ Imports all target id := by
  have hkeys : (all.zipIdx.map fun entry => (entry.1.key, entry.2)).map (·.1) = all.map (·.key) :=
    calc (all.zipIdx.map fun entry => (entry.1.key, entry.2)).map (·.1)
        _ = (all.zipIdx.map Prod.fst).map (·.key) := by
          rw [List.map_map, List.map_map]
          rfl
        _ = all.map (·.key) := by rw [List.zipIdx_map_fst]
  rw [moduleIds, lookup_collectEntries]
  cases hlookup : (all.zipIdx.map fun entry => (entry.1.key, entry.2)).reverse.lookup
      target.target.display with
  | none =>
      refine absurd ?_ (not_mem_keys_of_lookup hlookup)
      rw [List.map_reverse, List.mem_reverse, hkeys]
      exact h
  | some id =>
      have hmem := List.mem_reverse.mp (mem_of_lookup hlookup)
      obtain ⟨⟨input, index⟩, hentry, heq⟩ := List.mem_map.mp hmem
      obtain ⟨hkey, rfl⟩ := Prod.mk.inj heq
      exact ⟨_, rfl, input, List.mk_mem_zipIdx_iff_getElem?.mp hentry, hkey⟩

end Modules

/-- A module without types is one with an empty graph. -/
theorem exists_typeGraph (input : SemanticModuleInput Diagnostic)
    (target : List WorkspaceTypeNode) :
    ∃ graph : TypeGraph, graph.nodes = input.typeNodes ∧
      mergeModule input target = mergeTypeGraph graph target := by
  rw [typeNodes, mergeModule]
  cases input.types with
  | none => exact ⟨⟨[], fun node hnode => absurd hnode List.not_mem_nil⟩, rfl, rfl⟩
  | some graph => exact ⟨graph, rfl, rfl⟩

/-- The graphs of the modules side by side, from the end of what is there. -/
structure TypesMerged (all : List (SemanticModuleInput Diagnostic))
    (target : List WorkspaceTypeNode) (number : Nat → TypeId → WorkspaceTypeId)
    (maps : List (List WorkspaceTypeId)) (nodes : List WorkspaceTypeNode) : Prop where
  merged : mergeTypes all target = some (maps, nodes)
  grows : target <+: nodes
  once : OneEach (·.typeNodes.length) all number target.length nodes.length
  maps : ∀ (i : Nat) (input : SemanticModuleInput Diagnostic), all[i]? = some input →
    maps[i]? = some ((List.range input.typeNodes.length).map (number i))
  nodes : ∀ (i : Nat) (input : SemanticModuleInput Diagnostic), all[i]? = some input →
    ∀ (id : Nat) (node : TypeNode), input.typeNodes[id]? = some node →
      nodes[number i id]? = some (relabel (number i) node)

theorem mergeTypes_merged (all : List (SemanticModuleInput Diagnostic))
    (target : List WorkspaceTypeNode) :
    ∃ number maps nodes, TypesMerged all target number maps nodes := by
  induction all generalizing target with
  | nil =>
      refine ⟨fun _ id => id, [], target, rfl, List.prefix_refl _, ⟨?_, ?_, ?_⟩, ?_, ?_⟩
      · exact fun i j a hi => by cases hi
      · exact fun n hfirst hlast => absurd hlast (Nat.not_lt_of_le hfirst)
      · exact fun i j a _ _ _ hi => by cases hi
      · exact fun i input hi => by cases hi
      · exact fun i input hi => by cases hi
  | cons input rest ih =>
      obtain ⟨graph, hgraph, hmatch⟩ := exists_typeGraph input target
      obtain ⟨here, middle, hmerged, hgrows, hlength, hiso⟩ :=
        mergeTypeGraph_isomorphic graph target
      obtain ⟨number, maps, nodes, hrest⟩ := ih middle
      refine ⟨fun i => Nat.casesOn i here number,
        (List.range graph.nodes.length).map here :: maps, nodes, ?_, ?_, ?_, ?_, ?_⟩
      · rw [mergeTypes, hmatch, hmerged]
        change (mergeTypes rest middle).bind (fun result => some (_ :: result.1, result.2)) = _
        rw [hrest.merged]
        rfl
      · exact hgrows.trans hrest.grows
      · refine hrest.once.cons ⟨by omega, hrest.grows.length_le⟩ ?_ ?_ ?_
        all_goals rw [← hgraph]
        · exact fun id hid => hlength ▸ hiso.inside id hid
        · exact fun n hfirst hn => hiso.surjective n hfirst (hlength ▸ hn)
        · exact fun id hid other hother heq => hiso.injective id hid other hother heq
      · intro i found hi
        cases i with
        | zero =>
            obtain rfl : input = found := Option.some.inj hi
            rw [← hgraph]
            rfl
        | succ i => exact hrest.maps i found hi
      · intro i found hi id node hnode
        cases i with
        | zero =>
            obtain rfl : input = found := Option.some.inj hi
            rw [← hgraph] at hnode
            exact getElem?_of_isPrefix hrest.grows (hiso.nodes id node hnode)
        | succ i => exact hrest.nodes i found hi id node hnode

section Diagnostics

variable (firstLabel : Diagnostic → Option Loc) (all : List (SemanticModuleInput Diagnostic))

/-- The number that facts know a record by. -/
def DiagnosticRecord.key (record : DiagnosticRecord Diagnostic) : Option (Nat × Nat) :=
  record.local_.map fun id => (record.module, id)

theorem sortedRecords_perm : (sortedRecords firstLabel all).Perm
    (all.zipIdx.flatMap fun entry => moduleRecords entry.1 entry.2) :=
  List.perm_insertionSort _ _

theorem sortedRecords_diagnostics : ((sortedRecords firstLabel all).map (·.diagnostic)).Perm
    (all.flatMap fun input => input.diagnostics ++ input.factDiagnostics) := by
  have hmodule (input : SemanticModuleInput Diagnostic) (index : Nat) :
      (moduleRecords input index).map (·.diagnostic) =
        input.diagnostics ++ input.factDiagnostics := by
    rw [moduleRecords, List.map_append, List.map_map, List.map_map]
    congr 1
    · exact List.map_id _
    · exact List.zipIdx_map_fst 0 _
  have hall : (all.zipIdx.flatMap fun entry => moduleRecords entry.1 entry.2).map (·.diagnostic) =
      all.flatMap fun input => input.diagnostics ++ input.factDiagnostics :=
    calc (all.zipIdx.flatMap fun entry => moduleRecords entry.1 entry.2).map (·.diagnostic)
        _ = all.zipIdx.flatMap fun entry =>
            entry.1.diagnostics ++ entry.1.factDiagnostics := by
          rw [List.map_flatMap]
          exact List.flatMap_congr fun entry _ => hmodule entry.1 entry.2
        _ = (all.zipIdx.map Prod.fst).flatMap fun input =>
            input.diagnostics ++ input.factDiagnostics := by rw [List.flatMap_map]
        _ = _ := by rw [List.zipIdx_map_fst]
  exact hall ▸ (sortedRecords_perm firstLabel all).map _

theorem sortedRecords_keys :
    (((sortedRecords firstLabel all).map DiagnosticRecord.key).filterMap id).Nodup := by
  have hmodule (input : SemanticModuleInput Diagnostic) (index : Nat) :
      ((moduleRecords input index).filterMap DiagnosticRecord.key) =
        (List.range input.factDiagnostics.length).map (Prod.mk index) := by
    have hnone : (input.diagnostics.map fun diagnostic =>
        (⟨index, none, diagnostic⟩ : DiagnosticRecord Diagnostic)).filterMap
          DiagnosticRecord.key = [] := by
      rw [List.filterMap_map]
      exact List.filterMap_eq_nil_iff.mpr fun _ _ => rfl
    have hsome : (input.factDiagnostics.zipIdx.map fun entry =>
        (⟨index, some entry.2, entry.1⟩ : DiagnosticRecord Diagnostic)).filterMap
          DiagnosticRecord.key = (input.factDiagnostics.zipIdx.map Prod.snd).map (Prod.mk index) := by
      rw [List.filterMap_map, List.map_map, ← List.filterMap_eq_map]
      rfl
    rw [moduleRecords, List.filterMap_append, hnone, hsome, List.nil_append, List.zipIdx_map_snd,
      List.range_eq_range']
  rw [List.filterMap_map]
  refine ((sortedRecords_perm firstLabel all).filterMap _).nodup_iff.mpr ?_
  have hall : (all.zipIdx.flatMap fun entry => moduleRecords entry.1 entry.2).filterMap
      (id ∘ DiagnosticRecord.key) =
      all.zipIdx.flatMap fun entry =>
        (List.range entry.1.factDiagnostics.length).map (Prod.mk entry.2) := by
    rw [List.filterMap_flatMap]
    exact List.flatMap_congr fun entry _ => hmodule entry.1 entry.2
  rw [hall]
  refine List.nodup_flatMap.mpr ⟨fun entry _ => ?_, ?_⟩
  · exact List.Nodup.map (Prod.mk_right_injective entry.2) List.nodup_range
  · have hindices : (all.zipIdx.map Prod.snd).Nodup := by
      rw [List.zipIdx_map_snd]
      exact List.nodup_range'
    refine (List.pairwise_map.mp hindices).imp fun {entry other} hne => ?_
    intro key hkey hother
    obtain ⟨_, _, rfl⟩ := List.mem_map.mp hkey
    obtain ⟨_, _, heq⟩ := List.mem_map.mp hother
    exact hne (congrArg Prod.fst heq).symm

/-- A module's own number leads to its diagnostic. -/
theorem diagnosticMaps_found {i id : Nat} {input : SemanticModuleInput Diagnostic}
    {diagnostic : Diagnostic} (hinput : all[i]? = some input)
    (hdiagnostic : input.factDiagnostics[id]? = some diagnostic) :
    ∃ n, diagnosticMaps all (sortedRecords firstLabel all) i id = some n ∧
      (sortedRecords firstLabel all)[n]? = some ⟨i, some id, diagnostic⟩ := by
  have hmem : (⟨i, some id, diagnostic⟩ : DiagnosticRecord Diagnostic) ∈
      sortedRecords firstLabel all := by
    refine (sortedRecords_perm firstLabel all).mem_iff.mpr (List.mem_flatMap.mpr ?_)
    refine ⟨(input, i), List.mk_mem_zipIdx_iff_getElem?.mpr hinput, List.mem_append_right _ ?_⟩
    exact List.mem_map.mpr ⟨(diagnostic, id), List.mk_mem_zipIdx_iff_getElem?.mpr hdiagnostic, rfl⟩
  obtain ⟨n, hn⟩ := List.getElem?_of_mem hmem
  have hkey : ((sortedRecords firstLabel all).map DiagnosticRecord.key)[n]? =
      some (some (i, id)) := by
    rw [List.getElem?_map, hn]
    rfl
  have hnumber := numbering_eq hkey (count_some_le_one (sortedRecords_keys firstLabel all) _) 0
    fun _ => 0
  refine ⟨n, ?_, hn⟩
  rw [diagnosticMaps, hinput]
  have hid : id < input.factDiagnostics.length := (List.getElem?_eq_some_iff.mp hdiagnostic).1
  change (if id < input.factDiagnostics.length then some (numbering 0
    ((sortedRecords firstLabel all).map DiagnosticRecord.key) (fun _ => 0) (i, id)) else none) = _
  rw [if_pos hid, hnumber, Nat.zero_add]

end Diagnostics

section Tables

variable {all : List (SemanticModuleInput Diagnostic)} {tables : Tables} {i : Nat}
  {input : SemanticModuleInput Diagnostic} {numbers : Numbers}

/-- The tables of types and diagnostics give a module's numbers. -/
structure Agrees (tables : Tables) (i : Nat) (input : SemanticModuleInput Diagnostic)
    (numbers : Numbers) : Prop where
  types : tables.typeMaps[i]? = some ((List.range input.typeNodes.length).map numbers.type)
  diagnostics : ∀ id < input.factDiagnostics.length,
    tables.diagnosticMaps i id = some (numbers.diagnostic id)

theorem Agrees.factMaps_types (h : Agrees tables i input numbers) (start : Nat) {ty : TypeId}
    (hty : ty < input.typeNodes.length) :
    (tables.factMaps i start).types[ty]? = some (numbers.type ty) := by
  rw [Tables.factMaps, h.types]
  change ((List.range input.typeNodes.length).map numbers.type)[ty]? = _
  rw [List.getElem?_map, List.getElem?_range hty]
  rfl

theorem Agrees.knownType (h : Agrees tables i input numbers) (start : Nat) {ty : TypeId}
    (hty : ty < input.typeNodes.length) :
    (tables.factMaps i start).knownType ty = some (numbers.fact (.known ty)) := by
  rw [FactMaps.knownType, h.factMaps_types start hty]
  rfl

theorem Agrees.mapPartialFact (h : Agrees tables i input numbers) {start definitions : Nat}
    (hstart : ∀ id, numbers.definition id = start + id) {fact : SemanticFact}
    (hlocal : fact.IsLocal definitions input.typeNodes.length input.factDiagnostics.length) :
    (tables.factMaps i start).mapPartialFact fact = some (numbers.fact fact) := by
  have hidentity : (tables.factMaps i start).identity = numbers.identity := by
    funext identity
    cases identity with
    | hirDefinition id => exact congrArg FactIdentity.definition (hstart id).symm
    | definition id => rfl
    | expression id => rfl
  have hstate : (tables.factMaps i start).state fact.state = numbers.state fact.state := by
    cases fact.state with
    | unknown reason => cases reason <;> simp only [FactMaps.state, Numbers.state, hidentity]
    | known => rfl
    | conflicted conflict => rfl
    | incomputable reason => rfl
  have hvalue : fact.value.mapM ((tables.factMaps i start).types[·]?) =
      some (fact.value.map numbers.type) := by
    cases hvalue : fact.value with
    | none => rfl
    | some ty =>
        rw [Option.mapM_some, h.factMaps_types start (hlocal.value ty hvalue)]
        rfl
  have hdiagnostics : fact.diagnostics.mapM (tables.factMaps i start).diagnostics =
      some (fact.diagnostics.map numbers.diagnostic) :=
    mapM_eq_some_map fun id hid => h.diagnostics id (hlocal.diagnostics id hid)
  simp only [FactMaps.mapPartialFact, hvalue, hdiagnostics, hstate, hidentity,
    Option.bind_eq_bind, Option.bind_some]
  rfl

theorem Agrees.definitionFact (h : Agrees tables i input numbers) {start : Nat}
    (hstart : ∀ id, numbers.definition id = start + id) (definition : HirDefinition) :
    tables.definitionFact i start input definition =
      some (numbers.fact (input.definitionFact definition)) := by
  rw [Tables.definitionFact, SemanticModuleInput.definitionFact]
  cases hanalysis : input.analysis with
  | some analysis =>
      have hnodes : input.typeNodes = analysis.types.nodes := by
        rw [typeNodes, SemanticModuleInput.types, hanalysis]
        rfl
      simp only
      cases hlookup : analysis.definitionTypes.lookup definition.id with
      | none => rfl
      | some ty =>
          refine h.knownType start ?_
          rw [hnodes]
          exact analysis.definition_lt _ (mem_of_lookup hlookup)
  | none =>
      cases hrecovered : input.recovered with
      | none => rfl
      | some recovered =>
          have hnodes : input.typeNodes = recovered.types.nodes := by
            rw [typeNodes, SemanticModuleInput.types, hanalysis, hrecovered]
            rfl
          have hdiagnostics : input.factDiagnostics = recovered.diagnostics := by
            rw [factDiagnostics, hrecovered]
          simp only [Option.bind_some]
          cases hlookup : recovered.definitionFacts.lookup definition.id with
          | none => rfl
          | some fact =>
              have hlocal := recovered.facts_local _ (mem_of_lookup hlookup)
              rw [← hnodes, ← hdiagnostics] at hlocal
              exact h.mapPartialFact hstart hlocal

theorem Agrees.typedExpression (h : Agrees tables i input numbers) {hir : HirProgram}
    (hhir : input.hir = some hir) (expression : HirExpression) :
    tables.typedExpression i input hir expression =
      some (numbers.fact (input.expressionFact expression)) := by
  have huntyped : Tables.untypedExpression hir expression = numbers.fact (.unknown
      (if input.isUnresolved expression then .unresolvedName else .unavailableDependency)) := by
    rw [Tables.untypedExpression, isUnresolved, hhir]
    simp only [Option.bind_some]
    cases expression.reference.bind hir.reference with
    | none => rfl
    | some reference =>
        by_cases hresolution : reference.resolution = .unresolved
        · simp [hresolution]
          rfl
        · simp [hresolution]
          rfl
  rw [Tables.typedExpression, SemanticModuleInput.expressionFact]
  cases hanalysis : input.analysis with
  | none => exact congrArg some huntyped
  | some analysis =>
      have hnodes : input.typeNodes = analysis.types.nodes := by
        rw [typeNodes, SemanticModuleInput.types, hanalysis]
        rfl
      simp only [Option.bind_some]
      cases hlookup : analysis.expressionTypes.lookup expression.id with
      | none => exact congrArg some huntyped
      | some ty =>
          refine h.knownType 0 ?_
          rw [hnodes]
          exact analysis.expression_lt _ (mem_of_lookup hlookup)

/-- The imports of a module have their targets. -/
def Targets (all : List (SemanticModuleInput Diagnostic)) (tables : Tables)
    (input : SemanticModuleInput Diagnostic) : Prop :=
  ∀ target ∈ input.imports, ∃ id, tables.target target = some id ∧ Imports all target id

theorem buildModule_placed (h : Agrees tables i input numbers)
    (htargets : Targets all tables input) :
    ∃ found, tables.buildModule i input = some found ∧ ModulePlaced all numbers i input found := by
  have himports : input.imports.mapM tables.buildImport = some (input.imports.map fun target =>
      ⟨target.name, target.location, (tables.target target).getD 0⟩) := by
    refine mapM_eq_some_map fun target htarget => ?_
    obtain ⟨id, hid, _⟩ := htargets target htarget
    simp only [Tables.buildImport, hid, Option.bind_eq_bind, Option.bind_some]
    rfl
  have hresult : (input.analysis.mapM fun analysis => tables.typeOf i analysis.resultType) =
      some (input.analysis.map fun analysis => numbers.type analysis.resultType) := by
    cases hanalysis : input.analysis with
    | none => rfl
    | some analysis =>
        have hlt : analysis.resultType < input.typeNodes.length := by
          rw [typeNodes, SemanticModuleInput.types, hanalysis]
          exact analysis.result_lt
        have htype : tables.typeOf i analysis.resultType =
            some (numbers.type analysis.resultType) := by
          rw [Tables.typeOf, h.types, Option.bind_some, List.getElem?_map, List.getElem?_range hlt]
          rfl
        rw [Option.mapM_some, htype]
        rfl
  let found : WorkspaceModule := {
    id := i
    name := input.key
    path := input.path
    kind := input.kind
    state := input.state
    source := input.source
    imports := input.imports.map fun target =>
      ⟨target.name, target.location, (tables.target target).getD 0⟩
    options := (input.program.map (·.options)).getD []
    resultLocation := input.program.map (·.resultLocation)
    resultType := input.analysis.map fun analysis => numbers.type analysis.resultType }
  refine ⟨found, ?_, rfl, ?_⟩
  · simp only [Tables.buildModule, himports, hresult, Option.bind_eq_bind, Option.bind_some]
    rfl
  · refine List.forall₂_map_right_iff.mpr (List.forall₂_same.mpr fun target htarget => ?_)
    obtain ⟨id, hid, hmeans⟩ := htargets target htarget
    refine ⟨rfl, rfl, ?_⟩
    rw [hid]
    exact hmeans

theorem importTargets_found (htargets : Targets all tables input) :
    ∃ targets, tables.importTargets input = some targets ∧ ∀ name,
      (input.imports.reverse.find? (·.name == name) = none → targets.lookup name = none) ∧
      ∀ target, input.imports.reverse.find? (·.name == name) = some target →
        ∃ id, targets.lookup name = some id ∧ Imports all target id := by
  let number (target : SemanticImport) : WorkspaceModuleId := (tables.target target).getD 0
  have hall : (input.imports.mapM fun target =>
      (tables.target target).bind fun id => some (target.name, id)) =
        some (input.imports.map fun target => (target.name, number target)) := by
    refine mapM_eq_some_map fun target htarget => ?_
    obtain ⟨id, hid, _⟩ := htargets target htarget
    simp only [number, hid, Option.bind_some, Option.getD_some]
  have hlookup (name : String) :
      (collectEntries (input.imports.map fun target => (target.name, number target))).lookup name =
        (input.imports.reverse.find? (·.name == name)).map number := by
    rw [lookup_collectEntries, ← List.map_reverse]
    exact lookup_map_find SemanticImport.name number name _
  refine ⟨_, congrArg (fun targets => targets.bind fun targets => some (collectEntries targets)) hall,
    fun name => ⟨fun hnone => ?_, fun target hfind => ?_⟩⟩
  · rw [hlookup, hnone]
    rfl
  · obtain ⟨id, hid, hmeans⟩ :=
      htargets target (List.mem_reverse.mp (List.mem_of_find?_eq_some hfind))
    refine ⟨number target, ?_, ?_⟩
    · rw [hlookup, hfind]
      rfl
    · rw [show number target = id from by simp only [number, hid, Option.getD_some]]
      exact hmeans

theorem buildDefinitions_placed (h : Agrees tables i input numbers) {start : Nat}
    (hstart : ∀ id, numbers.definition id = start + id) (htargets : Targets all tables input) :
    ∃ block, tables.buildDefinitions i start input = some block ∧
      block.length = input.definitions.length ∧
      ∀ id definition, input.definitions[id]? = some definition → ∃ found,
        block[id]? = some found ∧ found.id = start + id ∧
          DefinitionPlaced all numbers i input (input.namedImportOf definition) definition
            found := by
  rw [Tables.buildDefinitions, definitions]
  cases hhir : input.hir with
  | none => exact ⟨[], rfl, rfl, fun id definition hid => by cases hid⟩
  | some hir =>
      obtain ⟨targets, htable, hfound⟩ := importTargets_found htargets
      let placed (entry : HirDefinition × Nat) : Definition := {
        id := entry.2
        module := i
        name := entry.1.name
        kind := entry.1.kind
        location := entry.1.location
        additionalLocations := entry.1.additionalLocations
        ty := numbers.fact (input.definitionFact entry.1)
        scheme := input.analysis.bind fun analysis => analysis.definitionSchemes.lookup entry.1.id
        importTarget :=
          if entry.1.kind = .importBinding then targets.lookup entry.1.name else none }
      refine ⟨(hir.definitions.zipIdx start).map placed, ?_, ?_, fun id definition hid => ?_⟩
      · simp only [htable, Option.bind_eq_bind, Option.bind_some]
        refine mapM_eq_some_map fun entry _ => ?_
        simp only [h.definitionFact hstart, Option.bind_some]
        rfl
      · rw [List.length_map, List.length_zipIdx]
        rfl
      · change hir.definitions[id]? = some definition at hid
        have hidentity : definition.id = id := hir.definition_id id definition hid
        refine ⟨placed (definition, start + id), ?_, rfl, ?_, fun hnone => ?_, fun target hsome => ?_⟩
        · rw [List.getElem?_map, List.getElem?_zipIdx, hid]
          rfl
        · have hnumber : start + id = numbers.definition definition.id := by rw [hstart, hidentity]
          exact congrArg (fun id => { placed (definition, start) with id := id }) hnumber
        · rw [namedImportOf] at hnone
          change (if definition.kind = .importBinding then targets.lookup definition.name
            else none) = none
          split_ifs with hkind
          · rw [if_pos hkind] at hnone
            exact (hfound definition.name).1 hnone
          · rfl
        · rw [namedImportOf] at hsome
          split_ifs at hsome with hkind
          obtain ⟨target, htarget, hmeans⟩ := (hfound definition.name).2 _ hsome
          exact ⟨target, (if_pos hkind).trans htarget, hmeans⟩

/-- The table gives the numbers that definitions have in the snapshot. -/
def AgreesOn (map : List (List Nat)) (i size : Nat) (number : Nat → Nat) : Prop :=
  ∀ id < size, (map[i]?).bind (·[id]?) = some (number id)

theorem buildReferences_placed {start : Nat} (hstart : ∀ id, numbers.reference id = start + id)
    (h : AgreesOn tables.definitionMaps i input.definitions.length numbers.definition) :
    ∃ block, tables.buildReferences i start input = some block ∧
      block.length = input.references.length ∧
      ∀ id reference, input.references[id]? = some reference →
        block[id]? = some (placedReference numbers i id reference) := by
  rw [Tables.buildReferences, references]
  cases hhir : input.hir with
  | none => exact ⟨[], rfl, rfl, fun id reference hid => by cases hid⟩
  | some hir =>
      have hresolved (reference : HirReference) (hmem : reference ∈ hir.references) :
          tables.resolvedDefinition i reference.resolution = some
            (match reference.resolution with
              | .definition id => some (numbers.definition id)
              | .external | .unresolved => none) := by
        cases hresolution : reference.resolution with
        | definition id =>
            have hlt : id < input.definitions.length := by
              rw [definitions, hhir]
              exact hir.resolved reference hmem id hresolution
            exact congrArg (Option.map some) (h id hlt)
        | external => rfl
        | unresolved => rfl
      let placed (entry : HirReference × Nat) : Reference :=
        { placedReference numbers i 0 entry.1 with id := entry.2 }
      refine ⟨(hir.references.zipIdx start).map placed, ?_, ?_, fun id reference hid => ?_⟩
      · refine mapM_eq_some_map fun entry hentry => ?_
        have hmem : entry.1 ∈ hir.references := List.fst_mem_of_mem_zipIdx hentry
        simp only [hresolved entry.1 hmem, Option.bind_eq_bind, Option.bind_some]
        rfl
      · rw [List.length_map, List.length_zipIdx]
        rfl
      · change hir.references[id]? = some reference at hid
        rw [List.getElem?_map, List.getElem?_zipIdx, hid]
        exact congrArg (fun id => some { placedReference numbers i 0 reference with id := id })
          (hstart id).symm

theorem buildExpressions_placed (hagrees : Agrees tables i input numbers) {start : Nat}
    (hstart : ∀ id, numbers.expression id = start + id)
    (h : AgreesOn tables.referenceMaps i input.references.length numbers.reference) :
    ∃ block, tables.buildExpressions i start input = some block ∧
      block.length = input.expressions.length ∧
      ∀ id expression, input.expressions[id]? = some expression →
        block[id]? = some (placedExpression numbers i id input expression) := by
  rw [Tables.buildExpressions, expressions]
  cases hhir : input.hir with
  | none => exact ⟨[], rfl, rfl, fun id expression hid => by cases hid⟩
  | some hir =>
      have hreference (expression : HirExpression) (hmem : expression ∈ hir.expressions) :
          (expression.reference.mapM fun id => (tables.referenceMaps[i]?).bind (·[id]?)) =
            some (expression.reference.map numbers.reference) := by
        cases hreference : expression.reference with
        | none => rfl
        | some id =>
            have hlt : id < input.references.length := by
              rw [references, hhir]
              exact hir.referenced expression hmem id hreference
            rw [Option.mapM_some, h id hlt]
            rfl
      let placed (entry : HirExpression × Nat) : WorkspaceExpression :=
        { placedExpression numbers i 0 input entry.1 with id := entry.2 }
      refine ⟨(hir.expressions.zipIdx start).map placed, ?_, ?_, fun id expression hid => ?_⟩
      · refine mapM_eq_some_map fun entry hentry => ?_
        have hmem : entry.1 ∈ hir.expressions := List.fst_mem_of_mem_zipIdx hentry
        simp only [hreference entry.1 hmem, hagrees.typedExpression hhir, Option.bind_eq_bind,
          Option.bind_some]
        rfl
      · rw [List.length_map, List.length_zipIdx]
        rfl
      · change hir.expressions[id]? = some expression at hid
        rw [List.getElem?_map, List.getElem?_zipIdx, hid]
        exact congrArg
          (fun id => some { placedExpression numbers i 0 input expression with id := id })
          (hstart id).symm

end Tables

section Stages

variable {all : List (SemanticModuleInput Diagnostic)} {tables : Tables} {numbers : Nat → Numbers}

theorem exists_definitions
    (h : ∀ (i : Nat) (input : SemanticModuleInput Diagnostic), all[i]? = some input →
      Agrees tables i input (numbers i) ∧ Targets all tables input) :
    ∃ blocks, buildBlocks tables.buildDefinitions 0 0 all = some blocks ∧
      blocks.length = all.length ∧ ∀ (i : Nat) (input : SemanticModuleInput Diagnostic),
        all[i]? = some input → ∃ block, blocks[i]? = some block ∧
          tables.buildDefinitions i (offset blocks i) input = some block := by
  refine buildBlocks_start fun i input hi start => ?_
  obtain ⟨hagrees, htargets⟩ := h i input hi
  have hshifted : Agrees tables i input { numbers i with definition := (start + ·) } :=
    ⟨hagrees.types, hagrees.diagnostics⟩
  obtain ⟨block, hblock, _⟩ := buildDefinitions_placed hshifted (fun _ => rfl) htargets
  exact ⟨block, hblock⟩

theorem exists_references
    (h : ∀ (i : Nat) (input : SemanticModuleInput Diagnostic), all[i]? = some input →
      AgreesOn tables.definitionMaps i input.definitions.length (numbers i).definition) :
    ∃ blocks, buildBlocks tables.buildReferences 0 0 all = some blocks ∧
      blocks.length = all.length ∧ ∀ (i : Nat) (input : SemanticModuleInput Diagnostic),
        all[i]? = some input → ∃ block, blocks[i]? = some block ∧
          tables.buildReferences i (offset blocks i) input = some block := by
  refine buildBlocks_start fun i input hi start => ?_
  have hshifted : AgreesOn tables.definitionMaps i input.definitions.length
      { numbers i with reference := (start + ·) }.definition := h i input hi
  obtain ⟨block, hblock, _⟩ := buildReferences_placed (fun _ => rfl) hshifted
  exact ⟨block, hblock⟩

theorem exists_expressions
    (h : ∀ (i : Nat) (input : SemanticModuleInput Diagnostic), all[i]? = some input →
      Agrees tables i input (numbers i) ∧
        AgreesOn tables.referenceMaps i input.references.length (numbers i).reference) :
    ∃ blocks, buildBlocks tables.buildExpressions 0 0 all = some blocks ∧
      blocks.length = all.length ∧ ∀ (i : Nat) (input : SemanticModuleInput Diagnostic),
        all[i]? = some input → ∃ block, blocks[i]? = some block ∧
          tables.buildExpressions i (offset blocks i) input = some block := by
  refine buildBlocks_start fun i input hi start => ?_
  obtain ⟨hagrees, hreferences⟩ := h i input hi
  have hshifted : Agrees tables i input { numbers i with expression := (start + ·) } :=
    ⟨hagrees.types, hagrees.diagnostics⟩
  obtain ⟨block, hblock, _⟩ := buildExpressions_placed hshifted (fun _ => rfl) hreferences
  exact ⟨block, hblock⟩

/-- The numbers of the elements of blocks are a table for their places. -/
theorem agreesOn_offset {β : Type} {blocks : List (List β)} {number : β → Nat} {i size : Nat}
    {block : List β} (hblock : blocks[i]? = some block)
    (h : ∀ id < size, ∃ found, block[id]? = some found ∧ number found = offset blocks i + id) :
    AgreesOn (blocks.map (List.map number)) i size (offset blocks i + ·) := by
  intro id hid
  obtain ⟨found, hfound, hnumber⟩ := h id hid
  rw [List.getElem?_map, hblock]
  change (block.map number)[id]? = _
  rw [List.getElem?_map, hfound]
  exact congrArg some hnumber

/-- The tables once the definitions and the references are numbered. -/
def completeTables (tables : Tables) (definitions : List (List Definition))
    (references : List (List Reference)) : Tables :=
  { tables with
    definitionMaps := definitions.map (List.map Definition.id)
    referenceMaps := references.map (List.map Reference.id) }

variable (all tables numbers) in
/-- The blocks of the modules, each entry placed as the numbers say. -/
structure BlocksPlaced (definitions : List (List Definition)) (references : List (List Reference))
    (expressions : List (List WorkspaceExpression)) : Prop where
  definitions_built : buildBlocks tables.buildDefinitions 0 0 all = some definitions
  references_built : buildBlocks (completeTables tables definitions []).buildReferences 0 0 all =
    some references
  expressions_built :
    buildBlocks (completeTables tables definitions references).buildExpressions 0 0 all =
      some expressions
  lengths : definitions.length = all.length ∧ references.length = all.length ∧
    expressions.length = all.length
  places : ∀ i, (numbers i).definition = (offset definitions i + ·) ∧
    (numbers i).reference = (offset references i + ·) ∧
    (numbers i).expression = (offset expressions i + ·)
  definitions : ∀ (i : Nat) (input : SemanticModuleInput Diagnostic), all[i]? = some input →
    ∃ block, definitions[i]? = some block ∧ block.length = input.definitions.length ∧
      ∀ (id : Nat) (definition : HirDefinition), input.definitions[id]? = some definition →
        ∃ found, block[id]? = some found ∧
          DefinitionPlaced all (numbers i) i input (input.namedImportOf definition) definition
            found
  references : ∀ (i : Nat) (input : SemanticModuleInput Diagnostic), all[i]? = some input →
    ∃ block, references[i]? = some block ∧ block.length = input.references.length ∧
      ∀ (id : Nat) (reference : HirReference), input.references[id]? = some reference →
        block[id]? = some (placedReference (numbers i) i id reference)
  expressions : ∀ (i : Nat) (input : SemanticModuleInput Diagnostic), all[i]? = some input →
    ∃ block, expressions[i]? = some block ∧ block.length = input.expressions.length ∧
      ∀ (id : Nat) (expression : HirExpression), input.expressions[id]? = some expression →
        block[id]? = some (placedExpression (numbers i) i id input expression)

/-- Definitions, then references, then expressions, each with the numbers found before. -/
theorem exists_blocks
    (h : ∀ (i : Nat) (input : SemanticModuleInput Diagnostic), all[i]? = some input →
      Agrees tables i input (numbers i) ∧ Targets all tables input) :
    ∃ numbers' definitions references expressions,
      (∀ i, (numbers' i).type = (numbers i).type ∧
        (numbers' i).diagnostic = (numbers i).diagnostic) ∧
      BlocksPlaced all tables numbers' definitions references expressions := by
  obtain ⟨definitions, hdefinitions, hdefinitionsLength, hdefinitionsBuilt⟩ := exists_definitions h
  have hmaps (i : Nat) (input : SemanticModuleInput Diagnostic) (hi : all[i]? = some input)
      {found : Numbers} (hagrees : Agrees tables i input found)
      (hfound : ∀ id, found.definition id = offset definitions i + id) :
      AgreesOn (definitions.map (List.map Definition.id)) i input.definitions.length
        found.definition := by
    obtain ⟨block, hblock, hbuild⟩ := hdefinitionsBuilt i input hi
    obtain ⟨block', hbuild', _, hplaced⟩ := buildDefinitions_placed hagrees hfound (h i input hi).2
    obtain rfl : block = block' := Option.some.inj (hbuild.symm.trans hbuild')
    rw [funext hfound]
    refine agreesOn_offset hblock fun id hid => ?_
    obtain ⟨entry, hentry, hid, _⟩ := hplaced id _ (List.getElem?_eq_getElem hid)
    exact ⟨entry, hentry, hid⟩
  let defined (i : Nat) : Numbers := { numbers i with definition := (offset definitions i + ·) }
  have hdefined (i : Nat) (input : SemanticModuleInput Diagnostic) (hi : all[i]? = some input) :
      AgreesOn (completeTables tables definitions []).definitionMaps i input.definitions.length
        (defined i).definition := by
    have hagrees : Agrees tables i input (defined i) :=
      ⟨(h i input hi).1.types, (h i input hi).1.diagnostics⟩
    exact hmaps i input hi hagrees fun _ => rfl
  obtain ⟨references, hreferences, hreferencesLength, hreferencesBuilt⟩ :=
    exists_references hdefined
  let referred (i : Nat) : Numbers := { defined i with reference := (offset references i + ·) }
  have hreferred (i : Nat) (input : SemanticModuleInput Diagnostic) (hi : all[i]? = some input) :
      Agrees (completeTables tables definitions references) i input (referred i) ∧
        AgreesOn (completeTables tables definitions references).referenceMaps i
          input.references.length (referred i).reference := by
    refine ⟨⟨(h i input hi).1.types, (h i input hi).1.diagnostics⟩, ?_⟩
    obtain ⟨block, hblock, hbuild⟩ := hreferencesBuilt i input hi
    have hresolved : AgreesOn (completeTables tables definitions []).definitionMaps i
      input.definitions.length (referred i).definition := hdefined i input hi
    obtain ⟨block', hbuild', _, hplaced⟩ := buildReferences_placed (fun _ => rfl) hresolved
    obtain rfl : block = block' := Option.some.inj (hbuild.symm.trans hbuild')
    exact agreesOn_offset hblock fun id hid =>
      ⟨_, hplaced id _ (List.getElem?_eq_getElem hid), rfl⟩
  obtain ⟨expressions, hexpressions, hexpressionsLength, hexpressionsBuilt⟩ :=
    exists_expressions hreferred
  refine ⟨fun i => { referred i with expression := (offset expressions i + ·) }, definitions,
    references, expressions, fun i => ⟨rfl, rfl⟩, hdefinitions, hreferences, hexpressions,
    ⟨hdefinitionsLength, hreferencesLength, hexpressionsLength⟩, fun i => ⟨rfl, rfl, rfl⟩,
    fun i input hi => ?_, fun i input hi => ?_, fun i input hi => ?_⟩
  · obtain ⟨block, hblock, hbuild⟩ := hdefinitionsBuilt i input hi
    have hagrees : Agrees tables i input
        { referred i with expression := (offset expressions i + ·) } :=
      ⟨(h i input hi).1.types, (h i input hi).1.diagnostics⟩
    obtain ⟨block', hbuild', hlength, hplaced⟩ :=
      buildDefinitions_placed hagrees (fun _ => rfl) (h i input hi).2
    obtain rfl : block = block' := Option.some.inj (hbuild.symm.trans hbuild')
    refine ⟨block, hblock, hlength, fun id definition hid => ?_⟩
    obtain ⟨found, hfound, _, hdefinition⟩ := hplaced id definition hid
    exact ⟨found, hfound, hdefinition⟩
  · obtain ⟨block, hblock, hbuild⟩ := hreferencesBuilt i input hi
    have hresolved : AgreesOn (completeTables tables definitions []).definitionMaps i
      input.definitions.length
      { referred i with expression := (offset expressions i + ·) }.definition := hdefined i input hi
    obtain ⟨block', hbuild', hplaced⟩ := buildReferences_placed (fun _ => rfl) hresolved
    obtain rfl : block = block' := Option.some.inj (hbuild.symm.trans hbuild')
    exact ⟨block, hblock, hplaced⟩
  · obtain ⟨block, hblock, hbuild⟩ := hexpressionsBuilt i input hi
    have hagrees : Agrees (completeTables tables definitions references) i input
        { referred i with expression := (offset expressions i + ·) } :=
      ⟨(h i input hi).1.types, (h i input hi).1.diagnostics⟩
    obtain ⟨block', hbuild', hplaced⟩ :=
      buildExpressions_placed hagrees (fun _ => rfl) (hreferred i input hi).2
    obtain rfl : block = block' := Option.some.inj (hbuild.symm.trans hbuild')
    exact ⟨block, hblock, hplaced⟩

/-- Every module is built at its place. -/
theorem exists_modules
    (h : ∀ (i : Nat) (input : SemanticModuleInput Diagnostic), all[i]? = some input →
      Agrees tables i input (numbers i) ∧ Targets all tables input) :
    ∃ modules, (all.zipIdx.mapM fun entry => tables.buildModule entry.2 entry.1) = some modules ∧
      modules.length = all.length ∧ ∀ (i : Nat) (input : SemanticModuleInput Diagnostic),
        all[i]? = some input →
          ∃ found, modules[i]? = some found ∧ ModulePlaced all (numbers i) i input found := by
  obtain ⟨modules, hmodules, hlength, hbuilt⟩ : ∃ modules,
      (all.zipIdx.mapM fun entry => tables.buildModule entry.2 entry.1) = some modules ∧
        modules.length = all.zipIdx.length ∧ ∀ (i : Nat) entry, all.zipIdx[i]? = some entry →
          ∃ found, modules[i]? = some found ∧ tables.buildModule entry.2 entry.1 = some found := by
    refine exists_mapM_eq_some fun entry hentry => ?_
    obtain ⟨hagrees, htargets⟩ := h _ _ (List.mem_zipIdx_iff_getElem?.mp hentry)
    obtain ⟨found, hfound, _⟩ := buildModule_placed hagrees htargets
    exact ⟨found, hfound⟩
  refine ⟨modules, hmodules, hlength.trans List.length_zipIdx, fun i input hi => ?_⟩
  have hentry : all.zipIdx[i]? = some (input, i) := by
    rw [List.getElem?_zipIdx, hi, Nat.zero_add]
    rfl
  obtain ⟨found, hfound, hmodule⟩ := hbuilt i (input, i) hentry
  obtain ⟨found', hmodule', hplaced⟩ := buildModule_placed (h i input hi).1 (h i input hi).2
  obtain rfl := Option.some.inj (hmodule.symm.trans hmodule')
  exact ⟨found, hfound, hplaced⟩

end Stages

/-- The tables of the ordered modules before anything is numbered. -/
def firstTables (firstLabel : Diagnostic → Option Loc) (all : List (SemanticModuleInput Diagnostic))
    (typeMaps : List (List WorkspaceTypeId)) : Tables where
  ids := moduleIds all
  typeMaps := typeMaps
  diagnosticMaps := diagnosticMaps all (sortedRecords firstLabel all)

theorem buildSnapshot_eq {firstLabel : Diagnostic → Option Loc}
    {inputs : List (SemanticModuleInput Diagnostic)} {typeMaps : List (List WorkspaceTypeId)}
    {types : List WorkspaceTypeNode} {modules : List WorkspaceModule}
    {definitions : List (List Definition)} {references : List (List Reference)}
    {expressions : List (List WorkspaceExpression)} {numbers : Nat → Numbers}
    (hmerged : mergeTypes (orderedInputs inputs) [] = some (typeMaps, types))
    (hmodules : ((orderedInputs inputs).zipIdx.mapM fun entry =>
      (firstTables firstLabel (orderedInputs inputs) typeMaps).buildModule entry.2 entry.1) =
        some modules)
    (hblocks : BlocksPlaced (orderedInputs inputs)
      (firstTables firstLabel (orderedInputs inputs) typeMaps) numbers definitions references
      expressions) :
    buildSnapshot firstLabel inputs = some {
      modules := modules
      definitions := definitions.flatten
      references := references.flatten
      expressions := expressions.flatten
      types := types
      diagnostics := (sortedRecords firstLabel (orderedInputs inputs)).map (·.diagnostic) } := by
  have hdefinitions := hblocks.definitions_built
  have hreferences := hblocks.references_built
  have hexpressions := hblocks.expressions_built
  simp only [firstTables, completeTables, List.map_nil] at hmodules hdefinitions hreferences hexpressions
  simp only [buildSnapshot, hmerged, hmodules, hdefinitions, hreferences, hexpressions,
    Option.bind_eq_bind, Option.bind_some]
  rfl

/-- A snapshot is a union of its modules, in which a definition stands for the last import of its
name. -/
theorem exists_unionBy (firstLabel : Diagnostic → Option Loc)
    (inputs : List (SemanticModuleInput Diagnostic)) (hkeys : (inputs.map (·.key)).Nodup)
    (hknown : ∀ input ∈ inputs, ∀ target ∈ input.imports,
      (∃ name, target.target = .builtin name) ∨ target.target.display ∈ inputs.map (·.key)) :
    ∃ snapshot numbers, buildSnapshot firstLabel inputs = some snapshot ∧
      UnionBy (orderedInputs inputs) numbers namedImportOf snapshot := by
  have hall := orderedInputs_completes hkeys
  let all := orderedInputs inputs
  obtain ⟨number, typeMaps, types, hmerged⟩ := mergeTypes_merged all []
  let tables := firstTables firstLabel all typeMaps
  let base (i : Nat) : Numbers := {
    definition := id
    reference := id
    expression := id
    type := number i
    diagnostic := fun id => (tables.diagnosticMaps i id).getD 0 }
  have htargets (i : Nat) (input : SemanticModuleInput Diagnostic) (hi : all[i]? = some input) :
      Targets all tables input := by
    intro target htarget
    exact moduleIds_target (hall.imports hknown (List.mem_of_getElem? hi) htarget)
  have hagrees (i : Nat) (input : SemanticModuleInput Diagnostic) (hi : all[i]? = some input) :
      Agrees tables i input (base i) := by
    refine ⟨hmerged.maps i input hi, fun id hid => ?_⟩
    obtain ⟨n, hn, _⟩ := diagnosticMaps_found firstLabel all hi (List.getElem?_eq_getElem hid)
    have hnumber : (base i).diagnostic id = n := congrArg (Option.getD · 0) hn
    exact hn.trans (congrArg some hnumber.symm)
  obtain ⟨numbers, definitions, references, expressions, hsame, hblocks⟩ :=
    exists_blocks fun i input hi => ⟨hagrees i input hi, htargets i input hi⟩
  have hnumbers (i : Nat) (input : SemanticModuleInput Diagnostic) (hi : all[i]? = some input) :
      Agrees tables i input (numbers i) := by
    refine ⟨?_, ?_⟩
    · rw [(hsame i).1]
      exact (hagrees i input hi).types
    · rw [(hsame i).2]
      exact (hagrees i input hi).diagnostics
  obtain ⟨modules, hmodules, hmodulesLength, hplaced⟩ :=
    exists_modules fun i input hi => ⟨hnumbers i input hi, htargets i input hi⟩
  refine ⟨_, numbers, buildSnapshot_eq hmerged.merged hmodules hblocks, ?_⟩
  obtain ⟨hdefinitions, hreferences, hexpressions⟩ := hblocks.lengths
  have hdiagnostic (i id : Nat) (input : SemanticModuleInput Diagnostic)
      (diagnostic : Diagnostic) (hi : all[i]? = some input)
      (hid : input.factDiagnostics[id]? = some diagnostic) :
      (sortedRecords firstLabel all)[(numbers i).diagnostic id]? =
        some ⟨i, some id, diagnostic⟩ := by
    obtain ⟨n, hn, hrecord⟩ := diagnosticMaps_found firstLabel all hi hid
    have hnumber : (numbers i).diagnostic id = n := by
      rw [(hsame i).2]
      exact congrArg (Option.getD · 0) hn
    rw [hnumber, hrecord]
  refine ⟨hmodulesLength, hplaced, ?_, ?_, ?_, ?_, ?_, ?_, ?_, ?_, ?_, ?_, ?_⟩
  · exact oneEach_of_places (fun i => (hblocks.places i).1)
      (fun i input hi => (hblocks.definitions i input hi).imp fun _ h => ⟨h.1, h.2.1⟩) hdefinitions
  · intro i input hi id definition hid
    obtain ⟨block, hblock, _, hplaced⟩ := hblocks.definitions i input hi
    obtain ⟨found, hfound, hdefinition⟩ := hplaced id definition hid
    exact ⟨found, getElem?_flatten_place (hblocks.places i).1 hblock hfound, hdefinition⟩
  · exact oneEach_of_places (fun i => (hblocks.places i).2.1)
      (fun i input hi => (hblocks.references i input hi).imp fun _ h => ⟨h.1, h.2.1⟩) hreferences
  · intro i input hi id reference hid
    obtain ⟨block, hblock, _, hplaced⟩ := hblocks.references i input hi
    exact getElem?_flatten_place (hblocks.places i).2.1 hblock (hplaced id reference hid)
  · exact oneEach_of_places (fun i => (hblocks.places i).2.2)
      (fun i input hi => (hblocks.expressions i input hi).imp fun _ h => ⟨h.1, h.2.1⟩) hexpressions
  · intro i input hi id expression hid
    obtain ⟨block, hblock, _, hplaced⟩ := hblocks.expressions i input hi
    exact getElem?_flatten_place (hblocks.places i).2.2 hblock (hplaced id expression hid)
  · have hplaces : (fun i => (numbers i).type) = number := funext fun i => (hsame i).1
    rw [hplaces]
    exact hmerged.once
  · intro i input hi id node hid
    rw [(hsame i).1]
    exact hmerged.nodes i input hi id node hid
  · exact sortedRecords_diagnostics firstLabel all
  · intro i input hi id diagnostic hid
    change ((sortedRecords firstLabel all).map (·.diagnostic))[(numbers i).diagnostic id]? = _
    rw [List.getElem?_map, hdiagnostic i id input diagnostic hi hid]
    rfl
  · intro i input i' input' hi hi' id hid id' hid' heq
    have hfirst := hdiagnostic i id input _ hi (List.getElem?_eq_getElem hid)
    rw [heq, hdiagnostic i' id' input' _ hi' (List.getElem?_eq_getElem hid')] at hfirst
    have hrecord := Option.some.inj hfirst
    exact ⟨(congrArg DiagnosticRecord.module hrecord).symm,
      (Option.some.inj (congrArg DiagnosticRecord.local_ hrecord)).symm⟩

section Imports

variable {all : List (SemanticModuleInput Diagnostic)} {numbers numbers' : Nat → Numbers}
  {snapshot : WorkspaceSnapshot Diagnostic}

/-- What a definition of the snapshot imports is decided by its module, its name and its kind. -/
theorem UnionBy.importTarget (h : UnionBy all numbers namedImportOf snapshot) {i n : Nat}
    {input : SemanticModuleInput Diagnostic} (hi : all[i]? = some input)
    (definition : HirDefinition) {found : Definition} (hfound : snapshot.definitions[n]? = some found)
    (hmodule : found.module = i) (hname : found.name = definition.name)
    (hkind : found.kind = definition.kind) :
    (input.namedImportOf definition = none → found.importTarget = none) ∧
      ∀ target, input.namedImportOf definition = some target →
        ∃ id, found.importTarget = some id ∧ Imports all target id := by
  obtain ⟨hn, _⟩ := List.getElem?_eq_some_iff.mp hfound
  obtain ⟨i', j, input', hi', hj, rfl⟩ := h.definitions_once.onto n (Nat.zero_le n) hn
  obtain ⟨found', hfound', hplaced⟩ :=
    h.definitions i' input' hi' j _ (List.getElem?_eq_getElem hj)
  obtain rfl := Option.some.inj (hfound.symm.trans hfound')
  have hsame := hplaced.same
  obtain rfl : i' = i := (congrArg Definition.module hsame).symm.trans hmodule
  obtain rfl := Option.some.inj (hi.symm.trans hi')
  have hlooked : input.namedImportOf (input.definitions[j]) = input.namedImportOf definition := by
    have hnames : input.definitions[j].name = definition.name :=
      (congrArg Definition.name hsame).symm.trans hname
    have hkinds : input.definitions[j].kind = definition.kind :=
      (congrArg Definition.kind hsame).symm.trans hkind
    rw [namedImportOf, namedImportOf, hnames, hkinds]
  rw [← hlooked]
  exact ⟨hplaced.none, hplaced.some⟩

theorem UnionBy.namesAgree (h : UnionBy all numbers namedImportOf snapshot)
    (hunion : DisjointUnion all numbers' snapshot) {input : SemanticModuleInput Diagnostic}
    (hinput : input ∈ all) : input.NamesAgree := by
  intro definition hdefinition
  obtain ⟨i, hi⟩ := List.mem_iff_getElem?.mp hinput
  obtain ⟨id, hid⟩ := List.mem_iff_getElem?.mp hdefinition
  obtain ⟨found, hfound, hplaced⟩ := hunion.definitions i input hi id definition hid
  have hsame := hplaced.same
  obtain ⟨hnone, hsome⟩ := h.importTarget hi definition hfound
    (congrArg Definition.module hsame) (congrArg Definition.name hsame)
    (congrArg Definition.kind hsame)
  cases hnamed : input.namedImportOf definition with
  | none =>
      cases hwritten : input.importOf definition with
      | none => rfl
      | some target =>
          obtain ⟨_, htarget, _⟩ := hplaced.some target hwritten
          cases htarget.symm.trans (hnone hnamed)
  | some named =>
      obtain ⟨place, htarget, _, hplace, hkey⟩ := hsome named hnamed
      cases hwritten : input.importOf definition with
      | none => cases htarget.symm.trans (hplaced.none hwritten)
      | some target =>
          obtain ⟨place', htarget', _, hplace', hkey'⟩ := hplaced.some target hwritten
          obtain rfl := Option.some.inj (htarget.symm.trans htarget')
          obtain rfl := Option.some.inj (hplace.symm.trans hplace')
          exact congrArg some (hkey.symm.trans hkey')

theorem UnionBy.disjointUnion (h : UnionBy all numbers namedImportOf snapshot)
    (hagree : ∀ input ∈ all, input.NamesAgree) : DisjointUnion all numbers snapshot := by
  refine { h with definitions := fun i input hi id definition hid => ?_ }
  obtain ⟨found, hfound, hplaced⟩ := h.definitions i input hi id definition hid
  have hnames := hagree input (List.mem_of_getElem? hi) definition (List.mem_of_getElem? hid)
  refine ⟨found, hfound, hplaced.same, fun hnone => hplaced.none ?_, fun target hsome => ?_⟩
  · rw [hnone] at hnames
    exact Option.map_eq_none_iff.mp hnames
  · rw [hsome] at hnames
    obtain ⟨named, hnamed, hdisplay⟩ := Option.map_eq_some_iff.mp hnames
    obtain ⟨place, htarget, module, hmodule, hkey⟩ := hplaced.some named hnamed
    exact ⟨place, htarget, module, hmodule, hkey.trans hdisplay⟩

theorem Completes.namesAgree_iff {inputs : List (SemanticModuleInput Diagnostic)}
    (h : Completes inputs all) :
    (∀ input ∈ all, input.NamesAgree) ↔ ∀ input ∈ inputs, input.NamesAgree := by
  obtain ⟨names, hperm, _⟩ := h.perm
  constructor
  · exact fun hall input hinput => hall input (hperm.mem_iff.mpr (List.mem_append_left _ hinput))
  · intro hinputs input hinput
    rcases List.mem_append.mp (hperm.mem_iff.mp hinput) with hlisted | hcore
    · exact hinputs input hlisted
    · obtain ⟨name, _, rfl⟩ := List.mem_map.mp hcore
      exact fun definition hdefinition => absurd hdefinition List.not_mem_nil

end Imports

/-- `type T = Array(T);` in a module that imports a built-in one and itself. -/
def recursiveModule : SemanticModuleInput String where
  key := "@main"
  path := none
  kind := .telora
  source := some 0
  program := none
  analysis := none
  recovered := some {
    hir := .ofConsistent [⟨0, "T", .type, ⟨0, 5, 6⟩, [], true, none⟩] [] [] (fun _ => 0) (by decide)
    definitionFacts := [(0, .known 0)]
    diagnostics := ["recursive"]
    types := ⟨[.array 0], by decide⟩
    facts_local := by
      intro entry hentry
      obtain rfl := List.mem_singleton.mp hentry
      refine ⟨fun ty hty => ?_, fun cause hcause => ?_, fun cause hcause => ?_, fun id hid => ?_⟩
      · obtain rfl := Option.some.inj hty
        exact Nat.one_pos
      · cases hcause
      · cases hcause
      · cases hid }
  state := .partiallyKnown
  imports := [⟨"list", ⟨0, 20, 24⟩, .builtin "std/list"⟩, ⟨"self", ⟨0, 30, 34⟩, .main⟩]
  diagnostics := []

/-- `import "std/list" as A; import "std/dict" as A;` as the recovery reads it. -/
def clashingModule : SemanticModuleInput String where
  key := "@main"
  path := none
  kind := .telora
  source := some 0
  program := none
  analysis := none
  recovered := some {
    hir := .ofConsistent
      [⟨0, "A", .importBinding, ⟨0, 21, 22⟩, [], true, some 0⟩,
        ⟨1, "A", .importBinding, ⟨0, 45, 46⟩, [], true, some 1⟩]
      [] [⟨0, ⟨0, 7, 17⟩, none, none⟩, ⟨1, ⟨0, 31, 41⟩, none, none⟩] (fun _ => 0) (by decide)
    definitionFacts := []
    diagnostics := []
    types := ⟨[], fun node hnode => absurd hnode List.not_mem_nil⟩
    facts_local := fun entry hentry => absurd hentry List.not_mem_nil }
  state := .partiallyKnown
  imports := [⟨"A", ⟨0, 7, 17⟩, .builtin "std/list"⟩, ⟨"A", ⟨0, 31, 41⟩, .builtin "std/dict"⟩]
  diagnostics := []

end Telora.Semantic
