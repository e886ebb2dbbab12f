import Mathlib.Data.List.Lex
import Telora.Library.Grouping
import Telora.Modules.Resolver
import Telora.Semantic.Unresolved
import Telora.Value.Value

/-!
# Open imports

The names an importer sees are those its host gives, those its import statements name, and what
its open imports and the prelude export. Open imports are collected by name and provider; the
loading of a provider and the lookup in its published root are parameters.
-/

namespace Telora

open Library

def Library.Component.sortKey : Component → String
  | .rootDir => "0"
  | .curDir => "1"
  | .parentDir => "2"
  | .normal name => "3" ++ name

theorem Library.Component.sortKey_injective : Function.Injective Component.sortKey := by
  intro left right h
  have hlist : left.sortKey.toList = right.sortKey.toList := congrArg String.toList h
  cases left <;> cases right <;> simp [sortKey, String.toList_append] at hlist ⊢
  exact String.toList_inj.mp hlist

namespace ModuleId

/-- Identities are ordered by their kind and then by their parts. -/
def sortKey : ModuleId → List String
  | main => ["0"]
  | source path => "1" :: path.map Component.sortKey
  | builtin name => ["2", name]
  | dependency name path => "3" :: name :: path.map Component.sortKey

theorem sortKey_injective : Function.Injective sortKey := by
  have hpath := List.map_injective_iff.mpr Component.sortKey_injective
  intro left right h
  cases left <;> cases right <;> simp_all [sortKey, hpath.eq_iff]

instance : LinearOrder ModuleId := LinearOrder.lift' sortKey sortKey_injective

end ModuleId

namespace OpenImports

/-- A module that is loaded, as an importer looks at it. -/
structure ReadyModule (Root Scheme Entry : Type) where
  value : Value
  root : Root
  interface : List (String × Scheme)
  provenance : List Entry
  dynamic : Bool
  nodup : (interface.map (·.1)).Nodup

/-- A module of the runtime. -/
structure CoreModule (Root Scheme : Type) where
  value : Value
  root : Root
  interface : List (String × Scheme)
  nodup : (interface.map (·.1)).Nodup

structure OpenImportCandidate (Root Scheme Entry : Type) where
  provider : ModuleId
  value : Value
  root : Root
  scheme : Scheme
  provenance : Option (List Entry)
  dynamic : Bool

/-- The external names of a module, with what is known of each. -/
structure ExternalNames (Root Scheme Entry : Type) where
  values : List (String × Value) := []
  roots : List (String × Root) := []
  interfaces : List (String × List (String × Scheme)) := []
  dynamicNames : List String := []
  provenance : List (String × List Entry) := []

inductive ImportError where
  | failed (message : String)
  | ambiguous (name : String) (providers : List String)
  deriving DecidableEq

/-- What the import of a module relies on. A module is loaded once, so that it is the same for
all statements that import it. -/
structure ImportHost (Root Scheme Entry : Type) where
  resolveImport : String → Except String ModuleId
  load : ModuleId → Except String (ReadyModule Root Scheme Entry)
  coreModules : String → Option (CoreModule Root Scheme)
  dictGet : Root → String → Except String (Option Root)

variable {Root Scheme Entry : Type}

def failed {α : Type} (message : String) : Except ImportError α := .error (.failed message)

def CoreModule.ready (core : CoreModule Root Scheme) : ReadyModule Root Scheme Entry :=
  ⟨core.value, core.root, core.interface, [], false, core.nodup⟩

/-- The field of a module's value. -/
def exportedValue (value : Value) (name : String) : Option Value :=
  match value with
  | .dict fields values => (fields.zip values).lookup name
  | _ => none

def isModuleValue : Value → Bool
  | .dict _ _ => true
  | _ => false

section Importing

variable (host : ImportHost Root Scheme Entry)

/-- Modules of the runtime are there already; the others are loaded. -/
def provided (id : ModuleId) : Except ImportError (ReadyModule Root Scheme Entry) :=
  match id with
  | .builtin name =>
      match host.coreModules name with
      | some core => .ok core.ready
      | none => failed s!"unknown built-in module {name.quote}"
  | id => (host.load id).mapError .failed

def rootField (root : Root) (name missing : String) : Except ImportError Root := do
  match ← (host.dictGet root name).mapError .failed with
  | some found => .ok found
  | none => failed missing

/-- One export of an open import. -/
def openImportExport (provider : ModuleId) (ready : ReadyModule Root Scheme Entry)
    (found : String × Scheme) :
    Except ImportError (String × OpenImportCandidate Root Scheme Entry) :=
  match exportedValue ready.value found.1 with
  | none => failed s!"module {provider.display} has no value for export {found.1.quote}"
  | some value => do
      let root ← rootField host ready.root found.1
        s!"module {provider.display} has no root for export {found.1.quote}"
      let provenance := if ready.provenance.isEmpty then none else some ready.provenance
      return (found.1, ⟨provider, value, root, found.2, provenance, ready.dynamic⟩)

def openImportExports (provider : ModuleId) (ready : ReadyModule Root Scheme Entry) :
    Except ImportError (List (String × OpenImportCandidate Root Scheme Entry)) :=
  if isModuleValue ready.value then ready.interface.mapM (openImportExport host provider ready)
  else failed s!"cannot open non-module value {provider.display}"

/-- What an import statement that is not open takes of a module. -/
def selectImportValue (ready : ReadyModule Root Scheme Entry) (exported : Option Identifier)
    (localName : String) : Except ImportError (Value × List (String × Scheme)) :=
  match exported with
  | none => .ok (ready.value, ready.interface)
  | some exported =>
      if isModuleValue ready.value then
        match exportedValue ready.value exported.value,
            ready.interface.lookup exported.value with
        | none, _ => failed s!"module has no export {exported.value.quote}"
        | some _, none => failed s!"module interface has no export {exported.value.quote}"
        | some value, some scheme => .ok (value, [(localName, scheme)])
      else failed s!"cannot selectively import {exported.value.quote} from a non-module value"

def selectImportRoot (ready : ReadyModule Root Scheme Entry) (exported : Option Identifier) :
    Except ImportError Root :=
  match exported with
  | none => .ok ready.root
  | some exported =>
      rootField host ready.root exported.value s!"module has no export {exported.value.quote}"

/-- What the import statements of a module bring. -/
structure Imports (Root Scheme Entry : Type) where
  names : ExternalNames Root Scheme Entry
  candidates : List (String × List (OpenImportCandidate Root Scheme Entry))

def ExternalNames.bindImport (names : ExternalNames Root Scheme Entry) (name : String)
    (value : Value) (root : Root) (interface : List (String × Scheme))
    (provenance : List Entry) (dynamic : Bool) : ExternalNames Root Scheme Entry where
  values := replaceEntry name value names.values
  roots := replaceEntry name root names.roots
  interfaces := replaceEntry name interface names.interfaces
  dynamicNames := if dynamic then name :: names.dynamicNames else names.dynamicNames
  provenance :=
    if provenance.isEmpty then names.provenance else replaceEntry name provenance names.provenance

def specifier (binding : Binding) : Except ImportError String :=
  match binding.value.value with
  | .string relative => .ok relative
  | _ => failed "import path must be a string"

/-- What a statement makes of the module it imports. -/
def bindImported (binding : Binding) (provider : ModuleId)
    (ready : ReadyModule Root Scheme Entry) (imports : Imports Root Scheme Entry) :
    Except ImportError (Imports Root Scheme Entry) :=
  if binding.kind = .openImport then do
    let exports ← openImportExports host provider ready
    return { imports with candidates := exports.foldl pushEntry imports.candidates }
  else do
    let root ← selectImportRoot host ready binding.importedName
    let (value, interface) ← selectImportValue ready binding.importedName binding.name.value
    return { imports with
      names := imports.names.bindImport binding.name.value value root interface
        ready.provenance ready.dynamic }

def importStatement (sourceName : String) (imports : Imports Root Scheme Entry)
    (binding : Binding) : Except ImportError (Imports Root Scheme Entry) :=
  if binding.kind = .importBinding ∧ (imports.names.values.lookup binding.name.value).isSome then
    failed s!"duplicate module binding {binding.name.value.quote} in {sourceName}"
  else do
    let relative ← specifier binding
    let provider ← (host.resolveImport relative).mapError .failed
    let ready ← provided host provider
    bindImported host binding provider ready imports

def isImport (binding : Binding) : Bool :=
  match binding.kind with
  | .importBinding | .openImport => true
  | _ => false

def importBinding (sourceName : String) (imports : Imports Root Scheme Entry)
    (binding : Binding) : Except ImportError (Imports Root Scheme Entry) :=
  if isImport binding then importStatement host sourceName imports binding else .ok imports

def importStatements (sourceName : String) :
    List Binding → Imports Root Scheme Entry → Except ImportError (Imports Root Scheme Entry)
  | [], imports => .ok imports
  | binding :: rest, imports => do
      let imports ← importBinding host sourceName imports binding
      importStatements sourceName rest imports

def preludeModule : String := "core/prelude"

/-- The prelude is opened in every module but itself. -/
def openPrelude (id : ModuleId) (imports : Imports Root Scheme Entry) :
    Except ImportError (Imports Root Scheme Entry) :=
  if id.display = preludeModule then .ok imports
  else
    match host.coreModules preludeModule with
    | none => .ok imports
    | some core => do
        let exports ← openImportExports host (.builtin preludeModule) core.ready
        return { imports with candidates := exports.foldl pushEntry imports.candidates }

/-- The imports of a module before open names are resolved. -/
def collectImports (id : ModuleId) (sourceName : String) (body : Block)
    (external : ExternalNames Root Scheme Entry) :
    Except ImportError (Imports Root Scheme Entry) := do
  let imports ← importStatements host sourceName body.bindings ⟨external, []⟩
  openPrelude host id imports

end Importing

def programReferencesName (body : Block) (name : String) : Bool :=
  (Semantic.Resolver.resolve body []).references.any fun reference =>
    reference.name == name && reference.resolution == .unresolved

def explicitNames (body : Block) : List String :=
  (body.bindings.filter fun binding => !binding.isEdge).map (·.name.value)

/-- The texts of the providers in order, each once. -/
def providerTexts (candidates : List (OpenImportCandidate Root Scheme Entry)) : List String :=
  distinctBy id (candidates.map (·.provider.display))

def ExternalNames.bindOpenImport (names : ExternalNames Root Scheme Entry) (name : String)
    (candidate : OpenImportCandidate Root Scheme Entry) : ExternalNames Root Scheme Entry :=
  names.bindImport name candidate.value candidate.root [(name, candidate.scheme)]
    (candidate.provenance.getD []) candidate.dynamic

def resolveOpenName (body : Block) (names : ExternalNames Root Scheme Entry) (name : String)
    (candidates : List (OpenImportCandidate Root Scheme Entry)) :
    Except ImportError (ExternalNames Root Scheme Entry) :=
  if name ∈ explicitNames body ∨ (names.values.lookup name).isSome then .ok names
  else
    match distinctBy (·.provider) candidates with
    | [] => failed "one candidate"
    | [candidate] => .ok (names.bindOpenImport name candidate)
    | first :: second :: rest =>
        if programReferencesName body name then
          .error (.ambiguous name (providerTexts (first :: second :: rest)))
        else .ok names

def resolveOpenNames (body : Block) :
    List (String × List (OpenImportCandidate Root Scheme Entry)) →
      ExternalNames Root Scheme Entry → Except ImportError (ExternalNames Root Scheme Entry)
  | [], names => .ok names
  | (name, candidates) :: rest, names => do
      let names ← resolveOpenName body names name candidates
      resolveOpenNames body rest names

/-- The external names a module is compiled with. -/
def externalNames (host : ImportHost Root Scheme Entry) (id : ModuleId) (sourceName : String)
    (body : Block) (external : ExternalNames Root Scheme Entry) :
    Except ImportError (ExternalNames Root Scheme Entry) := do
  let imports ← collectImports host id sourceName body external
  resolveOpenNames body imports.candidates imports.names

end OpenImports

end Telora
