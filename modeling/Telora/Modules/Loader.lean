import Telora.Library.Answers
import Telora.Library.Lists
import Telora.Modules.Resolver
import Telora.Syntax.Expr
import Telora.Value.Value

/-!
# Loading of modules

A root module is compiled after the modules it imports are loaded, each of them compiled and
executed after those it imports in turn. What is loaded stays in a cache; the modules that are
being loaded are on a stack. The analysis of a program, its compilation and its execution are
parameters, as are the file system and the parsers.
-/

namespace Telora.Modules

open Library

/-- A top-level binding of a module, with what loading looks at. -/
structure ModuleBinding where
  kind : BindingKind
  name : String
  importedName : Option String
  /-- The value, when it is a string literal. -/
  specifier : Option String

def ModuleBinding.isImport (binding : ModuleBinding) : Bool :=
  match binding.kind with
  | .importBinding | .openImport => true
  | _ => false

structure ModuleOption where
  key : String
  value : Except String Value

/-- What a parser makes of a source; the options are there without a program, too. -/
structure ParsedModule (Program : Type) where
  options : List ModuleOption
  program : Except String Program

variable {Program World Root Sourced Interface Compiled : Type}

/-- A module that is loaded: its published root, the value that analysis may look at unless the
module is `dynamic`, and its interface. -/
structure Ready (Root Sourced Interface : Type) where
  root : Root
  sourced : Sourced
  dynamic : Bool
  interface : Interface

/-- What the import statements of a module bring, by name and through open imports. -/
structure ImportScope (Root Sourced Interface : Type) where
  bindings : List (String × Ready Root Sourced Interface) := []
  candidates : List (String × ModuleId × Ready Root Sourced Interface) := []

/-- What loading relies on. -/
structure LoaderHost (Program World Root Sourced Interface Compiled : Type) where
  resolver : ModuleResolver
  files : FileSystem
  errorText : ResolveModuleError → String
  explicitExports : Bool
  emptyInterface : Interface
  coreModules : String → Option (Ready Root Sourced Interface)
  read : Path → Except String String
  parse : String → ParsedModule Program
  parseData : ModuleFormat → String → Except String Sourced
  moduleBindings : Program → List ModuleBinding
  hasNestedImport : Program → Bool
  publishData : World → Sourced → Except String (World × Root)
  publishExternal : World → Value → Except String (World × Ready Root Sourced Interface)
  selectImport : World → Ready Root Sourced Interface → ModuleBinding →
    Except String (Ready Root Sourced Interface)
  openImportExports : World → ModuleId → Ready Root Sourced Interface →
    Except String (List (String × Ready Root Sourced Interface))
  compile : World → ModuleId → ModuleAuthority → Bool → Program →
    ImportScope Root Sourced Interface → Except String (World × Compiled)
  execute : World → Compiled → Except String (World × Ready Root Sourced Interface)

/-- Steps of loading that happen to a module. -/
inductive Stage where
  | parsed (id : ModuleId)
  | compiled (id : ModuleId)
  | published (id : ModuleId)
  deriving DecidableEq

/-- A stage with what came of it. -/
inductive Entry (Root Sourced Interface Compiled : Type) where
  | parsed (id : ModuleId)
  | compiled (id : ModuleId) (compiled : Compiled)
  | published (id : ModuleId) (ready : Ready Root Sourced Interface)

@[simp]
def Entry.stage : Entry Root Sourced Interface Compiled → Stage
  | .parsed id => .parsed id
  | .compiled id _ => .compiled id
  | .published id _ => .published id

/-- The last field only remembers what happened, newest first. -/
structure Loader (World Root Sourced Interface Compiled : Type) where
  world : World
  cache : List (ModuleId × Ready Root Sourced Interface) := []
  visiting : List ModuleId := []
  dependencies : List Path := []
  log : List (Entry Root Sourced Interface Compiled) := []

namespace Loader

variable (loader : Loader World Root Sourced Interface Compiled)

def enter (id : ModuleId) : Answer String (Loader World Root Sourced Interface Compiled) :=
  match loader.visiting.idxOf? id with
  | some index =>
      throw ("module import cycle: " ++ String.intercalate " -> "
        ((loader.visiting.drop index).map ModuleId.display ++ [id.display]))
  | none => return { loader with visiting := loader.visiting ++ [id] }

def leave : Loader World Root Sourced Interface Compiled :=
  { loader with visiting := loader.visiting.dropLast }

def depend (path : Path) : Loader World Root Sourced Interface Compiled :=
  { loader with
    dependencies :=
      if path ∈ loader.dependencies then loader.dependencies else path :: loader.dependencies }

def reach (entry : Entry Root Sourced Interface Compiled) :
    Loader World Root Sourced Interface Compiled :=
  { loader with log := entry :: loader.log }

def stages : List Stage := loader.log.map Entry.stage

def setWorld (world : World) : Loader World Root Sourced Interface Compiled :=
  { loader with world := world }

def store (id : ModuleId) (ready : Ready Root Sourced Interface) :
    Loader World Root Sourced Interface Compiled :=
  { loader with cache := (id, ready) :: loader.cache }

end Loader

section Loading

variable (host : LoaderHost Program World Root Sourced Interface Compiled)

def loadNativeModule (name : String) : Except String (Ready Root Sourced Interface) :=
  match host.coreModules name with
  | some ready => return ready
  | none => throw s!"unknown built-in module {name.quote}"

/-- The names a module brings to the scope of its importer. -/
def bindImport (world : World) (id : ModuleId) (ready : Ready Root Sourced Interface)
    (binding : ModuleBinding) (scope : ImportScope Root Sourced Interface) :
    Except String (ImportScope Root Sourced Interface) :=
  if binding.kind = .openImport then do
    let exports ← host.openImportExports world id ready
    return { scope with
      candidates := scope.candidates ++ exports.map fun (name, ready) => (name, id, ready) }
  else do
    let selected ← host.selectImport world ready binding
    return { scope with bindings := replaceEntry binding.name selected scope.bindings }

/-- One import statement; modules of the runtime are there already. -/
def importModule
    (load : ResolvedModule → Loader World Root Sourced Interface Compiled →
      Answer String (Sourced × Loader World Root Sourced Interface Compiled))
    (importer : ModuleId) (sourceName : String) (scope : ImportScope Root Sourced Interface)
    (loader : Loader World Root Sourced Interface Compiled) (binding : ModuleBinding) :
    Answer String
      (ImportScope Root Sourced Interface × Loader World Root Sourced Interface Compiled) :=
  if binding.kind = .importBinding ∧ (scope.bindings.lookup binding.name).isSome then
    throw s!"duplicate module binding {binding.name.quote} in {sourceName}"
  else
    match binding.specifier with
    | none => throw "import path must be a string"
    | some specifier => do
        let imported ← .ofExcept ((host.resolver.resolveImport host.files importer specifier).mapError
          host.errorText)
        if imported.authority = .runtimeSystem then do
          let ready ← .ofExcept (loadNativeModule host specifier)
          let scope ← .ofExcept (bindImport host loader.world imported.id ready binding scope)
          return (scope, loader)
        else do
          let (sourced, loader) ← load imported loader
          match loader.cache.lookup imported.id with
          | none => .none
          | some cached =>
              let ready := { cached with sourced := sourced }
              let scope ← .ofExcept (bindImport host loader.world imported.id ready binding scope)
              return (scope, loader)

def importModules
    (load : ResolvedModule → Loader World Root Sourced Interface Compiled →
      Answer String (Sourced × Loader World Root Sourced Interface Compiled))
    (importer : ModuleId) (sourceName : String) :
    List ModuleBinding → ImportScope Root Sourced Interface →
      Loader World Root Sourced Interface Compiled →
      Answer String
        (ImportScope Root Sourced Interface × Loader World Root Sourced Interface Compiled)
  | [], scope, loader => return (scope, loader)
  | binding :: rest, scope, loader => do
      let (scope, loader) ← importModule host load importer sourceName scope loader binding
      importModules load importer sourceName rest scope loader

/-- The bindings a host gives to a root come first. -/
def publishExternals :
    List (String × Value) → ImportScope Root Sourced Interface →
      Loader World Root Sourced Interface Compiled →
      Answer String
        (ImportScope Root Sourced Interface × Loader World Root Sourced Interface Compiled)
  | [], scope, loader => return (scope, loader)
  | (name, value) :: rest, scope, loader => do
      let (world, ready) ← .ofExcept (host.publishExternal loader.world value)
      publishExternals rest
        { scope with bindings := replaceEntry name ready scope.bindings } (loader.setWorld world)

def isStringArray : Value → Bool
  | .array items => items.all fun
      | .string _ => true
      | _ => false
  | _ => false

def loadOption (option : ModuleOption) : Except String (String × Value) := do
  let value ← option.value
  if option.key = "exec.capture-envs" ∧ !isStringArray value then
    throw "option \"exec.capture-envs\" must contain an Array(String)"
  else return (option.key, value)

/-- The checks of a source before its imports are loaded. -/
def checkProgram (id : ModuleId) (sourceName : String) (parsed : ParsedModule Program) :
    Except String (List (String × Value) × Program) :=
  match parsed.options.find? fun _ => id ≠ .main with
  | some option => throw s!"option {option.key.quote} is only allowed in @main"
  | none => do
      let program ← parsed.program
      let options ← parsed.options.mapM loadOption
      if host.explicitExports ∧
          !(host.moduleBindings program).any (·.kind = .exportBinding) then
        throw "module requires at least one explicit export"
      else if host.hasNestedImport program then
        throw s!"{sourceName}: imports and native declarations are only allowed at module top level"
      else return (options, program)

structure CompiledModule (Compiled : Type) where
  compiled : Compiled
  options : List (String × Value)

def compileTelora
    (load : ResolvedModule → Loader World Root Sourced Interface Compiled →
      Answer String (Sourced × Loader World Root Sourced Interface Compiled))
    (id : ModuleId) (authority : ModuleAuthority) (path : Path)
    (externals : List (String × Value)) (isRoot : Bool)
    (loader : Loader World Root Sourced Interface Compiled) :
    Answer String (CompiledModule Compiled × Loader World Root Sourced Interface Compiled) := do
  let source ← .ofExcept (host.read path)
  let (options, program) ← .ofExcept (checkProgram host id path.display (host.parse source))
  let (scope, loader) ← publishExternals host externals {} (loader.reach (.parsed id))
  let (scope, loader) ← importModules host load id path.display
    ((host.moduleBindings program).filter (·.isImport)) scope loader
  let (world, compiled) ← .ofExcept (host.compile loader.world id authority isRoot program scope)
  return (⟨compiled, options⟩, (loader.setWorld world).reach (.compiled id compiled))

/-- What is published of a module, by its format. -/
def loadFormat
    (load : ResolvedModule → Loader World Root Sourced Interface Compiled →
      Answer String (Sourced × Loader World Root Sourced Interface Compiled))
    (module : ResolvedModule) (path : Path) (loader : Loader World Root Sourced Interface Compiled) :
    Answer String
      (Ready Root Sourced Interface × Loader World Root Sourced Interface Compiled) :=
  match module.format with
  | .telora => do
      let (compiled, loader) ←
        compileTelora host load module.id module.authority path [] false loader
      let (world, ready) ← .ofExcept (host.execute loader.world compiled.compiled)
      return (ready, loader.setWorld world)
  | format => do
      let source ← .ofExcept (host.read path)
      let sourced ← .ofExcept (host.parseData format source)
      let (world, root) ← .ofExcept (host.publishData loader.world sourced)
      return (⟨root, sourced, false, host.emptyInterface⟩,
        (loader.reach (.parsed module.id)).setWorld world)

/-- The load of a module that is not loaded yet, with a load for those it imports. -/
def loadModule
    (load : ResolvedModule → Loader World Root Sourced Interface Compiled →
      Answer String (Sourced × Loader World Root Sourced Interface Compiled))
    (module : ResolvedModule) (path : Path) (loader : Loader World Root Sourced Interface Compiled) :
    Answer String (Sourced × Loader World Root Sourced Interface Compiled) := do
  let loader ← loader.enter module.id
  let (ready, loader) ← loadFormat host load module path (loader.depend path)
  return (ready.sourced,
    (loader.leave.store module.id ready).reach (.published module.id ready))

/-- The fuel bounds how deep modules import one another. A file that is expected and not there
is no answer, either. -/
def loadResolvedValue : Nat → ResolvedModule → Loader World Root Sourced Interface Compiled →
    Answer String (Sourced × Loader World Root Sourced Interface Compiled)
  | 0, _, _ => .none
  | fuel + 1, module, loader =>
      match module.physicalPath with
      | none => .none
      | some path =>
          match loader.cache.lookup module.id with
          | some ready => return (ready.sourced, loader)
          | none => loadModule host (loadResolvedValue fuel) module path loader

def loadRoot (fuel : Nat) (module : ResolvedModule) (externals : List (String × Value))
    (loader : Loader World Root Sourced Interface Compiled) :
    Answer String (CompiledModule Compiled × Loader World Root Sourced Interface Compiled) :=
  match module.physicalPath with
  | none => .none
  | some path => do
      let loader ← (loader.depend path).enter module.id
      let (compiled, loader) ← compileTelora host (loadResolvedValue host fuel) module.id
        module.authority path externals true loader
      return (compiled, loader.leave)

end Loading

end Telora.Modules
