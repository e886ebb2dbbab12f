import Telora.Library.Paths

/-!
# Module resolution

How an import request of a module becomes a resolved module: the logical identity
of the result, its format and authority, and the file that holds it.  The file
system is a parameter: where a path leads after links are followed, and which
paths are directories.
-/

namespace Telora

open Library

inductive ModuleFormat where
  | telora
  | json
  | toml
  | yaml
deriving DecidableEq, Repr

inductive ModuleAuthority where
  | ordinary
  | packageSystem
  | runtimeSystem
deriving DecidableEq, Repr

/-- The identity of a module: the selected root, a source of the working crate, a
registered module, or a source of a dependency. -/
inductive ModuleId where
  | main
  | source (path : Path)
  | builtin (name : String)
  | dependency (name : String) (path : Path)
deriving DecidableEq, Repr

namespace ModuleId

def display : ModuleId → String
  | main => "@main"
  | source path => "@src/" ++ path.display
  | builtin name => name
  | dependency name path => name ++ "/" ++ path.display

end ModuleId

structure ResolvedModule where
  id : ModuleId
  format : ModuleFormat
  authority : ModuleAuthority
  physicalPath : Option Path
deriving DecidableEq, Repr

inductive ResolveModuleError where
  | emptyPath
  | missingExtension
  | nonUtf8Path
  | unknownExtension (extension : String)
  | unknownDependency (name : String)
  | invalidImport (request : String)
  | invalidModuleSuffix (name : String)
  | crateEscape (request : String)
  | privateModuleAccess (request : String)
  | privateModuleRoot
  | formatConflict (configured extension : ModuleFormat)
  | io (message : String)
deriving DecidableEq, Repr

/-- Where a path leads once every link is followed. -/
inductive Canonicalized where
  | found (path : Path)
  | foundNonUtf8
  | notFound
  | failed (message : String)
deriving DecidableEq, Repr

/-- What resolution asks of the file system. -/
structure FileSystem where
  currentDir : Except String Path
  canonicalize : Path → Canonicalized
  isDir : Path → Bool

/-- The settings of one resolver, as its root module and manifest give them. -/
structure ModuleResolver where
  sourceRoot : Path
  mainPath : Path
  dependencies : List (String × Path)
  formats : List (String × ModuleFormat)
  builtins : List (String × Nat)
  selectedEntry : Option ModuleId
  injectedModules : List String
  virtualModules : List String

def hasPenultimateSuffix (path : Path) (suffix : String) : Bool :=
  (path.fileStem.bind fun stem => (Path.new stem).extension) = some suffix

def isPackageSystemSource (path : Path) : Bool :=
  path.extension = some "telora" && hasPenultimateSuffix path "native"

def isPrivateFileName (path : Path) : Bool :=
  hasPenultimateSuffix path "priv" || isPackageSystemSource path

def isPrivateModulePath (path : Path) : Bool :=
  isPrivateFileName path

def authorityForPath (path : Path) : ModuleAuthority :=
  if isPackageSystemSource path then .packageSystem else .ordinary

def ModuleFormat.fromPath (path : Path) : Except ResolveModuleError ModuleFormat :=
  if hasPenultimateSuffix path "native" ∧ path.extension ≠ some "telora" then
    .error (.invalidModuleSuffix (path.fileName.getD "<non-UTF-8>"))
  else match path.extension with
    | some extension =>
        if extension = "telora" then .ok .telora
        else if extension = "json" then .ok .json
        else if extension = "toml" then .ok .toml
        else if extension = "yaml" ∨ extension = "yml" then .ok .yaml
        else .error (.unknownExtension extension)
    | none => .error .missingExtension

section FileSystem

variable (fs : FileSystem)

def absoluteNormalized (path : Path) : Except ResolveModuleError Path :=
  match path with
  | [] => .error .emptyPath
  | .rootDir :: rest => .ok (Path.lexicalNormalize (.rootDir :: rest))
  | path =>
      match fs.currentDir with
      | .error message => .error (.io message)
      | .ok directory => .ok (directory.join path).lexicalNormalize

/-- The file behind a path.  A missing file keeps its normalised path. -/
def resolvePhysical (path : Path) : Except ResolveModuleError Path := do
  let absolute ← absoluteNormalized fs path
  match fs.canonicalize absolute with
  | .found path => .ok path
  | .foundNonUtf8 => .error .nonUtf8Path
  | .notFound => .ok absolute
  | .failed message => .error (.io message)

end FileSystem

namespace ModuleResolver

variable (resolver : ModuleResolver) (fs : FileSystem)

def formatFor (id : ModuleId) (physical : Path) : Except ResolveModuleError ModuleFormat :=
  match resolver.formats.lookup id.display, ModuleFormat.fromPath physical with
  | some _, .error (.invalidModuleSuffix name) => .error (.invalidModuleSuffix name)
  | some configured, .ok extension =>
      if configured ≠ extension then .error (.formatConflict configured extension)
      else .ok configured
  | some configured, .error _ => .ok configured
  | none, extension => extension

def resolveRoot (path : Path) : Except ResolveModuleError ResolvedModule := do
  let path ← resolvePhysical fs path
  if isPrivateFileName path then
    .error .privateModuleRoot
  else do
    let format ← resolver.formatFor .main path
    .ok { id := .main, format, authority := .ordinary, physicalPath := some path }

def resolveSource (path : Path) (original : String) :
    Except ResolveModuleError ResolvedModule := do
  let physical ← resolvePhysical fs (resolver.sourceRoot.join path)
  if ¬ physical.startsWith resolver.sourceRoot ∨ physical = resolver.mainPath then
    .error (.crateEscape original)
  else do
    let format ← resolver.formatFor (.source path) physical
    .ok { id := .source path, format, authority := authorityForPath physical,
          physicalPath := some physical }

/-- The directory that holds the sources of a dependency: `src` when there is one. -/
def dependencySourceRoot (root : Path) : Except ResolveModuleError Path :=
  let sourceCandidate := root.join [.normal "src"]
  if fs.isDir sourceCandidate then resolvePhysical fs sourceCandidate else .ok root

def resolveDependencyParts (name : String) (path : Path) (original : String)
    (allowPrivate : Bool) : Except ResolveModuleError ResolvedModule :=
  match resolver.dependencies.lookup name with
  | none => .error (.unknownDependency name)
  | some root => do
      let sourceRoot ← dependencySourceRoot fs root
      let physical ← resolvePhysical fs (sourceRoot.join path)
      if ¬ physical.startsWith sourceRoot then
        .error (.crateEscape original)
      else do
        let format ← resolver.formatFor (.dependency name path) physical
        if isPrivateModulePath path ∧ ¬ allowPrivate then
          .error (.privateModuleAccess original)
        else
          .ok { id := .dependency name path, format, authority := authorityForPath physical,
                physicalPath := some physical }

def resolveDependency (rest original : String) (allowPrivate : Bool) :
    Except ResolveModuleError ResolvedModule :=
  match splitOnce rest '/' with
  | none => .error (.invalidImport original)
  | some (name, path) =>
      if name = "" ∨ path = "" then .error (.invalidImport original)
      else match (Path.new path).lexicalNormalizeRelative with
        | none => .error (.crateEscape original)
        | some path => resolver.resolveDependencyParts fs name path original allowPrivate

/-- A request against the sources of the importer's own crate. -/
def resolveInOwner (importer : ModuleId) (path : Path) (original : String) :
    Except ResolveModuleError ResolvedModule :=
  match path.lexicalNormalizeRelative with
  | none => .error (.crateEscape original)
  | some path =>
      match importer with
      | .main | .source _ => resolver.resolveSource fs path original
      | .dependency name _ => resolver.resolveDependencyParts fs name path original true
      | .builtin _ => .error (.invalidImport "@src is unavailable to built-in modules")

/-- A request relative to the importer's own place in its crate. -/
def resolveRelative (importer : ModuleId) (target : String) :
    Except ResolveModuleError ResolvedModule :=
  match importer with
  | .main =>
      match (Path.new target).lexicalNormalizeRelative with
      | none => .error (.crateEscape target)
      | some logical => resolver.resolveSource fs logical target
  | .source path =>
      match ((path.parent.getD []).join (Path.new target)).lexicalNormalizeRelative with
      | none => .error (.crateEscape target)
      | some logical => resolver.resolveSource fs logical target
  | .dependency name path =>
      match ((path.parent.getD []).join (Path.new target)).lexicalNormalizeRelative with
      | none => .error (.crateEscape target)
      | some logical => resolver.resolveDependencyParts fs name logical target true
  | .builtin _ => .error (.invalidImport "built-in modules cannot use relative imports")

/-- A module the runtime provides. -/
def runtimeModule (target : String) : ResolvedModule :=
  { id := .builtin target, format := .telora, authority := .runtimeSystem, physicalPath := none }

def privileged (importer : ModuleId) : Bool :=
  resolver.selectedEntry = some importer

def resolveImport (importer : ModuleId) (target : String) :
    Except ResolveModuleError ResolvedModule :=
  let privileged := resolver.privileged importer
  if target = "" then .error .emptyPath
  else if target ∈ resolver.virtualModules then .ok (runtimeModule target)
  else if target ∈ resolver.injectedModules then
    if ¬ privileged then .error (.privateModuleAccess target) else .ok (runtimeModule target)
  else if ¬ startsWith target "." ∧ ¬ startsWith target "@" ∧
      (resolver.builtins.lookup target).isSome then
    if startsWith target "entry/" ∧ ¬ privileged then .error (.invalidImport target)
    else .ok (runtimeModule target)
  else if startsWith target "entry/" then .error (.invalidImport target)
  else if target = "@main" then
    if ¬ privileged then .error (.invalidImport target)
    else do
      let format ← resolver.formatFor .main resolver.mainPath
      .ok { id := .main, format, authority := .ordinary,
            physicalPath := some resolver.mainPath }
  else if startsWith target "@main/" then .error (.invalidImport target)
  else match stripStart target "@src/" with
    | some path => resolver.resolveInOwner fs importer (Path.new path) target
    | none =>
        if startsWith target "./" ∨ startsWith target "../" then
          resolver.resolveRelative fs importer target
        else if startsWith target "@" then .error (.invalidImport target)
        else resolver.resolveDependency fs target target privileged

end ModuleResolver

end Telora
