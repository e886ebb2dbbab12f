import Telora.Library.ExceptBind
import Telora.Modules.Resolver

/-!
# Confinement of module resolution

What every successful resolution is: a module of the runtime, the main module for
the selected entry, or a file below the source root of the crate that owns it.
The identity of a module fixes the rest of its record; conversely a file reached
without links has one identity in its crate.
-/

namespace Telora

open Library

/-- The crate a module belongs to. -/
inductive CrateOwner where
  | working
  | dependency (name : String)
  | runtime
deriving DecidableEq, Repr

def ModuleId.owner : ModuleId → CrateOwner
  | main | source _ => .working
  | dependency name _ => .dependency name
  | builtin _ => .runtime

namespace ModuleResolver

variable (resolver : ModuleResolver) (fs : FileSystem)

/-- The directory that holds the sources of a crate. -/
def HasSourceRoot (owner : CrateOwner) (sourceRoot : Path) : Prop :=
  match owner with
  | .working => sourceRoot = resolver.sourceRoot
  | .dependency name => ∃ root, resolver.dependencies.lookup name = some root ∧
      dependencySourceRoot fs root = .ok sourceRoot
  | .runtime => False

/-- The record of the module `id` at the logical place `path` of its crate: its
file is the canonical one, below the source root. -/
structure IsPlaced (id : ModuleId) (path : Path) (module : ResolvedModule) (sourceRoot physical : Path) :
    Prop where
  id_eq : module.id = id
  root : resolver.HasSourceRoot fs id.owner sourceRoot
  normal : path.IsNormal
  physical_eq : resolvePhysical fs (sourceRoot.join path) = .ok physical
  path_eq : module.physicalPath = some physical
  below : sourceRoot <+: physical
  format_eq : resolver.formatFor id physical = .ok module.format
  authority_eq : module.authority = authorityForPath physical

/-- Who may receive a module of the runtime under the name `target`. -/
def MayName (importer : ModuleId) (target : String) : Prop :=
  target ∈ resolver.virtualModules ∨
  (target ∈ resolver.injectedModules ∧ resolver.selectedEntry = some importer) ∨
  (target ∉ resolver.injectedModules ∧ (resolver.builtins.lookup target).isSome = true ∧
    (startsWith target "entry/" = true → resolver.selectedEntry = some importer))

/-- What a request may be answered with. -/
def Confined (importer : ModuleId) (target : String) (module : ResolvedModule) : Prop :=
  match module.id with
  | .builtin name =>
      name = target ∧ module = runtimeModule target ∧ resolver.MayName importer target
  | .main =>
      target = "@main" ∧ resolver.selectedEntry = some importer ∧
        module.physicalPath = some resolver.mainPath ∧ module.authority = .ordinary ∧
        resolver.formatFor .main resolver.mainPath = .ok module.format
  | .source path =>
      importer.owner = .working ∧
        ∃ physical, resolver.IsPlaced fs (.source path) path module resolver.sourceRoot physical ∧
          physical ≠ resolver.mainPath
  | .dependency name path =>
      (isPrivateModulePath path = true →
        importer.owner = .dependency name ∨ resolver.selectedEntry = some importer) ∧
        ∃ sourceRoot physical,
          resolver.IsPlaced fs (.dependency name path) path module sourceRoot physical

variable {resolver fs} {importer : ModuleId} {target : String} {module : ResolvedModule}

theorem confined_of_resolveSource {path : Path} {original : String} (hpath : path.IsNormal)
    (himporter : importer.owner = .working)
    (h : resolver.resolveSource fs path original = .ok module) :
    resolver.Confined fs importer target module := by
  simp only [resolveSource, bind_eq_ok] at h
  obtain ⟨physical, hphysical, h⟩ := h
  split at h
  · cases h
  · next hguard =>
      obtain ⟨hbelow, hmain⟩ := not_or.mp hguard
      obtain ⟨format, hformat, h⟩ := bind_eq_ok.mp h
      cases h
      have hbelow := Path.startsWith_iff.mp (not_not.mp hbelow)
      exact ⟨himporter, physical,
        ⟨rfl, rfl, hpath, hphysical, rfl, hbelow, hformat, rfl⟩, hmain⟩

theorem confined_of_resolveDependencyParts {name : String} {path : Path} {original : String}
    {allowPrivate : Bool} (hpath : path.IsNormal)
    (himporter : allowPrivate = true →
      importer.owner = .dependency name ∨ resolver.selectedEntry = some importer)
    (h : resolver.resolveDependencyParts fs name path original allowPrivate = .ok module) :
    resolver.Confined fs importer target module := by
  unfold resolveDependencyParts at h
  split at h
  · cases h
  · next root hroot =>
      obtain ⟨sourceRoot, hsourceRoot, h⟩ := bind_eq_ok.mp h
      obtain ⟨physical, hphysical, h⟩ := bind_eq_ok.mp h
      split at h
      · cases h
      · next hbelow =>
          obtain ⟨format, hformat, h⟩ := bind_eq_ok.mp h
          split at h
          · cases h
          · next hprivate =>
              cases h
              have hbelow := Path.startsWith_iff.mp (not_not.mp hbelow)
              refine ⟨fun hpriv => himporter ?_, sourceRoot, physical,
                ⟨rfl, ⟨root, hroot, hsourceRoot⟩, hpath, hphysical, rfl, hbelow, hformat, rfl⟩⟩
              by_contra hallow
              exact hprivate ⟨hpriv, hallow⟩

theorem confined_of_resolveDependency {rest original : String}
    (h : resolver.resolveDependency fs rest original (resolver.privileged importer) = .ok module) :
    resolver.Confined fs importer target module := by
  unfold resolveDependency at h
  split at h
  · cases h
  · split at h
    · cases h
    · split at h
      · cases h
      · next path hpath =>
          refine confined_of_resolveDependencyParts
            (Path.isNormal_lexicalNormalizeRelative hpath) (fun hprivileged => .inr ?_) h
          simpa [privileged] using hprivileged

theorem confined_of_resolveInOwner {path : Path} {original : String}
    (h : resolver.resolveInOwner fs importer path original = .ok module) :
    resolver.Confined fs importer target module := by
  unfold resolveInOwner at h
  split at h
  · cases h
  · next logical hlogical =>
      have hnormal := Path.isNormal_lexicalNormalizeRelative hlogical
      cases importer with
      | main => exact confined_of_resolveSource hnormal rfl h
      | source path => exact confined_of_resolveSource hnormal rfl h
      | dependency name path =>
          exact confined_of_resolveDependencyParts hnormal (fun _ => .inl rfl) h
      | builtin name => cases h

theorem confined_of_resolveRelative {request : String}
    (h : resolver.resolveRelative fs importer request = .ok module) :
    resolver.Confined fs importer target module := by
  cases importer with
  | builtin name => cases h
  | main =>
      simp only [resolveRelative] at h
      split at h
      · cases h
      · next logical hlogical =>
          exact confined_of_resolveSource (Path.isNormal_lexicalNormalizeRelative hlogical) rfl h
  | source path =>
      simp only [resolveRelative] at h
      split at h
      · cases h
      · next logical hlogical =>
          exact confined_of_resolveSource (Path.isNormal_lexicalNormalizeRelative hlogical) rfl h
  | dependency name path =>
      simp only [resolveRelative] at h
      split at h
      · cases h
      · next logical hlogical =>
          exact confined_of_resolveDependencyParts
            (Path.isNormal_lexicalNormalizeRelative hlogical) (fun _ => .inl rfl) h

theorem confined_runtimeModule (h : resolver.MayName importer target) :
    resolver.Confined fs importer target (runtimeModule target) :=
  ⟨rfl, rfl, h⟩

/-- Every request that succeeds is answered within the rules. -/
theorem confined_of_resolveImport (h : resolver.resolveImport fs importer target = .ok module) :
    resolver.Confined fs importer target module := by
  have hentry : resolver.privileged importer = true → resolver.selectedEntry = some importer := by
    simp [privileged]
  simp only [resolveImport] at h
  split at h
  · cases h
  split at h
  · next hvirtual =>
      cases h
      exact confined_runtimeModule (.inl hvirtual)
  split at h
  · next hinjected =>
      split at h
      · cases h
      · next hprivileged =>
          cases h
          exact confined_runtimeModule (.inr (.inl ⟨hinjected, hentry (not_not.mp hprivileged)⟩))
  rename_i hinjected
  split at h
  · next hbuiltin =>
      split at h
      · cases h
      · next hprivileged =>
          cases h
          refine confined_runtimeModule
            (.inr (.inr ⟨hinjected, hbuiltin.2.2, fun hstart => hentry ?_⟩))
          by_contra hnot
          exact hprivileged ⟨hstart, hnot⟩
  split at h
  · cases h
  split at h
  · next hmain =>
      split at h
      · cases h
      · next hprivileged =>
          obtain ⟨format, hformat, h⟩ := bind_eq_ok.mp h
          cases h
          exact ⟨hmain, hentry (not_not.mp hprivileged), rfl, rfl, hformat⟩
  split at h
  · cases h
  split at h
  · exact confined_of_resolveInOwner h
  split at h
  · exact confined_of_resolveRelative h
  split at h
  · cases h
  · exact confined_of_resolveDependency h

theorem HasSourceRoot.unique {owner : CrateOwner} {sourceRoot sourceRoot' : Path}
    (h : resolver.HasSourceRoot fs owner sourceRoot)
    (h' : resolver.HasSourceRoot fs owner sourceRoot') : sourceRoot = sourceRoot' := by
  cases owner with
  | working => exact Eq.trans h (Eq.symm h')
  | runtime => exact h.elim
  | dependency name =>
      obtain ⟨root, hroot, hsource⟩ := h
      obtain ⟨root', hroot', hsource'⟩ := h'
      obtain rfl : root = root' := by simpa [hroot] using hroot'
      simpa [hsource] using hsource'

/-- The logical place of an identity determines its record. -/
theorem IsPlaced.unique {id : ModuleId} {path sourceRoot physical sourceRoot' physical' : Path}
    {module' : ResolvedModule} (h : resolver.IsPlaced fs id path module sourceRoot physical)
    (h' : resolver.IsPlaced fs id path module' sourceRoot' physical') : module = module' := by
  obtain rfl := h.root.unique h'.root
  obtain rfl : physical = physical' := by simpa [h.physical_eq] using h'.physical_eq
  have hformat : module.format = module'.format := by simpa [h.format_eq] using h'.format_eq
  have hid : module.id = module'.id := h.id_eq.trans h'.id_eq.symm
  have hauthority : module.authority = module'.authority :=
    h.authority_eq.trans h'.authority_eq.symm
  have hfile : module.physicalPath = module'.physicalPath := h.path_eq.trans h'.path_eq.symm
  cases module
  cases module'
  simp_all

/-- A module with a file is the main module, or has a logical place in its crate. -/
theorem Confined.file {file : Path} (h : resolver.Confined fs importer target module)
    (hfile : module.physicalPath = some file) :
    (module.id = .main ∧ file = resolver.mainPath) ∨
    (∃ path, module.id = .source path ∧ file ≠ resolver.mainPath) ∨
    ∃ name path, module.id = .dependency name path := by
  unfold Confined at h
  split at h
  · next name hid =>
      rw [h.2.1] at hfile
      cases hfile
  · next hid =>
      obtain ⟨-, -, hpath, -⟩ := h
      exact .inl ⟨hid, Option.some.inj (hfile.symm.trans hpath)⟩
  · next path hid =>
      obtain ⟨-, physical, hplaced, hmain⟩ := h
      have hphysical : file = physical := Option.some.inj (hfile.symm.trans hplaced.path_eq)
      exact .inr (.inl ⟨path, hid, hphysical ▸ hmain⟩)
  · next name path hid => exact .inr (.inr ⟨name, path, hid⟩)

/-- Two modules with one identity are one module. -/
theorem Confined.unique {importer' : ModuleId} {target' : String} {module' : ResolvedModule}
    (h : resolver.Confined fs importer target module)
    (h' : resolver.Confined fs importer' target' module') (hid : module.id = module'.id) :
    module = module' := by
  unfold Confined at h h'
  rw [← hid] at h'
  cases hcase : module.id with
  | builtin name =>
      rw [hcase] at h h'
      obtain ⟨rfl, hmodule, -⟩ := h
      obtain ⟨rfl, hmodule', -⟩ := h'
      exact hmodule.trans hmodule'.symm
  | source path =>
      rw [hcase] at h h'
      obtain ⟨-, physical, hplaced, -⟩ := h
      obtain ⟨-, physical', hplaced', -⟩ := h'
      exact hplaced.unique hplaced'
  | dependency name path =>
      rw [hcase] at h h'
      obtain ⟨-, sourceRoot, physical, hplaced⟩ := h
      obtain ⟨-, sourceRoot', physical', hplaced'⟩ := h'
      exact hplaced.unique hplaced'
  | main =>
      rw [hcase] at h h'
      obtain ⟨-, -, hpath, hauthority, hformat⟩ := h
      obtain ⟨-, -, hpath', hauthority', hformat'⟩ := h'
      have hformats : module.format = module'.format := by simpa [hformat] using hformat'
      cases module
      cases module'
      simp_all

/-- The file of a module is its logical place below the source root: no link was
followed to reach it. -/
def Unlinked (resolver : ModuleResolver) (fs : FileSystem) (module : ResolvedModule) : Prop :=
  match module.id with
  | .main | .builtin _ => True
  | .source path | .dependency _ path => ∃ sourceRoot,
      resolver.HasSourceRoot fs module.id.owner sourceRoot ∧
        module.physicalPath = some (sourceRoot ++ path)

theorem Unlinked.path_unique {id id' : ModuleId} {path path' file : Path}
    {sourceRoot sourceRoot' : Path}
    (howner : id.owner = id'.owner) (hroot : resolver.HasSourceRoot fs id.owner sourceRoot)
    (hroot' : resolver.HasSourceRoot fs id'.owner sourceRoot')
    (hfile : file = sourceRoot ++ path) (hfile' : file = sourceRoot' ++ path') :
    path = path' := by
  rw [← howner] at hroot'
  obtain rfl := hroot.unique hroot'
  exact List.append_cancel_left (hfile.symm.trans hfile')

/-- Within one crate, a file reached without links has one identity. -/
theorem Confined.id_eq_of_file {importer' : ModuleId} {target' : String} {module' : ResolvedModule}
    {file : Path} (h : resolver.Confined fs importer target module)
    (h' : resolver.Confined fs importer' target' module')
    (howner : module.id.owner = module'.id.owner) (hlink : resolver.Unlinked fs module)
    (hlink' : resolver.Unlinked fs module') (hfile : module.physicalPath = some file)
    (hfile' : module'.physicalPath = some file) : module.id = module'.id := by
  simp only [Unlinked, hfile, hfile', Option.some.injEq] at hlink hlink'
  rcases h.file hfile with ⟨hid, hmain⟩ | ⟨path, hid, hmain⟩ | ⟨name, path, hid⟩ <;>
    rcases h'.file hfile' with ⟨hid', hmain'⟩ | ⟨path', hid', hmain'⟩ | ⟨name', path', hid'⟩ <;>
    rw [hid, hid'] at howner ⊢ <;> rw [hid] at hlink <;> rw [hid'] at hlink'
  case inr.inl.inr.inl =>
    obtain ⟨sourceRoot, hroot, hpath⟩ := hlink
    obtain ⟨sourceRoot', hroot', hpath'⟩ := hlink'
    rw [Unlinked.path_unique howner hroot hroot' hpath hpath']
  case inr.inr.inr.inr =>
    obtain ⟨sourceRoot, hroot, hpath⟩ := hlink
    obtain ⟨sourceRoot', hroot', hpath'⟩ := hlink'
    rw [Unlinked.path_unique howner hroot hroot' hpath hpath', CrateOwner.dependency.inj howner]
  case inr.inl.inl => exact absurd hmain' hmain
  case inl.inr.inl => exact absurd hmain hmain'
  all_goals cases howner

/-- Module resolution is confined: a request that succeeds is answered with what
its importer may receive, one identity is one module, and a file reached without
links has one identity in its crate. -/
theorem resolveImport_confined (resolver : ModuleResolver) (fs : FileSystem) (importer : ModuleId)
    (target : String) (module : ResolvedModule)
    (h : resolver.resolveImport fs importer target = .ok module) :
    resolver.Confined fs importer target module ∧
    ∀ importer' target' module', resolver.resolveImport fs importer' target' = .ok module' →
      (module.id = module'.id → module = module') ∧
      ∀ file, module.id.owner = module'.id.owner →
        resolver.Unlinked fs module → resolver.Unlinked fs module' →
        module.physicalPath = some file → module'.physicalPath = some file →
        module.id = module'.id := by
  have hconfined := confined_of_resolveImport h
  refine ⟨hconfined, fun importer' target' module' h' => ?_⟩
  have hconfined' := confined_of_resolveImport h'
  exact ⟨hconfined.unique hconfined', fun file howner hlink hlink' hfile hfile' =>
    hconfined.id_eq_of_file hconfined' howner hlink hlink' hfile hfile'⟩

def linkedFiles : FileSystem where
  currentDir := .ok (Path.new "/")
  canonicalize path :=
    if path = Path.new "/app/src/alias.telora" then .found (Path.new "/app/src/model.telora")
    else .found path
  isDir path := path = Path.new "/dep/src"

def linkedResolver : ModuleResolver where
  sourceRoot := Path.new "/app/src"
  mainPath := Path.new "/app/bin-src/tool.telora"
  dependencies := [("dep", Path.new "/dep")]
  formats := []
  builtins := [("entry/exec.telora", 7)]
  selectedEntry := some (.builtin "entry/exec.telora")
  injectedModules := []
  virtualModules := []

def sourceModule (name : String) : ResolvedModule where
  id := .source [.normal name]
  format := .telora
  authority := .ordinary
  physicalPath := some (Path.new "/app/src/model.telora")

theorem resolveImport_confined_dotted :
    linkedResolver.Confined linkedFiles .main "./sub/../model.telora"
      (sourceModule "model.telora") :=
  (resolveImport_confined linkedResolver linkedFiles .main "./sub/../model.telora"
    (sourceModule "model.telora") (by rfl)).1

/-- One file under two names is two modules of one importer, and the selected entry
receives a private module of another crate and the main module. -/
theorem linked_file_has_two_identities :
    (linkedResolver.resolveImport linkedFiles .main "@src/model.telora" =
        .ok (sourceModule "model.telora") ∧
      linkedResolver.resolveImport linkedFiles .main "@src/alias.telora" =
        .ok (sourceModule "alias.telora") ∧
      (sourceModule "model.telora").physicalPath = (sourceModule "alias.telora").physicalPath ∧
      (sourceModule "model.telora").id ≠ (sourceModule "alias.telora").id) ∧
    (linkedResolver.resolveImport linkedFiles (.builtin "entry/exec.telora")
        "dep/secret.priv.telora" =
        .ok { id := .dependency "dep" [.normal "secret.priv.telora"], format := .telora,
              authority := .ordinary,
              physicalPath := some (Path.new "/dep/src/secret.priv.telora") } ∧
      isPrivateModulePath [.normal "secret.priv.telora"] = true ∧
      (ModuleId.builtin "entry/exec.telora").owner ≠ .dependency "dep") ∧
    linkedResolver.resolveImport linkedFiles (.builtin "entry/exec.telora") "@main" =
      .ok { id := .main, format := .telora, authority := .ordinary,
            physicalPath := some linkedResolver.mainPath } := by
  refine ⟨⟨by rfl, by rfl, rfl, by decide⟩, ⟨by rfl, by decide, by decide⟩, by rfl⟩

end ModuleResolver

end Telora
