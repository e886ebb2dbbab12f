import Telora.Library.Histories
import Telora.Modules.Confinement
import Telora.Modules.Loader

/-!
# The order of loading

The import statements of the sources make a graph of modules. A load that succeeds has met no
cycle of it, and it has parsed, compiled and executed every module once, after those it imports.
While modules are being loaded an invariant says this of the modules that are in the cache; the
stack of the loader keeps apart from the cache the modules that are not done.
-/

namespace Telora.Modules

open Library

variable {Program World Root Sourced Interface Compiled : Type}

section Graph

variable (host : LoaderHost Program World Root Sourced Interface Compiled)

/-- A Telora module and the program its file has. -/
def HasProgram (module : ResolvedModule) (program : Program) : Prop :=
  module.format = .telora ∧ ∃ path source, module.physicalPath = some path ∧
    host.read path = .ok source ∧ (host.parse source).program = .ok program

/-- An import statement of a module, and what its specifier resolves to. -/
def ImportsBy (module : ResolvedModule) (specifier : String) (target : ResolvedModule) : Prop :=
  ∃ program, HasProgram host module program ∧
    (∃ binding ∈ host.moduleBindings program,
      binding.isImport ∧ binding.specifier = some specifier) ∧
    host.resolver.resolveImport host.files module.id specifier = .ok target

/-- The modules with a source, as they import one another. -/
def Imports (module target : ResolvedModule) : Prop :=
  (∃ specifier, ImportsBy host module specifier target) ∧ target.authority ≠ .runtimeSystem

/-- The modules that can be reached from a root have a cycle. -/
def Cyclic (root : ResolvedModule) : Prop :=
  ∃ module again, Relation.ReflTransGen (Imports host) root module ∧
    Relation.TransGen (Imports host) module again ∧ again.id = module.id

def Resolved (module : ResolvedModule) : Prop :=
  ∃ importer specifier,
    host.resolver.resolveImport host.files importer specifier = .ok module

variable (loader : Loader World Root Sourced Interface Compiled)

def Loader.keys : List ModuleId := loader.cache.map (·.1)

/-- What imports of a module are given: modules of the runtime are there from the start. -/
def provided : ModuleId → Option (Ready Root Sourced Interface)
  | .builtin name => host.coreModules name
  | id => loader.cache.lookup id

/-- An import statement brought what is provided of the module it names to a scope. -/
def Brought (importer : ModuleId) (binding : ModuleBinding)
    (scope scope' : ImportScope Root Sourced Interface) : Prop :=
  ∃ specifier target ready world, binding.specifier = some specifier ∧
    host.resolver.resolveImport host.files importer specifier = .ok target ∧
    provided host loader target.id = some ready ∧
    bindImport host world target.id ready binding scope = .ok scope'

/-- The import statements of a module, one after the other. -/
inductive Brings (importer : ModuleId) : List ModuleBinding →
    ImportScope Root Sourced Interface → ImportScope Root Sourced Interface → Prop where
  | nil {scope} : Brings importer [] scope scope
  | cons {binding rest scope bound scope'} : Brought host loader importer binding scope bound →
      Brings importer rest bound scope' → Brings importer (binding :: rest) scope scope'

/-- What was compiled of a module is its program, in the scope of what its imports brought; only
a root starts with a scope that its host gives. -/
def CompiledFrom (module : ResolvedModule) (isRoot : Bool) (compiled : Compiled) (after : World) :
    Prop :=
  ∃ program given scope before, HasProgram host module program ∧ (isRoot = false → given = {}) ∧
    Brings host loader module.id ((host.moduleBindings program).filter (·.isImport)) given scope ∧
    host.compile before module.id module.authority isRoot program scope = .ok (after, compiled) ∧
    .compiled module.id compiled ∈ loader.log

/-- What was published of a module is what came of its execution, or the data of its file. -/
def PublishedFrom (module : ResolvedModule) (ready : Ready Root Sourced Interface) : Prop :=
  match module.format with
  | .telora => ∃ compiled before after, CompiledFrom host loader module false compiled before ∧
      host.execute before compiled = .ok (after, ready)
  | format => ∃ path source sourced root before after, module.physicalPath = some path ∧
      host.read path = .ok source ∧ host.parseData format source = .ok sourced ∧
      host.publishData before sourced = .ok (after, root) ∧
      ready = ⟨root, sourced, false, host.emptyInterface⟩

/-- A module was compiled, after all those it imports were published. -/
structure CompiledInOrder (module : ResolvedModule) : Prop where
  parsed : Earlier loader.stages (.parsed module.id) (.compiled module.id)
  imports : ∀ target, Imports host module target →
    target.id ∈ loader.keys ∧
      Earlier loader.stages (.published target.id) (.compiled module.id)

/-- A module was parsed, compiled when it is one of the language, and published; what was
published is what its importers are given. -/
structure LoadedInOrder (module : ResolvedModule) : Prop where
  parsed : Earlier loader.stages (.parsed module.id) (.published module.id)
  compiled : module.format = .telora →
    CompiledInOrder host loader module ∧
      Earlier loader.stages (.compiled module.id) (.published module.id)
  published : ∃ ready, provided host loader module.id = some ready ∧
    .published module.id ready ∈ loader.log ∧ PublishedFrom host loader module ready

variable (start : World) in
/-- A log is all that was done to the world, in the order in which it was done; only the
publication of the values of a host is not logged. -/
inductive Replays : List (Entry Root Sourced Interface Compiled) → World → Prop where
  | start : Replays [] start
  | parsed {log world id} : Replays log world → Replays (.parsed id :: log) world
  | given {log world world' value ready} : Replays log world →
      host.publishExternal world value = .ok (world', ready) → Replays log world'
  | compiled {log world world' id authority isRoot program scope compiled} : Replays log world →
      host.compile world id authority isRoot program scope = .ok (world', compiled) →
      Replays (.compiled id compiled :: log) world'
  | executed {log world world' id compiled ready} : Replays (.compiled id compiled :: log) world →
      host.execute world compiled = .ok (world', ready) →
      Replays (.published id ready :: .compiled id compiled :: log) world'
  | data {log world world' id sourced root} : Replays (.parsed id :: log) world →
      host.publishData world sourced = .ok (world', root) →
      Replays (.published id ⟨root, sourced, false, host.emptyInterface⟩ :: .parsed id :: log)
        world'

/-- What holds of the modules that are done and of those that are not. -/
structure LoaderBase : Prop where
  once : loader.stages.Nodup
  parsed : ∀ id, .parsed id ∈ loader.stages → id ∈ loader.visiting ∨ id ∈ loader.keys
  published : ∀ id, .published id ∈ loader.stages → id ∈ loader.keys
  visiting : loader.visiting.Nodup
  apart : ∀ id ∈ loader.visiting, id ∉ loader.keys
  loaded : ∀ module, Resolved host module → module.id ∈ loader.keys →
    LoadedInOrder host loader module

/-- What holds whenever a module starts or ends to be loaded. -/
structure LoaderInv : Prop extends LoaderBase host loader where
  compiled : ∀ id, .compiled id ∈ loader.stages → id ∈ loader.keys

/-- The same with one module that is compiled and not in the cache. -/
structure Built (module : ResolvedModule) : Prop extends LoaderBase host loader where
  compiled : ∀ id, .compiled id ∈ loader.stages → id = module.id ∨ id ∈ loader.keys
  stage : .parsed module.id ∈ loader.stages
  order : module.format = .telora → CompiledInOrder host loader module

end Graph

/-- What is there stays there. -/
structure Extends (loader loader' : Loader World Root Sourced Interface Compiled) : Prop where
  log : loader.log.Sublist loader'.log
  cache : ∀ id ready, loader.cache.lookup id = some ready → loader'.cache.lookup id = some ready

/-- The loader after a part of a load, which leaves the stack as it was. -/
structure Grows (loader loader' : Loader World Root Sourced Interface Compiled) : Prop
    extends Extends loader loader' where
  visiting : loader'.visiting = loader.visiting

variable {host : LoaderHost Program World Root Sourced Interface Compiled}
  {loader loader' loader'' : Loader World Root Sourced Interface Compiled}

theorem Extends.stages (h : Extends loader loader') : loader.stages.Sublist loader'.stages :=
  h.log.map Entry.stage

theorem Grows.refl (loader : Loader World Root Sourced Interface Compiled) :
    Grows loader loader where
  visiting := rfl
  log := List.Sublist.refl _
  cache _ _ h := h

theorem Extends.trans (h : Extends loader loader') (h' : Extends loader' loader'') :
    Extends loader loader'' where
  log := h.log.trans h'.log
  cache id ready hlookup := h'.cache id ready (h.cache id ready hlookup)

theorem Grows.trans (h : Grows loader loader') (h' : Grows loader' loader'') :
    Grows loader loader'' where
  toExtends := h.toExtends.trans h'.toExtends
  visiting := h'.visiting.trans h.visiting

theorem grows_setWorld (world : World) : Grows loader (loader.setWorld world) where
  visiting := rfl
  log := List.Sublist.refl _
  cache _ _ h := h

theorem grows_reach (entry : Entry Root Sourced Interface Compiled) :
    Grows loader (loader.reach entry) where
  visiting := rfl
  log := List.sublist_cons_self _ _
  cache _ _ h := h

theorem mem_keys_iff {id : ModuleId} :
    id ∈ loader.keys ↔ ∃ ready, loader.cache.lookup id = some ready := by
  constructor
  · intro hmem
    cases hlookup : loader.cache.lookup id with
    | none => exact absurd hmem (not_mem_keys_of_lookup hlookup)
    | some ready => exact ⟨ready, rfl⟩
  · rintro ⟨ready, hlookup⟩
    exact List.mem_map_of_mem (mem_of_lookup hlookup)

theorem Extends.keys (h : Extends loader loader') {id : ModuleId} (hmem : id ∈ loader.keys) :
    id ∈ loader'.keys := by
  obtain ⟨ready, hlookup⟩ := mem_keys_iff.mp hmem
  exact mem_keys_iff.mpr ⟨ready, h.cache id ready hlookup⟩

theorem Extends.provided (h : Extends loader loader') {id : ModuleId}
    {ready : Ready Root Sourced Interface} (hready : provided host loader id = some ready) :
    provided host loader' id = some ready := by
  cases id with
  | builtin name => exact hready
  | main | source | dependency => exact h.cache _ ready hready

theorem Brings.extend {importer : ModuleId} {bindings : List ModuleBinding}
    {scope scope' : ImportScope Root Sourced Interface}
    (h : Brings host loader importer bindings scope scope') (hgrows : Extends loader loader') :
    Brings host loader' importer bindings scope scope' := by
  induction h with
  | nil => exact .nil
  | cons hfirst _ ih =>
      obtain ⟨specifier, target, ready, world, hspecifier, hresolve, hready, hbound⟩ := hfirst
      exact .cons ⟨specifier, target, ready, world, hspecifier, hresolve,
        hgrows.provided hready, hbound⟩ ih

theorem CompiledFrom.extend {module : ResolvedModule} {isRoot : Bool} {compiled : Compiled}
    {after : World} (h : CompiledFrom host loader module isRoot compiled after)
    (hgrows : Extends loader loader') : CompiledFrom host loader' module isRoot compiled after := by
  obtain ⟨program, given, scope, before, hprogram, hgiven, hbrings, hcompile, hlog⟩ := h
  exact ⟨program, given, scope, before, hprogram, hgiven, hbrings.extend hgrows, hcompile,
    hgrows.log.subset hlog⟩

theorem PublishedFrom.extend {module : ResolvedModule} {ready : Ready Root Sourced Interface}
    (h : PublishedFrom host loader module ready) (hgrows : Extends loader loader') :
    PublishedFrom host loader' module ready := by
  rw [PublishedFrom] at h ⊢
  split
  · rename_i hformat
    rw [hformat] at h
    obtain ⟨compiled, before, after, hcompiled, hexecute⟩ := h
    exact ⟨compiled, before, after, hcompiled.extend hgrows, hexecute⟩
  · rename_i hformat
    split at h
    · rename_i htelora
      exact absurd htelora hformat
    · exact h

theorem CompiledInOrder.extend {module : ResolvedModule} (h : CompiledInOrder host loader module)
    (hgrows : Extends loader loader') : CompiledInOrder host loader' module where
  parsed := h.parsed.mono hgrows.stages
  imports target htarget :=
    (h.imports target htarget).imp hgrows.keys fun hearlier => hearlier.mono hgrows.stages

theorem LoadedInOrder.extend {module : ResolvedModule} (h : LoadedInOrder host loader module)
    (hgrows : Extends loader loader') : LoadedInOrder host loader' module where
  parsed := h.parsed.mono hgrows.stages
  compiled hformat :=
    (h.compiled hformat).imp (·.extend hgrows) fun hearlier => hearlier.mono hgrows.stages
  published := by
    obtain ⟨ready, hready, hlog, hfrom⟩ := h.published
    exact ⟨ready, hgrows.provided hready, hgrows.log.subset hlog, hfrom.extend hgrows⟩

theorem Resolved.unique {module module' : ResolvedModule} (h : Resolved host module)
    (h' : Resolved host module') (hid : module.id = module'.id) : module = module' := by
  obtain ⟨_, _, hmodule⟩ := h
  obtain ⟨_, _, hmodule'⟩ := h'
  exact (ModuleResolver.confined_of_resolveImport hmodule).unique
    (ModuleResolver.confined_of_resolveImport hmodule') hid

/-- A module with a source is no module of the runtime, and it has a file. -/
theorem hasFile_of_resolved {importer : ModuleId} {specifier : String} {module : ResolvedModule}
    (h : host.resolver.resolveImport host.files importer specifier = .ok module)
    (hauthority : module.authority ≠ .runtimeSystem) :
    (∀ name, module.id ≠ .builtin name) ∧ ∃ path, module.physicalPath = some path := by
  have hconfined := ModuleResolver.confined_of_resolveImport h
  unfold ModuleResolver.Confined at hconfined
  cases hid : module.id with
  | builtin name =>
      rw [hid] at hconfined
      obtain ⟨_, hmodule, _⟩ := hconfined
      exact absurd (congrArg ResolvedModule.authority hmodule) hauthority
  | main =>
      rw [hid] at hconfined
      obtain ⟨_, _, hpath, _⟩ := hconfined
      exact ⟨fun _ heq => (by cases heq), _, hpath⟩
  | source path =>
      rw [hid] at hconfined
      obtain ⟨_, physical, hplaced, _⟩ := hconfined
      exact ⟨fun _ heq => (by cases heq), _, hplaced.path_eq⟩
  | dependency name path =>
      rw [hid] at hconfined
      obtain ⟨_, sourceRoot, physical, hplaced⟩ := hconfined
      exact ⟨fun _ heq => (by cases heq), _, hplaced.path_eq⟩

theorem provided_of_resolved {importer : ModuleId} {specifier : String} {module : ResolvedModule}
    (h : host.resolver.resolveImport host.files importer specifier = .ok module)
    (hauthority : module.authority ≠ .runtimeSystem) :
    provided host loader module.id = loader.cache.lookup module.id := by
  have hne := (hasFile_of_resolved h hauthority).1
  cases hid : module.id with
  | builtin name => exact absurd hid (hne name)
  | main | source | dependency => rfl

theorem runtime_of_resolved {importer : ModuleId} {specifier : String} {module : ResolvedModule}
    (h : host.resolver.resolveImport host.files importer specifier = .ok module)
    (hauthority : module.authority = .runtimeSystem) : module.id = .builtin specifier := by
  have hconfined := ModuleResolver.confined_of_resolveImport h
  unfold ModuleResolver.Confined at hconfined
  have not_placed {path : Path} (hplaced : module.authority = authorityForPath path) : False := by
    rw [authorityForPath, hauthority] at hplaced
    split at hplaced <;> cases hplaced
  cases hid : module.id with
  | builtin name =>
      rw [hid] at hconfined
      obtain ⟨rfl, _, _⟩ := hconfined
      rfl
  | main =>
      rw [hid] at hconfined
      obtain ⟨_, _, _, hordinary, _⟩ := hconfined
      rw [hauthority] at hordinary
      cases hordinary
  | source path =>
      rw [hid] at hconfined
      obtain ⟨_, physical, hplaced, _⟩ := hconfined
      exact (not_placed hplaced.authority_eq).elim
  | dependency name path =>
      rw [hid] at hconfined
      obtain ⟨_, sourceRoot, physical, hplaced⟩ := hconfined
      exact (not_placed hplaced.authority_eq).elim

theorem LoaderInv.setWorld (h : LoaderInv host loader) (world : World) :
    LoaderInv host (loader.setWorld world) := by
  have hgrows : Extends loader (loader.setWorld world) := (grows_setWorld world).toExtends
  exact { h with loaded := fun module hresolved hmem => (h.loaded module hresolved hmem).extend hgrows }

theorem Built.setWorld {module : ResolvedModule} (h : Built host loader module) (world : World) :
    Built host (loader.setWorld world) module := by
  have hgrows : Extends loader (loader.setWorld world) := (grows_setWorld world).toExtends
  exact { h with
    loaded := fun module hresolved hmem => (h.loaded module hresolved hmem).extend hgrows
    order := fun hformat => (h.order hformat).extend hgrows }

-- the load that is given to the parts of a load
variable {load : ResolvedModule → Loader World Root Sourced Interface Compiled →
  Answer String (Sourced × Loader World Root Sourced Interface Compiled)}

variable (host load) in
/-- A load of an imported module keeps the invariant, and the module is in the cache then. -/
def LoadSpec : Prop :=
  ∀ {importer specifier module} {loader loader' : Loader World Root Sourced Interface Compiled} {sourced},
    host.resolver.resolveImport host.files importer specifier = .ok module →
    module.authority ≠ .runtimeSystem → LoaderInv host loader →
    (load module loader).Is (sourced, loader') →
    LoaderInv host loader' ∧ Grows loader loader' ∧
      ∃ ready, loader'.cache.lookup module.id = some ready ∧ ready.sourced = sourced

theorem loadNativeModule_eq_ok {name : String} {ready : Ready Root Sourced Interface} :
    loadNativeModule host name = .ok ready ↔ host.coreModules name = some ready := by
  rw [loadNativeModule]
  cases host.coreModules name with
  | none => simp
  | some found => simp

theorem importModule_spec (hload : LoadSpec host load) {importer : ModuleId} {sourceName : String}
    {scope scope' : ImportScope Root Sourced Interface} {binding : ModuleBinding}
    (h : LoaderInv host loader)
    (hrun : (importModule host load importer sourceName scope loader binding).Is
      (scope', loader')) :
    LoaderInv host loader' ∧ Grows loader loader' ∧
      Brought host loader' importer binding scope scope' := by
  rw [importModule] at hrun
  split at hrun
  · exact (Answer.not_throw_is hrun).elim
  cases hspecifier : binding.specifier with
  | none =>
      rw [hspecifier] at hrun
      exact (Answer.not_throw_is hrun).elim
  | some specifier =>
      rw [hspecifier] at hrun
      obtain ⟨imported, hresolve, hrun⟩ := Answer.bind_is.mp hrun
      rw [Answer.ofExcept_is, mapError_eq_ok] at hresolve
      split at hrun
      · rename_i hauthority
        obtain ⟨ready, hready, hrun⟩ := Answer.bind_is.mp hrun
        obtain ⟨bound, hbound, hrun⟩ := Answer.bind_is.mp hrun
        obtain ⟨rfl, rfl⟩ := Prod.mk.inj (Answer.pure_is.mp hrun)
        rw [Answer.ofExcept_is, loadNativeModule_eq_ok] at hready
        refine ⟨h, .refl _, specifier, imported, ready, _, hspecifier, hresolve, ?_,
          Answer.ofExcept_is.mp hbound⟩
        rw [runtime_of_resolved hresolve hauthority]
        exact hready
      · rename_i hauthority
        obtain ⟨⟨sourced, loaded⟩, hloaded, hrun⟩ := Answer.bind_is.mp hrun
        obtain ⟨hinv, hgrows, cached, hcached, rfl⟩ := hload hresolve hauthority h hloaded
        simp only [hcached] at hrun
        obtain ⟨bound, hbound, hrun⟩ := Answer.bind_is.mp hrun
        obtain ⟨rfl, rfl⟩ := Prod.mk.inj (Answer.pure_is.mp hrun)
        exact ⟨hinv, hgrows, specifier, imported, cached, _, hspecifier, hresolve,
          (provided_of_resolved hresolve hauthority).trans hcached, Answer.ofExcept_is.mp hbound⟩

theorem importModules_spec (hload : LoadSpec host load) {importer : ModuleId} {sourceName : String}
    {bindings : List ModuleBinding} {scope scope' : ImportScope Root Sourced Interface}
    (h : LoaderInv host loader)
    (hrun : (importModules host load importer sourceName bindings scope loader).Is
      (scope', loader')) :
    LoaderInv host loader' ∧ Grows loader loader' ∧
      Brings host loader' importer bindings scope scope' := by
  induction bindings generalizing scope loader with
  | nil =>
      obtain ⟨rfl, rfl⟩ := Prod.mk.inj (Answer.pure_is.mp hrun)
      exact ⟨h, .refl loader, .nil⟩
  | cons binding rest ih =>
      obtain ⟨⟨bound, between⟩, hfirst, hrun⟩ := Answer.bind_is.mp hrun
      obtain ⟨hinv, hgrows, hbrought⟩ := importModule_spec hload h hfirst
      obtain ⟨hinv', hgrows', hbrings⟩ := ih hinv hrun
      obtain ⟨specifier, target, ready, world, hspecifier, hresolve, hready, hbound⟩ := hbrought
      exact ⟨hinv', hgrows.trans hgrows', .cons ⟨specifier, target, ready, world, hspecifier,
        hresolve, hgrows'.toExtends.provided hready, hbound⟩ hbrings⟩

/-- What an import statement names is there when the statements are carried out. -/
theorem Brings.provided {importer : ModuleId} {bindings : List ModuleBinding}
    {scope scope' : ImportScope Root Sourced Interface}
    (h : Brings host loader importer bindings scope scope') {binding : ModuleBinding}
    (hmem : binding ∈ bindings) {specifier : String} (hspecifier : binding.specifier = some specifier)
    {target : ResolvedModule}
    (hresolve : host.resolver.resolveImport host.files importer specifier = .ok target) :
    ∃ ready, Modules.provided host loader target.id = some ready := by
  induction h with
  | nil => cases hmem
  | cons hfirst _ ih =>
      rcases List.mem_cons.mp hmem with rfl | hmem
      · obtain ⟨_, _, ready, _, hspecifier', hresolve', hready, _⟩ := hfirst
        obtain rfl := Option.some.inj (hspecifier.symm.trans hspecifier')
        obtain rfl := Except.ok.inj (hresolve.symm.trans hresolve')
        exact ⟨ready, hready⟩
      · exact ih hmem

theorem publishExternals_spec {externals : List (String × Value)}
    {scope scope' : ImportScope Root Sourced Interface}
    (hrun : (publishExternals host externals scope loader).Is (scope', loader')) :
    ∃ world, loader' = loader.setWorld world := by
  induction externals generalizing scope loader with
  | nil =>
      obtain ⟨_, rfl⟩ := Prod.mk.inj (Answer.pure_is.mp hrun)
      exact ⟨loader.world, rfl⟩
  | cons entry rest ih =>
      obtain ⟨⟨world, ready⟩, _, hrun⟩ := Answer.bind_is.mp hrun
      obtain ⟨last, rfl⟩ := ih hrun
      exact ⟨last, rfl⟩

theorem checkProgram_program {id : ModuleId} {sourceName : String} {parsed : ParsedModule Program}
    {options : List (String × Value)} {program : Program}
    (h : checkProgram host id sourceName parsed = .ok (options, program)) :
    parsed.program = .ok program := by
  rw [checkProgram] at h
  split at h
  · cases h
  · obtain ⟨found, hfound, h⟩ := bind_eq_ok.mp h
    obtain ⟨loaded, _, h⟩ := bind_eq_ok.mp h
    split at h
    · cases h
    · split at h
      · cases h
      · obtain ⟨_, rfl⟩ := Prod.mk.inj (Except.ok.inj h)
        exact hfound

theorem HasProgram.unique {module : ResolvedModule} {program : Program} {path : Path}
    {source : String} (h : HasProgram host module program) (hpath : module.physicalPath = some path)
    (hread : host.read path = .ok source) : (host.parse source).program = .ok program := by
  obtain ⟨_, path', source', hpath', hread', hprogram⟩ := h
  obtain rfl := Option.some.inj (hpath.symm.trans hpath')
  obtain rfl := Except.ok.inj (hread.symm.trans hread')
  exact hprogram

theorem LoaderInv.parse (h : LoaderInv host loader) {id : ModuleId} (hid : id ∈ loader.visiting)
    (hfresh : .parsed id ∉ loader.stages) : LoaderInv host (loader.reach (.parsed id)) := by
  have hextends : Extends loader (loader.reach (.parsed id)) := (grows_reach _).toExtends
  refine { h with
    once := List.nodup_cons.mpr ⟨hfresh, h.once⟩
    parsed := fun other hmem => ?_
    published := fun other hmem => h.published other (List.mem_of_ne_of_mem (by simp) hmem)
    compiled := fun other hmem => h.compiled other (List.mem_of_ne_of_mem (by simp) hmem)
    loaded := fun module hresolved hmem => (h.loaded module hresolved hmem).extend hextends }
  rcases List.mem_cons.mp hmem with heq | hmem
  · obtain rfl := Stage.parsed.inj heq
    exact .inl hid
  · exact h.parsed other hmem

theorem LoaderInv.compile (h : LoaderInv host loader) {module : ResolvedModule}
    {compiled : Compiled} (hid : module.id ∈ loader.visiting)
    (hparsed : .parsed module.id ∈ loader.stages)
    (horder : module.format = .telora →
      CompiledInOrder host (loader.reach (.compiled module.id compiled)) module) :
    Built host (loader.reach (.compiled module.id compiled)) module := by
  have hextends : Extends loader (loader.reach (.compiled module.id compiled)) :=
    (grows_reach _).toExtends
  refine { h with
    once := List.nodup_cons.mpr ⟨fun hmem => h.apart _ hid (h.compiled _ hmem), h.once⟩
    parsed := fun other hmem => h.parsed other (List.mem_of_ne_of_mem (by simp) hmem)
    published := fun other hmem => h.published other (List.mem_of_ne_of_mem (by simp) hmem)
    compiled := fun other hmem => ?_
    loaded := fun other hresolved hmem => (h.loaded other hresolved hmem).extend hextends
    stage := List.mem_cons_of_mem _ hparsed
    order := horder }
  rcases List.mem_cons.mp hmem with heq | hmem
  · exact .inl (Stage.compiled.inj heq)
  · exact .inr (h.compiled other hmem)

theorem compileTelora_spec (hload : LoadSpec host load) {module : ResolvedModule} {path : Path}
    {externals : List (String × Value)} {isRoot : Bool} {compiled : CompiledModule Compiled}
    (h : LoaderInv host loader) (hid : module.id ∈ loader.visiting)
    (hfresh : .parsed module.id ∉ loader.stages) (hformat : module.format = .telora)
    (hpath : module.physicalPath = some path) (hexternals : isRoot = false → externals = [])
    (hrun : (compileTelora host load module.id module.authority path externals isRoot loader).Is
      (compiled, loader')) :
    Built host loader' module ∧ Grows loader loader' ∧
      CompiledFrom host loader' module isRoot compiled.compiled loader'.world := by
  obtain ⟨source, hread, hrun⟩ := Answer.bind_is.mp hrun
  obtain ⟨⟨options, program⟩, hprogram, hrun⟩ := Answer.bind_is.mp hrun
  obtain ⟨⟨given, external⟩, hexternal, hrun⟩ := Answer.bind_is.mp hrun
  obtain ⟨⟨scope, middle⟩, himports, hrun⟩ := Answer.bind_is.mp hrun
  obtain ⟨⟨world, result⟩, hcompile, hrun⟩ := Answer.bind_is.mp hrun
  obtain ⟨rfl, rfl⟩ := Prod.mk.inj (Answer.pure_is.mp hrun)
  obtain ⟨first, rfl⟩ := publishExternals_spec hexternal
  obtain ⟨hinv, hgrows, hbrings⟩ := importModules_spec hload
    ((h.parse hid hfresh).setWorld first) himports
  have hparsed : .parsed module.id ∈ middle.stages := hgrows.stages.subset List.mem_cons_self
  have hread : host.read path = .ok source := Answer.ofExcept_is.mp hread
  have hprogram := checkProgram_program (Answer.ofExcept_is.mp hprogram)
  have hgrows' : Grows middle ((middle.setWorld world).reach (.compiled module.id result)) :=
    (grows_setWorld world).trans (grows_reach _)
  have hall : Grows loader ((middle.setWorld world).reach (.compiled module.id result)) :=
    ((grows_reach _).trans (grows_setWorld first)).trans (hgrows.trans hgrows')
  refine ⟨(hinv.setWorld world).compile ?_ hparsed fun _ => ?_, hall, program, given, scope,
    middle.world, ⟨hformat, path, source, hpath, hread, hprogram⟩, fun hdependency => ?_,
    hbrings.extend hgrows'.toExtends, Answer.ofExcept_is.mp hcompile, List.mem_cons_self⟩
  · change module.id ∈ middle.visiting
    rw [hgrows.visiting]
    exact hid
  · constructor
    · exact earlier_now hparsed
    · rintro target ⟨⟨specifier, found, hfound, ⟨binding, hbinding, himport, hspecifier⟩,
        hresolve⟩, hauthority⟩
      -- the import statements of the module are those that were just carried out
      obtain rfl := Except.ok.inj (hprogram.symm.trans (hfound.unique hpath hread))
      obtain ⟨ready, hready⟩ :=
        hbrings.provided (List.mem_filter.mpr ⟨hbinding, himport⟩) hspecifier hresolve
      rw [provided_of_resolved hresolve hauthority] at hready
      have hkeys : target.id ∈ middle.keys := mem_keys_iff.mpr ⟨ready, hready⟩
      have hloaded := hinv.loaded target ⟨module.id, specifier, hresolve⟩ hkeys
      exact ⟨hgrows'.keys hkeys, earlier_now hloaded.parsed.mem_second⟩
  · obtain rfl := hexternals hdependency
    exact (Prod.mk.inj (Answer.pure_is.mp hexternal)).1.symm

theorem loadFormat_spec (hload : LoadSpec host load) {module : ResolvedModule} {path : Path}
    {ready : Ready Root Sourced Interface} (h : LoaderInv host loader)
    (hid : module.id ∈ loader.visiting) (hfresh : .parsed module.id ∉ loader.stages)
    (hpath : module.physicalPath = some path)
    (hrun : (loadFormat host load module path loader).Is (ready, loader')) :
    Built host loader' module ∧ Grows loader loader' ∧
      PublishedFrom host loader' module ready := by
  rw [loadFormat] at hrun
  rw [PublishedFrom]
  cases hformat : module.format with
  | telora =>
      simp only [hformat] at hrun
      obtain ⟨⟨compiled, middle⟩, hcompiled, hrun⟩ := Answer.bind_is.mp hrun
      obtain ⟨⟨world, result⟩, hexecute, hrun⟩ := Answer.bind_is.mp hrun
      obtain ⟨rfl, rfl⟩ := Prod.mk.inj (Answer.pure_is.mp hrun)
      obtain ⟨hbuilt, hgrows, hfrom⟩ :=
        compileTelora_spec hload h hid hfresh hformat hpath (fun _ => rfl) hcompiled
      exact ⟨hbuilt.setWorld world, hgrows.trans (grows_setWorld world), compiled.compiled,
        middle.world, world, hfrom.extend (grows_setWorld world).toExtends,
        Answer.ofExcept_is.mp hexecute⟩
  | json | toml | yaml =>
      simp only [hformat] at hrun
      obtain ⟨source, hread, hrun⟩ := Answer.bind_is.mp hrun
      obtain ⟨sourced, hparse, hrun⟩ := Answer.bind_is.mp hrun
      obtain ⟨⟨world, root⟩, hpublish, hrun⟩ := Answer.bind_is.mp hrun
      obtain ⟨rfl, rfl⟩ := Prod.mk.inj (Answer.pure_is.mp hrun)
      have hinv := (h.parse hid hfresh).setWorld world
      refine ⟨{ hinv with
        compiled := fun other hmem => .inr (hinv.compiled other hmem)
        stage := List.mem_cons_self
        order := fun htelora => by cases hformat.symm.trans htelora },
        (grows_reach _).trans (grows_setWorld world), path, source, sourced, root, loader.world,
        world, hpath, Answer.ofExcept_is.mp hread, Answer.ofExcept_is.mp hparse,
        Answer.ofExcept_is.mp hpublish, rfl⟩

theorem enter_is {id : ModuleId} (h : (loader.enter id).Is loader') :
    id ∉ loader.visiting ∧ loader' = { loader with visiting := loader.visiting ++ [id] } := by
  rw [Loader.enter] at h
  split at h
  · exact (Answer.not_throw_is h).elim
  · rename_i hnone
    exact ⟨List.idxOf?_eq_none_iff.mp hnone, (Answer.pure_is.mp h).symm⟩

theorem LoaderInv.depend (h : LoaderInv host loader) (path : Path) :
    LoaderInv host (loader.depend path) := by
  have hextends : Extends loader (loader.depend path) :=
    ⟨List.Sublist.refl _, fun _ _ h => h⟩
  exact { h with
    loaded := fun module hresolved hmem => (h.loaded module hresolved hmem).extend hextends }

theorem LoaderInv.enter (h : LoaderInv host loader) {id : ModuleId} (hid : id ∉ loader.visiting)
    (hkeys : id ∉ loader.keys) :
    LoaderInv host { loader with visiting := loader.visiting ++ [id] } := by
  have hextends : Extends loader { loader with visiting := loader.visiting ++ [id] } :=
    ⟨List.Sublist.refl _, fun _ _ h => h⟩
  refine { h with
    parsed := fun other hmem => (h.parsed other hmem).imp_left (List.mem_append_left _)
    visiting := ?_
    apart := fun other hmem => ?_
    loaded := fun module hresolved hmem => (h.loaded module hresolved hmem).extend hextends }
  · refine List.nodup_append.mpr ⟨h.visiting, List.nodup_singleton id, fun other hmem last hlast => ?_⟩
    rintro rfl
    exact hid (List.mem_singleton.mp hlast ▸ hmem)
  · rcases List.mem_append.mp hmem with hmem | hmem
    · exact h.apart other hmem
    · rw [List.mem_singleton.mp hmem]
      exact hkeys

/-- A module that is built leaves the stack and is done. -/
theorem Built.store {module : ResolvedModule} (h : Built host loader module)
    (hresolved : Resolved host module) {below : List ModuleId}
    (hvisiting : loader.visiting = below ++ [module.id])
    (hprovided : ∀ loader : Loader World Root Sourced Interface Compiled,
      provided host loader module.id = loader.cache.lookup module.id)
    {ready : Ready Root Sourced Interface} (hfrom : PublishedFrom host loader module ready) :
    LoaderInv host ((loader.leave.store module.id ready).reach (.published module.id ready)) ∧
      Extends loader
        ((loader.leave.store module.id ready).reach (.published module.id ready)) := by
  have hid : module.id ∈ loader.visiting := by
    rw [hvisiting]
    exact List.mem_append_right _ (List.mem_singleton_self _)
  have hkeys : module.id ∉ loader.keys := h.apart _ hid
  have hbelow : loader.visiting.dropLast = below := by rw [hvisiting, List.dropLast_concat]
  have hnodup := h.visiting
  rw [hvisiting] at hnodup
  have hextends : Extends loader
      ((loader.leave.store module.id ready).reach (.published module.id ready)) := by
    refine ⟨List.sublist_cons_self _ _, fun id found hlookup => ?_⟩
    have hne : id ≠ module.id := by
      rintro rfl
      exact hkeys (mem_keys_iff.mpr ⟨found, hlookup⟩)
    exact (lookup_cons_ne hne).trans hlookup
  have hself : module.id ∈
      ((loader.leave.store module.id ready).reach (.published module.id ready)).keys :=
    List.mem_cons_self
  refine ⟨{
    once := List.nodup_cons.mpr ⟨fun hmem => hkeys (h.published _ hmem), h.once⟩
    parsed := fun id hmem => ?parsed
    published := fun id hmem => ?published
    visiting := ?visiting
    apart := fun id hmem => ?apart
    loaded := fun other hother hmem => ?loaded
    compiled := fun id hmem => ?compiled }, hextends⟩
  case parsed =>
    rcases h.parsed id (List.mem_of_ne_of_mem (by simp) hmem) with hmem | hmem
    · rw [hvisiting] at hmem
      rcases List.mem_append.mp hmem with hmem | hmem
      · exact .inl (hbelow.symm ▸ hmem : id ∈ loader.visiting.dropLast)
      · exact .inr (List.mem_singleton.mp hmem ▸ hself)
    · exact .inr (hextends.keys hmem)
  case published =>
    rcases List.mem_cons.mp hmem with heq | hmem
    · exact Stage.published.inj heq ▸ hself
    · exact hextends.keys (h.published id hmem)
  case visiting =>
    change loader.visiting.dropLast.Nodup
    rw [hbelow]
    exact (List.nodup_append.mp hnodup).1
  case apart =>
    change id ∈ loader.visiting.dropLast at hmem
    rw [hbelow] at hmem
    have hbefore : id ∈ loader.visiting := hvisiting ▸ List.mem_append_left _ hmem
    have hne : id ≠ module.id := fun heq =>
      (List.nodup_append.mp hnodup).2.2 id hmem _ (List.mem_singleton_self _) heq
    exact List.not_mem_cons_of_ne_of_not_mem hne (h.apart id hbefore)
  case loaded =>
    rcases List.mem_cons.mp hmem with heq | hmem
    · obtain rfl := hother.unique hresolved heq
      refine ⟨earlier_now h.stage, fun hformat => ?_, ready, ?_, List.mem_cons_self,
        hfrom.extend hextends⟩
      · have horder := h.order hformat
        exact ⟨horder.extend hextends, earlier_now horder.parsed.mem_second⟩
      · exact (hprovided _).trans lookup_cons_self
    · exact (h.loaded other hother hmem).extend hextends
  case compiled =>
    rcases h.compiled id (List.mem_of_ne_of_mem (by simp) hmem) with rfl | hmem
    · exact hself
    · exact hextends.keys hmem

theorem loadModule_spec (hload : LoadSpec host load) {module : ResolvedModule} {path : Path}
    {importer : ModuleId} {specifier : String} {sourced : Sourced}
    (hresolve : host.resolver.resolveImport host.files importer specifier = .ok module)
    (hauthority : module.authority ≠ .runtimeSystem) (h : LoaderInv host loader)
    (hpath : module.physicalPath = some path) (hkeys : module.id ∉ loader.keys)
    (hrun : (loadModule host load module path loader).Is (sourced, loader')) :
    LoaderInv host loader' ∧ Grows loader loader' ∧
      ∃ ready, loader'.cache.lookup module.id = some ready ∧ ready.sourced = sourced := by
  obtain ⟨entered, henter, hrun⟩ := Answer.bind_is.mp hrun
  obtain ⟨⟨ready, built⟩, hbuilt, hrun⟩ := Answer.bind_is.mp hrun
  obtain ⟨rfl, rfl⟩ := Prod.mk.inj (Answer.pure_is.mp hrun)
  obtain ⟨hid, rfl⟩ := enter_is henter
  have hfresh : .parsed module.id ∉ loader.stages := fun hmem =>
    (h.parsed _ hmem).elim hid hkeys
  obtain ⟨hinv, hgrows, hfrom⟩ := loadFormat_spec hload ((h.enter hid hkeys).depend path)
    (List.mem_append_right _ (List.mem_singleton_self _)) hfresh hpath hbuilt
  obtain ⟨hstored, hextends⟩ := hinv.store ⟨importer, specifier, hresolve⟩ hgrows.visiting
    (fun _ => provided_of_resolved hresolve hauthority) hfrom
  refine ⟨hstored, ⟨?_, ?_⟩, ready, lookup_cons_self, rfl⟩
  · exact ⟨hgrows.log.trans hextends.log,
      fun id found hlookup => hextends.cache id found (hgrows.cache id found hlookup)⟩
  · change built.visiting.dropLast = loader.visiting
    rw [hgrows.visiting]
    exact List.dropLast_concat

theorem loadResolvedValue_spec (fuel : Nat) : LoadSpec host (loadResolvedValue host fuel) := by
  induction fuel with
  | zero =>
      intro importer specifier module loader loader' sourced _ _ _ hrun
      exact (Answer.not_none_is hrun).elim
  | succ fuel ih =>
      intro importer specifier module loader loader' sourced hresolve hauthority h hrun
      rw [loadResolvedValue] at hrun
      split at hrun
      · exact (Answer.not_none_is hrun).elim
      · rename_i path hpath
        split at hrun
        · rename_i ready hready
          obtain ⟨rfl, rfl⟩ := Prod.mk.inj (Answer.pure_is.mp hrun)
          exact ⟨h, .refl loader, ready, hready, rfl⟩
        · rename_i hnone
          exact loadModule_spec ih hresolve hauthority h hpath (not_mem_keys_of_lookup hnone) hrun

end Telora.Modules
