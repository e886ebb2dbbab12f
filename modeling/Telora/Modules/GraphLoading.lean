import Mathlib.Data.Finset.Card
import Telora.Modules.LoadOrder

/-!
# Loading follows the module graph

A load ends where finitely many modules can be reached, since the modules on its stack differ.
When it succeeds the modules have no cycle, and they were loaded in the order of the graph.
-/

namespace Telora.Modules

open Library

variable {Program World Root Sourced Interface Compiled : Type}
  {host : LoaderHost Program World Root Sourced Interface Compiled}
  {loader loader' : Loader World Root Sourced Interface Compiled}

-- the load that is given to the parts of a load
variable {load : ResolvedModule → Loader World Root Sourced Interface Compiled →
  Answer String (Sourced × Loader World Root Sourced Interface Compiled)}

theorem importModule_comes (hload : LoadSpec host load) {importer : ModuleId} {sourceName : String}
    {scope : ImportScope Root Sourced Interface} {binding : ModuleBinding}
    (h : LoaderInv host loader)
    (hcomes : ∀ specifier target, binding.specifier = some specifier →
      host.resolver.resolveImport host.files importer specifier = .ok target →
      target.authority ≠ .runtimeSystem → (load target loader).Comes) :
    (importModule host load importer sourceName scope loader binding).Comes := by
  rw [importModule]
  split
  · exact Answer.throw_comes
  cases hspecifier : binding.specifier with
  | none => exact Answer.throw_comes
  | some specifier =>
      refine Answer.bind_comes Answer.ofExcept_comes fun imported hresolve => ?_
      rw [Answer.ofExcept_is, mapError_eq_ok] at hresolve
      split
      · refine Answer.bind_comes Answer.ofExcept_comes fun ready _ => ?_
        exact Answer.bind_comes Answer.ofExcept_comes fun bound _ => Answer.pure_comes
      · rename_i hauthority
        refine Answer.bind_comes (hcomes specifier imported hspecifier hresolve hauthority)
          fun found hloaded => ?_
        obtain ⟨sourced, loaded⟩ := found
        obtain ⟨_, _, cached, hcached, _⟩ := hload hresolve hauthority h hloaded
        simp only [hcached]
        exact Answer.bind_comes Answer.ofExcept_comes fun bound _ => Answer.pure_comes

theorem importModules_comes (hload : LoadSpec host load) {importer : ModuleId} {sourceName : String}
    {bindings : List ModuleBinding} {scope : ImportScope Root Sourced Interface}
    (h : LoaderInv host loader)
    (hcomes : ∀ binding ∈ bindings, ∀ specifier target, binding.specifier = some specifier →
      host.resolver.resolveImport host.files importer specifier = .ok target →
      target.authority ≠ .runtimeSystem → ∀ other : Loader World Root Sourced Interface Compiled,
      LoaderInv host other → other.visiting = loader.visiting → (load target other).Comes) :
    (importModules host load importer sourceName bindings scope loader).Comes := by
  induction bindings generalizing scope loader with
  | nil => exact Answer.pure_comes
  | cons binding rest ih =>
      have hfirst := hcomes binding List.mem_cons_self
      refine Answer.bind_comes (importModule_comes hload h fun specifier target hs hr ha =>
        hfirst specifier target hs hr ha loader h rfl) fun ⟨bound, between⟩ hrun => ?_
      obtain ⟨hinv, hgrows, _⟩ := importModule_spec hload h hrun
      refine ih hinv fun other hmem specifier target hs hr ha next hnext hvisiting => ?_
      exact hcomes other (List.mem_cons_of_mem _ hmem) specifier target hs hr ha next hnext
        (hvisiting.trans hgrows.visiting)

theorem publishExternals_comes (externals : List (String × Value))
    (scope : ImportScope Root Sourced Interface) (loader : Loader World Root Sourced Interface Compiled) :
    (publishExternals host externals scope loader).Comes := by
  induction externals generalizing scope loader with
  | nil => exact Answer.pure_comes
  | cons entry rest ih =>
      exact Answer.bind_comes Answer.ofExcept_comes fun published _ => ih _ _

theorem compileTelora_comes (hload : LoadSpec host load) {module : ResolvedModule}
    {authority : ModuleAuthority} {path : Path} {externals : List (String × Value)} {isRoot : Bool}
    (h : LoaderInv host loader) (hid : module.id ∈ loader.visiting)
    (hfresh : .parsed module.id ∉ loader.stages) (hformat : module.format = .telora)
    (hpath : module.physicalPath = some path)
    (hcomes : ∀ target, Imports host module target →
      ∀ other : Loader World Root Sourced Interface Compiled, LoaderInv host other →
      other.visiting = loader.visiting → (load target other).Comes) :
    (compileTelora host load module.id authority path externals isRoot loader).Comes := by
  refine Answer.bind_comes Answer.ofExcept_comes fun source hread => ?_
  refine Answer.bind_comes Answer.ofExcept_comes fun ⟨options, program⟩ hprogram => ?_
  have hprogram := checkProgram_program (Answer.ofExcept_is.mp hprogram)
  refine Answer.bind_comes (publishExternals_comes _ _ _) fun ⟨given, external⟩ hexternal => ?_
  obtain ⟨first, rfl⟩ := publishExternals_spec hexternal
  refine Answer.bind_comes ?_ fun _ _ =>
    Answer.bind_comes Answer.ofExcept_comes fun _ _ => Answer.pure_comes
  refine importModules_comes hload ((h.parse hid hfresh).setWorld first)
    fun binding hmem specifier target hs hr ha other hother hvisiting => ?_
  obtain ⟨hbinding, himport⟩ := List.mem_filter.mp hmem
  have htarget : ImportsBy host module specifier target :=
    ⟨program, ⟨hformat, path, source, hpath, Answer.ofExcept_is.mp hread, hprogram⟩,
      ⟨binding, hbinding, himport, hs⟩, hr⟩
  exact hcomes target ⟨⟨specifier, htarget⟩, ha⟩ other hother hvisiting

theorem loadModule_comes (hload : LoadSpec host load) {module : ResolvedModule} {path : Path}
    (h : LoaderInv host loader) (hpath : module.physicalPath = some path)
    (hkeys : module.id ∉ loader.keys)
    (hcomes : module.id ∉ loader.visiting → ∀ target, Imports host module target →
      ∀ other : Loader World Root Sourced Interface Compiled, LoaderInv host other →
      other.visiting = loader.visiting ++ [module.id] → (load target other).Comes) :
    (loadModule host load module path loader).Comes := by
  refine Answer.bind_comes ?_ fun entered henter => ?_
  · rw [Loader.enter]
    split
    · exact Answer.throw_comes
    · exact Answer.pure_comes
  obtain ⟨hid, rfl⟩ := enter_is henter
  refine Answer.bind_comes ?_ fun _ _ => Answer.pure_comes
  have hfresh : .parsed module.id ∉ loader.stages := fun hmem =>
    (h.parsed _ hmem).elim hid hkeys
  rw [loadFormat]
  split
  · rename_i hformat
    refine Answer.bind_comes (compileTelora_comes hload ((h.enter hid hkeys).depend path)
      (List.mem_append_right _ (List.mem_singleton_self _)) hfresh hformat hpath (hcomes hid))
      fun _ _ => ?_
    exact Answer.bind_comes Answer.ofExcept_comes fun _ _ => Answer.pure_comes
  · refine Answer.bind_comes Answer.ofExcept_comes fun _ _ => ?_
    refine Answer.bind_comes Answer.ofExcept_comes fun _ _ => ?_
    exact Answer.bind_comes Answer.ofExcept_comes fun _ _ => Answer.pure_comes

/-- Modules on the stack differ, so where finitely many can be reached the stack stays short. -/
theorem loadResolvedValue_comes {ids : Finset ModuleId} {reached : ResolvedModule → Prop}
    (hclosed : ∀ module target, reached module → Imports host module target → reached target)
    (hids : ∀ module, reached module → module.id ∈ ids) (fuel : Nat)
    {loader : Loader World Root Sourced Interface Compiled} {importer : ModuleId} {specifier : String}
    {module : ResolvedModule}
    (hresolve : host.resolver.resolveImport host.files importer specifier = .ok module)
    (hauthority : module.authority ≠ .runtimeSystem) (hreached : reached module)
    (h : LoaderInv host loader) (hvisiting : ∀ id ∈ loader.visiting, id ∈ ids)
    (hfuel : ids.card < fuel + loader.visiting.length) :
    (loadResolvedValue host fuel module loader).Comes := by
  induction fuel generalizing loader importer specifier module with
  | zero =>
      have hle : loader.visiting.toFinset.card ≤ ids.card :=
        Finset.card_le_card fun id hmem => hvisiting id (List.mem_toFinset.mp hmem)
      rw [List.toFinset_card_of_nodup h.visiting] at hle
      omega
  | succ fuel ih =>
      obtain ⟨path, hpath⟩ := (hasFile_of_resolved hresolve hauthority).2
      rw [loadResolvedValue]
      simp only [hpath]
      split
      · exact Answer.pure_comes
      · rename_i hnone
        refine loadModule_comes (loadResolvedValue_spec fuel) h hpath
          (not_mem_keys_of_lookup hnone) fun hid target htarget other hother heq => ?_
        have hreached' := hclosed module target hreached htarget
        obtain ⟨⟨specifier', _, _, _, hresolve'⟩, hauthority'⟩ := htarget
        refine ih hresolve' hauthority' hreached' hother (fun id hmem => ?_) ?_
        · rw [heq] at hmem
          rcases List.mem_append.mp hmem with hmem | hmem
          · exact hvisiting id hmem
          · rw [List.mem_singleton.mp hmem]
            exact hids module hreached
        · rw [heq, List.length_append, List.length_singleton]
          omega

-- a load that answers more often
variable {load' : ResolvedModule → Loader World Root Sourced Interface Compiled →
  Answer String (Sourced × Loader World Root Sourced Interface Compiled)}

theorem importModule_below (h : ∀ module loader, (load module loader).Below (load' module loader))
    {importer : ModuleId} {sourceName : String} {scope : ImportScope Root Sourced Interface}
    {binding : ModuleBinding} :
    (importModule host load importer sourceName scope loader binding).Below
      (importModule host load' importer sourceName scope loader binding) := by
  rw [importModule, importModule]
  split
  · exact Answer.below_refl _
  split
  · exact Answer.below_refl _
  · refine (Answer.below_refl _).bind fun imported => ?_
    split
    · exact Answer.below_refl _
    · exact (h imported loader).bind fun _ => Answer.below_refl _

theorem importModules_below (h : ∀ module loader, (load module loader).Below (load' module loader))
    {importer : ModuleId} {sourceName : String} {bindings : List ModuleBinding}
    {scope : ImportScope Root Sourced Interface} :
    (importModules host load importer sourceName bindings scope loader).Below
      (importModules host load' importer sourceName bindings scope loader) := by
  induction bindings generalizing scope loader with
  | nil => exact Answer.below_refl _
  | cons binding rest ih => exact (importModule_below h).bind fun _ => ih

theorem compileTelora_below (h : ∀ module loader, (load module loader).Below (load' module loader))
    {id : ModuleId} {authority : ModuleAuthority} {path : Path} {externals : List (String × Value)}
    {isRoot : Bool} :
    (compileTelora host load id authority path externals isRoot loader).Below
      (compileTelora host load' id authority path externals isRoot loader) := by
  refine (Answer.below_refl _).bind fun source => ?_
  refine (Answer.below_refl _).bind fun checked => ?_
  refine (Answer.below_refl _).bind fun given => ?_
  exact (importModules_below h).bind fun _ => Answer.below_refl _

theorem loadResolvedValue_below (fuel : Nat) (module : ResolvedModule)
    (loader : Loader World Root Sourced Interface Compiled) :
    (loadResolvedValue host fuel module loader).Below
      (loadResolvedValue host (fuel + 1) module loader) := by
  induction fuel generalizing module loader with
  | zero => exact Answer.none_below _
  | succ fuel ih =>
      rw [loadResolvedValue, loadResolvedValue]
      split
      · exact Answer.below_refl _
      split
      · exact Answer.below_refl _
      · rename_i path _ _ _
        refine (Answer.below_refl _).bind fun entered => ?_
        refine Answer.Below.bind ?_ fun _ => Answer.below_refl _
        rw [loadFormat, loadFormat]
        split
        · exact (compileTelora_below ih).bind fun _ => Answer.below_refl _
        · exact Answer.below_refl _

variable {start : World}

variable (host loader start) in
def Logged : Prop := Replays host start loader.log loader.world

variable (host load start) in
def LoadLogs : Prop :=
  ∀ {module} {loader loader' : Loader World Root Sourced Interface Compiled} {sourced},
    Logged host loader start → (load module loader).Is (sourced, loader') →
    Logged host loader' start

theorem importModule_logged (hload : LoadLogs host load start) {importer : ModuleId}
    {sourceName : String} {scope scope' : ImportScope Root Sourced Interface}
    {binding : ModuleBinding} (h : Logged host loader start)
    (hrun : (importModule host load importer sourceName scope loader binding).Is
      (scope', loader')) : Logged host loader' start := by
  rw [importModule] at hrun
  split at hrun
  · exact (Answer.not_throw_is hrun).elim
  split at hrun
  · exact (Answer.not_throw_is hrun).elim
  · obtain ⟨imported, _, hrun⟩ := Answer.bind_is.mp hrun
    split at hrun
    · obtain ⟨ready, _, hrun⟩ := Answer.bind_is.mp hrun
      obtain ⟨bound, _, hrun⟩ := Answer.bind_is.mp hrun
      obtain ⟨_, rfl⟩ := Prod.mk.inj (Answer.pure_is.mp hrun)
      exact h
    · obtain ⟨⟨sourced, loaded⟩, hloaded, hrun⟩ := Answer.bind_is.mp hrun
      cases hcached : loaded.cache.lookup imported.id with
      | none =>
          simp only [hcached] at hrun
          exact (Answer.not_none_is hrun).elim
      | some cached =>
          simp only [hcached] at hrun
          obtain ⟨bound, _, hrun⟩ := Answer.bind_is.mp hrun
          obtain ⟨_, rfl⟩ := Prod.mk.inj (Answer.pure_is.mp hrun)
          exact hload h hloaded

theorem importModules_logged (hload : LoadLogs host load start) {importer : ModuleId}
    {sourceName : String} {bindings : List ModuleBinding}
    {scope scope' : ImportScope Root Sourced Interface} (h : Logged host loader start)
    (hrun : (importModules host load importer sourceName bindings scope loader).Is
      (scope', loader')) : Logged host loader' start := by
  induction bindings generalizing scope loader with
  | nil =>
      obtain ⟨_, rfl⟩ := Prod.mk.inj (Answer.pure_is.mp hrun)
      exact h
  | cons binding rest ih =>
      obtain ⟨⟨bound, between⟩, hfirst, hrun⟩ := Answer.bind_is.mp hrun
      exact ih (importModule_logged hload h hfirst) hrun

theorem publishExternals_logged {externals : List (String × Value)}
    {scope scope' : ImportScope Root Sourced Interface} (h : Logged host loader start)
    (hrun : (publishExternals host externals scope loader).Is (scope', loader')) :
    Logged host loader' start := by
  induction externals generalizing scope loader with
  | nil =>
      obtain ⟨_, rfl⟩ := Prod.mk.inj (Answer.pure_is.mp hrun)
      exact h
  | cons entry rest ih =>
      obtain ⟨⟨world, ready⟩, hpublish, hrun⟩ := Answer.bind_is.mp hrun
      have hgiven : Logged host (loader.setWorld world) start :=
        Replays.given h (Answer.ofExcept_is.mp hpublish)
      exact ih hgiven hrun

theorem compileTelora_logged (hload : LoadLogs host load start) {id : ModuleId}
    {authority : ModuleAuthority} {path : Path} {externals : List (String × Value)} {isRoot : Bool}
    {compiled : CompiledModule Compiled} (h : Logged host loader start)
    (hrun : (compileTelora host load id authority path externals isRoot loader).Is
      (compiled, loader')) :
    Logged host loader' start ∧ ∃ log, loader'.log = .compiled id compiled.compiled :: log := by
  obtain ⟨source, _, hrun⟩ := Answer.bind_is.mp hrun
  obtain ⟨⟨options, program⟩, _, hrun⟩ := Answer.bind_is.mp hrun
  obtain ⟨⟨given, external⟩, hexternal, hrun⟩ := Answer.bind_is.mp hrun
  obtain ⟨⟨scope, middle⟩, himports, hrun⟩ := Answer.bind_is.mp hrun
  obtain ⟨⟨world, result⟩, hcompile, hrun⟩ := Answer.bind_is.mp hrun
  obtain ⟨rfl, rfl⟩ := Prod.mk.inj (Answer.pure_is.mp hrun)
  have hparsed : Logged host (loader.reach (.parsed id)) start := Replays.parsed h
  have himported := importModules_logged hload (publishExternals_logged hparsed hexternal) himports
  exact ⟨Replays.compiled himported (Answer.ofExcept_is.mp hcompile), middle.log, rfl⟩

theorem loadFormat_logged (hload : LoadLogs host load start) {module : ResolvedModule} {path : Path}
    {ready : Ready Root Sourced Interface} (h : Logged host loader start)
    (hrun : (loadFormat host load module path loader).Is (ready, loader')) :
    Logged host (loader'.reach (.published module.id ready)) start := by
  rw [loadFormat] at hrun
  split at hrun
  · obtain ⟨⟨compiled, middle⟩, hcompiled, hrun⟩ := Answer.bind_is.mp hrun
    obtain ⟨⟨world, result⟩, hexecute, hrun⟩ := Answer.bind_is.mp hrun
    obtain ⟨rfl, rfl⟩ := Prod.mk.inj (Answer.pure_is.mp hrun)
    obtain ⟨hmiddle, log, hlog⟩ := compileTelora_logged hload h hcompiled
    change Replays host start (.published module.id result :: middle.log) world
    rw [Logged, hlog] at hmiddle
    rw [hlog]
    exact Replays.executed hmiddle (Answer.ofExcept_is.mp hexecute)
  · obtain ⟨source, _, hrun⟩ := Answer.bind_is.mp hrun
    obtain ⟨sourced, _, hrun⟩ := Answer.bind_is.mp hrun
    obtain ⟨⟨world, root⟩, hpublish, hrun⟩ := Answer.bind_is.mp hrun
    obtain ⟨rfl, rfl⟩ := Prod.mk.inj (Answer.pure_is.mp hrun)
    exact Replays.data (Replays.parsed h) (Answer.ofExcept_is.mp hpublish)

theorem loadResolvedValue_logs (fuel : Nat) : LoadLogs host (loadResolvedValue host fuel) start := by
  induction fuel with
  | zero => exact fun _ hrun => (Answer.not_none_is hrun).elim
  | succ fuel ih =>
      intro module loader loader' sourced h hrun
      rw [loadResolvedValue] at hrun
      split at hrun
      · exact (Answer.not_none_is hrun).elim
      rename_i path _
      split at hrun
      · obtain ⟨_, rfl⟩ := Prod.mk.inj (Answer.pure_is.mp hrun)
        exact h
      · obtain ⟨entered, henter, hrun⟩ := Answer.bind_is.mp hrun
        obtain ⟨⟨ready, built⟩, hbuilt, hrun⟩ := Answer.bind_is.mp hrun
        obtain ⟨_, rfl⟩ := Prod.mk.inj (Answer.pure_is.mp hrun)
        obtain ⟨_, rfl⟩ := enter_is henter
        have hentered : Logged host
            ({ loader with visiting := loader.visiting ++ [module.id] }.depend path) start := h
        have hpublished : Logged host (built.reach (.published module.id ready)) start :=
          loadFormat_logged ih hentered hbuilt
        exact hpublished

variable (host loader) in
/-- A load that succeeded went by the graph. The log is all that was done to the world, no stage
of a module happened twice or before those of a module it imports, and what was compiled and
executed of a module is its program, in the scope of what was published of the modules its
specifiers name. -/
structure FollowsGraph (start : World) (compiled : Compiled) (root : ResolvedModule) : Prop where
  acyclic : ¬Cyclic host root
  replays : Replays host start loader.log loader.world
  once : loader.stages.Nodup
  main : CompiledInOrder host loader root ∧
    CompiledFrom host loader root true compiled loader.world
  modules : ∀ module, Relation.TransGen (Imports host) root module →
    LoadedInOrder host loader module

theorem loaderInv_initial (world : World) :
    LoaderInv host ({ world := world } : Loader World Root Sourced Interface Compiled) where
  once := List.nodup_nil
  parsed _ hmem := absurd hmem List.not_mem_nil
  compiled _ hmem := absurd hmem List.not_mem_nil
  published _ hmem := absurd hmem List.not_mem_nil
  visiting := List.nodup_nil
  apart _ hmem := absurd hmem List.not_mem_nil
  loaded _ _ hmem := absurd hmem List.not_mem_nil

/-- The loader when it starts with a root. -/
theorem loaderInv_root (world : World) (path : Path) (id : ModuleId) :
    LoaderInv host { ({ world := world } : Loader World Root Sourced Interface Compiled).depend path with
      visiting := [] ++ [id] } :=
  ((loaderInv_initial world).depend path).enter List.not_mem_nil List.not_mem_nil

theorem Built.imported {root : ResolvedModule} (h : Built host loader root)
    (hformat : root.format = .telora) {module : ResolvedModule}
    (hmodule : Relation.TransGen (Imports host) root module) :
    Resolved host module ∧ module.id ∈ loader.keys := by
  induction hmodule with
  | single himport =>
      obtain ⟨⟨specifier, _, _, _, hresolve⟩, _⟩ := id himport
      exact ⟨⟨_, specifier, hresolve⟩, ((h.order hformat).imports _ himport).1⟩
  | tail _ himport ih =>
      obtain ⟨hresolved, hkeys⟩ := ih
      obtain ⟨⟨specifier, _, ⟨htelora, _⟩, _, hresolve⟩, _⟩ := id himport
      have horder := ((h.loaded _ hresolved hkeys).compiled htelora).1
      exact ⟨⟨_, specifier, hresolve⟩, (horder.imports _ himport).1⟩

/-- Along the graph modules were published earlier and earlier. -/
theorem Built.acyclic {root : ResolvedModule} (h : Built host loader root)
    (hformat : root.format = .telora) (hroot : root.id ∉ loader.keys) : ¬Cyclic host root := by
  rintro ⟨module, again, hmodule, hagain, hid⟩
  rcases Relation.reflTransGen_iff_eq_or_transGen.mp hmodule with rfl | hmodule
  · exact hroot (hid ▸ (h.imported hformat hagain).2)
  · have hstep (before after : ResolvedModule)
        (hbefore : Resolved host before ∧ before.id ∈ loader.keys)
        (himport : Imports host before after) :
        (Resolved host after ∧ after.id ∈ loader.keys) ∧
          Earlier loader.stages (.published after.id) (.published before.id) := by
      have hloaded := h.loaded before hbefore.1 hbefore.2
      obtain ⟨⟨specifier, _, ⟨htelora, _⟩, _, hresolve⟩, _⟩ := id himport
      obtain ⟨horder, hcompiled⟩ := hloaded.compiled htelora
      obtain ⟨hkeys, hearlier⟩ := horder.imports after himport
      exact ⟨⟨⟨_, specifier, hresolve⟩, hkeys⟩, hearlier.trans h.once hcompiled⟩
    obtain ⟨_, hearlier⟩ := earlier_of_transGen
      (fun module : ResolvedModule => Stage.published module.id) h.once hstep
      (h.imported hformat hmodule) hagain
    rw [hid] at hearlier
    exact hearlier.irrefl h.once

theorem loadRoot_followsGraph {root : ResolvedModule} {fuel : Nat}
    {externals : List (String × Value)} {world : World} {compiled : CompiledModule Compiled}
    (hformat : root.format = .telora)
    (hrun : (loadRoot host fuel root externals { world := world }).Is (compiled, loader)) :
    FollowsGraph host loader world compiled.compiled root := by
  rw [loadRoot] at hrun
  split at hrun
  · exact (Answer.not_none_is hrun).elim
  · rename_i path hpath
    obtain ⟨entered, henter, hrun⟩ := Answer.bind_is.mp hrun
    obtain ⟨⟨result, built⟩, hbuilt, hrun⟩ := Answer.bind_is.mp hrun
    obtain ⟨rfl, rfl⟩ := Prod.mk.inj (Answer.pure_is.mp hrun)
    obtain ⟨_, rfl⟩ := enter_is henter
    obtain ⟨h, hgrows, hfrom⟩ := compileTelora_spec (loadResolvedValue_spec fuel)
      (loaderInv_root world path root.id) (List.mem_singleton_self _) List.not_mem_nil hformat hpath
      (fun hdependency => by cases hdependency) hbuilt
    have hentered : Logged host
        { ({ world := world } : Loader World Root Sourced Interface Compiled).depend path with
          visiting := [] ++ [root.id] } world := Replays.start
    have hlogged : Logged host built world :=
      (compileTelora_logged (loadResolvedValue_logs fuel) hentered hbuilt).1
    have hroot : root.id ∉ built.keys := by
      refine h.apart root.id ?_
      rw [hgrows.visiting]
      exact List.mem_singleton_self _
    have hleave : Extends built built.leave := ⟨List.Sublist.refl _, fun _ _ h => h⟩
    constructor
    · exact h.acyclic hformat hroot
    · exact hlogged
    · exact h.once
    · exact ⟨(h.order hformat).extend hleave, hfrom.extend hleave⟩
    · intro module hmodule
      obtain ⟨hresolved, hkeys⟩ := h.imported hformat hmodule
      exact (h.loaded module hresolved hkeys).extend hleave

theorem loadRoot_comes {root : ResolvedModule} {fuel : Nat} {externals : List (String × Value)}
    {world : World} {path : Path} (hpath : root.physicalPath = some path)
    (hformat : root.format = .telora) {ids : Finset ModuleId}
    (hfinite : ∀ module, Relation.ReflTransGen (Imports host) root module → module.id ∈ ids)
    (hfuel : ids.card ≤ fuel) :
    (loadRoot host fuel root externals { world := world }).Comes := by
  rw [loadRoot]
  simp only [hpath]
  refine Answer.bind_comes ⟨.ok _, rfl⟩ fun entered henter => ?_
  obtain ⟨_, rfl⟩ := enter_is henter
  refine Answer.bind_comes ?_ fun _ _ => Answer.pure_comes
  refine compileTelora_comes (loadResolvedValue_spec fuel) (loaderInv_root world path root.id)
    (List.mem_singleton_self _) List.not_mem_nil hformat hpath
    fun target htarget other hother hvisiting => ?_
  obtain ⟨⟨specifier, _, _, _, hresolve⟩, hauthority⟩ := id htarget
  refine loadResolvedValue_comes (fun module next hmodule hnext => hmodule.tail hnext) hfinite fuel
    hresolve hauthority (.single htarget) hother (fun id hmem => ?_) ?_
  · rw [hvisiting] at hmem
    rw [List.mem_singleton.mp hmem]
    exact hfinite root .refl
  · rw [hvisiting]
    exact Nat.lt_succ_of_le hfuel

theorem loadRoot_below {fuel more : Nat} (hle : fuel ≤ more) (root : ResolvedModule)
    (externals : List (String × Value)) (world : World) :
    (loadRoot host fuel root externals { world := world }).Below
      (loadRoot host more root externals { world := world }) := by
  induction more, hle using Nat.le_induction with
  | base => exact Answer.below_refl _
  | succ more _ ih =>
      refine ih.trans ?_
      rw [loadRoot, loadRoot]
      split
      · exact Answer.below_refl _
      · refine (Answer.below_refl _).bind fun entered => ?_
        exact (compileTelora_below (loadResolvedValue_below more)).bind fun _ =>
          Answer.below_refl _

def twiceHost : LoaderHost (List ModuleBinding) Nat Nat String Unit Nat where
  resolver := { ModuleResolver.linkedResolver with selectedEntry := none }
  files := ModuleResolver.linkedFiles
  errorText _ := "module error"
  explicitExports := false
  emptyInterface := ()
  coreModules _ := none
  read path := .ok path.display
  parse source :=
    { options := []
      program := .ok (if source = "/app/bin-src/tool.telora" then
        [⟨.importBinding, "a", none, some "@src/model.telora"⟩,
          ⟨.importBinding, "b", none, some "@src/./model.telora"⟩] else []) }
  parseData _ source := .ok source
  moduleBindings program := program
  hasNestedImport _ := false
  publishData world _ := .ok (world + 1, world)
  publishExternal world _ := .ok (world + 1, ⟨world, "", false, ()⟩)
  selectImport _ ready _ := .ok ready
  openImportExports _ _ _ := .ok []
  compile world _ _ _ _ _ := .ok (world, world)
  execute world _ := .ok (world + 1, ⟨world, "", false, ()⟩)

def twiceRoot : ResolvedModule where
  id := .main
  format := .telora
  authority := .ordinary
  physicalPath := some (Path.new "/app/bin-src/tool.telora")

theorem twiceRoot_imports {module : ResolvedModule}
    (h : Relation.ReflTransGen (Imports twiceHost) twiceRoot module) :
    module = twiceRoot ∨ module = ModuleResolver.sourceModule "model.telora" := by
  induction h with
  | refl => exact .inl rfl
  | tail _ himport ih =>
      obtain ⟨⟨specifier, program, hprogram, ⟨binding, hbinding, _, hspecifier⟩, hresolve⟩, _⟩ :=
        himport
      rcases ih with rfl | rfl
      · have hparse : _ = _ := hprogram.unique rfl rfl
        obtain rfl := Except.ok.inj hparse
        right
        rcases List.mem_cons.mp hbinding with rfl | hbinding
        · obtain rfl := Option.some.inj hspecifier
          exact (Except.ok.inj hresolve).symm
        · obtain rfl := List.mem_singleton.mp hbinding
          obtain rfl := Option.some.inj hspecifier
          exact (Except.ok.inj hresolve).symm
      · have hparse : _ = _ := hprogram.unique rfl rfl
        obtain rfl := Except.ok.inj hparse
        exact absurd hbinding List.not_mem_nil

end Telora.Modules
