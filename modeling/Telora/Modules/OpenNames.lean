import Telora.Library.ExceptBind
import Telora.Modules.OpenImports

/-!
# Names of open imports

A name that a module does not bind itself comes from the one provider that exports it. Names of
several providers are refused when the resolver finds an unresolved reference to one of them,
which it does not in the value of a nested definition of the same name.
-/

namespace Telora.OpenImports

open Library

variable {Root Scheme Entry : Type}

section Specification

variable (host : ImportHost Root Scheme Entry)

/-- One of the statements opens the provider. -/
def OpensBy (bindings : List Binding) (provider : ModuleId) : Prop :=
  ∃ binding ∈ bindings, binding.kind = .openImport ∧
    ∃ relative, specifier binding = .ok relative ∧ host.resolveImport relative = .ok provider

/-- The provider is the prelude, and the module is not. -/
def OpensPrelude (id provider : ModuleId) : Prop :=
  id.display ≠ preludeModule ∧ provider = .builtin preludeModule ∧
    (host.coreModules preludeModule).isSome

def Exports (provider : ModuleId) (name : String) : Prop :=
  ∃ ready, provided host provider = .ok ready ∧ name ∈ ready.interface.map (·.1)

/-- The module opens the provider, and the provider exports the name. -/
def Provides (id : ModuleId) (body : Block) (provider : ModuleId) (name : String) : Prop :=
  (OpensBy host body.bindings provider ∨ OpensPrelude host id provider) ∧
    Exports host provider name

/-- The module binds the name itself, or its host does. -/
def Explicit (body : Block) (external : ExternalNames Root Scheme Entry) (name : String) : Prop :=
  name ∈ explicitNames body ∨ (external.values.lookup name).isSome

/-- The name has the value, the root and the scheme that the provider exports. -/
def BoundTo (names : ExternalNames Root Scheme Entry) (provider : ModuleId) (name : String) :
    Prop :=
  ∃ ready scheme value root, provided host provider = .ok ready ∧
    (name, scheme) ∈ ready.interface ∧ exportedValue ready.value name = some value ∧
    host.dictGet ready.root name = .ok (some root) ∧
    names.values.lookup name = some value ∧ names.roots.lookup name = some root ∧
    names.interfaces.lookup name = some [(name, scheme)]

/-- Two providers export a name that the module does not bind. -/
def Ambiguous (id : ModuleId) (body : Block) (external : ExternalNames Root Scheme Entry)
    (name : String) : Prop :=
  ¬Explicit body external name ∧
    ∃ first second, first ≠ second ∧ Provides host id body first name ∧
      Provides host id body second name

/-- References as the compiler binds names: the value of a definition without annotation is
outside of its own name. -/
def bindingRules : ScopeRules := ⟨false, false⟩

/-- What open imports are to do. -/
structure ResolvedUniquely (id : ModuleId) (sourceName : String) (body : Block)
    (external : ExternalNames Root Scheme Entry) : Prop where
  bound : ∀ names, externalNames host id sourceName body external = .ok names →
    ∀ name, ¬Explicit body external name →
      ((names.values.lookup name).isSome ↔ ∃! provider, Provides host id body provider name) ∧
        ∀ provider, Provides host id body provider name →
          (∀ other, Provides host id body other name → other = provider) →
            BoundTo host names provider name
  ambiguous : ∀ name providers,
    externalNames host id sourceName body external = .error (.ambiguous name providers) →
      Ambiguous host id body external name ∧ FreeInBlock bindingRules name body
  detected : ∀ name, Ambiguous host id body external name → FreeInBlock bindingRules name body →
    ∃ found providers,
      externalNames host id sourceName body external = .error (.ambiguous found providers)

end Specification

variable {host : ImportHost Root Scheme Entry}

variable (host) in
/-- What is collected for a name is an export of its provider. -/
def IsCandidate (name : String) (candidate : OpenImportCandidate Root Scheme Entry) : Prop :=
  ∃ ready, provided host candidate.provider = .ok ready ∧
    (name, candidate.scheme) ∈ ready.interface ∧
    openImportExport host candidate.provider ready (name, candidate.scheme) =
      .ok (name, candidate)

theorem openImportExport_spec {provider : ModuleId} {ready : ReadyModule Root Scheme Entry}
    {found : String × Scheme} {entry : String × OpenImportCandidate Root Scheme Entry}
    (h : openImportExport host provider ready found = .ok entry) :
    entry.1 = found.1 ∧ entry.2.provider = provider ∧ entry.2.scheme = found.2 ∧
      exportedValue ready.value found.1 = some entry.2.value ∧
      host.dictGet ready.root found.1 = .ok (some entry.2.root) := by
  rw [openImportExport] at h
  cases hvalue : exportedValue ready.value found.1 with
  | none =>
      rw [hvalue] at h
      cases h
  | some value =>
      rw [hvalue] at h
      obtain ⟨root, hroot, h⟩ := bind_eq_ok.mp h
      obtain rfl := pure_eq_ok.mp h
      obtain ⟨field, hfield, hroot⟩ := bind_eq_ok.mp hroot
      rw [mapError_eq_ok] at hfield
      cases field with
      | none => cases hroot
      | some field =>
          obtain rfl := Except.ok.inj hroot
          exact ⟨rfl, rfl, rfl, rfl, hfield⟩

theorem openImportExports_eq_ok {provider : ModuleId} {ready : ReadyModule Root Scheme Entry}
    {exports : List (String × OpenImportCandidate Root Scheme Entry)}
    (h : openImportExports host provider ready = .ok exports) :
    List.Forall₂ (fun found entry => openImportExport host provider ready found = .ok entry)
      ready.interface exports := by
  rw [openImportExports] at h
  split at h
  · exact mapM_eq_ok.mp h
  · cases h

/-- The name has what its candidate has. -/
theorem IsCandidate.boundTo {name : String}
    {candidate : OpenImportCandidate Root Scheme Entry} (h : IsCandidate host name candidate)
    (names : ExternalNames Root Scheme Entry) :
    BoundTo host (names.bindOpenImport name candidate) candidate.provider name := by
  obtain ⟨ready, hready, hscheme, hexport⟩ := h
  obtain ⟨-, -, -, hvalue, hroot⟩ := openImportExport_spec hexport
  refine ⟨ready, candidate.scheme, candidate.value, candidate.root, hready, hscheme, hvalue,
    hroot, ?_, ?_, ?_⟩
  · exact (lookup_replaceEntry _).trans (if_pos rfl)
  · exact (lookup_replaceEntry _).trans (if_pos rfl)
  · exact (lookup_replaceEntry _).trans (if_pos rfl)

def candidatesOf (imports : Imports Root Scheme Entry) (name : String) :
    List (OpenImportCandidate Root Scheme Entry) :=
  (imports.candidates.lookup name).getD []

variable (host) in
/-- The candidates are the exports of the opened providers, and the names are those of the host
and of the statements that are not open. -/
structure Collected (opened : ModuleId → Prop) (given : String → Prop)
    (imports : Imports Root Scheme Entry) : Prop where
  increasing : imports.candidates.Pairwise (·.1 < ·.1)
  nonempty : ∀ group ∈ imports.candidates, group.2 ≠ []
  sound : ∀ name, ∀ candidate ∈ candidatesOf imports name,
    opened candidate.provider ∧ IsCandidate host name candidate
  complete : ∀ provider, opened provider → ∀ name, Exports host provider name →
    ∃ candidate ∈ candidatesOf imports name, candidate.provider = provider
  names : ∀ name, (imports.names.values.lookup name).isSome ↔ given name

variable {opened opened' : ModuleId → Prop} {given given' : String → Prop}
  {imports imports' : Imports Root Scheme Entry}

theorem Collected.congr (h : Collected host opened given imports)
    (hopened : ∀ provider, opened provider ↔ opened' provider)
    (hgiven : ∀ name, given name ↔ given' name) : Collected host opened' given' imports where
  increasing := h.increasing
  nonempty := h.nonempty
  sound := fun name candidate hmem => (h.sound name candidate hmem).imp_left (hopened _).mp
  complete := fun provider hprovider => h.complete provider ((hopened provider).mpr hprovider)
  names := fun name => (h.names name).trans (hgiven name)

/-- Opening a provider adds its exports. -/
theorem Collected.open (h : Collected host opened given imports) {provider : ModuleId}
    {ready : ReadyModule Root Scheme Entry} (hready : provided host provider = .ok ready)
    {exports : List (String × OpenImportCandidate Root Scheme Entry)}
    (hexports : openImportExports host provider ready = .ok exports) :
    Collected host (fun other => opened other ∨ other = provider) given
      { imports with candidates := exports.foldl pushEntry imports.candidates } := by
  have hall := openImportExports_eq_ok hexports
  have hof : ∀ name, candidatesOf
      { imports with candidates := exports.foldl pushEntry imports.candidates } name =
        candidatesOf imports name ++ (exports.filter (·.1 = name)).map (·.2) :=
    lookup_pushEntries imports.candidates exports
  refine ⟨pairwise_pushEntries h.increasing exports, ne_nil_of_mem_pushEntries h.nonempty exports,
    fun name candidate hmem => ?_, fun other hother name hexported => ?_, h.names⟩
  · rw [hof] at hmem
    rcases List.mem_append.mp hmem with hold | hnew
    · exact (h.sound name candidate hold).imp_left Or.inl
    · obtain ⟨⟨label, found⟩, hfound, rfl⟩ := List.mem_map.mp hnew
      obtain ⟨hmade, hlabel⟩ := List.mem_filter.mp hfound
      obtain rfl := of_decide_eq_true hlabel
      obtain ⟨⟨key, scheme⟩, hscheme, hentry⟩ := forall₂_mem_right hall hmade
      obtain ⟨hkey, hprovider, heq, -, -⟩ := openImportExport_spec hentry
      obtain rfl : label = key := hkey
      obtain rfl : found.scheme = scheme := heq
      subst hprovider
      exact ⟨Or.inr rfl, ready, hready, hscheme, hentry⟩
  · rw [hof]
    rcases hother with hold | rfl
    · obtain ⟨candidate, hmem, hprovider⟩ := h.complete other hold name hexported
      exact ⟨candidate, List.mem_append_left _ hmem, hprovider⟩
    · obtain ⟨found, hfound, hname⟩ := hexported
      obtain rfl := Except.ok.inj (hready.symm.trans hfound)
      obtain ⟨entry, hentry, rfl⟩ := List.mem_map.mp hname
      obtain ⟨made, hmade, hexport⟩ := forall₂_mem_left hall hentry
      obtain ⟨hkey, hprovider, -⟩ := openImportExport_spec hexport
      refine ⟨made.2, List.mem_append_right _ (List.mem_map.mpr ⟨made, ?_, rfl⟩), hprovider⟩
      exact List.mem_filter.mpr ⟨hmade, decide_eq_true hkey⟩

/-- A statement that is not open gives a name. -/
theorem Collected.bind (h : Collected host opened given imports) (name : String) (value : Value)
    (root : Root) (interface : List (String × Scheme)) (provenance : List Entry)
    (dynamic : Bool) :
    Collected host opened (fun other => given other ∨ other = name)
      { imports with
        names := imports.names.bindImport name value root interface provenance dynamic } := by
  refine ⟨h.increasing, h.nonempty, h.sound, h.complete, fun other => ?_⟩
  change ((replaceEntry name value imports.names.values).lookup other).isSome ↔ _
  rw [lookup_replaceEntry]
  by_cases hname : other = name
  · simp [hname]
  · simp [hname, h.names other]

/-- The statement imports something under the name. -/
def ImportsAs (name : String) (binding : Binding) : Prop :=
  binding.kind = .importBinding ∧ binding.name.value = name

theorem opensBy_cons {binding : Binding} {rest : List Binding} {provider : ModuleId} :
    OpensBy host (binding :: rest) provider ↔
      OpensBy host [binding] provider ∨ OpensBy host rest provider := by
  simp only [OpensBy, List.mem_cons, List.not_mem_nil, or_false, exists_eq_left, exists_eq_or_imp]

theorem opensBy_singleton {binding : Binding} {relative : String} {provider other : ModuleId}
    (hkind : binding.kind = .openImport) (hspecifier : specifier binding = .ok relative)
    (hresolve : host.resolveImport relative = .ok provider) :
    OpensBy host [binding] other ↔ other = provider := by
  constructor
  · rintro ⟨found, hmem, -, text, htext, hother⟩
    obtain rfl := List.mem_singleton.mp hmem
    obtain rfl := Except.ok.inj (hspecifier.symm.trans htext)
    exact Except.ok.inj (hother.symm.trans hresolve)
  · rintro rfl
    exact ⟨binding, List.mem_singleton_self _, hkind, relative, hspecifier, hresolve⟩

theorem not_opensBy_singleton {binding : Binding} {other : ModuleId}
    (hkind : binding.kind ≠ .openImport) : ¬OpensBy host [binding] other := by
  rintro ⟨found, hmem, hopen, -⟩
  obtain rfl := List.mem_singleton.mp hmem
  exact hkind hopen

theorem Collected.importStatement (h : Collected host opened given imports) {sourceName : String}
    {binding : Binding} (himport : isImport binding = true)
    (hrun : importStatement host sourceName imports binding = .ok imports') :
    Collected host (fun provider => opened provider ∨ OpensBy host [binding] provider)
      (fun name => given name ∨ ImportsAs name binding) imports' := by
  rw [OpenImports.importStatement] at hrun
  split at hrun
  · cases hrun
  obtain ⟨relative, hspecifier, hrun⟩ := bind_eq_ok.mp hrun
  obtain ⟨provider, hresolve, hrun⟩ := bind_eq_ok.mp hrun
  obtain ⟨ready, hready, hrun⟩ := bind_eq_ok.mp hrun
  rw [mapError_eq_ok] at hresolve
  rw [bindImported] at hrun
  split at hrun
  · rename_i hkind
    obtain ⟨exports, hexports, hrun⟩ := bind_eq_ok.mp hrun
    obtain rfl := pure_eq_ok.mp hrun
    refine (h.open hready hexports).congr (fun other => ?_) fun name => ?_
    · rw [opensBy_singleton hkind hspecifier hresolve]
    · simp [ImportsAs, hkind]
  · rename_i hkind
    obtain ⟨root, -, hrun⟩ := bind_eq_ok.mp hrun
    obtain ⟨⟨value, interface⟩, -, hrun⟩ := bind_eq_ok.mp hrun
    obtain rfl := pure_eq_ok.mp hrun
    have hselective : binding.kind = .importBinding := by
      cases hfound : binding.kind <;> simp_all [isImport]
    refine (h.bind binding.name.value value root interface ready.provenance
      ready.dynamic).congr (fun other => ?_) fun name => ?_
    · rw [or_iff_left (not_opensBy_singleton hkind)]
    · simp only [ImportsAs, hselective, true_and, eq_comm]

theorem Collected.importStatements (h : Collected host opened given imports)
    {sourceName : String} {bindings : List Binding}
    (hrun : importStatements host sourceName bindings imports = .ok imports') :
    Collected host (fun provider => opened provider ∨ OpensBy host bindings provider)
      (fun name => given name ∨ ∃ binding ∈ bindings, ImportsAs name binding) imports' := by
  induction bindings generalizing imports opened given with
  | nil =>
      obtain rfl := Except.ok.inj hrun
      exact h.congr (by simp [OpensBy]) (by simp)
  | cons binding rest ih =>
      rw [OpenImports.importStatements] at hrun
      obtain ⟨between, hfirst, hrun⟩ := bind_eq_ok.mp hrun
      have hbetween : Collected host
          (fun provider => opened provider ∨ OpensBy host [binding] provider)
          (fun name => given name ∨ ImportsAs name binding) between := by
        rw [importBinding] at hfirst
        split at hfirst
        · rename_i himport
          exact h.importStatement himport hfirst
        · rename_i himport
          obtain rfl := Except.ok.inj hfirst
          refine h.congr (fun other => ?_) fun name => ?_
          · refine (or_iff_left (not_opensBy_singleton fun hkind => himport ?_)).symm
            rw [isImport, hkind]
          · refine (or_iff_left fun hnamed => himport ?_).symm
            rw [isImport, hnamed.1]
      refine (ih hbetween hrun).congr (fun other => ?_) fun name => ?_
      · rw [or_assoc, ← opensBy_cons]
      · simp only [List.mem_cons, exists_eq_or_imp, or_assoc]

theorem Collected.openPrelude (h : Collected host opened given imports) {id : ModuleId}
    (hrun : openPrelude host id imports = .ok imports') :
    Collected host (fun provider => opened provider ∨ OpensPrelude host id provider) given
      imports' := by
  rw [OpenImports.openPrelude] at hrun
  split at hrun
  · rename_i hprelude
    obtain rfl := Except.ok.inj hrun
    exact h.congr (by simp [OpensPrelude, hprelude]) fun _ => Iff.rfl
  · rename_i hprelude
    cases hcore : host.coreModules preludeModule with
    | none =>
        rw [hcore] at hrun
        obtain rfl := Except.ok.inj hrun
        exact h.congr (by simp [OpensPrelude, hcore]) fun _ => Iff.rfl
    | some core =>
        rw [hcore] at hrun
        obtain ⟨exports, hexports, hrun⟩ := bind_eq_ok.mp hrun
        obtain rfl := pure_eq_ok.mp hrun
        have hready : provided host (.builtin preludeModule) = .ok core.ready := by
          simp only [provided, hcore]
        exact (h.open hready hexports).congr (by simp [OpensPrelude, hprelude, hcore])
          fun _ => Iff.rfl

/-- All that a module imports, before open names are resolved. -/
theorem collected_collectImports {id : ModuleId} {sourceName : String} {body : Block}
    {external : ExternalNames Root Scheme Entry}
    (hrun : collectImports host id sourceName body external = .ok imports) :
    Collected host
      (fun provider => OpensBy host body.bindings provider ∨ OpensPrelude host id provider)
      (fun name => (external.values.lookup name).isSome ∨
        ∃ binding ∈ body.bindings, ImportsAs name binding) imports := by
  obtain ⟨between, hstatements, hprelude⟩ := bind_eq_ok.mp hrun
  have hnew : Collected host (fun _ => False) (fun name => (external.values.lookup name).isSome)
      ⟨external, []⟩ :=
    ⟨.nil, fun _ hmem => absurd hmem List.not_mem_nil, fun _ _ hmem => absurd hmem
      List.not_mem_nil, fun _ hfalse => hfalse.elim, fun _ => Iff.rfl⟩
  exact ((hnew.importStatements hstatements).openPrelude hprelude).congr
    (fun provider => by rw [false_or]) fun _ => Iff.rfl

/-- The tables have the same at the name. -/
structure SameAt (name : String) (names names' : ExternalNames Root Scheme Entry) : Prop where
  values : names'.values.lookup name = names.values.lookup name
  roots : names'.roots.lookup name = names.roots.lookup name
  interfaces : names'.interfaces.lookup name = names.interfaces.lookup name

namespace SameAt

variable {name : String} {names names' names'' : ExternalNames Root Scheme Entry}

theorem refl (name : String) (names : ExternalNames Root Scheme Entry) :
    SameAt name names names := ⟨rfl, rfl, rfl⟩

theorem trans (h : SameAt name names names') (h' : SameAt name names' names'') :
    SameAt name names names'' :=
  ⟨h'.values.trans h.values, h'.roots.trans h.roots, h'.interfaces.trans h.interfaces⟩

theorem boundTo (h : SameAt name names names') {provider : ModuleId}
    (hbound : BoundTo host names provider name) : BoundTo host names' provider name := by
  obtain ⟨ready, scheme, value, root, hready, hscheme, hvalue, hroot, hbound⟩ := hbound
  exact ⟨ready, scheme, value, root, hready, hscheme, hvalue, hroot, h.values.trans hbound.1,
    h.roots.trans hbound.2.1, h.interfaces.trans hbound.2.2⟩

end SameAt

theorem sameAt_bindOpenImport {name other : String} (hother : other ≠ name)
    (names : ExternalNames Root Scheme Entry)
    (candidate : OpenImportCandidate Root Scheme Entry) :
    SameAt other names (names.bindOpenImport name candidate) where
  values := (lookup_replaceEntry _).trans (if_neg hother)
  roots := (lookup_replaceEntry _).trans (if_neg hother)
  interfaces := (lookup_replaceEntry _).trans (if_neg hother)

/-- The name is there already or bound by the module. -/
def Skipped (body : Block) (names : ExternalNames Root Scheme Entry) (name : String) : Prop :=
  name ∈ explicitNames body ∨ (names.values.lookup name).isSome

theorem SameAt.skipped {body : Block} {name : String}
    {names names' : ExternalNames Root Scheme Entry} (h : SameAt name names names') :
    Skipped body names' name ↔ Skipped body names name := by
  rw [Skipped, Skipped, h.values]

/-- What becomes of a name that has candidates and is not skipped. -/
inductive Settled (body : Block) (name : String)
    (candidates : List (OpenImportCandidate Root Scheme Entry))
    (names names' : ExternalNames Root Scheme Entry) : Prop where
  | one (candidate : OpenImportCandidate Root Scheme Entry)
      (base : ExternalNames Root Scheme Entry)
      (distinct : distinctBy (·.provider) candidates = [candidate])
      (same : SameAt name (base.bindOpenImport name candidate) names')
  | several (first second : OpenImportCandidate Root Scheme Entry)
      (rest : List (OpenImportCandidate Root Scheme Entry))
      (distinct : distinctBy (·.provider) candidates = first :: second :: rest)
      (unused : programReferencesName body name = false)
      (same : SameAt name names names')

/-- The name has several candidates and is referenced. -/
def Clashes (body : Block) (name : String)
    (candidates : List (OpenImportCandidate Root Scheme Entry)) : Prop :=
  programReferencesName body name = true ∧
    ∃ first second rest, distinctBy (·.provider) candidates = first :: second :: rest

theorem distinctBy_ne_nil {candidates : List (OpenImportCandidate Root Scheme Entry)}
    (hne : candidates ≠ []) : distinctBy (·.provider) candidates ≠ [] := by
  obtain ⟨candidate, hmem⟩ := List.exists_mem_of_ne_nil candidates hne
  obtain ⟨kept, hkept, -⟩ := exists_mem_distinctBy (·.provider) hmem
  exact List.ne_nil_of_mem hkept

theorem resolveOpenName_ok {body : Block} {names names' : ExternalNames Root Scheme Entry}
    {name : String} {candidates : List (OpenImportCandidate Root Scheme Entry)}
    (hrun : resolveOpenName body names name candidates = .ok names') :
    (∀ other, other ≠ name → SameAt other names names') ∧
      (Skipped body names name → SameAt name names names') ∧
      (¬Skipped body names name → Settled body name candidates names names') := by
  rw [resolveOpenName] at hrun
  split at hrun
  · rename_i hskipped
    obtain rfl := Except.ok.inj hrun
    exact ⟨fun other _ => .refl other names, fun _ => .refl name names,
      fun hnot => absurd hskipped hnot⟩
  · rename_i hskipped
    cases hdistinct : distinctBy (·.provider) candidates with
    | nil =>
        rw [hdistinct] at hrun
        cases hrun
    | cons first rest =>
        rw [hdistinct] at hrun
        cases rest with
        | nil =>
            obtain rfl := Except.ok.inj hrun
            exact ⟨fun other hother => sameAt_bindOpenImport hother names first,
              fun h => absurd h hskipped, fun _ => .one first names hdistinct (.refl name _)⟩
        | cons second rest =>
            dsimp only at hrun
            split at hrun
            · cases hrun
            · rename_i hunused
              obtain rfl := Except.ok.inj hrun
              exact ⟨fun other _ => .refl other names, fun h => absurd h hskipped,
                fun _ => .several first second rest hdistinct (Bool.not_eq_true _ ▸ hunused)
                  (.refl name names)⟩

theorem resolveOpenName_error {body : Block} {names : ExternalNames Root Scheme Entry}
    {name : String} {candidates : List (OpenImportCandidate Root Scheme Entry)}
    {error : ImportError} (hne : candidates ≠ [])
    (hrun : resolveOpenName body names name candidates = .error error) :
    ¬Skipped body names name ∧ Clashes body name candidates ∧
      ∃ providers, error = .ambiguous name providers := by
  rw [resolveOpenName] at hrun
  split at hrun
  · cases hrun
  · rename_i hskipped
    cases hdistinct : distinctBy (·.provider) candidates with
    | nil => exact absurd hdistinct (distinctBy_ne_nil hne)
    | cons first rest =>
        rw [hdistinct] at hrun
        cases rest with
        | nil => cases hrun
        | cons second rest =>
            dsimp only at hrun
            split at hrun
            · rename_i hused
              obtain rfl := Except.error.inj hrun
              exact ⟨hskipped, ⟨hused, first, second, rest, hdistinct⟩, _, rfl⟩
            · cases hrun

section Groups

variable {body : Block} {groups : List (String × List (OpenImportCandidate Root Scheme Entry))}

/-- What is known of all names after the groups are resolved. -/
theorem resolveOpenNames_ok {names names' : ExternalNames Root Scheme Entry}
    (hincreasing : groups.Pairwise (·.1 < ·.1))
    (hrun : resolveOpenNames body groups names = .ok names') :
    (∀ name, name ∉ groups.map (·.1) → SameAt name names names') ∧
      ∀ group ∈ groups, ¬Skipped body names group.1 →
        Settled body group.1 group.2 names names' := by
  induction groups generalizing names with
  | nil =>
      obtain rfl := Except.ok.inj hrun
      exact ⟨fun name _ => .refl name names, fun _ hmem => absurd hmem List.not_mem_nil⟩
  | cons group rest ih =>
      obtain ⟨name, candidates⟩ := group
      rw [resolveOpenNames] at hrun
      obtain ⟨between, hfirst, hrun⟩ := bind_eq_ok.mp hrun
      obtain ⟨hbefore, hrest⟩ := List.pairwise_cons.mp hincreasing
      obtain ⟨hothers, -, hsettled⟩ := resolveOpenName_ok hfirst
      obtain ⟨hkept, hgroups⟩ := ih hrest hrun
      have hnot : name ∉ rest.map (·.1) := by
        rintro hmem
        obtain ⟨other, hother, hname⟩ := List.mem_map.mp hmem
        exact (hbefore other hother).ne hname.symm
      refine ⟨fun other hother => ?_, fun group hgroup hskipped => ?_⟩
      · obtain ⟨hne, hrest⟩ := not_or.mp (List.mem_cons.not.mp hother)
        exact (hothers other hne).trans (hkept other hrest)
      · rcases List.mem_cons.mp hgroup with rfl | hmem
        · -- the later groups are of other names
          cases hsettled hskipped with
          | one candidate base distinct same =>
              exact .one candidate base distinct (same.trans (hkept name hnot))
          | several first second tail distinct unused same =>
              exact .several first second tail distinct unused (same.trans (hkept name hnot))
        · have hsame := hothers group.1 (hbefore group hmem).ne'
          cases hgroups group hmem (hsame.skipped.not.mpr hskipped) with
          | one candidate base distinct same => exact .one candidate base distinct same
          | several first second tail distinct unused same =>
              exact .several first second tail distinct unused (hsame.trans same)

theorem resolveOpenNames_error {names : ExternalNames Root Scheme Entry} {error : ImportError}
    (hincreasing : groups.Pairwise (·.1 < ·.1)) (hne : ∀ group ∈ groups, group.2 ≠ [])
    (hrun : resolveOpenNames body groups names = .error error) :
    ∃ group ∈ groups, ¬Skipped body names group.1 ∧ Clashes body group.1 group.2 ∧
      ∃ providers, error = .ambiguous group.1 providers := by
  induction groups generalizing names with
  | nil => cases hrun
  | cons group rest ih =>
      obtain ⟨name, candidates⟩ := group
      rw [resolveOpenNames] at hrun
      obtain ⟨hbefore, hrest⟩ := List.pairwise_cons.mp hincreasing
      cases hfirst : resolveOpenName body names name candidates with
      | error found =>
          rw [hfirst] at hrun
          obtain rfl := Except.error.inj hrun
          exact ⟨_, List.mem_cons_self, resolveOpenName_error (hne _ List.mem_cons_self) hfirst⟩
      | ok between =>
          rw [hfirst] at hrun
          obtain ⟨group, hgroup, hskipped, hclash⟩ :=
            ih hrest (fun group hgroup => hne group (List.mem_cons_of_mem _ hgroup)) hrun
          have hsame := (resolveOpenName_ok hfirst).1 group.1 (hbefore group hgroup).ne'
          exact ⟨group, List.mem_cons_of_mem _ hgroup, hsame.skipped.not.mp hskipped, hclash⟩

end Groups

theorem programReferencesName_iff (body : Block) (name : String) :
    programReferencesName body name = true ↔
      FreeInBlock Semantic.Resolver.resolverRules name body := by
  rw [← Semantic.Resolver.unresolved_resolve]
  simp only [programReferencesName, List.any_eq_true, Bool.and_eq_true, beq_iff_eq,
    Semantic.Resolver.Unresolved]

theorem bindingRules_within : Semantic.Resolver.resolverRules.Within bindingRules :=
  ⟨id, fun h => absurd h (by decide)⟩

section Module

variable {id : ModuleId} {sourceName : String} {body : Block}
  {external : ExternalNames Root Scheme Entry}
  (hcollect : collectImports host id sourceName body external = .ok imports)
include hcollect

theorem provides_iff {provider : ModuleId} {name : String} :
    Provides host id body provider name ↔
      ∃ candidate ∈ distinctBy (·.provider) (candidatesOf imports name),
        candidate.provider = provider := by
  have hcollected := collected_collectImports hcollect
  constructor
  · rintro ⟨hopened, hexports⟩
    obtain ⟨candidate, hmem, hprovider⟩ := hcollected.complete provider hopened name hexports
    obtain ⟨kept, hkept, hkey⟩ := exists_mem_distinctBy (·.provider) hmem
    exact ⟨kept, hkept, hkey.trans hprovider⟩
  · rintro ⟨candidate, hmem, rfl⟩
    obtain ⟨hopened, ready, hready, hscheme, -⟩ :=
      hcollected.sound name candidate (mem_of_mem_distinctBy _ hmem)
    exact ⟨hopened, ready, hready, List.mem_map.mpr ⟨_, hscheme, rfl⟩⟩

theorem skipped_iff {name : String} :
    Skipped body imports.names name ↔ Explicit body external name := by
  rw [Skipped, Explicit, (collected_collectImports hcollect).names name]
  constructor
  · rintro (hexplicit | hexternal | ⟨binding, hmem, hkind, rfl⟩)
    · exact Or.inl hexplicit
    · exact Or.inr hexternal
    · refine Or.inl (List.mem_map.mpr ⟨binding, List.mem_filter.mpr ⟨hmem, ?_⟩, rfl⟩)
      rw [Binding.isEdge, hkind]
      rfl
  · exact Or.imp_right Or.inl

omit hcollect in
theorem group_of_candidatesOf {name : String} (hne : candidatesOf imports name ≠ []) :
    (name, candidatesOf imports name) ∈ imports.candidates := by
  rw [candidatesOf] at hne ⊢
  cases hlookup : imports.candidates.lookup name with
  | none => exact absurd (by rw [hlookup]; rfl) hne
  | some candidates => exact mem_of_lookup hlookup

theorem candidatesOf_group
    {group : String × List (OpenImportCandidate Root Scheme Entry)}
    (hgroup : group ∈ imports.candidates) : candidatesOf imports group.1 = group.2 := by
  have hnodup : (imports.candidates.map (·.1)).Nodup :=
    List.pairwise_map.mpr ((collected_collectImports hcollect).increasing.imp ne_of_lt)
  rw [candidatesOf, lookup_of_mem hnodup hgroup]
  rfl

/-- Two providers export the name when two candidates are left. -/
theorem two_providers {name : String}
    {first second : OpenImportCandidate Root Scheme Entry}
    {rest : List (OpenImportCandidate Root Scheme Entry)}
    (hdistinct : distinctBy (·.provider) (candidatesOf imports name) = first :: second :: rest) :
    first.provider ≠ second.provider ∧ Provides host id body first.provider name ∧
      Provides host id body second.provider name := by
  have hnodup := nodup_distinctBy (·.provider) (candidatesOf imports name)
  rw [hdistinct] at hnodup
  refine ⟨fun heq => ?_, ?_, ?_⟩
  · exact (List.nodup_cons.mp hnodup).1
      (List.mem_map.mpr ⟨second, List.mem_cons_self, heq.symm⟩)
  · exact (provides_iff hcollect).mpr ⟨first, hdistinct ▸ List.mem_cons_self, rfl⟩
  · exact (provides_iff hcollect).mpr
      ⟨second, hdistinct ▸ List.mem_cons_of_mem _ List.mem_cons_self, rfl⟩

theorem clashes_iff {name : String} :
    Clashes body name (candidatesOf imports name) ↔
      (∃ first second, first ≠ second ∧ Provides host id body first name ∧
        Provides host id body second name) ∧
        FreeInBlock Semantic.Resolver.resolverRules name body := by
  rw [Clashes, programReferencesName_iff, and_comm]
  refine and_congr_left fun _ => ⟨?_, ?_⟩
  · rintro ⟨first, second, rest, hdistinct⟩
    exact ⟨_, _, two_providers hcollect hdistinct⟩
  · rintro ⟨p, q, hne, hp, hq⟩
    obtain ⟨first, hfirst, rfl⟩ := (provides_iff hcollect).mp hp
    obtain ⟨second, hsecond, rfl⟩ := (provides_iff hcollect).mp hq
    cases hdistinct : distinctBy (·.provider) (candidatesOf imports name) with
    | nil => exact absurd (hdistinct ▸ hfirst) List.not_mem_nil
    | cons one rest =>
        cases rest with
        | cons two rest => exact ⟨one, two, rest, rfl⟩
        | nil =>
            rw [hdistinct, List.mem_singleton] at hfirst hsecond
            exact absurd (congrArg _ (hfirst.trans hsecond.symm)) hne

theorem externalNames_eq :
    externalNames host id sourceName body external =
      resolveOpenNames body imports.candidates imports.names := by
  rw [externalNames, hcollect]
  rfl

/-- An ambiguous name that is reported is one, and it has an unresolved reference. -/
theorem ambiguous_of_error {error : ImportError}
    (hrun : externalNames host id sourceName body external = .error error) :
    ∃ name providers, error = .ambiguous name providers ∧
      Ambiguous host id body external name ∧
        FreeInBlock Semantic.Resolver.resolverRules name body := by
  have hcollected := collected_collectImports hcollect
  rw [externalNames_eq hcollect] at hrun
  obtain ⟨group, hgroup, hskipped, hclash, providers, rfl⟩ :=
    resolveOpenNames_error hcollected.increasing hcollected.nonempty hrun
  rw [← candidatesOf_group hcollect hgroup, clashes_iff hcollect] at hclash
  exact ⟨group.1, providers, rfl, ⟨(skipped_iff hcollect).not.mp hskipped, hclash.1⟩, hclash.2⟩

/-- When no error is reported, no ambiguous name has an unresolved reference. -/
theorem not_ambiguous_of_ok {names : ExternalNames Root Scheme Entry}
    (hrun : externalNames host id sourceName body external = .ok names) {name : String}
    (hambiguous : Ambiguous host id body external name) :
    ¬FreeInBlock Semantic.Resolver.resolverRules name body := by
  intro hfree
  have hclash := (clashes_iff hcollect).mpr ⟨hambiguous.2, hfree⟩
  have hne : candidatesOf imports name ≠ [] := by
    obtain ⟨-, first, second, rest, hdistinct⟩ := hclash
    exact List.ne_nil_of_mem (mem_of_mem_distinctBy _ (hdistinct ▸ List.mem_cons_self))
  rw [externalNames_eq hcollect] at hrun
  have hsettled := (resolveOpenNames_ok (collected_collectImports hcollect).increasing hrun).2 _
    (group_of_candidatesOf hne) ((skipped_iff hcollect).not.mpr hambiguous.1)
  obtain ⟨hused, first, second, rest, hdistinct⟩ := hclash
  cases hsettled with
  | one candidate base hone same => cases hone.symm.trans hdistinct
  | several first second rest hdistinct hunused same => cases hused.symm.trans hunused

/-- A name that the module does not bind is that of its only provider. -/
theorem bound_of_ok {names : ExternalNames Root Scheme Entry}
    (hrun : externalNames host id sourceName body external = .ok names) {name : String}
    (hexplicit : ¬Explicit body external name) :
    ((names.values.lookup name).isSome ↔ ∃! provider, Provides host id body provider name) ∧
      ∀ provider, Provides host id body provider name →
        (∀ other, Provides host id body other name → other = provider) →
          BoundTo host names provider name := by
  have hcollected := collected_collectImports hcollect
  have hskipped := (skipped_iff hcollect).not.mpr hexplicit
  rw [externalNames_eq hcollect] at hrun
  obtain ⟨hkept, hgroups⟩ := resolveOpenNames_ok hcollected.increasing hrun
  have hunbound {names' : ExternalNames Root Scheme Entry} (hsame : SameAt name imports.names names') :
      ¬(names'.values.lookup name).isSome := by
    rw [hsame.values]
    exact fun hsome => hskipped (Or.inr hsome)
  by_cases hne : candidatesOf imports name = []
  · -- no provider exports the name
    have hnone : ∀ provider, ¬Provides host id body provider name := by
      rintro provider hprovides
      obtain ⟨candidate, hmem, -⟩ := (provides_iff hcollect).mp hprovides
      have hfound := mem_of_mem_distinctBy _ hmem
      rw [hne] at hfound
      exact List.not_mem_nil hfound
    have hsame : SameAt name imports.names names := by
      refine hkept name fun hmem => ?_
      obtain ⟨group, hgroup, rfl⟩ := List.mem_map.mp hmem
      exact hcollected.nonempty group hgroup ((candidatesOf_group hcollect hgroup).symm.trans hne)
    refine ⟨iff_of_false (hunbound hsame) ?_, fun provider h => absurd h (hnone provider)⟩
    rintro ⟨provider, hprovides, -⟩
    exact hnone provider hprovides
  · cases hgroups _ (group_of_candidatesOf hne) hskipped with
    | one candidate base hdistinct same =>
        have hiff : ∀ provider, Provides host id body provider name ↔
            provider = candidate.provider := by
          intro provider
          rw [provides_iff hcollect, hdistinct]
          simp [eq_comm]
        obtain ⟨-, hcandidate⟩ := hcollected.sound name candidate
          (mem_of_mem_distinctBy _ (hdistinct ▸ List.mem_cons_self))
        have hbound := same.boundTo (hcandidate.boundTo base)
        refine ⟨iff_of_true ?_ ⟨_, (hiff _).mpr rfl, fun other => (hiff other).mp⟩, ?_⟩
        · obtain ⟨_, _, value, _, _, _, _, _, hvalue, _⟩ := hbound
          rw [hvalue]
          rfl
        · intro provider hprovides _
          rw [(hiff provider).mp hprovides]
          exact hbound
    | several first second rest hdistinct unused same =>
        obtain ⟨hdiffer, hfirst, hsecond⟩ := two_providers hcollect hdistinct
        refine ⟨iff_of_false (hunbound same) ?_, fun provider _ hunique => ?_⟩
        · rintro ⟨provider, -, hunique⟩
          exact hdiffer ((hunique _ hfirst).trans (hunique _ hsecond).symm)
        · exact absurd ((hunique _ hfirst).trans (hunique _ hsecond).symm) hdiffer

/-- Open imports resolve names uniquely when some unresolved reference is to an ambiguous name
whenever such a name is referenced outside of all that binds it. -/
theorem resolvedUniquely_iff :
    ResolvedUniquely host id sourceName body external ↔
      ((∃ name, Ambiguous host id body external name ∧ FreeInBlock bindingRules name body) →
        ∃ name, Ambiguous host id body external name ∧
          FreeInBlock Semantic.Resolver.resolverRules name body) := by
  constructor
  · rintro h ⟨name, hambiguous, hfree⟩
    obtain ⟨found, providers, herror⟩ := h.detected name hambiguous hfree
    obtain ⟨name, _, -, hname⟩ := ambiguous_of_error hcollect herror
    exact ⟨name, hname⟩
  · intro hcondition
    refine ⟨fun names hrun name => bound_of_ok hcollect hrun, fun name providers herror => ?_,
      fun name hambiguous hfree => ?_⟩
    · obtain ⟨found, texts, heq, hambiguous, hfree⟩ := ambiguous_of_error hcollect herror
      cases heq
      exact ⟨hambiguous, hfree.within bindingRules_within⟩
    · obtain ⟨named, hnamed, hunresolved⟩ := hcondition ⟨name, hambiguous, hfree⟩
      cases hrun : externalNames host id sourceName body external with
      | ok names => exact absurd hunresolved (not_ambiguous_of_ok hcollect hrun hnamed)
      | error error =>
          obtain ⟨found, providers, rfl, -⟩ := ambiguous_of_error hcollect hrun
          exact ⟨found, providers, rfl⟩

end Module

section Shared

def at0 : Loc := ⟨0, 0, 0⟩

def shared : Identifier := ⟨"shared", at0⟩

def mention : Expr := .mk (.variable shared) at0

def openStatement (relative : String) : Binding :=
  .mk .openImport none ⟨"\x00open:0", at0⟩ [] none (.mk (.string relative) at0)

def sharing (value : Int) : ReadyModule Value String Unit :=
  ⟨.dict ["shared"] [.int value], .dict ["shared"] [.int value], [("shared", "Int")], [], false,
    by decide⟩

/-- Two modules that export `shared`. -/
def sharedHost : ImportHost Value String Unit where
  resolveImport relative :=
    .ok (.source [.normal (if relative = "./left.telora" then "left.telora" else "right.telora")])
  load id := .ok (if id = .source [.normal "left.telora"] then sharing 1 else sharing 2)
  coreModules _ := none
  dictGet root name := .ok (exportedValue root name)

/-- `import "./left.telora" *; import "./right.telora" *; { def shared = shared; shared }` -/
def sharedBody : Block :=
  .mk [openStatement "./left.telora", openStatement "./right.telora"]
    (.mk (.block (.mk [.mk .defBinding none shared [] none mention] mention at0)) at0) at0

theorem exists_collectImports_sharedBody :
    ∃ imports, collectImports sharedHost .main "main.telora" sharedBody {} = .ok imports :=
  ⟨_, rfl⟩

theorem resolvedUniquely_iff_sharedBody :
    ResolvedUniquely sharedHost .main "main.telora" sharedBody {} ↔
      ((∃ name, Ambiguous sharedHost .main sharedBody {} name ∧
        FreeInBlock bindingRules name sharedBody) →
        ∃ name, Ambiguous sharedHost .main sharedBody {} name ∧
          FreeInBlock Semantic.Resolver.resolverRules name sharedBody) := by
  obtain ⟨imports, hcollect⟩ := exists_collectImports_sharedBody
  exact resolvedUniquely_iff hcollect

theorem ambiguous_shared : Ambiguous sharedHost .main sharedBody {} "shared" := by
  refine ⟨not_or.mpr ⟨by decide, by decide⟩, .source [.normal "left.telora"],
    .source [.normal "right.telora"], by decide, ⟨Or.inl ⟨openStatement "./left.telora", List.mem_cons_self, rfl, _, rfl, rfl⟩,
      sharing 1, rfl, List.mem_cons_self⟩,
    ⟨Or.inl ⟨openStatement "./right.telora", List.mem_cons_of_mem _ List.mem_cons_self, rfl, _, rfl,
      rfl⟩, sharing 2, rfl, List.mem_cons_self⟩⟩

theorem free_shared : FreeInBlock bindingRules "shared" sharedBody := by
  simp [sharedBody, FreeInBlock, FreeInBindings, FreeInBinding, FreeInExpr, FreeInKind,
    Binding.Declared, Binding.Binds, Binding.declares, Binding.isEdge, Binding.kind, Binding.name,
    Binding.annotation, Binding.value, openStatement, mention, shared, bindingRules,
    FreeInAnnotation, Expr.isClosure, Expr.value]

/-- The resolver takes the definition to be in its own scope. -/
theorem not_free_shared (name : String) :
    ¬FreeInBlock Semantic.Resolver.resolverRules name sharedBody := by
  simp [sharedBody, FreeInBlock, FreeInBindings, FreeInBinding, FreeInExpr, FreeInKind,
    Binding.Declared, Binding.Binds, Binding.declares, Binding.isEdge, Binding.kind, Binding.name,
    Binding.annotation, Binding.value, openStatement, mention, shared,
    Semantic.Resolver.resolverRules, FreeInAnnotation, Expr.isClosure, Expr.value]

theorem self_definition_hides_the_clash :
    ¬ResolvedUniquely sharedHost .main "main.telora" sharedBody {} := by
  intro h
  obtain ⟨imports, hcollect⟩ := exists_collectImports_sharedBody
  obtain ⟨found, providers, herror⟩ := h.detected "shared" ambiguous_shared free_shared
  obtain ⟨name, _, -, -, hfree⟩ := ambiguous_of_error hcollect herror
  exact not_free_shared name hfree

end Shared

end Telora.OpenImports
