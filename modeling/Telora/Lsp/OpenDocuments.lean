import Telora.Lsp.DocumentServer

/-!
# An open document is one document

The table of the server and the overlays of the workspace agree, and requests and diagnostics are
about the overlays, exactly as long as the client names documents by their canonical paths,
changes and closes nothing before there is a workspace, and asks for places that are there. The
table is kept by the path of the URI and everything else by the canonical one, so nothing less
will do.
-/

namespace Telora.Lsp

open Library Workspace DocumentServer

variable {Uri Text Change Position Edit Diagnostic : Type}

section System

variable (host : DocumentHost Uri Text Change Position Edit Diagnostic)
  (s : DocumentServer Text Diagnostic)

def DocumentServer.overlays : Overlays Text := (s.workspace.map (·.overlays)).getD []

/-- Each open file has one entry in the table, with the version of its overlay. -/
structure TablesAgree : Prop where
  entries : (s.documents.map (·.1)).Nodup
  versions : ∀ path, s.documents.lookup path = (s.overlays.lookup path).map (·.version)

/-- A notification does not end the server, one that is rejected changes nothing, and a file
that is open is not opened again. -/
structure NotificationSafe (notification : DocumentNotification Uri Text Change) : Prop where
  runs : (s.dispatchNotification host notification).1 ≠ .panicked
  unchanged : ∀ message, (s.dispatchNotification host notification).1 = .rejected message →
    (s.dispatchNotification host notification).2 = s
  openOnce : ∀ uri version text path file, notification = .didOpen uri version text →
    host.uriPath uri = .ok path → host.canonical path = .ok file →
    (s.overlays.lookup file).isSome →
    ∃ message, (s.dispatchNotification host notification).1 = .rejected message

/-- A request at an open document is about its overlay, and it is answered when the published
sources are of the current revision and have the document. -/
structure RequestSafe (uri : Uri) (position : Position) (file : String)
    (document : DocumentSnapshot Text) : Prop where
  answers : ∀ text, s.semanticRequest host uri position = .answered text → text = document.text
  refuses : ∀ message, s.semanticRequest host uri position = .invalidParams message →
    host.offset document.text position = .error message
  ready : ∀ workspace snapshot, s.workspace = some workspace →
    workspace.published = some snapshot → snapshot.revision = workspace.clock →
    (snapshot.sources.lookup file).isSome →
    s.semanticRequest host uri position ≠ .contentModified

/-- The client gets the diagnostics of every open document that the rebuild came to, once and
with the version of its overlay, and they are those of the text of its overlay. -/
structure DiagnosticsSafe (modules : List (String × Option Text))
    (snapshot : SourceSnapshot Text Diagnostic) : Prop where
  published : ∀ path document, s.overlays.lookup path = some document →
    (∃ module ∈ modules, host.canonical module.1 = .ok path) →
    ∃ found, (path, document.version, found) ∈ s.publishDiagnostics snapshot
  once : ((s.publishDiagnostics snapshot).map (·.1)).Nodup
  about : ∀ path version found, (path, version, found) ∈ s.publishDiagnostics snapshot →
    ∃ text source, s.overlays.lookup path = some ⟨version, text⟩ ∧
      snapshot.sources[source]? = some (path, text) ∧
      found = ((host.diagnose snapshot.sources).filter (·.1 == source)).map (·.2)

/-- What has to hold of an event in a state where it can happen. -/
def EventSafe : DocumentEvent Uri Text Change Position → Prop
  | .notification notification => NotificationSafe host s notification
  | .request uri position => ∀ path file document, host.uriPath uri = .ok path →
      host.canonical path = .ok file → s.overlays.lookup file = some document →
      RequestSafe host s uri position file document
  | .rebuildBegins _ | .rebuildReads _ => True
  | .rebuilt i modules => ∀ workspace texts, s.workspace = some workspace →
      workspace.rebuilding[i]? = some (.reading workspace.clock texts) →
      DiagnosticsSafe host s modules (snapshotOf host workspace.clock texts modules)

/-- A change of a document that can be carried out. -/
def Applies (document : DocumentSnapshot Text) (version : Int) (changes : List Change) : Prop :=
  document.version < version ∧ ∃ edits text,
    host.resolveChanges document.text changes = .ok edits ∧
      host.applyEdits document.text edits = .ok text

/-- The workspace is there when a URI names a file. -/
def HasWorkspace (uri : Uri) : Prop :=
  ∀ path, host.uriPath uri = .ok path → s.workspace.isSome

/-- An open document that a URI names, unless it is not about it, is named by its canonical
path. -/
def NamesDocument (uri : Uri) (about : String → DocumentSnapshot Text → Prop) : Prop :=
  ∀ path file document, host.uriPath uri = .ok path → host.canonical path = .ok file →
    s.overlays.lookup file = some document → about file document → file = path

/-- The published sources are of the current revision and have the file. -/
def Ready (file : String) : Prop :=
  ∃ workspace snapshot, s.workspace = some workspace ∧ workspace.published = some snapshot ∧
    snapshot.revision = workspace.clock ∧ (snapshot.sources.lookup file).isSome

/-- A place that the published text of an older revision has not is none of the open document
either. -/
def PlaceKnown (uri : Uri) (position : Position) : Prop :=
  ∀ path document workspace snapshot text message, host.uriPath uri = .ok path →
    s.overlays.lookup path = some document → s.workspace = some workspace →
    workspace.published = some snapshot → snapshot.revision ≠ workspace.clock →
    snapshot.sources.lookup path = some text → host.offset text position = .error message →
    host.offset document.text position = .error message

/-- The client opens a file by its canonical path. It names an open document by this path when
it changes it, closes it or asks a request that can be answered, changes or closes nothing before
there is a workspace, and asks for no place that only the published text has not. -/
def Direct : DocumentEvent Uri Text Change Position → Prop
  | .notification (.didOpen uri _ _) =>
      ∀ path file, host.uriPath uri = .ok path → host.canonical path = .ok file → file = path
  | .notification (.didChange uri version changes) => HasWorkspace host s uri ∧
      NamesDocument host s uri fun _ document => Applies host document version changes
  | .notification (.didClose uri) => HasWorkspace host s uri ∧
      NamesDocument host s uri fun _ _ => True
  | .request uri position => (NamesDocument host s uri fun file _ => Ready s file) ∧
      PlaceKnown host s uri position
  | .rebuildBegins _ | .rebuildReads _ | .rebuilt _ _ => True

/-- Of the current revision a rebuild has read the overlays as they are. -/
def RebuildTask.InStep (workspace : DocumentWorkspace Text Diagnostic) : RebuildTask Text → Prop
  | .scheduled => True
  | .begun revision => revision ≤ workspace.clock
  | .reading revision texts => revision ≤ workspace.clock ∧
      (revision = workspace.clock → texts = overlayTexts workspace.overlays)

/-- The rebuilds and what is published are in step with the overlays. -/
structure DocumentWorkspace.InStep (workspace : DocumentWorkspace Text Diagnostic) : Prop where
  canonical : ∀ path document, workspace.overlays.lookup path = some document →
    host.canonical path = .ok path
  tasks : ∀ task ∈ workspace.rebuilding, task.InStep workspace
  published : ∀ snapshot, workspace.published = some snapshot →
    snapshot.revision ≤ workspace.clock ∧ ∃ texts modules,
      snapshot = snapshotOf host snapshot.revision texts modules ∧
        (snapshot.revision = workspace.clock → texts = overlayTexts workspace.overlays)

/-- The tables agree, and the workspace is in step. -/
structure InTable : Prop extends TablesAgree s where
  inStep : ∀ workspace, s.workspace = some workspace → workspace.InStep host

variable {host s} {s' : DocumentServer Text Diagnostic}

theorem overlays_eq {workspace : DocumentWorkspace Text Diagnostic}
    (h : s.workspace = some workspace) : s.overlays = workspace.overlays := by
  rw [DocumentServer.overlays, h]
  rfl

/-- An edit makes a new revision, of which nothing is read or published yet. -/
theorem DocumentWorkspace.InStep.edited {workspace : DocumentWorkspace Text Diagnostic}
    (h : workspace.InStep host) {overlays : Overlays Text}
    (hcanonical : ∀ path document, overlays.lookup path = some document →
      host.canonical path = .ok path) : (workspace.edited overlays).InStep host where
  canonical := hcanonical
  tasks task htask := by
    obtain htask | hscheduled := List.mem_append.mp htask
    · have hbefore := h.tasks task htask
      cases task with
      | scheduled => trivial
      | begun revision => exact Nat.le_succ_of_le hbefore
      | reading revision texts =>
          refine ⟨Nat.le_succ_of_le hbefore.1, fun heq => ?_⟩
          exact absurd (heq ▸ hbefore.1) (Nat.not_succ_le_self _)
    · obtain rfl := List.mem_singleton.mp hscheduled
      trivial
  published snapshot hsnapshot := by
    obtain ⟨hle, texts, modules, hread, -⟩ := h.published snapshot hsnapshot
    refine ⟨Nat.le_succ_of_le hle, texts, modules, hread, fun heq => ?_⟩
    exact absurd (heq ▸ hle) (Nat.not_succ_le_self _)

theorem InTable.canonical (h : InTable host s) {path : String} {document : DocumentSnapshot Text}
    (hopen : s.overlays.lookup path = some document) : host.canonical path = .ok path := by
  cases hworkspace : s.workspace with
  | none => simp [DocumentServer.overlays, hworkspace] at hopen
  | some workspace =>
      rw [overlays_eq hworkspace] at hopen
      exact (h.inStep workspace hworkspace).canonical path document hopen

theorem InTable.workspaceFor (h : InTable host s) {path : String}
    {workspace : DocumentWorkspace Text Diagnostic}
    (hworkspace : s.workspaceFor host path = .ok workspace) :
    workspace.overlays = s.overlays ∧ workspace.InStep host := by
  rw [DocumentServer.workspaceFor] at hworkspace
  split at hworkspace
  · rename_i found hfound
    obtain rfl := Except.ok.inj hworkspace
    exact ⟨(overlays_eq hfound).symm, h.inStep _ hfound⟩
  · rename_i hnone
    obtain ⟨_, _, heq⟩ := bind_eq_ok.mp hworkspace
    obtain rfl := Except.ok.inj heq
    refine ⟨by rw [DocumentServer.overlays, hnone]; rfl, fun _ _ hopen => ?_, fun _ htask => ?_,
      fun _ hsnapshot => ?_⟩
    · cases hopen
    · cases htask
    · cases hsnapshot

theorem inTable_edited {workspace : DocumentWorkspace Text Diagnostic} {overlays : Overlays Text}
    {documents : List (String × Int)} (hstep : workspace.InStep host)
    (hcanonical : ∀ path document, overlays.lookup path = some document →
      host.canonical path = .ok path)
    (hentries : (documents.map (·.1)).Nodup)
    (hversions : ∀ path, documents.lookup path = (overlays.lookup path).map (·.version)) :
    InTable host { workspace := some (workspace.edited overlays), documents := documents } where
  entries := hentries
  versions := hversions
  inStep edited hedited := by
    obtain rfl := Option.some.inj hedited
    exact hstep.edited hcanonical

theorem InTable.didOpen (h : InTable host s) {path : String} {version : Int} {text : Text}
    (hnames : ∀ file, host.canonical path = .ok file → file = path)
    (hopen : s.didOpen host path version text = .ok s') : InTable host s' := by
  obtain ⟨_, workspace, file, hworkspace, hfile, rfl⟩ := didOpen_eq_ok.mp hopen
  obtain rfl := hnames file hfile
  obtain ⟨hoverlays, hstep⟩ := h.workspaceFor hworkspace
  refine inTable_edited hstep (fun other document hlookup => ?_) (nodup_replaceEntry h.entries)
    fun other => ?_
  · rw [lookup_insertEntry] at hlookup
    split at hlookup
    · rename_i heq
      exact heq ▸ hfile
    · exact hstep.canonical other document hlookup
  · rw [hoverlays, lookup_replaceEntry, lookup_insertEntry, h.versions]
    split <;> rfl

theorem InTable.didChange (h : InTable host s) {workspace : DocumentWorkspace Text Diagnostic}
    {path : String} {version : Int} {changes : List Change}
    (hworkspace : s.workspace = some workspace)
    (hnames : ∀ file document, host.canonical path = .ok file →
      s.overlays.lookup file = some document → Applies host document version changes → file = path)
    (hchange : s.didChange host workspace path version changes = .ok s') : InTable host s' := by
  obtain ⟨file, document, edits, text, hfile, hlookup, hedits, hversion, htext, rfl⟩ :=
    didChange_eq_ok.mp hchange
  have hoverlays := overlays_eq hworkspace
  obtain rfl := hnames file document hfile (hoverlays ▸ hlookup)
    ⟨hversion, edits, text, hedits, htext⟩
  have hstep := h.inStep workspace hworkspace
  refine inTable_edited hstep (fun other found hfound => ?_) (nodup_replaceEntry h.entries)
    fun other => ?_
  · rw [lookup_insertEntry] at hfound
    split at hfound
    · rename_i heq
      exact heq ▸ hfile
    · exact hstep.canonical other found hfound
  · rw [lookup_replaceEntry, lookup_insertEntry, h.versions, hoverlays]
    split <;> rfl

theorem InTable.didClose (h : InTable host s) {workspace : DocumentWorkspace Text Diagnostic}
    {path : String} (hworkspace : s.workspace = some workspace)
    (hnames : ∀ file document, host.canonical path = .ok file →
      s.overlays.lookup file = some document → file = path)
    (hclose : s.didClose host workspace path = .ok s') : InTable host s' := by
  obtain ⟨file, hfile, hopen, rfl⟩ := didClose_eq_ok.mp hclose
  have hoverlays := overlays_eq hworkspace
  obtain ⟨document, hlookup⟩ := Option.isSome_iff_exists.mp hopen
  obtain rfl := hnames file document hfile (hoverlays ▸ hlookup)
  have hstep := h.inStep workspace hworkspace
  refine inTable_edited hstep (fun other found hfound => ?_)
    (h.entries.sublist (List.filter_sublist.map _)) fun other => ?_
  · rw [lookup_filter_ne] at hfound
    split at hfound
    · cases hfound
    · exact hstep.canonical other found hfound
  · rw [lookup_filter_ne, lookup_filter_ne, h.versions, hoverlays]
    split <;> rfl

/-- A notification that is not carried out leaves the server as it is. -/
theorem finish_cases {inv : DocumentServer Text Diagnostic → Prop}
    {result : Except String (DocumentServer Text Diagnostic)} (hs : inv s)
    (hresult : ∀ s', result = .ok s' → inv s') : inv (s.finish result).2 := by
  cases result with
  | ok s' => exact hresult s' rfl
  | error => exact hs

theorem InTable.dispatchNotification (h : InTable host s)
    {notification : DocumentNotification Uri Text Change}
    (hdirect : Direct host s (.notification notification)) :
    InTable host (s.dispatchNotification host notification).2 := by
  cases notification with
  | didOpen uri version text =>
      rw [DocumentServer.dispatchNotification]
      split
      · exact h
      · rename_i path hpath
        exact finish_cases h fun s' hopen => h.didOpen (hdirect path · hpath) hopen
  | didChange uri version changes =>
      rw [DocumentServer.dispatchNotification]
      split
      · exact h
      · rename_i path hpath
        rw [DocumentServer.withWorkspace]
        split
        · exact h
        · rename_i workspace hworkspace
          exact finish_cases h fun s' hchange =>
            h.didChange hworkspace (hdirect.2 path · · hpath) hchange
  | didClose uri =>
      rw [DocumentServer.dispatchNotification]
      split
      · exact h
      · rename_i path hpath
        rw [DocumentServer.withWorkspace]
        split
        · exact h
        · rename_i workspace hworkspace
          have hnames (file : String) (document : DocumentSnapshot Text)
              (hfile : host.canonical path = .ok file)
              (hopen : s.overlays.lookup file = some document) : file = path :=
            hdirect.2 path file document hpath hfile hopen trivial
          exact finish_cases h fun s' hclose => h.didClose hworkspace hnames hclose

/-- A step of a rebuild leaves the tables as they are. -/
theorem InTable.setWorkspace (h : InTable host s)
    {workspace workspace' : DocumentWorkspace Text Diagnostic}
    (hworkspace : s.workspace = some workspace)
    (hoverlays : workspace'.overlays = workspace.overlays)
    (hstep : workspace'.InStep host) : InTable host (s.setWorkspace workspace') where
  entries := h.entries
  versions path := by
    have hversions := h.versions path
    rw [overlays_eq hworkspace, ← hoverlays] at hversions
    exact hversions
  inStep found hfound := by
    obtain rfl := Option.some.inj hfound
    exact hstep

theorem DocumentWorkspace.InStep.setTask {workspace : DocumentWorkspace Text Diagnostic}
    (h : workspace.InStep host) {task : RebuildTask Text} (htask : task.InStep workspace)
    (i : Nat) : (workspace.setTask i task).InStep host where
  canonical := h.canonical
  tasks other hother := by
    obtain hmem | rfl := List.mem_or_eq_of_mem_set hother
    · cases other <;> exact h.tasks _ hmem
    · cases other <;> exact htask
  published := h.published

theorem DocumentWorkspace.InStep.publish {workspace : DocumentWorkspace Text Diagnostic}
    (h : workspace.InStep host) (modules : List (String × Option Text)) (i : Nat) :
    (workspace.publish i
      (snapshotOf host workspace.clock (overlayTexts workspace.overlays) modules)).InStep host where
  canonical := h.canonical
  tasks other hother := by
    have hmem := List.mem_of_mem_eraseIdx hother
    cases other <;> exact h.tasks _ hmem
  published found hfound := by
    obtain rfl := Option.some.inj hfound
    exact ⟨le_rfl, _, modules, rfl, fun _ => rfl⟩

/-- What a rebuild of the current revision has read. -/
theorem DocumentWorkspace.InStep.reading {workspace : DocumentWorkspace Text Diagnostic}
    (h : workspace.InStep host) {i : Nat} {texts : List (String × Text)}
    (htask : workspace.rebuilding[i]? = some (.reading workspace.clock texts)) :
    texts = overlayTexts workspace.overlays :=
  (h.tasks _ (List.mem_of_getElem? htask)).2 rfl

theorem InTable.step (h : InTable host s) {event : DocumentEvent Uri Text Change Position}
    (hdirect : Direct host s event) (hstep : DocumentStep host s event s') : InTable host s' := by
  cases hstep with
  | notified => exact h.dispatchNotification hdirect
  | requested => exact h
  | @begins workspace i hworkspace _ =>
      exact h.setWorkspace hworkspace rfl ((h.inStep _ hworkspace).setTask le_rfl i)
  | @reads workspace i hworkspace _ =>
      have htask : (RebuildTask.reading workspace.clock (overlayTexts workspace.overlays)).InStep
          workspace := ⟨le_rfl, fun _ => rfl⟩
      exact h.setWorkspace hworkspace rfl ((h.inStep _ hworkspace).setTask htask i)
  | @publishes workspace i texts modules hworkspace htask =>
      have hinStep := h.inStep _ hworkspace
      obtain rfl := hinStep.reading htask
      exact h.setWorkspace hworkspace rfl (hinStep.publish modules i)

theorem finish_ne_panicked (result : Except String (DocumentServer Text Diagnostic)) :
    (s.finish result).1 ≠ .panicked := by
  cases result <;> exact fun h => by cases h

theorem finish_rejected {result : Except String (DocumentServer Text Diagnostic)} {message : String}
    (h : (s.finish result).1 = .rejected message) : (s.finish result).2 = s := by
  cases result with
  | ok => cases h
  | error => rfl

theorem withWorkspace_rejected
    {handle : DocumentWorkspace Text Diagnostic → Except String (DocumentServer Text Diagnostic)}
    {message : String} (h : (s.withWorkspace handle).1 = .rejected message) :
    (s.withWorkspace handle).2 = s := by
  rw [DocumentServer.withWorkspace] at h ⊢
  split at h
  · cases h
  · exact finish_rejected h

theorem withWorkspace_ne_panicked
    {handle : DocumentWorkspace Text Diagnostic → Except String (DocumentServer Text Diagnostic)} :
    (s.withWorkspace handle).1 ≠ .panicked ↔ s.workspace.isSome := by
  rw [DocumentServer.withWorkspace]
  cases s.workspace with
  | none => simp
  | some workspace => exact iff_of_true (finish_ne_panicked _) rfl

theorem dispatchNotification_rejected {notification : DocumentNotification Uri Text Change}
    {message : String} (h : (s.dispatchNotification host notification).1 = .rejected message) :
    (s.dispatchNotification host notification).2 = s := by
  cases notification with
  | didOpen uri version text =>
      rw [DocumentServer.dispatchNotification] at h ⊢
      split at h
      · rfl
      · exact finish_rejected h
  | didChange uri version changes =>
      rw [DocumentServer.dispatchNotification] at h ⊢
      split at h
      · rfl
      · exact withWorkspace_rejected h
  | didClose uri =>
      rw [DocumentServer.dispatchNotification] at h ⊢
      split at h
      · rfl
      · exact withWorkspace_rejected h

/-- An open never ends the server; a change or a close does it where there is no workspace. -/
theorem dispatchNotification_ne_panicked (notification : DocumentNotification Uri Text Change) :
    (s.dispatchNotification host notification).1 ≠ .panicked ↔
      match notification with
      | .didOpen _ _ _ => True
      | .didChange uri _ _ | .didClose uri => HasWorkspace host s uri := by
  cases notification with
  | didOpen uri version text =>
      rw [DocumentServer.dispatchNotification]
      split
      · simp
      · exact iff_of_true (finish_ne_panicked _) trivial
  | didChange uri version changes | didClose uri =>
      rw [DocumentServer.dispatchNotification]
      simp only [HasWorkspace]
      split
      · rename_i herror
        simp [herror]
      · rename_i path hpath
        rw [withWorkspace_ne_panicked]
        simp [hpath]

theorem InTable.notificationSafe (h : InTable host s)
    {notification : DocumentNotification Uri Text Change}
    (hdirect : Direct host s (.notification notification)) :
    NotificationSafe host s notification where
  runs := by
    refine (dispatchNotification_ne_panicked notification).mpr ?_
    cases notification with
    | didOpen uri version text => trivial
    | didChange uri version changes => exact hdirect.1
    | didClose uri => exact hdirect.1
  unchanged _ := dispatchNotification_rejected
  openOnce := by
    rintro uri version text path file rfl hpath hfile hopen
    obtain rfl := hdirect path file hpath hfile
    have hentry : (s.documents.lookup file).isSome := by
      rw [h.versions, Option.isSome_map]
      exact hopen
    rw [DocumentServer.dispatchNotification, hpath]
    simp only [DocumentServer.didOpen, if_pos hentry]
    exact ⟨_, rfl⟩

theorem mem_readSources {texts : List (String × Text)} {modules : List (String × Option Text)}
    {path : String} {text : Text} (h : (path, text) ∈ readSources host texts modules) :
    host.canonical path = .ok path ∧ ∀ found, texts.lookup path = some found → text = found := by
  obtain ⟨⟨name, disk⟩, -, hread⟩ := List.mem_filterMap.mp h
  cases hfile : host.canonical name with
  | error => simp [hfile] at hread
  | ok file =>
      simp only [hfile, Option.map_eq_some_iff] at hread
      obtain ⟨_, hsource, heq⟩ := hread
      obtain ⟨rfl, rfl⟩ := Prod.mk.inj heq
      refine ⟨host.canonical_canonical hfile, fun found hfound => ?_⟩
      rw [readSource, hfound] at hsource
      exact (Option.some.inj hsource).symm

/-- Of a module whose file is open a rebuild has the text of its overlay. -/
theorem readSources_of_overlay {texts : List (String × Text)}
    {modules : List (String × Option Text)} {path : String} {text : Text}
    (htext : texts.lookup path = some text)
    (h : ∃ module ∈ modules, host.canonical module.1 = .ok path) :
    (path, text) ∈ readSources host texts modules := by
  obtain ⟨⟨name, disk⟩, hmem, hfile⟩ := h
  refine List.mem_filterMap.mpr ⟨_, hmem, ?_⟩
  simp only at hfile
  simp [hfile, readSource, htext]

theorem lookup_overlayTexts {overlays : Overlays Text} {path : String} :
    (overlayTexts overlays).lookup path = (overlays.lookup path).map (·.text) :=
  lookup_map_snd DocumentSnapshot.text path overlays

/-- Published sources have canonical paths, and of the current revision the published text of an
open document is its overlay. -/
theorem DocumentWorkspace.InStep.source {workspace : DocumentWorkspace Text Diagnostic}
    (h : workspace.InStep host) {snapshot : SourceSnapshot Text Diagnostic}
    (hpublished : workspace.published = some snapshot) {path : String} {text : Text}
    (hsource : snapshot.sources.lookup path = some text) :
    host.canonical path = .ok path ∧ (snapshot.revision = workspace.clock →
      ∀ document, workspace.overlays.lookup path = some document → text = document.text) := by
  obtain ⟨-, texts, modules, hread, htexts⟩ := h.published snapshot hpublished
  rw [hread] at hsource
  obtain ⟨hcanonical, htext⟩ := mem_readSources (mem_of_lookup hsource)
  refine ⟨hcanonical, fun hrevision document hdocument => htext document.text ?_⟩
  rw [htexts hrevision, lookup_overlayTexts, hdocument]
  rfl

theorem semanticRequest_eq {workspace : DocumentWorkspace Text Diagnostic}
    {snapshot : SourceSnapshot Text Diagnostic} {uri : Uri} {path : String}
    (hworkspace : s.workspace = some workspace) (hpublished : workspace.published = some snapshot)
    (hpath : host.uriPath uri = .ok path) (position : Position) :
    s.semanticRequest host uri position = requestAt host workspace snapshot path position := by
  simp only [semanticRequest, hworkspace, hpublished, hpath]

variable (host s) in
/-- Nothing is answered before a snapshot is published. -/
theorem semanticRequest_cases (uri : Uri) (position : Position) :
    (s.semanticRequest host uri position = .contentModified ∧
      ∀ workspace snapshot, s.workspace = some workspace → workspace.published ≠ some snapshot) ∨
      ∃ workspace snapshot, s.workspace = some workspace ∧ workspace.published = some snapshot := by
  rw [semanticRequest]
  cases hworkspace : s.workspace with
  | none => exact .inl ⟨rfl, fun _ _ h => by cases h⟩
  | some workspace =>
      cases hpublished : workspace.published with
      | none =>
          refine .inl ⟨by simp only [hpublished], ?_⟩
          rintro _ snapshot ⟨⟩
          rw [hpublished]
          exact fun h => by cases h
      | some snapshot => exact .inr ⟨workspace, snapshot, rfl, hpublished⟩

section Outcomes

variable {uri : Uri} {position : Position} {file : String} {document : DocumentSnapshot Text}

/-- An outdated answer is safe where nothing of the current revision is published. -/
theorem requestSafe_of_modified (h : s.semanticRequest host uri position = .contentModified)
    (hnot : ¬Ready s file) : RequestSafe host s uri position file document where
  answers _ hanswered := by cases h.symm.trans hanswered
  refuses _ hinvalid := by cases h.symm.trans hinvalid
  ready workspace snapshot hworkspace hpublished hrevision hsource :=
    absurd ⟨workspace, snapshot, hworkspace, hpublished, hrevision, hsource⟩ hnot

theorem requestSafe_of_answered
    (h : s.semanticRequest host uri position = .answered document.text) :
    RequestSafe host s uri position file document where
  answers _ hanswered := (RequestOutcome.answered.inj (h.symm.trans hanswered)).symm
  refuses _ hinvalid := by cases h.symm.trans hinvalid
  ready _ _ _ _ _ _ hmodified := by cases h.symm.trans hmodified

theorem requestSafe_of_invalid {message : String}
    (h : s.semanticRequest host uri position = .invalidParams message)
    (hoffset : host.offset document.text position = .error message) :
    RequestSafe host s uri position file document where
  answers _ hanswered := by cases h.symm.trans hanswered
  refuses _ hinvalid := RequestOutcome.invalidParams.inj (h.symm.trans hinvalid) ▸ hoffset
  ready _ _ _ _ _ _ hmodified := by cases h.symm.trans hmodified

end Outcomes

theorem InTable.requestSafe (h : InTable host s) {uri : Uri} {position : Position}
    (hdirect : Direct host s (.request uri position)) {path file : String}
    {document : DocumentSnapshot Text} (hpath : host.uriPath uri = .ok path)
    (hfile : host.canonical path = .ok file) (hopen : s.overlays.lookup file = some document) :
    RequestSafe host s uri position file document := by
  obtain ⟨hnames, hknown⟩ := hdirect
  obtain ⟨hmodified, hnone⟩ | ⟨workspace, snapshot, hworkspace, hpublished⟩ :=
    semanticRequest_cases host s uri position
  · exact requestSafe_of_modified hmodified fun ⟨workspace, snapshot, hsome, hpublished, _⟩ =>
      hnone workspace snapshot hsome hpublished
  have hrequest := semanticRequest_eq hworkspace hpublished hpath position
  have honly (hready : Ready s file) : snapshot.revision = workspace.clock ∧
      (snapshot.sources.lookup file).isSome ∧ file = path := by
    have hnamed := hnames path file document hpath hfile hopen hready
    obtain ⟨workspace', snapshot', hworkspace', hpublished', hrevision, hsource⟩ := hready
    obtain rfl := Option.some.inj (hworkspace.symm.trans hworkspace')
    obtain rfl := Option.some.inj (hpublished.symm.trans hpublished')
    exact ⟨hrevision, hsource, hnamed⟩
  rw [requestAt] at hrequest
  cases hsource : snapshot.sources.lookup path with
  | none =>
      simp only [hsource] at hrequest
      refine requestSafe_of_modified hrequest fun hready => ?_
      obtain ⟨-, hhas, rfl⟩ := honly hready
      rw [hsource] at hhas
      cases hhas
  | some text =>
      obtain ⟨hcanonical, htext⟩ := (h.inStep _ hworkspace).source hpublished hsource
      obtain rfl := Except.ok.inj (hfile.symm.trans hcanonical)
      have hcurrent (hrevision : snapshot.revision = workspace.clock) : text = document.text :=
        htext hrevision document (overlays_eq hworkspace ▸ hopen)
      cases hoffset : host.offset text position with
      | error message =>
          simp only [hsource, hoffset] at hrequest
          refine requestSafe_of_invalid hrequest ?_
          by_cases hrevision : snapshot.revision = workspace.clock
          · exact hcurrent hrevision ▸ hoffset
          · exact hknown file document workspace snapshot text message hpath hopen hworkspace
              hpublished hrevision hsource hoffset
      | ok offset =>
          simp only [hsource, hoffset] at hrequest
          split at hrequest
          · rename_i hrevision
            exact requestSafe_of_answered (hcurrent hrevision ▸ hrequest)
          · rename_i hrevision
            exact requestSafe_of_modified hrequest fun hready => hrevision (honly hready).1

theorem mem_publishDiagnostics {snapshot : SourceSnapshot Text Diagnostic} {path : String}
    {version : Int} {found : List Diagnostic} :
    (path, version, found) ∈ s.publishDiagnostics snapshot ↔ (path, version) ∈ s.documents ∧
      ∃ source, snapshot.sources.findIdx? (·.1 == path) = some source ∧
        found = (snapshot.diagnostics.filter (·.1 == source)).map (·.2) := by
  rw [publishDiagnostics, List.mem_filterMap]
  constructor
  · rintro ⟨⟨key, current⟩, hmem, hsome⟩
    obtain ⟨source, hsource, heq⟩ := Option.map_eq_some_iff.mp hsome
    obtain ⟨rfl, hrest⟩ := Prod.mk.inj heq
    obtain ⟨rfl, rfl⟩ := Prod.mk.inj hrest
    exact ⟨hmem, source, hsource, rfl⟩
  · rintro ⟨hmem, source, hsource, rfl⟩
    exact ⟨_, hmem, Option.map_eq_some_iff.mpr ⟨source, hsource, rfl⟩⟩

/-- The client gets no diagnostics of one path twice. -/
theorem publishDiagnostics_paths (snapshot : SourceSnapshot Text Diagnostic) :
    ((s.publishDiagnostics snapshot).map (·.1)).Sublist (s.documents.map (·.1)) := by
  rw [publishDiagnostics]
  induction s.documents with
  | nil => exact .slnil
  | cons entry rest ih =>
      rw [List.filterMap_cons, List.map_cons]
      cases snapshot.sources.findIdx? (·.1 == entry.1) with
      | none => exact ih.cons _
      | some source => exact ih.cons_cons _

theorem InTable.diagnosticsSafe (h : InTable host s)
    {workspace : DocumentWorkspace Text Diagnostic} (hworkspace : s.workspace = some workspace)
    (modules : List (String × Option Text)) :
    DiagnosticsSafe host s modules
      (snapshotOf host workspace.clock (overlayTexts workspace.overlays) modules) where
  published path document hopen hmodule := by
    have hlisted := h.versions path
    rw [overlays_eq hworkspace] at hopen hlisted
    rw [hopen] at hlisted
    have htext : (overlayTexts workspace.overlays).lookup path = some document.text := by
      rw [lookup_overlayTexts, hopen]
      rfl
    have hsource : ((readSources host (overlayTexts workspace.overlays) modules).findIdx?
        (·.1 == path)).isSome := by
      rw [List.findIdx?_isSome, List.any_eq_true]
      exact ⟨_, readSources_of_overlay htext hmodule, beq_self_eq_true path⟩
    obtain ⟨source, hsource⟩ := Option.isSome_iff_exists.mp hsource
    exact ⟨_, mem_publishDiagnostics.mpr ⟨mem_of_lookup hlisted, source, hsource, rfl⟩⟩
  once := h.entries.sublist (publishDiagnostics_paths _)
  about path version found hmem := by
    obtain ⟨hlisted, source, hsource, rfl⟩ := mem_publishDiagnostics.mp hmem
    obtain ⟨hlt, hpath, -⟩ := List.findIdx?_eq_some_iff_getElem.mp hsource
    have hat := List.getElem?_eq_getElem hlt
    generalize hentry : (snapshotOf host workspace.clock (overlayTexts workspace.overlays)
      modules).sources[source] = entry at hpath hat
    obtain ⟨name, text⟩ := entry
    obtain rfl : name = path := eq_of_beq hpath
    have hversion := (h.versions name).symm.trans (lookup_of_mem h.entries hlisted)
    obtain ⟨document, hopen, rfl⟩ := Option.map_eq_some_iff.mp hversion
    refine ⟨text, source, ?_, hat, rfl⟩
    have htext := (mem_readSources (List.mem_of_getElem? hat)).2 document.text (by
      rw [lookup_overlayTexts, ← overlays_eq hworkspace, hopen]
      rfl)
    rw [hopen, htext]

/-- A document that is not named by its canonical path is in no table. -/
theorem InTable.not_listed (h : InTable host s) {path file : String}
    (hfile : host.canonical path = .ok file) (hne : file ≠ path) :
    s.documents.lookup path = none ∧ s.overlays.lookup path = none := by
  have hoverlay : s.overlays.lookup path = none := by
    refine Option.eq_none_iff_forall_ne_some.mpr fun document hopen => hne ?_
    exact Except.ok.inj (hfile.symm.trans (h.canonical hopen))
  exact ⟨by rw [h.versions, hoverlay]; rfl, hoverlay⟩

theorem InTable.direct_of_didOpen (h : InTable host s) {path file : String} {version : Int}
    {text : Text} (hfile : host.canonical path = .ok file)
    (hagree : TablesAgree (s.finish (s.didOpen host path version text)).2) : file = path := by
  by_contra hne
  obtain ⟨hdocument, hoverlay⟩ := h.not_listed hfile hne
  obtain ⟨workspace, hworkspace⟩ : ∃ workspace, s.workspaceFor host path = .ok workspace := by
    rw [DocumentServer.workspaceFor]
    split
    · exact ⟨_, rfl⟩
    · rw [hfile]
      exact ⟨_, rfl⟩
  have hopen := (@didOpen_eq_ok _ _ _ _ _ _ host s _ path version text).mpr
    ⟨hdocument, workspace, file, hworkspace, hfile, rfl⟩
  rw [hopen] at hagree
  have hversions := hagree.versions path
  change (replaceEntry path version s.documents).lookup path =
    ((insertEntry file ⟨version, text⟩ workspace.overlays).lookup path).map (·.version) at hversions
  rw [lookup_replaceEntry, if_pos rfl, lookup_insertEntry, if_neg (Ne.symm hne),
    (h.workspaceFor hworkspace).1, hoverlay] at hversions
  cases hversions

theorem InTable.direct_of_didChange (h : InTable host s)
    {workspace : DocumentWorkspace Text Diagnostic} (hworkspace : s.workspace = some workspace)
    {path file : String} {document : DocumentSnapshot Text} {version : Int} {changes : List Change}
    (hfile : host.canonical path = .ok file) (hopen : s.overlays.lookup file = some document)
    (happlies : Applies host document version changes)
    (hagree : TablesAgree (s.finish (s.didChange host workspace path version changes)).2) :
    file = path := by
  by_contra hne
  obtain ⟨-, hoverlay⟩ := h.not_listed hfile hne
  rw [overlays_eq hworkspace] at hopen hoverlay
  obtain ⟨hversion, edits, text, hedits, htext⟩ := happlies
  rw [didChange_eq_ok.mpr ⟨file, document, edits, text, hfile, hopen, hedits, hversion, htext, rfl⟩]
    at hagree
  have hversions := hagree.versions path
  change (replaceEntry path version s.documents).lookup path =
    ((insertEntry file ⟨version, text⟩ workspace.overlays).lookup path).map (·.version) at hversions
  rw [lookup_replaceEntry, if_pos rfl, lookup_insertEntry, if_neg (Ne.symm hne), hoverlay]
    at hversions
  cases hversions

theorem InTable.direct_of_didClose (h : InTable host s)
    {workspace : DocumentWorkspace Text Diagnostic} (hworkspace : s.workspace = some workspace)
    {path file : String} {document : DocumentSnapshot Text}
    (hfile : host.canonical path = .ok file) (hopen : s.overlays.lookup file = some document)
    (hagree : TablesAgree (s.finish (s.didClose host workspace path)).2) : file = path := by
  by_contra hne
  have hlisted := h.versions file
  rw [overlays_eq hworkspace] at hopen hlisted
  rw [hopen] at hlisted
  rw [didClose_eq_ok.mpr ⟨file, hfile, by rw [hopen]; rfl, rfl⟩] at hagree
  have hversions := hagree.versions file
  change (s.documents.filter fun entry => entry.1 ≠ path).lookup file =
    ((workspace.overlays.filter fun entry => entry.1 ≠ file).lookup file).map (·.version)
    at hversions
  rw [lookup_filter_ne, if_neg hne, lookup_filter_ne, if_pos rfl, hlisted] at hversions
  cases hversions

theorem InTable.direct_of_request (h : InTable host s) {uri : Uri} {position : Position}
    (hsafe : EventSafe host s (.request uri position)) :
    Direct host s (.request uri position) := by
  constructor
  · rintro path file document hpath hfile hopen
      ⟨workspace, snapshot, hworkspace, hpublished, hrevision, hsource⟩
    by_contra hne
    have hready := (hsafe path file document hpath hfile hopen).ready workspace snapshot hworkspace
      hpublished hrevision hsource
    rw [semanticRequest_eq hworkspace hpublished hpath, requestAt] at hready
    cases hlookup : snapshot.sources.lookup path with
    | none => simp only [hlookup, ne_eq, not_true_eq_false] at hready
    | some text =>
        obtain ⟨hcanonical, -⟩ := (h.inStep _ hworkspace).source hpublished hlookup
        exact hne (Except.ok.inj (hfile.symm.trans hcanonical))
  · intro path document workspace snapshot text message hpath hopen hworkspace hpublished _ hsource
      hoffset
    refine (hsafe path path document hpath (h.canonical hopen) hopen).refuses message ?_
    rw [semanticRequest_eq hworkspace hpublished hpath]
    simp only [requestAt, hsource, hoffset]

/-- What is required holds after and of a step exactly when the client is direct there. -/
theorem InTable.direct_iff (h : InTable host s) {event : DocumentEvent Uri Text Change Position}
    (hstep : DocumentStep host s event s') :
    TablesAgree s' ∧ EventSafe host s event ↔ Direct host s event := by
  constructor
  · rintro ⟨hagree, hsafe⟩
    cases hstep with
    | @notified notification =>
        cases notification with
        | didOpen uri version text =>
            intro path file hpath hfile
            simp only [DocumentServer.dispatchNotification, hpath] at hagree
            exact h.direct_of_didOpen hfile hagree
        | didChange uri version changes =>
            have hworkspace : HasWorkspace host s uri :=
              (dispatchNotification_ne_panicked _).mp hsafe.runs
            refine ⟨hworkspace, fun path file document hpath hfile hopen happlies => ?_⟩
            obtain ⟨workspace, hsome⟩ := Option.isSome_iff_exists.mp (hworkspace path hpath)
            simp only [DocumentServer.dispatchNotification, hpath, DocumentServer.withWorkspace,
              hsome] at hagree
            exact h.direct_of_didChange hsome hfile hopen happlies hagree
        | didClose uri =>
            have hworkspace : HasWorkspace host s uri :=
              (dispatchNotification_ne_panicked _).mp hsafe.runs
            refine ⟨hworkspace, fun path file document hpath hfile hopen _ => ?_⟩
            obtain ⟨workspace, hsome⟩ := Option.isSome_iff_exists.mp (hworkspace path hpath)
            simp only [DocumentServer.dispatchNotification, hpath, DocumentServer.withWorkspace,
              hsome] at hagree
            exact h.direct_of_didClose hsome hfile hopen hagree
    | requested => exact h.direct_of_request hsafe
    | begins | reads | publishes => trivial
  · intro hdirect
    refine ⟨(h.step hdirect hstep).toTablesAgree, ?_⟩
    cases hstep with
    | notified => exact h.notificationSafe hdirect
    | requested => exact fun path file document => h.requestSafe hdirect
    | begins | reads => trivial
    | publishes =>
        intro workspace texts hworkspace htask
        obtain rfl := (h.inStep _ hworkspace).reading htask
        exact h.diagnosticsSafe hworkspace _

theorem inTable_initial (hs : s = {} ∨ s = { workspace := some {} }) : InTable host s := by
  rcases hs with rfl | rfl
  · exact ⟨⟨List.nodup_nil, fun _ => rfl⟩, fun _ hnone => by cases hnone⟩
  · refine ⟨⟨List.nodup_nil, fun _ => rfl⟩, fun workspace hworkspace => ?_⟩
    obtain rfl := Option.some.inj hworkspace
    refine ⟨fun _ _ hopen => ?_, fun _ htask => ?_, fun _ hsnapshot => ?_⟩
    · cases hopen
    · cases htask
    · cases hsnapshot

end System

/-- As long as the client is direct, an open document is one document; and where it is not, it is
not any more. -/
theorem open_document_is_one (host : DocumentHost Uri Text Change Position Edit Diagnostic)
    {s : DocumentServer Text Diagnostic} (h : (documentServer host).ReachableBy (Direct host) s) :
    TablesAgree s ∧ ∀ event s', (documentServer host).step s event s' →
      (TablesAgree s' ∧ EventSafe host s event ↔ Direct host s event) := by
  have htable : InTable host s := by
    refine h.invariant ?_ ?_
    · exact fun _ hinitial => inTable_initial hinitial
    · exact fun before event after hbefore hdirect hstep => hbefore.step hdirect hstep
  exact ⟨htable.toTablesAgree, fun event s' hstep => htable.direct_iff hstep⟩

/-- A file system with one file and a link to it; a change replaces the whole text, and a text is
found fault with when it is empty. -/
def linkedHost : DocumentHost String String String Nat String String where
  uriPath := .ok
  canonical path := .ok (if path = "/link.telora" then "/main.telora" else path)
  offset text position :=
    if position ≤ text.length then .ok position
    else .error s!"invalid document byte offset {position}"
  resolveChanges _ changes := .ok changes
  applyEdits text edits := .ok (edits.getLastD text)
  diagnose sources := (sources.zipIdx.filter (·.1.2.isEmpty)).map fun entry => (entry.2, "empty")
  canonical_canonical := by
    rintro path _ ⟨⟩
    by_cases hlink : path = "/link.telora"
    · simp only [if_pos hlink]
      rfl
    · simp only [if_neg hlink]

def openedServer (documents : List (String × Int)) (version : Int) (text : String) (clock : Nat) :
    DocumentServer String String :=
  { workspace := some {
      overlays := [("/main.telora", ⟨version, text⟩)]
      clock := clock
      rebuilding := List.replicate clock .scheduled }
    documents := documents }

/-- The file is opened by its own name, and of its diagnostics the client gets those of the text
in the editor. -/
theorem open_document_is_one_opened :
    TablesAgree (openedServer [("/main.telora", 1)] 1 "" 1) ∧
      (∀ event s', (documentServer linkedHost).step (openedServer [("/main.telora", 1)] 1 "" 1)
        event s' → (TablesAgree s' ∧
          EventSafe linkedHost (openedServer [("/main.telora", 1)] 1 "" 1) event ↔
            Direct linkedHost (openedServer [("/main.telora", 1)] 1 "" 1) event)) ∧
      (openedServer [("/main.telora", 1)] 1 "" 1).publishDiagnostics
        (snapshotOf linkedHost 1 [("/main.telora", "")] [("/main.telora", some "1")]) =
          [("/main.telora", 1, ["empty"])] := by
  have hstep : (documentServer linkedHost).step { workspace := some {} }
      (.notification (.didOpen "/main.telora" 1 ""))
      (openedServer [("/main.telora", 1)] 1 "" 1) := .notified
  have hdirect : Direct linkedHost { workspace := some {} }
      (.notification (.didOpen "/main.telora" 1 "") : DocumentEvent _ _ _ _) := by
    intro path file hpath hfile
    obtain rfl := Except.ok.inj hpath
    exact (Except.ok.inj hfile).symm
  have hinitial : (documentServer linkedHost).ReachableBy (Direct linkedHost)
      { workspace := some {} } := .initial (Or.inr rfl)
  obtain ⟨hagree, hiff⟩ := open_document_is_one linkedHost (hinitial.step hdirect hstep)
  exact ⟨hagree, hiff, by decide +kernel⟩

/-- Opened once more through the link, the file has two entries, and one of them has a version
the overlay has not; and a document that is closed before any is opened ends the server. -/
theorem open_document_is_two :
    (¬∀ s, (documentServer linkedHost).Reachable s → TablesAgree s) ∧
      ¬∀ s, (documentServer linkedHost).Reachable s → ∀ event s',
        (documentServer linkedHost).step s event s' → EventSafe linkedHost s event := by
  have initially {s : DocumentServer String String} (hs : s = {} ∨ s = { workspace := some {} }) :
      (documentServer linkedHost).Reachable s := .initial hs
  constructor
  · intro h
    have hopen : (documentServer linkedHost).step { workspace := some {} }
        (.notification (.didOpen "/main.telora" 1 "1"))
        (openedServer [("/main.telora", 1)] 1 "1" 1) := .notified
    have hagain : (documentServer linkedHost).step (openedServer [("/main.telora", 1)] 1 "1" 1)
        (.notification (.didOpen "/link.telora" 2 "2"))
        (openedServer [("/link.telora", 2), ("/main.telora", 1)] 2 "2" 2) := .notified
    have hagree := h _ (((initially (.inr rfl)).step trivial hopen).step trivial hagain)
    exact absurd (hagree.versions "/main.telora") (by decide)
  · intro h
    exact (h {} (initially (.inl rfl)) (.notification (.didClose "/main.telora")) _ .notified).runs
      rfl

end Telora.Lsp
