import Mathlib.Data.String.Basic
import Telora.Library.ExceptBind
import Telora.Library.Machine
import Telora.Workspace.Documents

/-!
# Open documents of the language server

The server has a table of its own with the version of each open document, under the path the
client's URI names, beside the overlays of the workspace, which are under canonical paths. The
workspace is there from the start when the client names a root file, and otherwise from the
first document that is opened. Every notification that is carried out schedules a rebuild.
-/

namespace Telora.Lsp

open Library Workspace

/-- What is published of a build: the sources that it read, by path, and its diagnostics, each
with the number of the source it is about. -/
structure SourceSnapshot (Text Diagnostic : Type) where
  revision : Nat
  sources : List (String × Text)
  diagnostics : List (Nat × Diagnostic)

/-- A rebuild in the background. It begins with a context of the current revision, and reads the
texts of the overlays once. -/
inductive RebuildTask (Text : Type) where
  | scheduled
  | begun (revision : Nat)
  | reading (revision : Nat) (texts : List (String × Text))

structure DocumentWorkspace (Text Diagnostic : Type) where
  overlays : Overlays Text := []
  clock : Nat := 0
  published : Option (SourceSnapshot Text Diagnostic) := none
  rebuilding : List (RebuildTask Text) := []

structure DocumentServer (Text Diagnostic : Type) where
  workspace : Option (DocumentWorkspace Text Diagnostic) := none
  documents : List (String × Int) := []

/-- How a notification ends; a panic is the end of the server. -/
inductive NotificationOutcome where
  | continues
  | rejected (message : String)
  | panicked
  deriving DecidableEq

/-- How a request at a place ends; an answer is about a text. -/
inductive RequestOutcome (Text : Type) where
  | contentModified
  | invalidParams (message : String)
  | answered (text : Text)

inductive DocumentNotification (Uri Text Change : Type) where
  | didOpen (uri : Uri) (version : Int) (text : Text)
  | didChange (uri : Uri) (version : Int) (changes : List Change)
  | didClose (uri : Uri)

variable {Uri Text Change Position Edit Diagnostic : Type}

/-- What lies outside: the paths that URIs name, the file system, the places of a text, the
edits that changes of the client stand for, and the analysis of sources. A canonical path stays
what it is. -/
structure DocumentHost (Uri Text Change Position Edit Diagnostic : Type) where
  uriPath : Uri → Except String String
  canonical : String → Except String String
  offset : Text → Position → Except String Nat
  resolveChanges : Text → List Change → Except String (List Edit)
  applyEdits : Text → List Edit → Except String Text
  diagnose : List (String × Text) → List (Nat × Diagnostic)
  canonical_canonical : ∀ {path file}, canonical path = .ok file → canonical file = .ok file

def liftWorkspace {α : Type} (result : Except WorkspaceError α) : Except String α :=
  result.mapError WorkspaceError.display

def overlayTexts (overlays : Overlays Text) : List (String × Text) :=
  overlays.map fun entry => (entry.1, entry.2.text)

/-- The overlays after an edit, of a new revision, for which a rebuild is scheduled. -/
def DocumentWorkspace.edited (workspace : DocumentWorkspace Text Diagnostic)
    (overlays : Overlays Text) : DocumentWorkspace Text Diagnostic :=
  { workspace with
    overlays := overlays
    clock := workspace.clock + 1
    rebuilding := workspace.rebuilding ++ [.scheduled] }

namespace DocumentServer

variable (host : DocumentHost Uri Text Change Position Edit Diagnostic)
  (s : DocumentServer Text Diagnostic)

/-- The workspace of the server, made for the path when there is none yet. -/
def workspaceFor (path : String) : Except String (DocumentWorkspace Text Diagnostic) :=
  match s.workspace with
  | some workspace => return workspace
  | none => do
      let _ ← host.canonical path
      return {}

def didOpen (path : String) (version : Int) (text : Text) :
    Except String (DocumentServer Text Diagnostic) :=
  if (s.documents.lookup path).isSome then throw s!"document is already open: {path}"
  else do
    let workspace ← s.workspaceFor host path
    let file ← host.canonical path
    return {
      workspace := some (workspace.edited (workspace.overlays.openDocument file version text))
      documents := replaceEntry path version s.documents }

def didChange (workspace : DocumentWorkspace Text Diagnostic) (path : String) (version : Int)
    (changes : List Change) : Except String (DocumentServer Text Diagnostic) := do
  let file ← host.canonical path
  match workspace.overlays.lookup file with
  | none => throw (WorkspaceError.documentNotOpen file).display
  | some document => do
      let edits ← host.resolveChanges document.text changes
      let overlays ← liftWorkspace
        (workspace.overlays.changeDocument host.applyEdits file document.version version edits)
      return {
        workspace := some (workspace.edited overlays)
        documents := replaceEntry path version s.documents }

def didClose (workspace : DocumentWorkspace Text Diagnostic) (path : String) :
    Except String (DocumentServer Text Diagnostic) := do
  let file ← host.canonical path
  let overlays ← liftWorkspace (workspace.overlays.closeDocument file)
  return {
    workspace := some (workspace.edited overlays)
    documents := s.documents.filter fun entry => entry.1 ≠ path }

def finish (result : Except String (DocumentServer Text Diagnostic)) :
    NotificationOutcome × DocumentServer Text Diagnostic :=
  match result with
  | .ok s' => (.continues, s')
  | .error message => (.rejected message, s)

/-- A change or a close expects the workspace of a running server to be there. -/
def withWorkspace
    (handle : DocumentWorkspace Text Diagnostic → Except String (DocumentServer Text Diagnostic)) :
    NotificationOutcome × DocumentServer Text Diagnostic :=
  match s.workspace with
  | none => (.panicked, s)
  | some workspace => s.finish (handle workspace)

def dispatchNotification (notification : DocumentNotification Uri Text Change) :
    NotificationOutcome × DocumentServer Text Diagnostic :=
  match notification with
  | .didOpen uri version text =>
      match host.uriPath uri with
      | .error message => (.rejected message, s)
      | .ok path => s.finish (s.didOpen host path version text)
  | .didChange uri version changes =>
      match host.uriPath uri with
      | .error message => (.rejected message, s)
      | .ok path => s.withWorkspace fun workspace => s.didChange host workspace path version changes
  | .didClose uri =>
      match host.uriPath uri with
      | .error message => (.rejected message, s)
      | .ok path => s.withWorkspace fun workspace => s.didClose host workspace path

/-- The text of a module: that of the overlay of its file, or the one on disk. -/
def readSource (texts : List (String × Text)) (file : String) (disk : Option Text) : Option Text :=
  match texts.lookup file with
  | some text => some text
  | none => disk

/-- What a rebuild reads of the modules it comes to, each a path and what is on disk there at that
time. The resolver gives the loader canonical paths. -/
def readSources (texts : List (String × Text)) (modules : List (String × Option Text)) :
    List (String × Text) :=
  modules.filterMap fun (path, disk) =>
    match host.canonical path with
    | .error _ => none
    | .ok file => (readSource texts file disk).map fun text => (file, text)

def snapshotOf (revision : Nat) (texts : List (String × Text))
    (modules : List (String × Option Text)) : SourceSnapshot Text Diagnostic where
  revision := revision
  sources := readSources host texts modules
  diagnostics := host.diagnose (readSources host texts modules)

/-- The place is looked up in the published sources; the query that follows finds out whether
they are still of the current revision. -/
def requestAt (workspace : DocumentWorkspace Text Diagnostic)
    (snapshot : SourceSnapshot Text Diagnostic) (path : String) (position : Position) :
    RequestOutcome Text :=
  match snapshot.sources.lookup path with
  | none => .contentModified
  | some text =>
      match host.offset text position with
      | .error message => .invalidParams message
      | .ok _ =>
          if snapshot.revision = workspace.clock then .answered text else .contentModified

def semanticRequest (uri : Uri) (position : Position) : RequestOutcome Text :=
  match s.workspace with
  | none => .contentModified
  | some workspace =>
      match workspace.published with
      | none => .contentModified
      | some snapshot =>
          match host.uriPath uri with
          | .error message => .invalidParams message
          | .ok path => requestAt host workspace snapshot path position

/-- The diagnostics that the client gets of a fresh snapshot: those of the first source under each
path of the table, with the version there. -/
def publishDiagnostics (snapshot : SourceSnapshot Text Diagnostic) :
    List (String × Int × List Diagnostic) :=
  s.documents.filterMap fun entry =>
    (snapshot.sources.findIdx? (·.1 == entry.1)).map fun source =>
      (entry.1, entry.2, (snapshot.diagnostics.filter (·.1 == source)).map (·.2))

end DocumentServer

open DocumentServer

inductive DocumentEvent (Uri Text Change Position : Type) where
  | notification (notification : DocumentNotification Uri Text Change)
  | request (uri : Uri) (position : Position)
  | rebuildBegins (task : Nat)
  | rebuildReads (task : Nat)
  /-- A rebuild has come to its modules and publishes, and the client gets the diagnostics. -/
  | rebuilt (task : Nat) (modules : List (String × Option Text))

section System

variable (host : DocumentHost Uri Text Change Position Edit Diagnostic)
  (s : DocumentServer Text Diagnostic)

def DocumentWorkspace.setTask (workspace : DocumentWorkspace Text Diagnostic) (i : Nat)
    (task : RebuildTask Text) : DocumentWorkspace Text Diagnostic :=
  { workspace with rebuilding := workspace.rebuilding.set i task }

def DocumentWorkspace.publish (workspace : DocumentWorkspace Text Diagnostic) (i : Nat)
    (snapshot : SourceSnapshot Text Diagnostic) : DocumentWorkspace Text Diagnostic :=
  { workspace with published := some snapshot, rebuilding := workspace.rebuilding.eraseIdx i }

def DocumentServer.setWorkspace (workspace : DocumentWorkspace Text Diagnostic) :
    DocumentServer Text Diagnostic :=
  { s with workspace := some workspace }

/-- A rebuild reads the overlays and publishes only while its revision is the current one; one
that finds another revision does nothing more. -/
inductive DocumentStep : DocumentEvent Uri Text Change Position →
    DocumentServer Text Diagnostic → Prop
  | notified {notification} :
      DocumentStep (.notification notification) (s.dispatchNotification host notification).2
  | requested {uri position} : DocumentStep (.request uri position) s
  | begins {workspace i} : s.workspace = some workspace →
      workspace.rebuilding[i]? = some .scheduled →
      DocumentStep (.rebuildBegins i)
        (s.setWorkspace (workspace.setTask i (.begun workspace.clock)))
  | reads {workspace i} : s.workspace = some workspace →
      workspace.rebuilding[i]? = some (.begun workspace.clock) →
      DocumentStep (.rebuildReads i)
        (s.setWorkspace
          (workspace.setTask i (.reading workspace.clock (overlayTexts workspace.overlays))))
  | publishes {workspace i texts modules} : s.workspace = some workspace →
      workspace.rebuilding[i]? = some (.reading workspace.clock texts) →
      DocumentStep (.rebuilt i modules)
        (s.setWorkspace (workspace.publish i (snapshotOf host workspace.clock texts modules)))

/-- A running server, with the workspace of its root file or with none. -/
def documentServer :
    TransitionSystem (DocumentServer Text Diagnostic) (DocumentEvent Uri Text Change Position) where
  initial s := s = {} ∨ s = { workspace := some {} }
  step := DocumentStep host

variable {host s} {s' : DocumentServer Text Diagnostic}

/-- An open that is carried out. -/
theorem didOpen_eq_ok {path : String} {version : Int} {text : Text} :
    s.didOpen host path version text = .ok s' ↔ s.documents.lookup path = none ∧
      ∃ workspace file, s.workspaceFor host path = .ok workspace ∧
        host.canonical path = .ok file ∧ s' = {
          workspace := some (workspace.edited (insertEntry file ⟨version, text⟩ workspace.overlays))
          documents := replaceEntry path version s.documents } := by
  rw [DocumentServer.didOpen]
  split
  · rename_i hopen
    refine iff_of_false (fun h => by cases h) fun h => ?_
    rw [h.1] at hopen
    cases hopen
  · rename_i hopen
    simp only [Bool.not_eq_true, Option.isSome_eq_false_iff, Option.isNone_iff_eq_none] at hopen
    simp only [bind_eq_ok, pure_eq_ok, Overlays.openDocument, hopen, true_and, exists_and_left,
      eq_comm (a := s')]

/-- A change that is carried out. -/
theorem didChange_eq_ok {workspace : DocumentWorkspace Text Diagnostic} {path : String}
    {version : Int} {changes : List Change} :
    s.didChange host workspace path version changes = .ok s' ↔
      ∃ file document edits text, host.canonical path = .ok file ∧
        workspace.overlays.lookup file = some document ∧
        host.resolveChanges document.text changes = .ok edits ∧ document.version < version ∧
        host.applyEdits document.text edits = .ok text ∧ s' = {
          workspace := some (workspace.edited (insertEntry file ⟨version, text⟩ workspace.overlays))
          documents := replaceEntry path version s.documents } := by
  rw [DocumentServer.didChange, bind_eq_ok]
  refine exists_congr fun file => ?_
  cases hlookup : workspace.overlays.lookup file with
  | none => simp
  | some document =>
      simp only [bind_eq_ok, liftWorkspace, mapError_eq_ok, pure_eq_ok, Option.some.injEq]
      constructor
      · rintro ⟨hfile, edits, hedits, overlays, hchanged, rfl⟩
        obtain ⟨found, text, hfound, -, hversion, htext, rfl⟩ :=
          Overlays.changeDocument_eq_ok.mp hchanged
        obtain rfl := Option.some.inj (hlookup.symm.trans hfound)
        exact ⟨document, edits, text, hfile, rfl, hedits, hversion, htext, rfl⟩
      · rintro ⟨_, edits, text, hfile, rfl, hedits, hversion, htext, rfl⟩
        exact ⟨hfile, edits, hedits, _, Overlays.changeDocument_eq_ok.mpr
          ⟨document, text, hlookup, rfl, hversion, htext, rfl⟩, rfl⟩

/-- A close that is carried out. -/
theorem didClose_eq_ok {workspace : DocumentWorkspace Text Diagnostic} {path : String} :
    s.didClose host workspace path = .ok s' ↔
      ∃ file, host.canonical path = .ok file ∧ (workspace.overlays.lookup file).isSome ∧ s' = {
        workspace := some (workspace.edited (workspace.overlays.filter fun entry => entry.1 ≠ file))
        documents := s.documents.filter fun entry => entry.1 ≠ path } := by
  rw [DocumentServer.didClose, bind_eq_ok]
  refine exists_congr fun file => and_congr_right fun _ => ?_
  simp only [bind_eq_ok, liftWorkspace, mapError_eq_ok, pure_eq_ok, Overlays.closeDocument]
  split
  · rename_i hopen
    constructor
    · rintro ⟨_, heq, hs'⟩
      exact ⟨hopen, Except.ok.inj heq ▸ hs'.symm⟩
    · rintro ⟨-, hs'⟩
      exact ⟨_, rfl, hs'.symm⟩
  · rename_i hopen
    simp [hopen]

end System

end Telora.Lsp
