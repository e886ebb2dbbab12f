import Telora.Library.Entries
import Telora.Library.Lists

/-!
# Open documents of a workspace

The overlays are the texts of the open documents by canonical path. A change names the version
it starts from and the version it leads to; what fails leaves the overlays as they were. The
text of a document and the edits of a change are parameters.
-/

namespace Telora.Workspace

open Library

inductive DocumentError where
  | versionMismatch (expected actual next : Int)
  | text (message : String)
  deriving DecidableEq

inductive QueryError where
  | cancelled
  | staleRevision (requested current : Nat)
  | snapshotRevision (requested snapshot : Nat)
  deriving DecidableEq

inductive WorkspaceError where
  | document (error : DocumentError)
  | documentNotOpen (path : String)
  | io (message : String)
  | module (message : String)
  | query (error : QueryError)
  deriving DecidableEq

def DocumentError.display : DocumentError → String
  | .versionMismatch expected actual next =>
      s!"document version mismatch: current {expected}, change based on {actual}, next {next}"
  | .text message => message

def QueryError.display : QueryError → String
  | .cancelled => "query cancelled"
  | .staleRevision requested current =>
      s!"query revision {requested} is stale; current revision is {current}"
  | .snapshotRevision requested snapshot =>
      s!"query revision {requested} does not match snapshot revision {snapshot}"

def WorkspaceError.display : WorkspaceError → String
  | .document error => error.display
  | .documentNotOpen path => s!"document is not open: {path}"
  | .io message | .module message => message
  | .query error => error.display

structure DocumentSnapshot (Text : Type) where
  version : Int
  text : Text
  deriving DecidableEq

abbrev Overlays (Text : Type) := List (String × DocumentSnapshot Text)

/-- What a client does to a document. The path is what the file system made of the one the
client gave. -/
inductive DocumentChange (Text Edit : Type) where
  | open (path : Except String String) (version : Int) (text : Text)
  | change (path : Except String String) (expected version : Int) (edits : List Edit)
  | close (path : Except String String)

section Changes

variable {Text Edit : Type} (applyEdits : Text → List Edit → Except String Text)

def canonicalDocumentPath (path : Except String String) : Except WorkspaceError String :=
  path.mapError .io

/-- The document after a change, if the change starts from its version and goes on to a later
one. -/
def DocumentSnapshot.changed (document : DocumentSnapshot Text) (expected version : Int)
    (edits : List Edit) : Except DocumentError (DocumentSnapshot Text) :=
  if document.version ≠ expected ∨ version ≤ document.version then
    throw (.versionMismatch document.version expected version)
  else
    match applyEdits document.text edits with
    | .ok text => return ⟨version, text⟩
    | .error message => throw (.text message)

namespace Overlays

def openDocument (overlays : Overlays Text) (path : String) (version : Int) (text : Text) :
    Overlays Text :=
  insertEntry path ⟨version, text⟩ overlays

def changeDocument (overlays : Overlays Text) (path : String) (expected version : Int)
    (edits : List Edit) : Except WorkspaceError (Overlays Text) :=
  match overlays.lookup path with
  | none => throw (.documentNotOpen path)
  | some document =>
      match document.changed applyEdits expected version edits with
      | .ok changed => return insertEntry path changed overlays
      | .error error => throw (.document error)

def closeDocument (overlays : Overlays Text) (path : String) :
    Except WorkspaceError (Overlays Text) :=
  if (overlays.lookup path).isSome then return overlays.filter fun entry => entry.1 ≠ path
  else throw (.documentNotOpen path)

/-- The overlays after a change of a document. -/
def apply (overlays : Overlays Text) :
    DocumentChange Text Edit → Except WorkspaceError (Overlays Text)
  | .open path version text => do
      return overlays.openDocument (← canonicalDocumentPath path) version text
  | .change path expected version edits => do
      overlays.changeDocument applyEdits (← canonicalDocumentPath path) expected version edits
  | .close path => do overlays.closeDocument (← canonicalDocumentPath path)

variable {applyEdits} {overlays : Overlays Text} {path : String}

theorem changeDocument_eq_ok {expected version : Int} {edits : List Edit} {after : Overlays Text} :
    overlays.changeDocument applyEdits path expected version edits = .ok after ↔
      ∃ document text, overlays.lookup path = some document ∧ document.version = expected ∧
        document.version < version ∧ applyEdits document.text edits = .ok text ∧
        after = insertEntry path ⟨version, text⟩ overlays := by
  rw [changeDocument]
  cases hlookup : overlays.lookup path with
  | none => simp
  | some document =>
      simp only [DocumentSnapshot.changed, Option.some.injEq]
      by_cases hversion : document.version ≠ expected ∨ version ≤ document.version
      · rw [if_pos hversion]
        refine iff_of_false (fun h => by cases h) ?_
        rintro ⟨_, text, rfl, hexpected, hlt, -, -⟩
        exact hversion.elim (absurd hexpected) hlt.not_ge
      · rw [if_neg hversion]
        push Not at hversion
        cases hedits : applyEdits document.text edits with
        | error message =>
            refine iff_of_false (fun h => by cases h) ?_
            rintro ⟨_, text, rfl, -, -, htext, -⟩
            cases hedits.symm.trans htext
        | ok text =>
            constructor
            · intro h
              exact ⟨document, text, rfl, hversion.1, hversion.2, hedits, (Except.ok.inj h).symm⟩
            · rintro ⟨_, found, rfl, -, -, htext, rfl⟩
              obtain rfl := Except.ok.inj (hedits.symm.trans htext)
              rfl

end Overlays

end Changes

end Telora.Workspace
