import Mathlib.Data.List.Basic
import Mathlib.Data.List.Infix

/-!
# Paths

File paths as their lists of components, and the two lexical normalisations of a
path.  A text is a path through `Path.new`; equality of paths is equality of
components, so doubled, trailing and inner `.` separators are already gone.
-/

namespace Telora.Library

/-- Whether `text` begins with `start`. -/
def startsWith (text start : String) : Bool :=
  start.toList.isPrefixOf text.toList

/-- The rest of `text` after `start`. -/
def stripStart (text start : String) : Option String :=
  if startsWith text start then some (String.ofList (text.toList.drop start.length)) else none

/-- The two sides of the first `separator` of a text. -/
def splitOnce (text : String) (separator : Char) : Option (String × String) :=
  match text.toList.dropWhile (· ≠ separator) with
  | [] => none
  | _ :: rest => some (String.ofList (text.toList.takeWhile (· ≠ separator)), String.ofList rest)

/-- One component of a path. -/
inductive Component where
  | rootDir
  | curDir
  | parentDir
  | normal (name : String)
deriving DecidableEq, Repr

/-- A path, by its components. -/
abbrev Path := List Component

namespace Component

/-- The component a non-initial piece between separators stands for. -/
def ofPiece (piece : String) : Option Component :=
  if piece = "" ∨ piece = "." then none
  else if piece = ".." then some parentDir
  else some (normal piece)

/-- The text of a component. -/
def asText : Component → String
  | rootDir => ""
  | curDir => "."
  | parentDir => ".."
  | normal name => name

/-- A component that names a directory entry. -/
def IsNormal : Component → Prop
  | normal _ => True
  | _ => False

end Component

namespace Path

/-- The path a text spells. -/
def new (text : String) : Path :=
  let pieces := (text.toList.splitOn '/').map String.ofList
  let start : Path :=
    if startsWith text "/" then [.rootDir]
    else if pieces.head? = some "." then [.curDir] else []
  start ++ pieces.filterMap Component.ofPiece

/-- `path` followed by `other`, which replaces it when it is absolute.  A leading
`.` of `other` is no component of the longer path. -/
def join (path other : Path) : Path :=
  match path, other with
  | _, .rootDir :: rest => .rootDir :: rest
  | [], other => other
  | path, .curDir :: rest => path ++ rest
  | path, other => path ++ other

/-- The path without its last component. -/
def parent (path : Path) : Option Path :=
  match path.getLast? with
  | none | some .rootDir => none
  | some _ => some path.dropLast

/-- The last component, when it names an entry. -/
def fileName (path : Path) : Option String :=
  match path.getLast? with
  | some (.normal name) => some name
  | _ => none

/-- A file name cut at its last dot: the stem, and the text after the dot if the
dot is not the first character. -/
def splitAtDot (name : String) : String × Option String :=
  let reversed := name.toList.reverse
  match reversed.dropWhile (· ≠ '.') with
  | [] | [_] => (name, none)
  | _ :: before =>
      (String.ofList before.reverse, some (String.ofList (reversed.takeWhile (· ≠ '.')).reverse))

def fileStem (path : Path) : Option String :=
  path.fileName.map fun name => (splitAtDot name).1

def extension (path : Path) : Option String :=
  path.fileName.bind fun name => (splitAtDot name).2

/-- The text of a path. -/
def display (path : Path) : String :=
  match path with
  | [.rootDir] => "/"
  | path => "/".intercalate (path.map Component.asText)

/-- Whether the components of `base` begin `path`. -/
def startsWith (path base : Path) : Bool :=
  base.isPrefixOf path

theorem startsWith_iff {path base : Path} : path.startsWith base = true ↔ base <+: path := by
  simp [startsWith]

/-- One component of an absolute path, on top of what is normalised already: `..`
drops the entry before it, and stays at the root otherwise. -/
def push (normalized : Path) : Component → Path
  | .curDir => normalized
  | .parentDir =>
      match normalized.getLast? with
      | some (.normal _) => normalized.dropLast
      | _ => normalized
  | .rootDir => [.rootDir]
  | .normal name => normalized ++ [.normal name]

def lexicalNormalize (path : Path) : Path :=
  path.foldl push []

/-- One component of a relative path: `..` must have an entry to drop, and the
path may not start over at the root. -/
def pushRelative (normalized : Path) : Component → Option Path
  | .curDir => some normalized
  | .parentDir =>
      match normalized.getLast? with
      | some (.normal _) => some normalized.dropLast
      | _ => none
  | .normal name => some (normalized ++ [.normal name])
  | .rootDir => none

def lexicalNormalizeRelative (path : Path) : Option Path :=
  path.foldlM pushRelative []

/-- A path of entry names only. -/
def IsNormal (path : Path) : Prop :=
  ∀ component ∈ path, component.IsNormal

theorem isNormal_nil : IsNormal [] := by
  intro component hmem
  cases hmem

theorem IsNormal.append {path other : Path} (h : path.IsNormal) (hother : other.IsNormal) :
    IsNormal (path ++ other) := by
  intro component hmem
  rcases List.mem_append.mp hmem with hmem | hmem
  · exact h component hmem
  · exact hother component hmem

theorem IsNormal.dropLast {path : Path} (h : path.IsNormal) : IsNormal path.dropLast :=
  fun component hmem => h component (List.dropLast_subset path hmem)

/-- A step keeps the path normal. -/
theorem isNormal_pushRelative {normalized next : Path} {component : Component}
    (h : normalized.IsNormal) (hpush : pushRelative normalized component = some next) :
    next.IsNormal := by
  cases component with
  | curDir =>
      cases hpush
      exact h
  | rootDir => simp [pushRelative] at hpush
  | normal name =>
      simp only [pushRelative, Option.some.injEq] at hpush
      subst hpush
      exact h.append (by simp [IsNormal, Component.IsNormal])
  | parentDir =>
      simp only [pushRelative] at hpush
      split at hpush
      · cases hpush
        exact h.dropLast
      · cases hpush

theorem isNormal_foldlM {path normalized next : Path} (h : normalized.IsNormal)
    (hfold : path.foldlM pushRelative normalized = some next) : next.IsNormal := by
  induction path generalizing normalized with
  | nil =>
      cases hfold
      exact h
  | cons component rest ih =>
      simp only [List.foldlM_cons, Option.bind_eq_bind, Option.bind_eq_some_iff] at hfold
      obtain ⟨middle, hmiddle, hrest⟩ := hfold
      exact ih (isNormal_pushRelative h hmiddle) hrest

/-- What relative normalisation returns has no `.`, no `..` and no root left. -/
theorem isNormal_lexicalNormalizeRelative {path normalized : Path}
    (h : path.lexicalNormalizeRelative = some normalized) : normalized.IsNormal :=
  isNormal_foldlM isNormal_nil h

end Path

end Telora.Library
