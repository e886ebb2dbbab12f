import Telora.Toml.Lowering

/-!
# The rules of TOML 1.0 for tables

What the statements of a document define, as the language has it: a table remembers
which form opened it, a value is closed, and every rule is one match on what a name
already stands for.  Nothing here refers to the tables of the lowering.
-/

namespace Telora.Toml

/-- How a table came about: as the parent in a longer header, by its own header, or
by dotted keys.  `reopened` are parents that dotted keys then defined; the rules
treat them as dotted. -/
inductive Opening where
  | implicit
  | header
  | dotted
  | reopened
deriving DecidableEq, Repr

/-- What a name stands for. -/
inductive Item where
  | value (value : Value)
  | inlineTable (fields : List (String × Value))
  | table (opening : Opening) (entries : List (String × Item))
  | tables (earlier : List Value) (current : List (String × Item))

abbrev Entries := List (String × Item)

mutual

def Item.denote : Item → Value
  | .value value => value
  | .inlineTable fields => makeDict fields
  | .table _ entries => makeDict (denoteEntries entries)
  | .tables earlier current => .array (earlier ++ [makeDict (denoteEntries current)])

def denoteEntries : List (String × Item) → List (String × Value)
  | [] => []
  | (name, item) :: rest => (name, item.denote) :: denoteEntries rest

end

namespace Entries

def insert (entries : Entries) (name : String) (item : Item) : Entries :=
  Library.insertEntry name item entries

/-- Headers pass through every table and the last element of an array of tables, and
create the parents that are missing; they never pass through a value. -/
def atHeader (entries : Entries) : List String → (Entries → Option Entries) → Option Entries
  | [], target => target entries
  | name :: rest, target =>
      match entries.lookup name with
      | none => (atHeader [] rest target).map fun next =>
          insert entries name (.table .implicit next)
      | some (.table opening next) => (atHeader next rest target).map fun next =>
          insert entries name (.table opening next)
      | some (.tables earlier current) => (atHeader current rest target).map fun next =>
          insert entries name (.tables earlier next)
      | some (.value _) | some (.inlineTable _) => none

/-- Dotted keys pass through tables that no header opened, and define them. -/
def atDotted (entries : Entries) : List String → (Entries → Option Entries) → Option Entries
  | [], target => target entries
  | name :: rest, target =>
      match entries.lookup name with
      | none => (atDotted [] rest target).map fun next =>
          insert entries name (.table .dotted next)
      | some (.table .dotted next) => (atDotted next rest target).map fun next =>
          insert entries name (.table .dotted next)
      | some (.table .implicit next) | some (.table .reopened next) =>
          (atDotted next rest target).map fun next =>
            insert entries name (.table .reopened next)
      | some (.table .header _) | some (.tables _ _) | some (.value _)
      | some (.inlineTable _) => none

/-- A key is defined once. -/
def assign (entries : Entries) (key : Key) (item : Item) : Option Entries :=
  entries.atDotted key.parents fun target =>
    match target.lookup key.name with
    | none => some (target.insert key.name item)
    | some _ => none

/-- A header opens a new table, or one that only longer headers mentioned. -/
def openTable (entries : Entries) (key : Key) : Option Entries :=
  entries.atHeader key.parents fun parent =>
    match parent.lookup key.name with
    | none => some (parent.insert key.name (.table .header []))
    | some (.table .implicit next) => some (parent.insert key.name (.table .header next))
    | some _ => none

/-- A header in double brackets starts an array of tables, or its next element. -/
def openArrayTable (entries : Entries) (key : Key) : Option Entries :=
  entries.atHeader key.parents fun parent =>
    match parent.lookup key.name with
    | none => some (parent.insert key.name (.tables [] []))
    | some (.tables earlier current) =>
        some (parent.insert key.name
          (.tables (earlier ++ [makeDict (denoteEntries current)]) []))
    | some _ => none

end Entries

mutual

/-- What a written value stands for; the keys of an inline table follow the rules of
dotted keys. -/
def TomlValue.item : TomlValue → Option Item
  | .scalar value _ => some (.value value)
  | .array values _ => (itemValues values).map fun values => .value (.array values)
  | .inlineTable pairs _ => (assignPairs [] pairs).map fun entries =>
      .inlineTable (denoteEntries entries)

def itemValues : List TomlValue → Option (List Value)
  | [] => some []
  | value :: rest => value.item.bind fun item => (itemValues rest).map (item.denote :: ·)

def assignPairs (entries : Entries) : List (Key × TomlValue) → Option Entries
  | [] => some entries
  | (key, value) :: rest =>
      value.item.bind fun item => (entries.assign key item).bind fun entries =>
        assignPairs entries rest

end

/-- The definitions so far, and the table that is open. -/
structure Definitions where
  root : Entries
  current : List String

/-- What one statement defines; `none` where TOML does not allow it. -/
def Definitions.define (definitions : Definitions) : Statement → Option Definitions
  | .keyValue key value _ =>
      (definitions.root.atHeader definitions.current fun table =>
        value.item.bind fun item => table.assign key item).map fun root =>
          { definitions with root }
  | .arrayTable key _ => (definitions.root.openArrayTable key).map fun root =>
      { root, current := key.parents ++ [key.name] }
  | .table key _ => (definitions.root.openTable key).map fun root =>
      { root, current := key.parents ++ [key.name] }

/-- What a document defines. -/
def define (document : List Statement) : Option Definitions :=
  document.foldlM Definitions.define { root := [], current := [] }

/-- The tree a document denotes, when TOML allows the document. -/
def denote (document : List Statement) : Option Value :=
  (define document).map fun definitions => makeDict (denoteEntries definitions.root)

namespace Entries

/-- The table a path leads to, with parents that are missing taken as empty. -/
def reach (entries : Entries) : List String → Option Entries
  | [] => some entries
  | name :: rest =>
      match entries.lookup name with
      | none => reach [] rest
      | some (.table _ next) | some (.tables _ next) => reach next rest
      | some (.value _) | some (.inlineTable _) => none

/-- The inline table a path leads to. -/
def reachInline (entries : Entries) : List String → Option (List (String × Value))
  | [] => none
  | name :: rest =>
      match entries.lookup name with
      | none | some (.value _) => none
      | some (.table _ next) | some (.tables _ next) => reachInline next rest
      | some (.inlineTable fields) => if rest = [] then some fields else none

/-- A path that passes through a table opened by a header, or an array of tables. -/
def Crosses (entries : Entries) : List String → Prop
  | [] => False
  | name :: rest =>
      match entries.lookup name with
      | none | some (.value _) | some (.inlineTable _) => False
      | some (.table .header _) | some (.tables _ _) => True
      | some (.table _ next) => Crosses next rest

/-- A header for a name that is new in an inline table. -/
def ExtendsInline (entries : Entries) (key : Key) : Prop :=
  ∃ fields, entries.reachInline key.parents = some fields ∧ fields.lookup key.name = none

end Entries

/-- The statements TOML refuses and the lowering accepts: a header directly below an
inline table, for a new name; a header for a table that dotted keys reached as the
parent of an earlier header; a dotted key for a new name that passes through a table
opened by a header, or an array of tables. -/
def Definitions.Slips (definitions : Definitions) : Statement → Prop
  | .table key _ =>
      definitions.root.ExtendsInline key ∨
      ∃ parent next, definitions.root.reach key.parents = some parent ∧
        parent.lookup key.name = some (.table .reopened next)
  | .arrayTable key _ => definitions.root.ExtendsInline key
  | .keyValue key value _ =>
      value.item.isSome = true ∧
      ∃ table target, definitions.root.reach definitions.current = some table ∧
        table.Crosses key.parents ∧
        table.reach key.parents = some target ∧ target.lookup key.name = none

/-- Some statement of the document slips, after the ones before it. -/
def HasSlip (document : List Statement) : Prop :=
  ∃ before statement after definitions, document = before ++ statement :: after ∧
    define before = some definitions ∧ definitions.Slips statement

end Telora.Toml
