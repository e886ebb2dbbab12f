import Telora.Library.Entries
import Telora.Value.Value

/-!
# Lowering of TOML documents

The tables a TOML document builds while its statements are read in order, and the
value they become at the end.  A statement is what the syntax tree holds: a header,
a header of an array of tables, or a key with its value.  The fields of a table are
in the order of their keys, as an ordered map keeps them.
-/

namespace Telora.Toml

open Library

/-- A dotted key: the names before the last one, and the last one. -/
structure Key where
  parents : List String
  name : String
  location : Loc
deriving DecidableEq, Repr

/-- A value as it is written. -/
inductive TomlValue where
  | scalar (value : Value) (location : Loc)
  | array (values : List TomlValue) (location : Loc)
  | inlineTable (pairs : List (Key × TomlValue)) (location : Loc)

inductive Statement where
  | table (key : Key) (location : Loc)
  | arrayTable (key : Key) (location : Loc)
  | keyValue (key : Key) (value : TomlValue) (location : Loc)

mutual

inductive Entry where
  | mk (node : TomlNode) (keyLocation : Loc)

/-- A node under construction; an array is marked when headers build it. -/
inductive TomlNode where
  | scalar (value : Value) (location : Loc)
  | array (values : List TomlNode) (location : Loc) (tables : Bool)
  | table (table : Table)

inductive Table where
  | mk (fields : List (String × Entry)) (location : Loc) (explicit sealed : Bool)

end

namespace Entry

def node : Entry → TomlNode
  | mk node _ => node

def keyLocation : Entry → Loc
  | mk _ keyLocation => keyLocation

end Entry

namespace Table

def fields : Table → List (String × Entry)
  | mk fields _ _ _ => fields

def location : Table → Loc
  | mk _ location _ _ => location

def explicit : Table → Bool
  | mk _ _ explicit _ => explicit

/-- Whether the table was written inline. -/
def sealed : Table → Bool
  | mk _ _ _ sealed => sealed

def new (location : Loc) (explicit : Bool) : Table := mk [] location explicit false

def set (table : Table) (name : String) (entry : Entry) : Table :=
  mk (Library.insertEntry name entry table.fields) table.location table.explicit table.sealed

end Table

structure Conflict where
  message : String
  previous : Loc
deriving DecidableEq, Repr

/-- A reported conflict: where it arose, and the earlier definition. -/
structure Diagnostic where
  message : String
  location : Loc
  secondary : Loc
deriving DecidableEq, Repr

def conflict (location : Loc) (conflict : Conflict) : Diagnostic :=
  { message := conflict.message, location, secondary := conflict.previous }

/-- Replace the table at a path by what `target` makes of it.  Missing tables on the
way are created, an array of tables is entered at its last element. -/
def tableAtMut {ε : Type} (report : Conflict → ε) (table : Table) (path : List String)
    (location : Loc) (dotted : Bool) (target : Table → Except ε Table) : Except ε Table :=
  match path with
  | [] => target table
  | name :: rest =>
      if table.sealed then
        .error (report { message := "cannot extend an inline TOML table"
                         previous := table.location })
      else
        let entry := (table.fields.lookup name).getD
          (.mk (.table (.new location dotted)) location)
        match entry.node with
        | .table next => do
            let next ← tableAtMut report next rest location dotted target
            .ok (table.set name (.mk (.table next) entry.keyLocation))
        | .array values arrayLocation true =>
            match values.getLast? with
            | some (.table next) => do
                let next ← tableAtMut report next rest location dotted target
                .ok (table.set name
                  (.mk (.array (values.dropLast ++ [.table next]) arrayLocation true)
                    entry.keyLocation))
            | _ => .error (report { message := "array of tables has no current element"
                                    previous := entry.keyLocation })
        | _ => .error (report { message := "TOML key " ++ name.quote ++ " is not a table"
                                previous := entry.keyLocation })

/-- Store a node under a dotted key. -/
def insertEntry (table : Table) (key : Key) (node : TomlNode) : Except Conflict Table :=
  tableAtMut id table key.parents key.location true fun target =>
    if target.sealed then
      .error { message := "cannot extend an inline TOML table", previous := target.location }
    else match target.fields.lookup key.name with
      | some previous => .error { message := "duplicate TOML key " ++ key.name.quote
                                  previous := previous.keyLocation }
      | none => .ok (target.set key.name (.mk node key.location))

def openTable (root : Table) (key : Key) (location : Loc) : Except Conflict Table :=
  tableAtMut id root key.parents location false fun parent =>
    match parent.fields.lookup key.name with
    | none => .ok (parent.set key.name (.mk (.table (.new location true)) location))
    | some entry =>
        match entry.node with
        | .table (.mk fields tableLocation false false) =>
            .ok (parent.set key.name
              (.mk (.table (.mk fields tableLocation true false)) entry.keyLocation))
        | _ => .error { message := "TOML table " ++ key.name.quote ++ " is already defined"
                        previous := entry.keyLocation }

def openArrayTable (root : Table) (key : Key) (location : Loc) : Except Conflict Table :=
  tableAtMut id root key.parents location false fun parent =>
    match parent.fields.lookup key.name with
    | none => .ok (parent.set key.name
        (.mk (.array [.table (.new location true)] location true) location))
    | some entry =>
        match entry.node with
        | .array values arrayLocation true =>
            .ok (parent.set key.name
              (.mk (.array (values ++ [.table (.new location true)]) arrayLocation true)
                entry.keyLocation))
        | _ => .error { message := "TOML key " ++ key.name.quote ++ " is not an array of tables"
                        previous := entry.keyLocation }

mutual

def sealTable : Table → Table
  | .mk fields location explicit _ => .mk (sealFields fields) location explicit true

def sealFields : List (String × Entry) → List (String × Entry)
  | [] => []
  | (name, .mk node keyLocation) :: rest => (name, .mk (sealNode node) keyLocation) :: sealFields rest

/-- Only tables are sealed; the elements of an array sealed themselves. -/
def sealNode : TomlNode → TomlNode
  | .table table => .table (sealTable table)
  | .scalar value location => .scalar value location
  | .array values location tables => .array values location tables

end

mutual

def valueNode : TomlValue → Except Diagnostic TomlNode
  | .scalar value location => .ok (.scalar value location)
  | .array values location => do
      let values ← arrayNodes values
      .ok (.array values location false)
  | .inlineTable pairs location => do
      let table ← insertPairs (.new location true) pairs
      .ok (.table (sealTable table))

def arrayNodes : List TomlValue → Except Diagnostic (List TomlNode)
  | [] => .ok []
  | value :: rest => do
      let node ← valueNode value
      let nodes ← arrayNodes rest
      .ok (node :: nodes)

def insertPairs (table : Table) : List (Key × TomlValue) → Except Diagnostic Table
  | [] => .ok table
  | (key, value) :: rest => do
      let node ← valueNode value
      let table ← (insertEntry table key node).mapError (conflict key.location)
      insertPairs table rest

end

def insertKeyValue (table : Table) (key : Key) (value : TomlValue) : Except Diagnostic Table := do
  let node ← valueNode value
  (insertEntry table key node).mapError (conflict key.location)

/-- What is kept between two statements: the tables, and the path of the open one. -/
structure Lowerer where
  root : Table
  current : List String

def statement (lowerer : Lowerer) : Statement → Except Diagnostic Lowerer
  | .keyValue key value location => do
      let root ← tableAtMut (conflict location) lowerer.root lowerer.current location false
        fun table => insertKeyValue table key value
      .ok { lowerer with root }
  | .arrayTable key location => do
      let root ← (openArrayTable lowerer.root key location).mapError (conflict location)
      .ok { root, current := key.parents ++ [key.name] }
  | .table key location => do
      let root ← (openTable lowerer.root key location).mapError (conflict location)
      .ok { root, current := key.parents ++ [key.name] }

/-- A dict of the fields of an ordered map, which are distinct and in order. -/
def makeDict (fields : List (String × Value)) : Value :=
  .dict (fields.map Prod.fst) (fields.map Prod.snd)

mutual

def materializeTable : Table → Value
  | .mk fields _ _ _ => makeDict (materializeFields fields)

def materializeFields : List (String × Entry) → List (String × Value)
  | [] => []
  | (name, .mk node _) :: rest => (name, materializeNode node) :: materializeFields rest

def materializeNode : TomlNode → Value
  | .scalar value _ => value
  | .array values _ _ => .array (materializeNodes values)
  | .table table => materializeTable table

def materializeNodes : List TomlNode → List Value
  | [] => []
  | node :: rest => materializeNode node :: materializeNodes rest

end

/-- The statements of a document, read from an empty root table. -/
def statements (location : Loc) (document : List Statement) : Except Diagnostic Lowerer :=
  document.foldlM statement { root := .new location true, current := [] }

def lower (location : Loc) (document : List Statement) : Except Diagnostic Value := do
  let lowerer ← statements location document
  .ok (materializeTable lowerer.root)

end Telora.Toml
