import Telora.Library.Agreement
import Telora.Toml.Rules

/-!
# Tables of the lowering and what they define

A table under construction stands for entries of the rules: the explicit flag says
that a header or dotted keys opened it, a closed table is a value, and the marked
arrays are the arrays of tables.
-/

namespace Telora.Toml

open Library

def Opening.isExplicit : Opening → Bool
  | implicit | reopened => false
  | header | dotted => true

/-- A node no header can enter or open again. -/
def TomlNode.IsClosed : TomlNode → Prop
  | .scalar _ _ => True
  | .array _ _ tables => tables = false
  | .table inner => inner.sealed = true

mutual

inductive Relates : TomlNode → Item → Prop where
  | scalar (value : Value) (location : Loc) : Relates (.scalar value location) (.value value)
  | array (values : List TomlNode) (location : Loc) :
      Relates (.array values location false) (.value (.array (materializeNodes values)))
  | inlineTable {fields : List (String × Entry)} {location : Loc} {explicit : Bool}
      (h : ∀ field ∈ fields, field.2.node.IsClosed) :
      Relates (.table (.mk fields location explicit true)) (.inlineTable (materializeFields fields))
  | table {fields : List (String × Entry)} {location : Loc} {opening : Opening}
      {entries : List (String × Item)} (h : RelatesFields fields entries) :
      Relates (.table (.mk fields location opening.isExplicit false)) (.table opening entries)
  | tables {earlier : List TomlNode} {fields : List (String × Entry)}
      {location arrayLocation : Loc} {current : List (String × Item)}
      (h : RelatesFields fields current) :
      Relates (.array (earlier ++ [.table (.mk fields location true false)]) arrayLocation true)
        (.tables (materializeNodes earlier) current)

inductive RelatesFields : List (String × Entry) → List (String × Item) → Prop where
  | nil : RelatesFields [] []
  | cons {name : String} {entry : Entry} {item : Item} {rest : List (String × Entry)}
      {rest' : List (String × Item)} (h : Relates entry.node item)
      (hrest : RelatesFields rest rest') :
      RelatesFields ((name, entry) :: rest) ((name, item) :: rest')

end

theorem relatesFields_iff {fields : List (String × Entry)} {entries : Entries} :
    RelatesFields fields entries ↔
      EntriesRel (fun entry item => Relates entry.node item) fields entries := by
  constructor
  · intro h
    induction fields generalizing entries with
    | nil =>
        cases h with
        | nil => exact .nil
    | cons field rest ih =>
        cases h with
        | cons h hrest => exact .cons ⟨rfl, h⟩ (ih hrest)
  · intro h
    induction h with
    | nil => exact .nil
    | @cons field entry rest rest' hfirst hrest ih =>
        obtain ⟨name, field⟩ := field
        obtain ⟨name', item⟩ := entry
        obtain ⟨rfl, hnode⟩ := hfirst
        exact .cons hnode ih

/-- Related tables are open, and agree on whether a header or dotted keys opened them. -/
structure RelatesTable (explicit : Bool) (table : Table) (entries : Entries) : Prop where
  explicit_eq : table.explicit = explicit
  unsealed : table.sealed = false
  fields : RelatesFields table.fields entries

theorem RelatesFields.relatesTable {fields : List (String × Entry)} {entries : Entries}
    (h : RelatesFields fields entries) (location : Loc) (explicit : Bool) :
    RelatesTable explicit (.mk fields location explicit false) entries :=
  ⟨rfl, rfl, h⟩

theorem RelatesTable.new (location : Loc) (explicit : Bool) :
    RelatesTable explicit (.new location explicit) [] :=
  ⟨rfl, rfl, .nil⟩

theorem RelatesTable.relates {table : Table} {entries : Entries} (opening : Opening)
    (h : RelatesTable opening.isExplicit table entries) :
    Relates (.table table) (.table opening entries) := by
  obtain ⟨hexplicit, hsealed, hfields⟩ := h
  cases table with
  | mk fields location explicit sealed =>
      dsimp only [Table.explicit, Table.sealed, Table.fields] at hexplicit hsealed hfields
      subst hexplicit hsealed
      exact .table hfields

theorem RelatesTable.relates_tables {table : Table} {entries : Entries} {location : Loc}
    (earlier : List TomlNode) (h : RelatesTable true table entries) :
    Relates (.array (earlier ++ [.table table]) location true)
      (.tables (materializeNodes earlier) entries) := by
  obtain ⟨hexplicit, hsealed, hfields⟩ := h
  cases table with
  | mk fields location explicit sealed =>
      dsimp only [Table.explicit, Table.sealed, Table.fields] at hexplicit hsealed hfields
      subst hexplicit hsealed
      exact .tables hfields

theorem RelatesTable.set {explicit : Bool} {table : Table} {entries : Entries} {name : String}
    {node : TomlNode} {location : Loc} {item : Item} (h : RelatesTable explicit table entries)
    (hnode : Relates node item) :
    RelatesTable explicit (table.set name (.mk node location)) (entries.insert name item) where
  explicit_eq := h.explicit_eq
  unsealed := h.unsealed
  fields := relatesFields_iff.mpr ((relatesFields_iff.mp h.fields).insertEntry hnode)

/-- A name is new in both, or stands for a node and the item it stands for. -/
theorem RelatesTable.lookup {explicit : Bool} {table : Table} {entries : Entries}
    (h : RelatesTable explicit table entries) (name : String) :
    (table.fields.lookup name = none ∧ entries.lookup name = none) ∨
    ∃ node location item, table.fields.lookup name = some (.mk node location) ∧
      entries.lookup name = some item ∧ Relates node item := by
  have hlookup := (relatesFields_iff.mp h.fields).lookup name
  cases hentry : table.fields.lookup name with
  | none =>
      cases hitem : entries.lookup name with
      | none => exact .inl ⟨rfl, rfl⟩
      | some item =>
          rw [hentry, hitem] at hlookup
          cases hlookup
  | some entry =>
      cases hitem : entries.lookup name with
      | none =>
          rw [hentry, hitem] at hlookup
          cases hlookup
      | some item =>
          rw [hentry, hitem] at hlookup
          obtain ⟨node, location⟩ := entry
          cases hlookup with
          | some hnode => exact .inr ⟨node, location, item, rfl, rfl, hnode⟩

@[simp] theorem materializeNodes_append (left right : List TomlNode) :
    materializeNodes (left ++ right) = materializeNodes left ++ materializeNodes right := by
  induction left with
  | nil => rfl
  | cons node rest ih => simp [materializeNodes, ih]

mutual

/-- Related nodes become one value. -/
theorem Relates.materialize_eq {node : TomlNode} {item : Item} (h : Relates node item) :
    materializeNode node = item.denote :=
  match h with
  | .scalar _ _ => rfl
  | .array _ _ => rfl
  | .inlineTable _ => rfl
  | .table hfields => congrArg makeDict hfields.materialize_eq
  | .tables hfields => by
      simp [materializeNode, materializeNodes, materializeTable, Item.denote,
        hfields.materialize_eq]

theorem RelatesFields.materialize_eq {fields : List (String × Entry)}
    {entries : List (String × Item)} (h : RelatesFields fields entries) :
    materializeFields fields = denoteEntries entries :=
  match h with
  | .nil => rfl
  | @RelatesFields.cons name (.mk node location) item rest rest' hnode hrest => by
      simp only [materializeFields, denoteEntries, hrest.materialize_eq]
      rw [show materializeNode node = item.denote from hnode.materialize_eq]

end

theorem RelatesTable.materialize_eq {explicit : Bool} {table : Table} {entries : Entries}
    (h : RelatesTable explicit table entries) :
    materializeTable table = makeDict (denoteEntries entries) := by
  cases table with
  | mk fields location explicit sealed => exact congrArg makeDict h.fields.materialize_eq

/-- The table `tableAtMut` hands to its continuation. -/
def Table.arrive (table : Table) (path : List String) (location : Loc) (dotted : Bool) :
    Option Table :=
  match path with
  | [] => some table
  | name :: rest =>
      if table.sealed then none
      else match ((table.fields.lookup name).getD
          (.mk (.table (.new location dotted)) location)).node with
        | .table next => next.arrive rest location dotted
        | .array values _ true =>
            match values.getLast? with
            | some (.table next) => next.arrive rest location dotted
            | _ => none
        | _ => none

section Arrive

variable {ε : Type} {report : Conflict → ε} {location : Loc} {dotted : Bool}
  {target : Table → Except ε Table}

theorem exists_map_ok {x : Except ε Table} {f : Table → Table} :
    (∃ next, (x >>= fun table => Except.ok (f table)) = .ok next) ↔ ∃ next, x = .ok next := by
  cases x with
  | error e => simp [bind, Except.bind]
  | ok table => simp [bind, Except.bind]

/-- The continuation decides, once the path leads somewhere. -/
theorem tableAtMut_ok_iff {table : Table} {path : List String} :
    (∃ next, tableAtMut report table path location dotted target = .ok next) ↔
      ∃ reached, table.arrive path location dotted = some reached ∧
        ∃ next, target reached = .ok next := by
  induction path generalizing table with
  | nil => simp [tableAtMut, Table.arrive]
  | cons name rest ih =>
      rw [tableAtMut, Table.arrive]
      by_cases hsealed : table.sealed = true
      · simp [if_pos hsealed]
      · rw [if_neg hsealed, if_neg hsealed]
        dsimp only
        cases hnode : ((table.fields.lookup name).getD
            (.mk (.table (.new location dotted)) location)).node with
        | table next => simp only [exists_map_ok, ih]
        | array values arrayLocation isTables =>
            cases isTables with
            | false => simp
            | true =>
                cases hlast : values.getLast? with
                | none => simp [hlast]
                | some last =>
                    cases last with
                    | table next => simp only [hlast, exists_map_ok, ih]
                    | _ => simp [hlast]
        | _ => simp

end Arrive

end Telora.Toml
