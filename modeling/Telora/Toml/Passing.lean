import Telora.Toml.Relation

/-!
# Paths through related tables

A path of keys leads to the same place in the tables of the lowering and in the
entries of the rules.  From this follow the two ways to pass along it: a header's,
and a dotted key's.
-/

namespace Telora.Toml

open Library

@[simp] theorem reach_nil (path : List String) : Entries.reach [] path = some [] := by
  induction path with
  | nil => rfl
  | cons name rest ih => simp [Entries.reach, ih]

@[simp] theorem reachInline_nil (path : List String) : Entries.reachInline [] path = none := by
  cases path with
  | nil => rfl
  | cons name rest => simp [Entries.reachInline]

@[simp] theorem not_crosses_nil (path : List String) : ¬ Entries.Crosses [] path := by
  cases path with
  | nil => exact id
  | cons name rest => simp [Entries.Crosses]

/-- A table that stands for the fields of an inline table. -/
structure IsInline (table : Table) (fields : List (String × Value)) : Prop where
  sealed_eq : table.sealed = true
  closed : ∀ field ∈ table.fields, field.2.node.IsClosed
  materialize_eq : materializeFields table.fields = fields

/-- Where a path leads: to related tables, to an inline table, or nowhere. -/
inductive Arrival (entries : Entries) (path : List String) : Option Table → Prop where
  | nowhere (hreach : entries.reach path = none) (hinline : entries.reachInline path = none) :
      Arrival entries path none
  | table {explicit : Bool} {table : Table} {target : Entries}
      (hreach : entries.reach path = some target) (hinline : entries.reachInline path = none)
      (h : RelatesTable explicit table target) : Arrival entries path (some table)
  | inline {table : Table} {fields : List (String × Value)}
      (hreach : entries.reach path = none) (hinline : entries.reachInline path = some fields)
      (h : IsInline table fields) : Arrival entries path (some table)

theorem Arrival.congr {entries entries' : Entries} {path path' : List String}
    {reached : Option Table} (h : Arrival entries path reached)
    (hreach : entries'.reach path' = entries.reach path)
    (hinline : entries'.reachInline path' = entries.reachInline path) :
    Arrival entries' path' reached := by
  cases h with
  | nowhere h h' => exact .nowhere (hreach.trans h) (hinline.trans h')
  | table h h' hrel => exact .table (hreach.trans h) (hinline.trans h') hrel
  | inline h h' hrel => exact .inline (hreach.trans h) (hinline.trans h') hrel

section Arrivals

variable (location : Loc) (dotted : Bool)

/-- Below an inline table there is nothing; at the end of a path it is reached. -/
theorem arrive_inline {table : Table} {fields : List (String × Value)} (rest : List String)
    (h : IsInline table fields) :
    (rest = [] ∧ table.arrive rest location dotted = some table) ∨
      (rest ≠ [] ∧ table.arrive rest location dotted = none) := by
  cases rest with
  | nil => exact .inl ⟨rfl, rfl⟩
  | cons name rest => exact .inr ⟨by simp, by simp [Table.arrive, h.sealed_eq]⟩

theorem arrival_of_relates {explicit : Bool} {table : Table} {entries : Entries}
    {path : List String} (h : RelatesTable explicit table entries) :
    Arrival entries path (table.arrive path location dotted) := by
  induction path generalizing explicit table entries with
  | nil => exact .table rfl rfl h
  | cons name rest ih =>
      rw [Table.arrive, if_neg (by simp [h.unsealed])]
      rcases h.lookup name with ⟨hentry, hitem⟩ | ⟨node, keyLocation, item, hentry, hitem, hnode⟩
      · rw [hentry]
        exact (ih (RelatesTable.new location dotted)).congr
          (by simp [Entries.reach, hitem]) (by simp [Entries.reachInline, hitem])
      · rw [hentry]
        cases hnode with
        | scalar value nodeLocation =>
            exact .nowhere (by simp [Entries.reach, hitem])
              (by simp [Entries.reachInline, hitem])
        | array values nodeLocation =>
            exact .nowhere (by simp [Entries.reach, hitem])
              (by simp [Entries.reachInline, hitem])
        | @inlineTable fields nodeLocation explicit hclosed =>
            have hinner : IsInline (.mk fields nodeLocation explicit true)
                (materializeFields fields) := ⟨rfl, hclosed, rfl⟩
            dsimp only [Option.getD_some, Entry.node]
            rcases arrive_inline location dotted rest hinner with
              ⟨hrest, harrive⟩ | ⟨hrest, harrive⟩
            · rw [harrive]
              exact .inline (by simp [Entries.reach, hitem])
                (by simp [Entries.reachInline, hitem, hrest]) hinner
            · rw [harrive]
              exact .nowhere (by simp [Entries.reach, hitem])
                (by simp [Entries.reachInline, hitem, hrest])
        | @table fields nodeLocation opening next hfields =>
            exact (ih (hfields.relatesTable nodeLocation opening.isExplicit)).congr (by simp [Entries.reach, hitem])
              (by simp [Entries.reachInline, hitem])
        | @tables earlier fields nodeLocation arrayLocation current hfields =>
            simp only [Option.getD_some, Entry.node, List.getLast?_concat]
            exact (ih (hfields.relatesTable nodeLocation true)).congr (by simp [Entries.reach, hitem])
              (by simp [Entries.reachInline, hitem])

end Arrivals

section Passing

variable {ε : Type} (report : Conflict → ε) (location : Loc) (dotted : Bool)
  {target : Table → Except ε Table} {explicit : Bool} {table : Table} {entries : Entries}
  {path : List String}

theorem exists_error {α : Type} {x : Except ε α} (h : ¬ ∃ a, x = .ok a) : ∃ e, x = .error e := by
  cases x with
  | error e => exact ⟨e, rfl⟩
  | ok a => exact absurd ⟨a, rfl⟩ h

/-- A path that leads to nothing the continuation accepts is refused. -/
theorem tableAtMut_refused (h : RelatesTable explicit table entries)
    (htable : ∀ explicit reached parent, entries.reach path = some parent →
      RelatesTable explicit reached parent → ∃ e, target reached = .error e)
    (hinline : ∀ reached fields, entries.reachInline path = some fields →
      IsInline reached fields → ∃ e, target reached = .error e) :
    ∃ e, tableAtMut report table path location dotted target = .error e := by
  refine exists_error fun hok => ?_
  obtain ⟨reached, harrive, next, hnext⟩ := tableAtMut_ok_iff.mp hok
  have harrival : Arrival entries path (table.arrive path location dotted) :=
    arrival_of_relates location dotted h
  rw [harrive] at harrival
  have herror : ∃ e, target reached = .error e := by
    cases harrival with
    | table hreach _ hrel => exact htable _ _ _ hreach hrel
    | inline _ hreach hrel => exact hinline _ _ hreach hrel
  obtain ⟨e, he⟩ := herror
  rw [he] at hnext
  cases hnext

/-- A path to related tables that the continuation accepts is accepted. -/
theorem tableAtMut_accepted {parent : Entries} (h : RelatesTable explicit table entries)
    (hreach : entries.reach path = some parent)
    (hok : ∀ explicit reached, RelatesTable explicit reached parent →
      ∃ next, target reached = .ok next) :
    ∃ next, tableAtMut report table path location dotted target = .ok next := by
  have harrival : Arrival entries path (table.arrive path location dotted) :=
    arrival_of_relates location dotted h
  refine tableAtMut_ok_iff.mpr ?_
  cases hreached : table.arrive path location dotted with
  | none =>
      rw [hreached] at harrival
      cases harrival with
      | nowhere hnone _ => simp [hreach] at hnone
  | some reached =>
      rw [hreached] at harrival
      refine ⟨reached, rfl, ?_⟩
      cases harrival with
      | table hsome _ hrel =>
          obtain rfl := Option.some.inj (hreach.symm.trans hsome)
          exact hok _ _ hrel
      | inline hnone _ _ => simp [hreach] at hnone

theorem tableAtMut_accepted_inline {fields : List (String × Value)}
    (h : RelatesTable explicit table entries) (hreach : entries.reachInline path = some fields)
    (hok : ∀ reached, IsInline reached fields → ∃ next, target reached = .ok next) :
    ∃ next, tableAtMut report table path location dotted target = .ok next := by
  have harrival : Arrival entries path (table.arrive path location dotted) :=
    arrival_of_relates location dotted h
  refine tableAtMut_ok_iff.mpr ?_
  cases hreached : table.arrive path location dotted with
  | none =>
      rw [hreached] at harrival
      cases harrival with
      | nowhere _ hnone => simp [hreach] at hnone
  | some reached =>
      rw [hreached] at harrival
      refine ⟨reached, rfl, ?_⟩
      cases harrival with
      | table _ hnone _ => simp [hreach] at hnone
      | inline _ hsome hrel =>
          obtain rfl := Option.some.inj (hreach.symm.trans hsome)
          exact hok _ hrel

variable {target' : Entries → Option Entries}

/-- Headers pass through the same tables, unless they end in an inline table. -/
theorem agree_atHeader (h : RelatesTable explicit table entries)
    (htable : ∀ explicit reached parent, entries.reach path = some parent →
      RelatesTable explicit reached parent →
      Agree (RelatesTable explicit) (target reached) (target' parent))
    (hinline : ∀ reached fields, entries.reachInline path = some fields →
      IsInline reached fields → ∃ e, target reached = .error e) :
    Agree (RelatesTable explicit) (tableAtMut report table path location false target)
      (entries.atHeader path target') := by
  induction path generalizing explicit table entries with
  | nil => exact htable explicit table entries rfl h
  | cons name rest ih =>
      rw [tableAtMut, if_neg (by simp [h.unsealed]), Entries.atHeader]
      rcases h.lookup name with ⟨hentry, hitem⟩ | ⟨node, keyLocation, item, hentry, hitem, hnode⟩
      · simp only [hentry, hitem, Option.getD_none, Entry.node]
        simp only [Entries.reach, Entries.reachInline, hitem] at htable hinline
        have hrest := ih (RelatesTable.new location false) htable (by simp)
        exact hrest.bindOk fun next next' hnext =>
          h.set (RelatesTable.relates .implicit hnext)
      · simp only [Entries.reach, Entries.reachInline, hitem] at htable hinline
        simp only [hentry, hitem, Option.getD_some, Entry.node]
        cases hnode with
        | scalar value nodeLocation => exact .refused _
        | array values nodeLocation => exact .refused _
        | @inlineTable fields nodeLocation explicit hclosed =>
            cases rest with
            | nil =>
                obtain ⟨e, he⟩ := hinline (.mk fields nodeLocation explicit true) _ rfl
                  ⟨rfl, hclosed, rfl⟩
                simp only [tableAtMut, he]
                exact .refused e
            | cons next rest =>
                simp only [tableAtMut, Table.sealed]
                exact .refused _
        | @table fields nodeLocation opening next hfields =>
            have hrest := ih (hfields.relatesTable nodeLocation opening.isExplicit) htable hinline
            exact hrest.bindOk fun next next' hnext => h.set (RelatesTable.relates opening hnext)
        | @tables earlier fields nodeLocation arrayLocation current hfields =>
            simp only [List.getLast?_concat, List.dropLast_concat]
            have hrest := ih (hfields.relatesTable nodeLocation true) htable hinline
            exact hrest.bindOk fun next next' hnext => h.set (hnext.relates_tables _)

/-- Dotted keys define the same tables, unless the rest of a path that passes through a
table of a header is accepted. -/
theorem agree_atDotted (h : RelatesTable explicit table entries)
    (htable : ∀ explicit reached parent, RelatesTable explicit reached parent →
      Agree (RelatesTable explicit) (target reached) (target' parent))
    (hsealed : ∀ reached fields, IsInline reached fields → ∃ e, target reached = .error e)
    (hcrosses : entries.Crosses path → ∀ explicit reached parent,
      entries.reach path = some parent → RelatesTable explicit reached parent →
      ∃ e, target reached = .error e) :
    Agree (RelatesTable explicit) (tableAtMut report table path location true target)
      (entries.atDotted path target') := by
  induction path generalizing explicit table entries with
  | nil => exact htable explicit table entries h
  | cons name rest ih =>
      rw [tableAtMut, if_neg (by simp [h.unsealed]), Entries.atDotted]
      rcases h.lookup name with ⟨hentry, hitem⟩ | ⟨node, keyLocation, item, hentry, hitem, hnode⟩
      · simp only [hentry, hitem, Option.getD_none, Entry.node]
        have hrest := ih (RelatesTable.new location true) (by simp)
        exact hrest.bindOk fun next next' hnext => h.set (RelatesTable.relates .dotted hnext)
      · simp only [Entries.reach, Entries.Crosses, hitem] at hcrosses
        simp only [hentry, hitem, Option.getD_some, Entry.node]
        cases hnode with
        | scalar value nodeLocation => exact .refused _
        | array values nodeLocation => exact .refused _
        | @inlineTable fields nodeLocation explicit hclosed =>
            cases rest with
            | nil =>
                obtain ⟨e, he⟩ := hsealed (.mk fields nodeLocation explicit true) _
                  ⟨rfl, hclosed, rfl⟩
                simp only [tableAtMut, he]
                exact .refused e
            | cons next rest =>
                simp only [tableAtMut, Table.sealed]
                exact .refused _
        | @table fields nodeLocation opening next hfields =>
            cases opening with
            | header =>
                obtain ⟨e, he⟩ := tableAtMut_refused report location true
                  (hfields.relatesTable nodeLocation Opening.header.isExplicit)
                  (hcrosses trivial) fun reached fields _ => hsealed reached fields
                dsimp only
                rw [he]
                exact .refused e
            | dotted =>
                have hrest := ih (hfields.relatesTable nodeLocation true) hcrosses
                exact hrest.bindOk fun next next' hnext =>
                  h.set (RelatesTable.relates .dotted hnext)
            | implicit | reopened =>
                have hrest := ih (hfields.relatesTable nodeLocation false) hcrosses
                exact hrest.bindOk fun next next' hnext =>
                  h.set (RelatesTable.relates .reopened hnext)
        | @tables earlier fields nodeLocation arrayLocation current hfields =>
            simp only [List.getLast?_concat]
            obtain ⟨e, he⟩ := tableAtMut_refused report location true
              (hfields.relatesTable nodeLocation true) (hcrosses trivial)
              fun reached fields _ => hsealed reached fields
            rw [he]
            exact .refused e

end Passing

end Telora.Toml
