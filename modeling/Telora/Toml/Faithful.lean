import Mathlib.Data.List.Induction
import Telora.Toml.Passing

/-!
# The lowering follows the rules

One statement after another, the lowering accepts what the rules allow and builds
the same tree, as long as no statement slips; the first statement that slips is
accepted although TOML refuses it.
-/

namespace Telora.Toml

open Library

section Values

variable {explicit : Bool} {table : Table} {entries : Entries} {key : Key} {node : TomlNode}
  {item : Item}

theorem agree_insertEntry (h : RelatesTable explicit table entries) (hnode : Relates node item)
    (hcrosses : entries.Crosses key.parents → ∀ target, entries.reach key.parents = some target →
      target.lookup key.name ≠ none) :
    Agree (RelatesTable explicit) (insertEntry table key node) (entries.assign key item) := by
  refine agree_atDotted id key.location h ?_ ?_ ?_
  · intro explicit reached target hrel
    simp only [hrel.unsealed, Bool.false_eq_true, if_false]
    rcases hrel.lookup key.name with ⟨hentry, hitem⟩ | ⟨_, _, _, hentry, hitem, _⟩
    · simp only [hentry, hitem]
      exact .accepted (hrel.set hnode)
    · simp only [hentry, hitem]
      exact .refused _
  · intro reached fields hinline
    simp [hinline.sealed_eq]
  · intro hcross explicit reached target hreach hrel
    simp only [hrel.unsealed, Bool.false_eq_true, if_false]
    rcases hrel.lookup key.name with ⟨_, hitem⟩ | ⟨_, _, _, hentry, _, _⟩
    · exact absurd hitem (hcrosses hcross target hreach)
    · simp [hentry]

/-- A closed table takes no key. -/
theorem insertEntry_sealed (h : table.sealed = true) (key : Key) (node : TomlNode) :
    ∃ e, insertEntry table key node = .error e := by
  cases hparents : key.parents with
  | nil => simp [insertEntry, tableAtMut, hparents, h]
  | cons name rest => simp [insertEntry, tableAtMut, hparents, h]

mutual

/-- Tables that dotted keys opened, holding values and such tables. -/
def Item.IsDotted : Item → Prop
  | .value _ | .inlineTable _ => True
  | .table opening entries => opening = .dotted ∧ AllDotted entries
  | .tables _ _ => False

def AllDotted : List (String × Item) → Prop
  | [] => True
  | (_, item) :: rest => item.IsDotted ∧ AllDotted rest

end

theorem allDotted_iff : AllDotted entries ↔ ∀ entry ∈ entries, entry.2.IsDotted := by
  induction entries with
  | nil => simp [AllDotted]
  | cons entry rest ih => simp [AllDotted, ih]

theorem AllDotted.lookup {name : String} (h : AllDotted entries)
    (hlookup : entries.lookup name = some item) : item.IsDotted := by
  induction entries with
  | nil => cases hlookup
  | cons entry rest ih =>
      obtain ⟨key, first⟩ := entry
      rw [List.lookup_cons] at hlookup
      split at hlookup
      · cases hlookup
        exact h.1
      · exact ih h.2 hlookup

theorem AllDotted.insert {name : String} (h : AllDotted entries) (hitem : item.IsDotted) :
    AllDotted (entries.insert name item) := by
  rw [allDotted_iff] at h ⊢
  intro entry hmem
  rcases mem_insertEntry hmem with rfl | hmem
  · exact hitem
  · exact h entry hmem

theorem AllDotted.not_crosses {path : List String} (h : AllDotted entries) :
    ¬ entries.Crosses path := by
  induction path generalizing entries with
  | nil => exact id
  | cons name rest ih =>
      simp only [Entries.Crosses]
      split
      · exact id
      · exact id
      · exact id
      · next next hitem => exact absurd (h.lookup hitem).1 (by decide)
      · next earlier current hitem => exact fun _ => h.lookup hitem
      · next opening next _ hitem => exact ih (h.lookup hitem).2

theorem AllDotted.atDotted {path : List String} {target : Entries → Option Entries}
    {entries' : Entries} (h : AllDotted entries)
    (htarget : ∀ reached next, AllDotted reached → target reached = some next → AllDotted next)
    (hat : entries.atDotted path target = some entries') : AllDotted entries' := by
  induction path generalizing entries entries' with
  | nil => exact htarget _ _ h hat
  | cons name rest ih =>
      simp only [Entries.atDotted] at hat
      split at hat <;> try cases hat
      all_goals obtain ⟨next, hnext, rfl⟩ := Option.map_eq_some_iff.mp hat
      · exact h.insert ⟨rfl, ih (show AllDotted [] from trivial) hnext⟩
      · next hitem => exact h.insert ⟨rfl, ih (h.lookup hitem).2 hnext⟩
      · next hitem => exact absurd (h.lookup hitem).1 (by decide)
      · next hitem => exact absurd (h.lookup hitem).1 (by decide)

theorem AllDotted.assign {entries' : Entries} (h : AllDotted entries) (hitem : item.IsDotted)
    (hassign : entries.assign key item = some entries') : AllDotted entries' := by
  refine h.atDotted (fun reached next hreached hnext => ?_) hassign
  split at hnext
  · cases hnext
    exact hreached.insert hitem
  · cases hnext

theorem isDotted_of_item {value : TomlValue} (h : value.item = some item) : item.IsDotted := by
  cases value with
  | scalar value location =>
      cases h
      trivial
  | array values location =>
      obtain ⟨_, _, rfl⟩ := Option.map_eq_some_iff.mp (by simpa only [TomlValue.item] using h)
      trivial
  | inlineTable pairs location =>
      obtain ⟨_, _, rfl⟩ := Option.map_eq_some_iff.mp (by simpa only [TomlValue.item] using h)
      trivial

mutual

theorem materializeTable_seal : (table : Table) →
    materializeTable (sealTable table) = materializeTable table
  | .mk fields _ _ _ => congrArg makeDict (materializeFields_seal fields)

theorem materializeFields_seal : (fields : List (String × Entry)) →
    materializeFields (sealFields fields) = materializeFields fields
  | [] => rfl
  | (name, .mk node _) :: rest => by
      simp only [sealFields, materializeFields, materializeNode_seal node,
        materializeFields_seal rest]

theorem materializeNode_seal : (node : TomlNode) →
    materializeNode (sealNode node) = materializeNode node
  | .scalar _ _ => rfl
  | .array _ _ _ => rfl
  | .table table => materializeTable_seal table

end

theorem isClosed_seal {fields : List (String × Entry)} (h : RelatesFields fields entries)
    (hdotted : AllDotted entries) : ∀ field ∈ sealFields fields, field.2.node.IsClosed := by
  induction fields generalizing entries with
  | nil => simp [sealFields]
  | cons field rest ih =>
      cases h with
      | @cons name entry item rest rest' hnode hrest =>
          obtain ⟨node, keyLocation⟩ := entry
          intro field hmem
          rcases List.mem_cons.mp hmem with rfl | hmem
          · cases hnode with
            | scalar value location => trivial
            | array values location => exact rfl
            | inlineTable hclosed => exact rfl
            | table hfields => exact rfl
            | tables hfields => exact hdotted.1.elim
          · exact ih hrest hdotted.2 field hmem

theorem RelatesTable.relates_seal (h : RelatesTable explicit table entries)
    (hdotted : AllDotted entries) :
    Relates (.table (sealTable table)) (.inlineTable (denoteEntries entries)) := by
  cases table with
  | mk fields location explicit sealed =>
      have hclosed := isClosed_seal h.fields hdotted
      have hdenote : materializeFields (sealFields fields) = denoteEntries entries :=
        (materializeFields_seal fields).trans h.fields.materialize_eq
      rw [← hdenote]
      exact .inlineTable hclosed

mutual

/-- A value as written becomes a node of what it stands for. -/
theorem agree_valueNode : (value : TomlValue) → Agree Relates (valueNode value) value.item
  | .scalar value location => .accepted (.scalar value location)
  | .array values location => by
      simp only [valueNode, TomlValue.item]
      exact (agree_arrayNodes values).bindOk fun nodes values hvalues =>
        hvalues ▸ .array nodes location
  | .inlineTable pairs location => by
      simp only [valueNode, TomlValue.item]
      exact (agree_insertPairs pairs (RelatesTable.new location true) trivial).bindOk
        fun table entries h => h.1.relates_seal h.2

theorem agree_arrayNodes : (values : List TomlValue) →
    Agree (fun nodes values => materializeNodes nodes = values)
      (arrayNodes values) (itemValues values)
  | [] => .accepted rfl
  | value :: rest => by
      simp only [arrayNodes, itemValues]
      refine (agree_valueNode value).bind fun node item _ hnode => ?_
      exact (agree_arrayNodes rest).bindOk fun nodes values hvalues => by
        rw [materializeNodes, hnode.materialize_eq, hvalues]

theorem agree_insertPairs : (pairs : List (Key × TomlValue)) → {table : Table} →
    {entries : Entries} → RelatesTable true table entries → AllDotted entries →
    Agree (fun table entries => RelatesTable true table entries ∧ AllDotted entries)
      (insertPairs table pairs) (assignPairs entries pairs)
  | [], _, _, h, hdotted => .accepted ⟨h, hdotted⟩
  | (key, value) :: rest, table, entries, h, hdotted => by
      simp only [insertPairs, assignPairs]
      refine (agree_valueNode value).bind fun node item hitem hnode => ?_
      have hinsert : Agree (RelatesTable true) (insertEntry table key node)
          (entries.assign key item) :=
        agree_insertEntry h hnode fun hcross => absurd hcross hdotted.not_crosses
      refine hinsert.mapError.bind fun table next hassign hnext => ?_
      exact agree_insertPairs rest hnext (hdotted.assign (isDotted_of_item hitem) hassign)

end

end Values

section Statements

variable {explicit : Bool} {table : Table} {entries : Entries} {key : Key} {location : Loc}

/-- The definitions a lowering stands for. -/
structure LowererRel (lowerer : Lowerer) (definitions : Definitions) : Prop where
  root : RelatesTable true lowerer.root definitions.root
  current : lowerer.current = definitions.current

/-- A name of an inline table stands for a closed node. -/
theorem IsInline.lookup {fields : List (String × Value)} (h : IsInline table fields)
    (name : String) :
    (table.fields.lookup name = none ∧ fields.lookup name = none) ∨
    ∃ node keyLocation, table.fields.lookup name = some (.mk node keyLocation) ∧
      node.IsClosed ∧ fields.lookup name ≠ none := by
  obtain ⟨-, hclosed, rfl⟩ := h
  revert hclosed
  induction table.fields with
  | nil => exact fun _ => .inl ⟨rfl, rfl⟩
  | cons field rest ih =>
      intro hclosed
      obtain ⟨key, node, keyLocation⟩ := field
      simp only [List.lookup_cons, materializeFields]
      cases name == key with
      | true => exact .inr ⟨node, keyLocation, rfl, hclosed _ List.mem_cons_self, by simp⟩
      | false => exact ih fun field hmem => hclosed field (List.mem_cons_of_mem _ hmem)

theorem agree_openTable (h : RelatesTable explicit table entries)
    (hinline : ¬ entries.ExtendsInline key)
    (hreopened : ∀ parent next, entries.reach key.parents = some parent →
      parent.lookup key.name ≠ some (.table .reopened next)) :
    Agree (RelatesTable explicit) (openTable table key location) (entries.openTable key) := by
  refine agree_atHeader id location h ?_ ?_
  · intro explicit reached parent hreach hrel
    rcases hrel.lookup key.name with
      ⟨hentry, hitem⟩ | ⟨node, keyLocation, item, hentry, hitem, hnode⟩
    · simp only [hentry, hitem]
      exact .accepted (hrel.set (RelatesTable.relates .header (.new location true)))
    · simp only [hentry, hitem, Entry.node]
      cases hnode with
      | scalar value nodeLocation => exact .refused _
      | array values nodeLocation => exact .refused _
      | @inlineTable fields nodeLocation explicit hclosed => cases explicit <;> exact .refused _
      | tables hfields => exact .refused _
      | @table fields nodeLocation opening next hfields =>
          cases opening with
          | header => exact .refused _
          | dotted => exact .refused _
          | reopened => exact absurd hitem (hreopened parent next hreach)
          | implicit =>
              exact .accepted (hrel.set (RelatesTable.relates .header
                (hfields.relatesTable nodeLocation true)))
  · intro reached fields hreach hrel
    rcases hrel.lookup key.name with ⟨_, hnone⟩ | ⟨node, keyLocation, hentry, hclosed, _⟩
    · exact absurd ⟨fields, hreach, hnone⟩ hinline
    · simp only [hentry, Entry.node]
      split
      · simp [TomlNode.IsClosed, Table.sealed] at hclosed
      · exact ⟨_, rfl⟩

theorem agree_openArrayTable (h : RelatesTable explicit table entries)
    (hinline : ¬ entries.ExtendsInline key) :
    Agree (RelatesTable explicit) (openArrayTable table key location)
      (entries.openArrayTable key) := by
  refine agree_atHeader id location h ?_ ?_
  · intro explicit reached parent hreach hrel
    rcases hrel.lookup key.name with
      ⟨hentry, hitem⟩ | ⟨node, keyLocation, item, hentry, hitem, hnode⟩
    · simp only [hentry, hitem]
      exact .accepted (hrel.set (RelatesTable.relates_tables [] (.new location true)))
    · simp only [hentry, hitem, Entry.node]
      cases hnode with
      | scalar value nodeLocation => exact .refused _
      | array values nodeLocation => exact .refused _
      | inlineTable hclosed => exact .refused _
      | table hfields => exact .refused _
      | @tables earlier fields nodeLocation arrayLocation current hfields =>
          have hnew : RelatesTable true (.new location true) [] := .new location true
          have hearlier : materializeNodes
              (earlier ++ [.table (.mk fields nodeLocation true false)]) =
              materializeNodes earlier ++ [makeDict (denoteEntries current)] := by
            simp [materializeNodes, materializeNode, materializeTable, hfields.materialize_eq]
          dsimp only
          rw [← hearlier]
          exact .accepted (hrel.set (hnew.relates_tables _))
  · intro reached fields hreach hrel
    rcases hrel.lookup key.name with ⟨_, hnone⟩ | ⟨node, keyLocation, hentry, hclosed, _⟩
    · exact absurd ⟨fields, hreach, hnone⟩ hinline
    · simp only [hentry, Entry.node]
      split
      · simp [TomlNode.IsClosed] at hclosed
      · exact ⟨_, rfl⟩

theorem agree_insertKeyValue {value : TomlValue} (h : RelatesTable explicit table entries)
    (hcrosses : value.item.isSome = true → entries.Crosses key.parents → ∀ target,
      entries.reach key.parents = some target → target.lookup key.name ≠ none) :
    Agree (RelatesTable explicit) (insertKeyValue table key value)
      (value.item.bind fun item => entries.assign key item) := by
  refine (agree_valueNode value).bind fun node item hitem hnode => ?_
  exact (agree_insertEntry h hnode (hcrosses (by simp [hitem]))).mapError

variable {lowerer : Lowerer} {definitions : Definitions} {current : Statement}

/-- One statement that does not slip. -/
theorem agree_statement (h : LowererRel lowerer definitions) (hslip : ¬ definitions.Slips current) :
    Agree LowererRel (statement lowerer current) (definitions.define current) := by
  cases current with
  | table key location =>
      obtain ⟨hinline, hreopened⟩ := not_or.mp hslip
      have hopen : Agree (RelatesTable true) (openTable lowerer.root key location)
          (definitions.root.openTable key) :=
        agree_openTable h.root hinline fun parent next hreach hlookup =>
          hreopened ⟨parent, next, hreach, hlookup⟩
      exact hopen.mapError.bindOk fun root root' hroot => ⟨hroot, rfl⟩
  | arrayTable key location =>
      have hopen : Agree (RelatesTable true) (openArrayTable lowerer.root key location)
          (definitions.root.openArrayTable key) := agree_openArrayTable h.root hslip
      exact hopen.mapError.bindOk fun root root' hroot => ⟨hroot, rfl⟩
  | keyValue key value location =>
      simp only [statement, Definitions.define, h.current]
      refine Agree.bindOk (agree_atHeader (conflict location) location h.root ?_ ?_)
        fun root root' hroot => ⟨hroot, rfl⟩
      · intro explicit reached parent hreach hrel
        refine agree_insertKeyValue hrel fun hvalue hcross target htarget hnone => ?_
        exact hslip ⟨hvalue, parent, target, hreach, hcross, htarget, hnone⟩
      · intro reached fields hreach hrel
        simp only [insertKeyValue]
        cases hnode : valueNode value with
        | error e => exact ⟨e, rfl⟩
        | ok node =>
            obtain ⟨e, he⟩ := insertEntry_sealed hrel.sealed_eq key node
            exact ⟨conflict key.location e, by simp only [bind, Except.bind, he, Except.mapError]⟩

theorem atHeader_eq_none {path : List String} {target : Entries → Option Entries}
    (h : ∀ parent, entries.reach path = some parent → target parent = none) :
    entries.atHeader path target = none := by
  induction path generalizing entries with
  | nil => exact h entries rfl
  | cons name rest ih =>
      simp only [Entries.reach] at h
      simp only [Entries.atHeader]
      split <;> simp_all

theorem atDotted_eq_none {path : List String} {target : Entries → Option Entries}
    (h : entries.Crosses path) : entries.atDotted path target = none := by
  induction path generalizing entries with
  | nil => exact h.elim
  | cons name rest ih =>
      simp only [Entries.Crosses] at h
      simp only [Entries.atDotted]
      split <;> simp_all

theorem reach_of_reachInline {path : List String} {fields : List (String × Value)}
    (h : entries.reachInline path = some fields) : entries.reach path = none := by
  induction path generalizing entries with
  | nil => cases h
  | cons name rest ih =>
      simp only [Entries.reachInline] at h
      simp only [Entries.reach]
      split <;> simp_all

theorem define_eq_none_of_slips (hslip : definitions.Slips current) :
    definitions.define current = none := by
  cases current with
  | table key location =>
      refine Option.map_eq_none_iff.mpr (atHeader_eq_none fun parent hreach => ?_)
      rcases hslip with ⟨fields, hinline, -⟩ | ⟨parent', next, hreach', hlookup⟩
      · simp [reach_of_reachInline hinline] at hreach
      · obtain rfl : parent' = parent := Option.some.inj (hreach'.symm.trans hreach)
        simp [hlookup]
  | arrayTable key location =>
      obtain ⟨fields, hinline, -⟩ := hslip
      refine Option.map_eq_none_iff.mpr (atHeader_eq_none fun parent hreach => ?_)
      simp [reach_of_reachInline hinline] at hreach
  | keyValue key value location =>
      obtain ⟨hvalue, table, target, htable, hcross, -, -⟩ := hslip
      refine Option.map_eq_none_iff.mpr (atHeader_eq_none fun parent hreach => ?_)
      obtain rfl : table = parent := Option.some.inj (htable.symm.trans hreach)
      cases value.item with
      | none => rfl
      | some item => exact atDotted_eq_none hcross

theorem openTable_inline {fields : List (String × Value)}
    (h : RelatesTable explicit table entries)
    (hreach : entries.reachInline key.parents = some fields)
    (hnew : fields.lookup key.name = none) : ∃ next, openTable table key location = .ok next := by
  refine tableAtMut_accepted_inline id location false h hreach fun reached hrel => ?_
  rcases hrel.lookup key.name with ⟨hentry, _⟩ | ⟨_, _, _, _, hsome⟩
  · simp [hentry]
  · exact absurd hnew hsome

theorem openArrayTable_inline {fields : List (String × Value)}
    (h : RelatesTable explicit table entries)
    (hreach : entries.reachInline key.parents = some fields)
    (hnew : fields.lookup key.name = none) :
    ∃ next, openArrayTable table key location = .ok next := by
  refine tableAtMut_accepted_inline id location false h hreach fun reached hrel => ?_
  rcases hrel.lookup key.name with ⟨hentry, _⟩ | ⟨_, _, _, _, hsome⟩
  · simp [hentry]
  · exact absurd hnew hsome

theorem openTable_reopened {parent next : Entries} (h : RelatesTable explicit table entries)
    (hreach : entries.reach key.parents = some parent)
    (hlookup : parent.lookup key.name = some (.table .reopened next)) :
    ∃ next, openTable table key location = .ok next := by
  refine tableAtMut_accepted id location false h hreach fun explicit reached hrel => ?_
  rcases hrel.lookup key.name with ⟨_, hitem⟩ | ⟨node, keyLocation, item, hentry, hitem, hnode⟩
  · simp [hlookup] at hitem
  · obtain rfl : item = .table .reopened next := Option.some.inj (hitem.symm.trans hlookup)
    cases hnode with
    | table hfields =>
        simp only [hentry, Entry.node, Opening.isExplicit]
        exact ⟨_, rfl⟩

theorem insertKeyValue_ok {value : TomlValue} {target : Entries}
    (h : RelatesTable explicit table entries) (hvalue : value.item.isSome = true)
    (hreach : entries.reach key.parents = some target) (hnew : target.lookup key.name = none) :
    ∃ next, insertKeyValue table key value = .ok next := by
  obtain ⟨item, hitem⟩ := Option.isSome_iff_exists.mp hvalue
  have hnode := agree_valueNode value
  rw [hitem] at hnode
  obtain ⟨node, hnode, -⟩ := Agree.some_iff.mp hnode
  have hinsert : ∃ next, insertEntry table key node = .ok next := by
    refine tableAtMut_accepted id key.location true h hreach fun explicit reached hrel => ?_
    rcases hrel.lookup key.name with ⟨hentry, _⟩ | ⟨_, _, _, _, hsome, _⟩
    · simp [hrel.unsealed, hentry]
    · simp [hnew] at hsome
  obtain ⟨next, hnext⟩ := hinsert
  exact ⟨next, by simp only [insertKeyValue, hnode, bind, Except.bind, hnext, Except.mapError]⟩

/-- The lowering goes on at a statement that slips. -/
theorem statement_ok_of_slips (h : LowererRel lowerer definitions)
    (hslip : definitions.Slips current) : ∃ next, statement lowerer current = .ok next := by
  cases current with
  | table key location =>
      have hopen : ∃ root, openTable lowerer.root key location = .ok root := by
        rcases hslip with ⟨fields, hreach, hnew⟩ | ⟨parent, next, hreach, hlookup⟩
        · exact openTable_inline h.root hreach hnew
        · exact openTable_reopened h.root hreach hlookup
      obtain ⟨root, hroot⟩ := hopen
      simp only [statement, hroot, Except.mapError, bind, Except.bind]
      exact ⟨_, rfl⟩
  | arrayTable key location =>
      obtain ⟨fields, hreach, hnew⟩ := hslip
      obtain ⟨root, hroot⟩ : ∃ root, openArrayTable lowerer.root key location = .ok root :=
        openArrayTable_inline h.root hreach hnew
      simp only [statement, hroot, Except.mapError, bind, Except.bind]
      exact ⟨_, rfl⟩
  | keyValue key value location =>
      obtain ⟨hvalue, table, target, htable, -, htarget, hnew⟩ := hslip
      obtain ⟨root, hroot⟩ : ∃ root, tableAtMut (conflict location) lowerer.root lowerer.current
          location false (fun table => insertKeyValue table key value) = .ok root := by
        rw [h.current]
        exact tableAtMut_accepted (conflict location) location false h.root htable
          fun explicit reached hrel => insertKeyValue_ok hrel hvalue htarget hnew
      simp only [statement, hroot, bind, Except.bind]
      exact ⟨_, rfl⟩

end Statements

section Documents

variable {location : Loc} {document : List Statement} {last : Statement}

theorem hasSlip_concat : HasSlip (document ++ [last]) ↔
    HasSlip document ∨ ∃ definitions, define document = some definitions ∧
      definitions.Slips last := by
  constructor
  · rintro ⟨before, current, after, definitions, hdocument, hdefine, hslip⟩
    rcases List.eq_nil_or_concat after with rfl | ⟨rest, final, rfl⟩
    · obtain ⟨rfl, hlast⟩ := List.append_inj' hdocument rfl
      obtain rfl := List.singleton_inj.mp hlast
      exact .inr ⟨definitions, hdefine, hslip⟩
    · rw [List.concat_eq_append, ← List.cons_append, ← List.append_assoc] at hdocument
      obtain ⟨rfl, -⟩ := List.append_inj' hdocument rfl
      exact .inl ⟨before, current, rest, definitions, rfl, hdefine, hslip⟩
  · rintro (⟨before, current, after, definitions, rfl, hdefine, hslip⟩ | ⟨definitions, hdefine, hslip⟩)
    · exact ⟨before, current, after ++ [last], definitions, by simp, hdefine, hslip⟩
    · exact ⟨document, last, [], definitions, rfl, hdefine, hslip⟩

theorem define_concat : define (document ++ [last]) =
    (define document).bind fun definitions => definitions.define last := by
  simp [define, List.foldlM_append]

theorem statements_concat : statements location (document ++ [last]) =
    statements location document >>= fun lowerer => statement lowerer last := by
  simp [statements, List.foldlM_append]

/-- A document without slips is read as the rules define it. -/
theorem agree_statements (h : ¬ HasSlip document) :
    Agree LowererRel (statements location document) (define document) := by
  induction document using List.reverseRec with
  | nil => exact .accepted ⟨.new location true, rfl⟩
  | append_singleton document last ih =>
      rw [hasSlip_concat, not_or] at h
      rw [statements_concat, define_concat]
      exact (ih h.1).bind fun lowerer definitions hdefine hrel =>
        agree_statement hrel fun hslip => h.2 ⟨definitions, hdefine, hslip⟩

theorem agree_lower (h : ¬ HasSlip document) :
    Agree (· = ·) (lower location document) (denote document) :=
  (agree_statements h).bindOk fun _ _ hrel => hrel.root.materialize_eq

/-- The first statement that slips makes the lowering accept what TOML refuses. -/
theorem not_agree_lower (h : ¬ HasSlip document) {definitions : Definitions}
    (hdefine : define document = some definitions) (hslip : definitions.Slips last) :
    ¬ Agree (· = ·) (lower location (document ++ [last])) (denote (document ++ [last])) := by
  have hrel : Agree LowererRel (statements location document) (define document) :=
    agree_statements h
  rw [hdefine] at hrel
  obtain ⟨lowerer, hlowerer, hrel⟩ := Agree.some_iff.mp hrel
  obtain ⟨next, hnext⟩ := statement_ok_of_slips hrel hslip
  have hrefused : denote (document ++ [last]) = none := by
    rw [denote, define_concat, hdefine, Option.bind_some, define_eq_none_of_slips hslip]
    rfl
  have haccepted : lower location (document ++ [last]) =
      .ok (materializeTable next.root) := by
    rw [lower, statements_concat, hlowerer]
    simp only [bind, Except.bind, hnext]
  rw [hrefused, haccepted]
  intro hagree
  cases hagree

/-- The decoder accepts a document, and every initial part of it, exactly when TOML
allows it, and then yields the tree it denotes, if and only if no statement slips. -/
theorem lower_agrees_iff (location : Loc) (document : List Statement) :
    (∀ initial, initial <+: document →
      Agree (· = ·) (lower location initial) (denote initial)) ↔ ¬ HasSlip document := by
  constructor
  · intro hagree
    induction document using List.reverseRec with
    | nil =>
        rintro ⟨before, current, after, -, hdocument, -⟩
        simp at hdocument
    | append_singleton document last ih =>
        have hbefore := ih fun initial hinitial =>
          hagree initial (hinitial.trans (List.prefix_append document [last]))
        rw [hasSlip_concat, not_or]
        refine ⟨hbefore, ?_⟩
        rintro ⟨definitions, hdefine, hslip⟩
        exact not_agree_lower hbefore hdefine hslip (hagree _ (List.prefix_refl _))
  · rintro hslip initial ⟨rest, rfl⟩
    refine agree_lower fun ⟨before, current, after, definitions, hdocument, hrest⟩ => hslip ?_
    exact ⟨before, current, after ++ rest, definitions, by simp [hdocument], hrest⟩

end Documents

private def bare (parents : List String) (name : String) : Key := ⟨parents, name, ⟨0, 0, 0⟩⟩

private def one : TomlValue := .scalar (.int 1) ⟨0, 0, 0⟩

/-- `a = {}` and `[a.b]`. -/
def inlineExtended : List Statement :=
  [.keyValue (bare [] "a") (.inlineTable [] ⟨0, 0, 0⟩) ⟨0, 0, 0⟩,
    .table (bare ["a"] "b") ⟨0, 0, 0⟩]

/-- `[a.b]`, `[a]` and `b.y = 1`. -/
def headerExtended : List Statement :=
  [.table (bare ["a"] "b") ⟨0, 0, 0⟩, .table (bare [] "a") ⟨0, 0, 0⟩,
    .keyValue (bare ["b"] "y") one ⟨0, 0, 0⟩]

/-- `[a.b.c]`, `[a]`, `b.y = 1` and `[a.b]`. -/
def dottedReopened : List Statement :=
  [.table (bare ["a", "b"] "c") ⟨0, 0, 0⟩, .table (bare [] "a") ⟨0, 0, 0⟩,
    .keyValue (bare ["b"] "y") one ⟨0, 0, 0⟩, .table (bare ["a"] "b") ⟨0, 0, 0⟩]

/-- TOML refuses all three documents, and the lowering accepts them. -/
theorem lower_accepts_refused :
    (denote inlineExtended = none ∧ ∃ value, lower ⟨0, 0, 0⟩ inlineExtended = .ok value) ∧
    (denote headerExtended = none ∧ ∃ value, lower ⟨0, 0, 0⟩ headerExtended = .ok value) ∧
    (denote dottedReopened = none ∧ ∃ value, lower ⟨0, 0, 0⟩ dottedReopened = .ok value) :=
  ⟨⟨rfl, _, rfl⟩, ⟨rfl, _, rfl⟩, ⟨rfl, _, rfl⟩⟩

end Telora.Toml
