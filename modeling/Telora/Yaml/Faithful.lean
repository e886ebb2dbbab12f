import Telora.Library.Lists
import Telora.Yaml.Reading

/-!
# The block reader is faithful to structure

For every layout the reader returns the value of the tree exactly when the layout is
readable. The induction follows the tree; the lines behind a block are arbitrary, as
long as they end it.
-/

namespace Telora.Yaml

open Library
open YamlNode (makeDict materializeValues materializeEntries)

theorem makeDict_eq_ok {fields : List (String × Value)} {value : Value} :
    makeDict fields = .ok value ↔ (fields.map (·.1)).Nodup ∧ dictOf fields = value := by
  have hperm := (List.mergeSort_perm fields fun left right => decide (left.1 ≤ right.1)).map Prod.fst
  unfold makeDict
  dsimp only
  split
  · next hnodup =>
      constructor
      · exact fun h => ⟨hperm.nodup_iff.mp hnodup, Except.ok.inj h⟩
      · exact fun h => congrArg _ h.2
  · next hduplicate =>
      constructor
      · intro h
        cases h
      · exact fun h => absurd (hperm.nodup_iff.mpr h.1) hduplicate

/-- Equal dicts have the same fields, in some order. -/
theorem perm_of_dictOf_eq {left right : List (String × Value)} (h : dictOf left = dictOf right) :
    left.Perm right := by
  obtain ⟨hkeys, hvalues⟩ := Value.dict.inj h
  have hsorted := ext_of_map hkeys hvalues
  exact (List.mergeSort_perm left _).symm.trans (hsorted ▸ List.mergeSort_perm right _)

theorem keys_entryFields (entries : List Entry) :
    (entryFields entries).map (·.1) = entries.map (·.key.name) := by
  induction entries with
  | nil => rfl
  | cons entry rest ih => exact congrArg (_ :: ·) ih

section Results

variable (reader : Reader) (rest : List Line)

/-- The result is a node of a value, and the reader is in front of the rest. -/
def Reads (value : Value) (result : YamlNode × Reader) : Prop :=
  result.2 = reader.at rest ∧ result.1.materialize = .ok value

def Means (value : Value) (result : YamlNode × Reader) : Prop :=
  result.1.materialize = .ok value

def ItemsRead (values : List Value) (result : List YamlNode × Reader) : Prop :=
  result.2 = reader.at rest ∧ materializeValues result.1 = .ok values

def ItemsMean (values : List Value) (result : List YamlNode × Reader) : Prop :=
  materializeValues result.1 = .ok values

def EntriesRead (fields : List (String × Value))
    (result : List (String × Loc × YamlNode) × Reader) : Prop :=
  result.2 = reader.at rest ∧ materializeEntries result.1 = .ok fields

/-- The entries have the fields, in some order. -/
def EntriesMean (fields : List (String × Value))
    (result : List (String × Loc × YamlNode) × Reader) : Prop :=
  ∃ read, materializeEntries result.1 = .ok read ∧ read.Perm fields

end Results

theorem materializeValues_cons {node : YamlNode} {nodes : List YamlNode} {value : Value}
    {values : List Value} : materializeValues (node :: nodes) = .ok (value :: values) ↔
      node.materialize = .ok value ∧ materializeValues nodes = .ok values := by
  rw [materializeValues, bind_eq_ok]
  constructor
  · rintro ⟨first, hfirst, h⟩
    obtain ⟨rest, hrest, h⟩ := map_eq_ok.mp h
    obtain ⟨rfl, rfl⟩ := List.cons.inj h
    exact ⟨hfirst, hrest⟩
  · rintro ⟨hfirst, hrest⟩
    exact ⟨value, hfirst, map_eq_ok.mpr ⟨values, hrest, rfl⟩⟩

theorem materializeEntries_cons {key : String} {location : Loc} {node : YamlNode}
    {nodes : List (String × Loc × YamlNode)} {fields : List (String × Value)} :
    materializeEntries ((key, location, node) :: nodes) = .ok fields ↔
      ∃ value rest, node.materialize = .ok value ∧ materializeEntries nodes = .ok rest ∧
        fields = (key, value) :: rest := by
  rw [materializeEntries, bind_eq_ok]
  constructor
  · rintro ⟨value, hvalue, h⟩
    obtain ⟨rest, hrest, rfl⟩ := map_eq_ok.mp h
    exact ⟨value, rest, hvalue, hrest, rfl⟩
  · rintro ⟨value, rest, hvalue, hrest, rfl⟩
    exact ⟨value, hvalue, map_eq_ok.mpr ⟨rest, hrest, rfl⟩⟩

/-- In fields with different keys, an entry with a key has the value of the key. -/
theorem cons_perm_cons {key : String} {value value' : Value} {fields fields' : List (String × Value)}
    (h : ((key, value) :: fields).Perm ((key, value') :: fields'))
    (hkey : key ∉ fields'.map (·.1)) : value = value' ∧ fields.Perm fields' := by
  have hvalue : value = value' := by
    rcases List.mem_cons.mp (h.subset List.mem_cons_self) with heq | hmem
    · exact (Prod.mk.inj heq).2
    · exact absurd (List.mem_map_of_mem hmem) hkey
  subst hvalue
  exact ⟨rfl, (List.perm_cons _).mp h⟩

section Steps

variable (source sourceLength : Nat) {fuel column : Nat} {line : Line} {rest : List Line}
  (reader : Reader)

theorem parseBlock_at (hcontent : Content line.content) (hindent : line.indent = column) :
    parseBlock source sourceLength (fuel + 1) column (reader.at (line :: rest)) =
      if itemText line.content ≠ none then
        parseSequence source sourceLength fuel column (line.start + column)
          (reader.at (line :: rest))
      else if (splitMapping line.content).isSome then
        parseMapping source sourceLength fuel column (line.start + column) none
          (reader.at (line :: rest))
      else parseInlineValue source line line.content (line.start + column) (reader.at rest) := by
  rw [parseBlock, reader.skipTrivia_content rest hcontent]
  simp only [Reader.remaining_at, hindent, ne_eq, not_true, if_false, isItem_iff]
  rfl

theorem parseItems_item {text : List Char} (hcontent : Content line.content)
    (hindent : line.indent = column) (hitem : itemText line.content = some text) :
    parseItems source sourceLength (fuel + 1) column (reader.at (line :: rest)) = (do
      let (value, reader) ← parseItem source sourceLength fuel column line (trimStart text)
        (reader.at rest)
      let (values, reader) ← parseItems source sourceLength fuel column reader
      return (value :: values, reader)) := by
  rw [parseItems, reader.skipTrivia_content rest hcontent]
  simp only [Reader.remaining_at, hindent, ne_eq, not_true, if_false, hitem]
  rfl

theorem parseItems_end (hends : EndsItems column rest) :
    parseItems source sourceLength (fuel + 1) column (reader.at rest) =
      .ok ([], reader.at rest) := by
  rw [parseItems, reader.skipTrivia_at fun line hline => (hends.1 line hline).1]
  cases rest with
  | nil => rfl
  | cons line rest =>
      by_cases hindent : line.indent = column
      · simp [hindent, hends.2 line rfl hindent]
      · simp [hindent]

/-- What a mapping does at an entry. -/
def entryStep (fuel indent : Nat) (seen : List (String × Loc)) (line : Line) (content : List Char)
    (reader : Reader) : Except Diagnostic (List (String × Loc × YamlNode) × Reader) := do
  let (key, keyLocation, rest) ← parseEntryKey source seen line content
  let (value, reader) ←
    parseEntryValue source sourceLength fuel indent line keyLocation rest reader
  let (entries, reader) ←
    parseEntries source sourceLength fuel indent ((key, keyLocation) :: seen) none reader
  return ((key, keyLocation, value) :: entries, reader)

variable {seen : List (String × Loc)}

theorem parseEntries_entry {entry : Entry} (hcontent : line.content = entry.line)
    (hindent : line.indent = column) :
    parseEntries source sourceLength (fuel + 1) column seen none (reader.at (line :: rest)) =
      entryStep source sourceLength fuel column seen line entry.line (reader.at rest) := by
  have hline : Content line.content := hcontent ▸ entry.content
  have hnext : nextEntry column none (reader.at (line :: rest)) =
      some (line, line.content, reader.at rest) := by
    simp [nextEntry, hindent, hcontent, entry.splitMapping_line]
    rfl
  rw [parseEntries, reader.skipTrivia_content rest hline, hnext, hcontent]
  rfl

theorem parseEntries_pending {content : List Char}
    (hrest : ∀ next ∈ rest.head?, next.isTrivia = false) :
    parseEntries source sourceLength (fuel + 1) column seen (some (line, content))
        (reader.at rest) =
      entryStep source sourceLength fuel column seen line content (reader.at rest) := by
  rw [parseEntries, reader.skipTrivia_at hrest]
  rfl

theorem parseEntries_end
    (hends : ∀ next ∈ rest.head?, next.isTrivia = false ∧ next.indent ≠ column) :
    parseEntries source sourceLength (fuel + 1) column seen none (reader.at rest) =
      .ok ([], reader.at rest) := by
  rw [parseEntries, reader.skipTrivia_at fun line hline => (hends line hline).1]
  cases rest with
  | nil => rfl
  | cons line rest =>
      have hnext : nextEntry column none (reader.at (line :: rest)) = none := by
        simp [nextEntry, (hends line rfl).2]
      rw [hnext]

theorem parseEntryKey_line {entry : Entry} (hseen : seen.lookup entry.key.name = none) :
    ∃ keyLocation, parseEntryKey source seen line entry.line =
      if entry.key.isString then .ok (entry.key.name, keyLocation, trimStart entry.behind)
      else .error (.error "YAML mapping keys must be Strings" keyLocation) := by
  refine ⟨location source (line.start + line.indent)
    (line.start + line.indent + byteLength entry.key.text), ?_⟩
  simp only [parseEntryKey, entry.splitMapping_line, entry.key.parseKey_eq]
  by_cases hstring : entry.key.isString = true
  · simp [hstring, hseen, entry.key.name_ne_merge]
  · simp [hstring]

variable {source sourceLength reader} {condition condition' : Prop} {indent : Nat}
  {state : Reader}

theorem parseSequence_decides {values : List Value} (start : Nat)
    (h : Decides condition (ItemsRead reader rest values) (ItemsMean values)
      (parseItems source sourceLength fuel indent state)) :
    Decides condition (Reads reader rest (.array values)) (Means (.array values))
      (parseSequence source sourceLength (fuel + 1) indent start state) := by
  rw [parseSequence]
  refine h.map ?_ ?_
  · rintro ⟨nodes, _⟩ ⟨rfl, hnodes⟩
    exact ⟨rfl, map_eq_ok.mpr ⟨values, hnodes, rfl⟩⟩
  · rintro ⟨nodes, _⟩ hmeans
    obtain ⟨values', hnodes, harray⟩ := map_eq_ok.mp hmeans
    obtain rfl := Value.array.inj harray
    exact hnodes

theorem parseMapping_decides {fields : List (String × Value)} (start : Nat)
    {pending : Option (Line × List Char)} (hkeys : (fields.map (·.1)).Nodup)
    (h : Decides condition (EntriesRead reader rest fields) (EntriesMean fields)
      (parseEntries source sourceLength fuel indent [] pending state)) :
    Decides condition (Reads reader rest (dictOf fields)) (Means (dictOf fields))
      (parseMapping source sourceLength (fuel + 1) indent start pending state) := by
  rw [parseMapping]
  refine h.map ?_ ?_
  · rintro ⟨nodes, _⟩ ⟨rfl, hnodes⟩
    exact ⟨rfl, bind_eq_ok.mpr ⟨fields, hnodes, makeDict_eq_ok.mpr ⟨hkeys, rfl⟩⟩⟩
  · rintro ⟨nodes, _⟩ hmeans
    obtain ⟨read, hnodes, hdict⟩ := bind_eq_ok.mp hmeans
    exact ⟨read, hnodes, perm_of_dictOf_eq (makeDict_eq_ok.mp hdict).2⟩

/-- A mapping is no sequence. -/
theorem parseMapping_refuses (start : Nat) (pending : Option (Line × List Char))
    (values : List Value) {result : YamlNode × Reader}
    (h : parseMapping source sourceLength fuel indent start pending state = .ok result) :
    ¬Means (.array values) result := by
  cases fuel with
  | zero =>
      rw [parseMapping] at h
      cases h
  | succ fuel =>
      rw [parseMapping] at h
      obtain ⟨⟨nodes, state'⟩, -, h⟩ := bind_eq_ok.mp h
      obtain rfl := Except.ok.inj h
      intro hmeans
      obtain ⟨read, -, hdict⟩ := bind_eq_ok.mp hmeans
      cases (makeDict_eq_ok.mp hdict).2

theorem entryStep_decides {entry : Entry} {fields : List (String × Value)} {next : List Line}
    (hseen : seen.lookup entry.key.name = none)
    (hkey : entry.key.name ∉ fields.map (·.1))
    (hvalue : ∀ keyLocation, Decides condition (Reads reader next entry.value)
      (Means entry.value) (parseEntryValue source sourceLength fuel indent line keyLocation
        (trimStart entry.behind) state))
    (hrest : ∀ keyLocation, Decides condition' (EntriesRead reader rest fields)
      (EntriesMean fields) (parseEntries source sourceLength fuel indent
        ((entry.key.name, keyLocation) :: seen) none (reader.at next))) :
    Decides (entry.key.isString = true ∧ condition ∧ condition')
      (EntriesRead reader rest ((entry.key.name, entry.value) :: fields))
      (EntriesMean ((entry.key.name, entry.value) :: fields))
      (entryStep source sourceLength fuel indent seen line entry.line state) := by
  obtain ⟨keyLocation, hparse⟩ := @parseEntryKey_line source line seen entry hseen
  rw [entryStep, hparse]
  by_cases hstring : entry.key.isString = true
  · rw [if_pos hstring]
    change Decides _ _ _ (parseEntryValue source sourceLength fuel indent line keyLocation
      (trimStart entry.behind) state >>= _)
    refine (show Decides (condition ∧ condition') _ _ _ from
      (hvalue keyLocation).bind ?_ ?_).congr (by simp [hstring])
    · rintro ⟨node, _⟩ ⟨rfl, hnode⟩
      refine (hrest keyLocation).map ?_ ?_
      · rintro ⟨nodes, _⟩ ⟨rfl, hnodes⟩
        exact ⟨rfl, materializeEntries_cons.mpr ⟨_, _, hnode, hnodes, rfl⟩⟩
      · rintro ⟨nodes, _⟩ ⟨read, hread, hperm⟩
        obtain ⟨value, more, hvalue', hnodes, rfl⟩ := materializeEntries_cons.mp hread
        exact ⟨more, hnodes, (cons_perm_cons hperm hkey).2⟩
    · rintro ⟨node, _⟩ result hresult ⟨read, hread, hperm⟩
      obtain ⟨⟨nodes, _⟩, -, hresult⟩ := bind_eq_ok.mp hresult
      obtain rfl := Except.ok.inj hresult
      obtain ⟨value, more, hnode, -, rfl⟩ := materializeEntries_cons.mp hread
      obtain ⟨rfl, -⟩ := cons_perm_cons hperm hkey
      exact hnode
  · rw [if_neg hstring]
    exact .error fun h => hstring h.1

end Steps

section Blocks

variable (source sourceLength : Nat) (reader : Reader) {column : Nat} {lines rest : List Line}

/-- A block whose first line is an item is a sequence. -/
theorem parseBlock_items {fuel : Nat} {items : List Item} (hne : items ≠ [])
    (hitems : ItemsWellFormed items) (hlines : lines.map Line.shape = renderItems column items)
    (h : Decides (itemsReadable items = true) (ItemsRead reader rest (itemValues items))
      (ItemsMean (itemValues items))
      (parseItems source sourceLength fuel column (reader.at (lines ++ rest)))) :
    Decides (itemsReadable items = true) (Reads reader rest (.array (itemValues items)))
      (Means (.array (itemValues items)))
      (parseBlock source sourceLength (fuel + 2) column (reader.at (lines ++ rest))) := by
  cases items with
  | nil => exact absurd rfl hne
  | cons item items =>
      have hcontent := Line.content_of_shape hlines (content_renderItems column (item :: items))
      obtain ⟨behind, more, hrender, hitem⟩ := item.render_cons column hitems.1
      rw [renderItems, hrender, List.cons_append] at hlines
      obtain ⟨line, lines, rfl, hshape, -⟩ := List.map_eq_cons_iff.mp hlines
      obtain ⟨hindent, hline⟩ := Prod.mk.inj hshape
      rw [List.cons_append, parseBlock_at source sourceLength reader
        (hcontent line List.mem_cons_self) hindent, hline, hitem, if_pos (Option.some_ne_none _)]
      exact parseSequence_decides _ h

/-- After a shifted entry the mapping ends. -/
theorem parseEntries_shifted {fuel indent : Nat} {seen : List (String × Loc)}
    {entries : List Entry} (hlines : lines.map Line.shape = renderEntries column entries)
    (hrest : Before indent rest) (hindent : indent < column) :
    Decides (entries = []) (EntriesRead reader rest (entryFields entries))
      (EntriesMean (entryFields entries)) (parseEntries source sourceLength (fuel + 1) indent seen
        none (reader.at (lines ++ rest))) := by
  have hends : ∀ next ∈ (lines ++ rest).head?, next.isTrivia = false ∧ next.indent ≠ indent := by
    cases entries with
    | nil =>
        obtain rfl := List.map_eq_nil_iff.mp hlines
        intro next hnext
        exact ⟨(hrest next hnext).1, (hrest next hnext).2.ne⟩
    | cons entry entries =>
        obtain ⟨line, lines, rfl, hshape, -⟩ := List.map_eq_cons_iff.mp hlines
        obtain ⟨hcolumn, hline⟩ := Prod.mk.inj hshape
        intro next hnext
        obtain rfl := Option.some.inj hnext
        exact ⟨Line.not_isTrivia (hline ▸ entry.content), by omega⟩
  rw [parseEntries_end source sourceLength reader hends]
  refine .ok ?_ ?_
  · rintro rfl
    obtain rfl := List.map_eq_nil_iff.mp hlines
    exact ⟨rfl, rfl⟩
  · rintro hne ⟨read, hread, hperm⟩
    obtain rfl := Except.ok.inj hread
    cases entries with
    | nil => exact hne rfl
    | cons entry entries => exact absurd hperm.length_eq (by simp [entryFields])

end Blocks

section Reading

variable (source sourceLength : Nat) (reader : Reader)

theorem bool_and_iff {a b : Bool} : (a = true ∧ b = true) ↔ (a && b) = true := by
  rw [Bool.and_eq_true]

mutual

/-- A block is read as its value exactly if its layout is readable. -/
theorem Layout.read : ∀ (node : Layout), node.WellFormed → ∀ {fuel column : Nat}
    {lines rest : List Line}, lines.map Line.shape = node.render column → Before column rest →
    8 * lines.length + 6 ≤ fuel →
    Decides (node.readable = true) (Reads reader rest node.value) (Means node.value)
      (parseBlock source sourceLength fuel column (reader.at (lines ++ rest)))
  | .scalar scalar, _, fuel, column, lines, rest, hlines, _, hfuel => by
      obtain ⟨line, _, rfl, hshape, hnil⟩ := List.map_eq_cons_iff.mp hlines
      obtain rfl := List.map_eq_nil_iff.mp hnil
      obtain ⟨hindent, hline⟩ := Prod.mk.inj hshape
      obtain ⟨fuel, rfl⟩ := Nat.exists_eq_add_of_lt (show 0 < fuel by omega)
      rw [Nat.zero_add, List.singleton_append, parseBlock_at source sourceLength reader
        (hline ▸ scalar.content) hindent, hline, scalar.notItem, scalar.unsplit,
        scalar.parseInlineValue_eq]
      exact .ok (fun _ => ⟨rfl, rfl⟩) fun h => absurd rfl h
  | .sequence items, h, fuel, column, lines, rest, hlines, hrest, hfuel => by
      obtain ⟨fuel, rfl⟩ := Nat.exists_eq_add_of_le (show 2 ≤ fuel by omega)
      rw [Nat.add_comm 2 fuel]
      exact parseBlock_items source sourceLength reader h.1 h.2 hlines
        (itemsRead items h.2 hlines hrest.endsItems (by omega))
  | .mapping entries, h, fuel, column, lines, rest, hlines, hrest, hfuel => by
      obtain ⟨fuel, rfl⟩ := Nat.exists_eq_add_of_le (show 2 ≤ fuel by omega)
      rw [Nat.add_comm 2 fuel]
      have hentries := @entriesRead entries h.2.2 h.2.1 fuel column [] lines rest
        (fun _ _ => rfl) hlines hrest (by omega)
      cases entries with
      | nil => exact absurd rfl h.1
      | cons entry entries =>
          obtain ⟨line, lines, rfl, hshape, -⟩ := List.map_eq_cons_iff.mp hlines
          obtain ⟨hindent, hline⟩ := Prod.mk.inj hshape
          rw [List.cons_append, parseBlock_at source sourceLength reader (hline ▸ entry.content)
            hindent, hline, entry.itemText_line, entry.splitMapping_line]
          exact parseMapping_decides _ (keys_entryFields _ ▸ h.2.1) hentries

/-- The value of an item is read behind its dash. -/
theorem Item.read : ∀ (item : Item), item.WellFormed → ∀ {fuel column : Nat} {line : Line}
    {lines rest : List Line} {behind : List Char},
    (line :: lines).map Line.shape = item.render column → line.content = '-' :: behind →
    AtMost column rest → 8 * lines.length + 11 ≤ fuel →
    Decides (item.readable = true) (Reads reader rest item.value) (Means item.value)
      (parseItem source sourceLength fuel column line (trimStart behind)
        (reader.at (lines ++ rest)))
  | .under extra node, h, fuel, column, line, lines, rest, behind, hlines, hline, hrest, hfuel => by
      obtain ⟨fuel, rfl⟩ := Nat.exists_eq_add_of_lt (show 0 < fuel by omega)
      obtain ⟨hshape, hlines⟩ := List.cons.inj hlines
      obtain rfl : behind = [] :=
        (List.cons.inj (hline.symm.trans (Prod.mk.inj hshape).2)).2
      have hnode := @Layout.read node h fuel (column + extra + 1) lines rest hlines
        (hrest.before (by omega)) (by omega)
      have hcontent := Line.content_of_shape hlines
        (Layout.content_render (column + extra + 1) node)
      obtain ⟨text, more, hrender⟩ := node.render_cons (column + extra + 1) h
      rw [hrender] at hlines
      obtain ⟨next, lines, rfl, hnext, -⟩ := List.map_eq_cons_iff.mp hlines
      have hindent : next.indent = column + extra + 1 := (Prod.mk.inj hnext).1
      rw [Nat.zero_add, parseItem, List.cons_append,
        reader.skipTrivia_content _ (hcontent next List.mem_cons_self)]
      simp only [trimStart, List.dropWhile_nil, if_true, Reader.remaining_at]
      rw [if_neg (by omega), hindent]
      exact hnode
  | .onLine gap (.scalar scalar), _, fuel, column, line, lines, rest, behind, hlines, hline, _,
      hfuel => by
      obtain ⟨fuel, rfl⟩ := Nat.exists_eq_add_of_lt (show 0 < fuel by omega)
      obtain ⟨hshape, hnil⟩ := List.cons.inj hlines
      obtain rfl := List.map_eq_nil_iff.mp hnil
      obtain rfl : behind = spaces (gap + 1) ++ scalar.text :=
        (List.cons.inj (hline.symm.trans (Prod.mk.inj hshape).2)).2
      rw [Nat.zero_add, trimStart_spaces scalar.starts, parseItem, if_neg scalar.starts.ne_nil,
        scalar.unsplit, scalar.parseInlineValue_eq]
      exact .ok (fun _ => ⟨rfl, rfl⟩) fun h => absurd rfl h
  | .onLine gap (.sequence []), h, _, _, _, _, _, _, _, _, _, _ => absurd rfl h.1
  | .onLine gap (.sequence (item :: items)), h, fuel, column, line, lines, rest, behind, hlines,
      hline, _, hfuel => by
      -- the line of the nested sequence is read as a mapping or as a scalar
      obtain ⟨fuel, rfl⟩ := Nat.exists_eq_add_of_lt (show 0 < fuel by omega)
      obtain ⟨inner, more, hrender, -⟩ := item.render_cons (column + 2 + gap) h.2.1
      rw [Item.render, Layout.render, renderItems, hrender, List.cons_append, onDash] at hlines
      obtain ⟨hshape, -⟩ := List.cons.inj hlines
      obtain rfl : behind = spaces (gap + 1) ++ '-' :: inner :=
        (List.cons.inj (hline.symm.trans (Prod.mk.inj hshape).2)).2
      rw [Nat.zero_add, trimStart_spaces ⟨'-', inner, rfl, by decide⟩, parseItem,
        if_neg (List.cons_ne_nil _ _)]
      refine ⟨fun hreadable => (by cases hreadable), fun _ result hresult => ?_⟩
      split at hresult
      · exact parseMapping_refuses _ _ _ hresult
      · exact parseInlineValue_dash source line inner _ _ hresult _
  | .onLine gap (.mapping []), h, _, _, _, _, _, _, _, _, _, _ => absurd rfl h.1
  | .onLine gap (.mapping (entry :: entries)), h, fuel, column, line, lines, rest, behind, hlines,
      hline, hrest, hfuel => by
      obtain ⟨fuel, rfl⟩ := Nat.exists_eq_add_of_le (show 3 ≤ fuel by omega)
      obtain ⟨hkey, hkeys⟩ := List.nodup_cons.mp h.2.1
      rw [Item.render, Layout.render, renderEntries, onDash] at hlines
      obtain ⟨hshape, hlines⟩ := List.cons.inj hlines
      obtain rfl : behind = spaces (gap + 1) ++ entry.line :=
        (List.cons.inj (hline.symm.trans (Prod.mk.inj hshape).2)).2
      obtain ⟨below, more, rfl, hbelow, hmore⟩ := List.map_eq_append_iff.mp hlines
      rw [List.length_append] at hfuel
      have hnext : EndsItems (column + 2 + gap) (more ++ rest) :=
        endsItems_entries hmore (hrest.before (by omega))
      have hvalue := fun keyLocation => @Entry.read entry h.2.2.1 fuel (column + 2)
        (column + 2 + gap) line keyLocation below (more ++ rest) hbelow hnext (by omega) (by omega)
      rw [show 3 + fuel = fuel + 1 + 1 + 1 by omega, trimStart_spaces entry.content.starts,
        parseItem, if_neg entry.content.starts.ne_nil, entry.splitMapping_line, List.append_assoc]
      have hothers : ∀ keyLocation, Decides
          ((gap = 0 ∨ entries = []) ∧ entriesReadable (decide (0 < gap)) entries = true)
          (EntriesRead reader rest (entryFields entries)) (EntriesMean (entryFields entries))
          (parseEntries source sourceLength fuel (column + 2) [(entry.key.name, keyLocation)] none
            (reader.at (more ++ rest))) := by
        intro keyLocation
        rcases Nat.eq_zero_or_pos gap with rfl | hgap
        · refine (entriesRead entries h.2.2.2 hkeys (fun entry' hmem => ?_) hmore
            (hrest.before (by omega)) (by omega)).congr (by simp)
          rw [lookup_cons_ne]
          · rfl
          · intro heq
            exact hkey (List.mem_map.mpr ⟨entry', hmem, heq⟩)
        · obtain ⟨fuel, rfl⟩ := Nat.exists_eq_add_of_lt (show 0 < fuel by omega)
          refine (parseEntries_shifted source sourceLength reader hmore (hrest.before (by omega))
            (by omega)).congr ?_
          constructor
          · rintro rfl
            exact ⟨.inr rfl, rfl⟩
          · exact fun hboth => hboth.1.resolve_left (by omega)
      have hcontent := Line.content_of_shape hlines fun line hline =>
        Layout.content_render (column + 2 + gap) (.mapping (entry :: entries)) line
          (List.mem_cons_of_mem _ hline)
      have hhead := List.append_assoc below more rest ▸ head_not_isTrivia hcontent hrest
      refine parseMapping_decides _ (keys_entryFields _ ▸ h.2.1) ?_
      rw [parseEntries_pending source sourceLength reader hhead]
      refine (entryStep_decides rfl (keys_entryFields _ ▸ hkey) hvalue hothers).congr ?_
      simp only [Item.readable, entriesReadable, List.length_cons, Bool.and_eq_true,
        Bool.or_eq_true, decide_eq_true_eq]
      have hlength : entries.length + 1 = 1 ↔ entries = [] := by
        rw [Nat.add_eq_right, List.length_eq_zero_iff]
      have hshifted : column + 2 < column + 2 + gap ↔ 0 < gap := by omega
      simp only [hlength, hshifted]
      tauto

/-- The value of an entry is read behind its colon or below its key. -/
theorem Entry.read : ∀ (entry : Entry), entry.WellFormed → ∀ {fuel indent column : Nat}
    {line : Line} {keyLocation : Loc} {lines rest : List Line},
    lines.map Line.shape = entry.renderBelow column → EndsItems column rest → indent ≤ column →
    8 * lines.length + 7 ≤ fuel →
    Decides (entry.readable (decide (indent < column)) = true) (Reads reader rest entry.value)
      (Means entry.value) (parseEntryValue source sourceLength fuel indent line keyLocation
        (trimStart entry.behind) (reader.at (lines ++ rest)))
  | .onLine key gap scalar, _, fuel, indent, column, line, keyLocation, lines, rest, hlines, _, _,
      hfuel => by
      obtain ⟨fuel, rfl⟩ := Nat.exists_eq_add_of_lt (show 0 < fuel by omega)
      obtain rfl := List.map_eq_nil_iff.mp hlines
      have hbar : scalar.text.head? ≠ some '|' := fun h => scalar.plainStart _ h (by decide)
      have hfold : scalar.text.head? ≠ some '>' := fun h => scalar.plainStart _ h (by decide)
      rw [Nat.zero_add, Entry.behind, trimStart_spaces scalar.starts, parseEntryValue,
        if_neg scalar.starts.ne_nil, if_neg (not_or.mpr ⟨hbar, hfold⟩), scalar.parseInlineValue_eq]
      exact .ok (fun _ => ⟨rfl, rfl⟩) fun h => absurd rfl h
  | .under key extra node, h, fuel, indent, column, line, keyLocation, lines, rest, hlines, hrest,
      hle, hfuel => by
      obtain ⟨fuel, rfl⟩ := Nat.exists_eq_add_of_lt (show 0 < fuel by omega)
      have hnode := @Layout.read node h fuel (column + extra + 1) lines rest hlines
        (hrest.1.before (by omega)) (by omega)
      have hcontent := Line.content_of_shape hlines
        (Layout.content_render (column + extra + 1) node)
      obtain ⟨text, more, hrender⟩ := node.render_cons (column + extra + 1) h
      rw [Entry.renderBelow, hrender] at hlines
      obtain ⟨next, lines, rfl, hnext, -⟩ := List.map_eq_cons_iff.mp hlines
      have hindent : next.indent = column + extra + 1 := (Prod.mk.inj hnext).1
      rw [Nat.zero_add, parseEntryValue, List.cons_append,
        reader.skipTrivia_content _ (hcontent next List.mem_cons_self)]
      simp only [Entry.behind, trimStart, List.dropWhile_nil, if_true, Reader.remaining_at]
      rw [if_neg (by omega), hindent]
      exact hnode
  | .flush key items, h, fuel, indent, column, line, keyLocation, lines, rest, hlines, hrest, hle,
      hfuel => by
      obtain ⟨fuel, rfl⟩ := Nat.exists_eq_add_of_le (show 3 ≤ fuel by omega)
      have hitems := parseBlock_items source sourceLength reader h.1 h.2 hlines
        (@itemsRead items h.2 fuel column lines rest hlines hrest (by omega))
      have hcontent := Line.content_of_shape hlines (content_renderItems column items)
      cases items with
      | nil => exact absurd rfl h.1
      | cons item items =>
          obtain ⟨behind, more, hrender, -⟩ := item.render_cons column h.2.1
          rw [Entry.renderBelow, renderItems, hrender] at hlines
          obtain ⟨next, lines, rfl, hnext, -⟩ := List.map_eq_cons_iff.mp hlines
          have hindent : next.indent = column := (Prod.mk.inj hnext).1
          rw [show 3 + fuel = fuel + 2 + 1 by omega, parseEntryValue, List.cons_append,
            reader.skipTrivia_content _ (hcontent next List.mem_cons_self)]
          simp only [Entry.behind, trimStart, List.dropWhile_nil, if_true, Reader.remaining_at]
          by_cases hshifted : indent < column
          · rw [if_neg (by omega), hindent]
            exact hitems.congr (by simp [Entry.readable, hshifted])
          · -- the sequence is not indented further than the mapping: the value is empty
            rw [if_pos (by omega)]
            refine .ok (fun hreadable => ?_) fun _ hmeans => by cases hmeans
            simp [Entry.readable, hshifted] at hreadable

theorem itemsRead : ∀ (items : List Item), ItemsWellFormed items → ∀ {fuel column : Nat}
    {lines rest : List Line}, lines.map Line.shape = renderItems column items →
    EndsItems column rest → 8 * lines.length + 4 ≤ fuel →
    Decides (itemsReadable items = true) (ItemsRead reader rest (itemValues items))
      (ItemsMean (itemValues items))
      (parseItems source sourceLength fuel column (reader.at (lines ++ rest)))
  | [], _, fuel, column, lines, rest, hlines, hrest, hfuel => by
      obtain ⟨fuel, rfl⟩ := Nat.exists_eq_add_of_lt (show 0 < fuel by omega)
      obtain rfl := List.map_eq_nil_iff.mp hlines
      rw [Nat.zero_add, List.nil_append, parseItems_end source sourceLength reader hrest]
      exact .ok (fun _ => ⟨rfl, rfl⟩) fun h => absurd rfl h
  | item :: items, h, fuel, column, lines, rest, hlines, hrest, hfuel => by
      obtain ⟨fuel, rfl⟩ := Nat.exists_eq_add_of_lt (show 0 < fuel by omega)
      obtain ⟨first, more, rfl, hfirst, hmore⟩ := List.map_eq_append_iff.mp hlines
      have hcontent := Line.content_of_shape hfirst (item.content_render column)
      obtain ⟨behind, others, hrender, hitem⟩ := item.render_cons column h.1
      obtain ⟨line, first, rfl, hshape, -⟩ := List.map_eq_cons_iff.mp (hfirst.trans hrender)
      obtain ⟨hindent, hline⟩ := Prod.mk.inj hshape
      simp only [List.length_append, List.length_cons] at hfuel
      have hvalue := @Item.read item h.1 fuel column line first (more ++ rest) behind hfirst hline
        (atMost_items h.2 hmore hrest) (by omega)
      have hvalues := @itemsRead items h.2 fuel column more rest hmore hrest (by omega)
      rw [Nat.zero_add, List.append_assoc, List.cons_append, parseItems_item source sourceLength
        reader (hcontent line List.mem_cons_self) hindent (hline ▸ hitem)]
      refine (hvalue.bind (fun result hresult => ?_) fun result results hresults hmeans => ?_).congr
        bool_and_iff
      · obtain ⟨node, _⟩ := result
        obtain ⟨rfl, hnode⟩ := hresult
        refine hvalues.map ?_ ?_
        · rintro ⟨nodes, _⟩ ⟨rfl, hnodes⟩
          exact ⟨rfl, materializeValues_cons.mpr ⟨hnode, hnodes⟩⟩
        · rintro ⟨nodes, _⟩ hmeans
          exact (materializeValues_cons.mp hmeans).2
      · obtain ⟨node, _⟩ := result
        obtain ⟨⟨nodes, _⟩, -, hresults⟩ := bind_eq_ok.mp hresults
        obtain rfl := Except.ok.inj hresults
        exact (materializeValues_cons.mp hmeans).1

theorem entriesRead : ∀ (entries : List Entry), EntriesWellFormed entries →
    (entries.map (·.key.name)).Nodup → ∀ {fuel column : Nat} {seen : List (String × Loc)}
    {lines rest : List Line}, (∀ entry ∈ entries, seen.lookup entry.key.name = none) →
    lines.map Line.shape = renderEntries column entries → Before column rest →
    8 * lines.length + 1 ≤ fuel →
    Decides (entriesReadable false entries = true)
      (EntriesRead reader rest (entryFields entries)) (EntriesMean (entryFields entries))
      (parseEntries source sourceLength fuel column seen none (reader.at (lines ++ rest)))
  | [], _, _, fuel, column, seen, lines, rest, _, hlines, hrest, hfuel => by
      obtain ⟨fuel, rfl⟩ := Nat.exists_eq_add_of_lt (show 0 < fuel by omega)
      obtain rfl := List.map_eq_nil_iff.mp hlines
      rw [Nat.zero_add, List.nil_append, parseEntries_end source sourceLength reader fun next hnext =>
        ⟨(hrest next hnext).1, (hrest next hnext).2.ne⟩]
      exact .ok (fun _ => ⟨rfl, rfl⟩) fun h => absurd rfl h
  | entry :: entries, h, hkeys, fuel, column, seen, lines, rest, hseen, hlines, hrest,
      hfuel => by
      obtain ⟨fuel, rfl⟩ := Nat.exists_eq_add_of_lt (show 0 < fuel by omega)
      obtain ⟨hkey, hkeys⟩ := List.nodup_cons.mp hkeys
      obtain ⟨line, lines, rfl, hshape, hlines⟩ := List.map_eq_cons_iff.mp hlines
      obtain ⟨hindent, hline⟩ := Prod.mk.inj hshape
      obtain ⟨first, more, rfl, hfirst, hmore⟩ := List.map_eq_append_iff.mp hlines
      simp only [List.length_append, List.length_cons] at hfuel
      rw [Nat.zero_add, List.cons_append, parseEntries_entry source sourceLength reader hline
        hindent, List.append_assoc]
      refine (entryStep_decides (hseen entry List.mem_cons_self) (keys_entryFields _ ▸ hkey)
        (fun keyLocation => Entry.read entry h.1 hfirst
          (endsItems_entries hmore hrest) le_rfl (by omega))
        (fun keyLocation => entriesRead entries h.2 hkeys (fun entry' hmem => ?_) hmore hrest
          (by omega))).congr ?_
      · rw [lookup_cons_ne]
        · exact hseen entry' (List.mem_cons_of_mem _ hmem)
        · intro heq
          exact hkey (List.mem_map.mpr ⟨entry', hmem, heq⟩)
      · simp [entriesReadable, and_assoc]

end

end Reading

section Documents

variable (source sourceLength : Nat) {node : Layout} {column : Nat} {lines : List Line}

/-- A layout starts neither with trivia nor with a document marker. -/
theorem rootReader_eq (h : node.WellFormed)
    (hlines : lines.map Line.shape = node.render column) : rootReader lines = ⟨lines, [], 0⟩ := by
  have hcontent := Line.content_of_shape hlines (node.content_render column)
  obtain ⟨text, more, hrender⟩ := node.render_cons column h
  have hmarker := Layout.first_ne_marker h hrender
  rw [hrender] at hlines
  obtain ⟨line, rest, rfl, hshape, -⟩ := List.map_eq_cons_iff.mp hlines
  have hline : line.content = text := (Prod.mk.inj hshape).2
  have hfirst := hcontent line List.mem_cons_self
  have hskip := Reader.skipTrivia_content ⟨[], [], 0⟩ rest hfirst
  have htrim : trim line.content ≠ ['-', '-', '-'] := by
    rw [trim_of_solid hfirst.starts hfirst.ends, hline]
    exact hmarker
  change (Reader.skipTrivia ⟨line :: rest, [], 0⟩) = ⟨line :: rest, [], 0⟩ at hskip
  simp [rootReader, hskip, htrim]

/-- The lines of a layout are read to its tree exactly if the layout is readable. -/
theorem lowerLines_decides (h : node.WellFormed)
    (hlines : lines.map Line.shape = node.render column) :
    Decides (node.readable = true) (fun root => root.materialize = .ok node.value)
      (fun root => root.materialize = .ok node.value) (lowerLines source sourceLength lines) := by
  have hcontent := Line.content_of_shape hlines (node.content_render column)
  have htab : lines.find? (fun line => line.content.head? = some '\t') = none := by
    rw [List.find?_eq_none]
    intro line hline
    obtain ⟨c, rest, htext, hc⟩ := (hcontent line hline).starts
    rw [htext, List.head?_cons, decide_eq_true_eq]
    intro hc'
    obtain rfl := Option.some.inj hc'
    cases hc
  have hread : Decides (node.readable = true) (Reads ⟨[], [], 0⟩ [] node.value)
      (Means node.value) (parseRoot source sourceLength ⟨lines, [], 0⟩) := by
    obtain ⟨text, more, hrender⟩ := node.render_cons column h
    obtain ⟨line, rest, rfl, hshape, -⟩ := List.map_eq_cons_iff.mp (hlines.trans hrender)
    have hblock := @Layout.read source sourceLength ⟨[], [], 0⟩ node h
      (8 * (line :: rest).length + 6) column (line :: rest) [] hlines
      (fun _ hnext => by cases hnext) le_rfl
    rw [List.append_nil] at hblock
    have hindent : line.indent = column := (Prod.mk.inj hshape).1
    rw [parseRoot]
    change Decides _ _ _ (parseBlock source sourceLength (8 * (line :: rest).length + 6)
      line.indent ⟨line :: rest, [], 0⟩)
    rw [hindent]
    exact hblock
  rw [lowerLines, htab, rootReader_eq h hlines]
  constructor
  · intro hreadable
    obtain ⟨⟨root, _⟩, hroot, rfl, hvalue⟩ := hread.returns hreadable
    exact ⟨root, bind_eq_ok.mpr ⟨_, hroot, rfl⟩, hvalue⟩
  · intro hreadable root hroot hvalue
    obtain ⟨⟨root', reader⟩, hroot', hend⟩ := bind_eq_ok.mp hroot
    refine hread.refuses hreadable _ hroot' ?_
    cases hremaining : reader.skipTrivia.remaining with
    | nil =>
        simp only [hremaining] at hend
        obtain rfl : root' = root := Except.ok.inj hend
        exact hvalue
    | cons line rest =>
        simp only [hremaining] at hend
        cases hend

theorem lower_decides (h : node.WellFormed) {fragments : List (List Char)}
    (htext : fragments.flatten = linesText (node.render column)) :
    Decides (node.readable = true) (fun value => value = node.value)
      (fun value => value = node.value) (lower source fragments) := by
  have hne : node.render column ≠ [] := by
    obtain ⟨text, more, hrender⟩ := node.render_cons column h
    rw [hrender]
    exact List.cons_ne_nil _ _
  have hlines := documentLines_shape hne (node.content_render column) htext
  have hroot := lowerLines_decides source (byteLength fragments.flatten) h hlines
  constructor
  · intro hreadable
    obtain ⟨root, hlower, hvalue⟩ := hroot.returns hreadable
    exact ⟨node.value, bind_eq_ok.mpr ⟨root, hlower, by rw [hvalue]; rfl⟩, rfl⟩
  · rintro hreadable value hlower rfl
    obtain ⟨root, hroot', hend⟩ := bind_eq_ok.mp hlower
    refine hroot.refuses hreadable root hroot' ?_
    cases hmaterialize : root.materialize with
    | ok value =>
        rw [hmaterialize] at hend
        exact congrArg _ (Except.ok.inj hend)
    | error message =>
        rw [hmaterialize] at hend
        cases hend

/-- The text of a layout is read back as its tree exactly if the layout is readable,
however the tree is nested and wherever its first column is. -/
theorem lower_render_iff (node : Layout) (h : node.WellFormed) (column : Nat)
    (fragments : List (List Char))
    (htext : fragments.flatten = linesText (node.render column)) :
    lower source fragments = .ok node.value ↔ node.readable = true := by
  have hiff := (lower_decides source h htext).acceptable_iff fun _ hvalue => hvalue
  rw [← hiff]
  exact ⟨fun hlower => ⟨_, hlower, rfl⟩, fun ⟨_, hlower, hvalue⟩ => hvalue ▸ hlower⟩

end Documents

/-- The scalar `a`. -/
def letterScalar : Scalar where
  text := ['a']
  value := .string "a"
  starts := ⟨'a', [], rfl, by decide⟩
  ends := ⟨[], 'a', rfl, by decide⟩
  oneLine := by decide
  plainStart := by simp [indicators]
  notItem := by decide
  notMarker := by decide
  unsplit := by decide
  uncommented := by decide
  reads := by rfl

/-- A mapping of a sequence, one of whose items is a mapping behind its dash. -/
def nestedLayout : Layout :=
  .mapping [.under ⟨['k'], rfl, rfl⟩ 1
    (.sequence [.onLine 0 (.scalar letterScalar),
      .onLine 0 (.mapping [.onLine ⟨['k'], rfl, rfl⟩ 0 letterScalar,
        .onLine ⟨['l'], rfl, rfl⟩ 0 letterScalar])])]

theorem lower_render_nested :
    lower 0 [linesText (nestedLayout.render 2)] = .ok nestedLayout.value :=
  (lower_render_iff 0 nestedLayout
    (by simp [nestedLayout, Layout.WellFormed, EntriesWellFormed, Entry.WellFormed,
      ItemsWellFormed, Item.WellFormed, Entry.key, Identifier.name])
    2 _ (List.append_nil _)).mpr rfl

/-- The document `k:`, `- a`: a sequence that is flush with its key. -/
def flushLayout : Layout :=
  .mapping [.flush ⟨['k'], rfl, rfl⟩ [.onLine 0 (.scalar letterScalar)]]

/-- A sequence that is flush with its key is not read, although block style allows it. -/
theorem flush_not_read :
    flushLayout.WellFormed ∧
      linesText (flushLayout.render 0) = ['k', ':', '\n', '-', ' ', 'a', '\n'] ∧
      ¬∀ node : Layout, node.WellFormed → ∀ column : Nat,
        lower 0 [linesText (node.render column)] = .ok node.value := by
  have hformed : flushLayout.WellFormed := by
    simp [flushLayout, Layout.WellFormed, EntriesWellFormed, Entry.WellFormed,
      ItemsWellFormed, Item.WellFormed]
  refine ⟨hformed, rfl, fun hall => ?_⟩
  have htext : [linesText (flushLayout.render 0)].flatten = linesText (flushLayout.render 0) :=
    List.append_nil _
  have hdecides := lower_decides 0 hformed htext
  exact hdecides.refuses (by decide) _ (hall flushLayout hformed 0) rfl

end Telora.Yaml
