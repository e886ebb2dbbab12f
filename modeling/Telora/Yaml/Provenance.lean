import Telora.Yaml.Aliases

/-!
# Provenance of mapping entries

Where the text of a key and of a value really stands, next to the location that the reader
records for it. The text of a block goes from its first dash or key to the end of its last
value; an absent value has no text, and a block that ends with one ends behind the colon. The
recorded location is the place of the text unless something stands in front of the text or behind
it that the reader counts wrong.
-/

namespace Telora.Yaml

open Library

namespace Mark

/-- Where the text of a mark ends. -/
def stop (mark : Mark) : Nat := mark.start + byteLength mark.text

/-- The text has nothing around it that is counted wrong. -/
def Bare (mark : Mark) : Prop := mark.skipped = [] ∧ mark.padding = []

instance (mark : Mark) : Decidable mark.Bare := inferInstanceAs (Decidable (_ ∧ _))

end Mark

namespace WrittenKey

/-- The location of a key is the place of its text. -/
def Located (key : WrittenKey) : Prop :=
  key.mark.location.start = key.mark.start ∧ key.mark.location.stop = key.mark.stop

end WrittenKey

section Marks

variable {document : List Char} {start : Nat} {skipped : List Char} {mark : Mark}
  {key : WrittenKey}

theorem eq_add_byteLength_iff : start = start + byteLength skipped ↔ skipped = [] := by
  constructor
  · intro heq
    exact byteLength_eq_zero (by omega)
  · rintro rfl
    rfl

/-- Without white space behind it a text ends where its location does, unless something in front
of it is not counted. -/
theorem Mark.Stands.stop_iff (h : mark.Stands document) (hpadding : mark.padding = []) :
    mark.location.stop = mark.stop ↔ mark.skipped = [] := by
  rw [h.stop, hpadding, byteLength_nil, Mark.stop, Mark.start]
  constructor
  · intro heq
    exact byteLength_eq_zero (by omega)
  · intro hskipped
    rw [hskipped, byteLength_nil]
    omega

/-- A location is the place of the text exactly when the mark is bare. -/
theorem Mark.Stands.located_iff (h : mark.Stands document) :
    mark.location.start = mark.start ∧ mark.location.stop = mark.stop ↔ mark.Bare := by
  rw [h.stop, Mark.stop, Mark.start, eq_add_byteLength_iff]
  constructor
  · rintro ⟨hskipped, hend⟩
    rw [hskipped, byteLength_nil] at hend
    exact ⟨hskipped, byteLength_eq_zero (by omega)⟩
  · rintro ⟨hskipped, hpadding⟩
    rw [hskipped, hpadding, byteLength_nil]
    exact ⟨rfl, by omega⟩

theorem WrittenKey.Stands.located_iff (h : key.Stands document) :
    key.Located ↔ key.mark.Bare := by
  obtain ⟨inner, hinner, hstop⟩ := h.stop
  rw [WrittenKey.Located, hstop, Mark.stop, Mark.start, eq_add_byteLength_iff]
  constructor
  · rintro ⟨hskipped, hend⟩
    rw [hskipped, byteLength_nil] at hend
    exact ⟨hskipped, byteLength_eq_zero (by omega)⟩
  · rintro ⟨hskipped, hpadding⟩
    rw [hskipped, byteLength_nil] at hinner ⊢
    rw [hpadding, byteLength_nil]
    exact ⟨rfl, by omega⟩

end Marks

namespace Written

/-- Where the text of a value starts. -/
def textStart : Written → Nat
  | absent location | sequence _ location => location.start
  | folded _ location skipped | mapping _ location skipped =>
      location.start + byteLength skipped
  | scalar _ mark | flowSequence _ mark | flowMapping _ mark | reference _ _ mark => mark.start

mutual

/-- Where the text of a value ends, behind a text that ends already. -/
def textStop (behind : Nat) : Written → Nat
  | absent _ => behind
  | scalar _ mark | flowSequence _ mark | flowMapping _ mark | reference _ _ mark => mark.stop
  | folded _ location _ => location.stop
  | sequence values location => valuesStop location.start values
  | mapping entries location _ => entriesStop location.start entries

def valuesStop (behind : Nat) : List Written → Nat
  | [] => behind
  | value :: rest => valuesStop (value.textStop behind) rest

def entriesStop (behind : Nat) : List (WrittenKey × Written) → Nat
  | [] => behind
  | (key, value) :: rest => entriesStop (value.textStop (key.colon + 1)) rest

end

/-- The location of a value is the place of its text, if it has one. -/
def Located : Written → Prop
  | absent _ => True
  | value => value.expand.location.start = value.textStart ∧
      value.expand.location.stop = value.textStop 0

mutual

/-- A value in a block whose location ends where its text does. -/
def Closed : Written → Prop
  | absent _ => False
  | scalar _ mark | flowSequence _ mark | flowMapping _ mark | reference _ _ mark =>
      mark.skipped = []
  | folded _ _ _ => True
  | sequence values _ => ValuesClosed True values
  | mapping entries _ _ => EntriesClosed True entries

def ValuesClosed (closed : Prop) : List Written → Prop
  | [] => closed
  | value :: rest => ValuesClosed value.Closed rest

def EntriesClosed (closed : Prop) : List (WrittenKey × Written) → Prop
  | [] => closed
  | (_, value) :: rest => EntriesClosed value.Closed rest

end

/-- Nothing around a value is counted wrong: an alias is not in flow style, a value is not a
block scalar, and a block starts and ends where its location does. -/
def Bare : Written → Prop
  | absent _ => True
  | scalar _ mark | flowSequence _ mark | flowMapping _ mark => mark.Bare
  | reference _ inFlow mark => inFlow = false ∧ mark.Bare
  | folded _ _ _ => False
  | sequence values _ => ValuesClosed True values
  | mapping entries _ skipped => skipped = [] ∧ EntriesClosed True entries

mutual

def decideClosed : (value : Written) → Decidable value.Closed
  | absent _ => inferInstanceAs (Decidable False)
  | scalar _ mark | flowSequence _ mark | flowMapping _ mark | reference _ _ mark =>
      inferInstanceAs (Decidable (mark.skipped = []))
  | folded _ _ _ => inferInstanceAs (Decidable True)
  | sequence values _ => decideValuesClosed (.isTrue trivial) values
  | mapping entries _ _ => decideEntriesClosed (.isTrue trivial) entries

def decideValuesClosed {closed : Prop} (first : Decidable closed) :
    (values : List Written) → Decidable (ValuesClosed closed values)
  | [] => first
  | value :: rest => decideValuesClosed value.decideClosed rest

def decideEntriesClosed {closed : Prop} (first : Decidable closed) :
    (entries : List (WrittenKey × Written)) → Decidable (EntriesClosed closed entries)
  | [] => first
  | (_, value) :: rest => decideEntriesClosed value.decideClosed rest

end

instance : DecidablePred Bare
  | absent _ => inferInstanceAs (Decidable True)
  | scalar _ mark | flowSequence _ mark | flowMapping _ mark =>
      inferInstanceAs (Decidable mark.Bare)
  | reference _ inFlow mark => inferInstanceAs (Decidable (inFlow = false ∧ mark.Bare))
  | folded _ _ _ => inferInstanceAs (Decidable False)
  | sequence values _ => decideValuesClosed (.isTrue trivial) values
  | mapping entries _ skipped =>
      have := decideEntriesClosed (.isTrue trivial) entries
      inferInstanceAs (Decidable (skipped = [] ∧ EntriesClosed True entries))

section Ends

variable {document : List Char}

theorem getLast?_cons_map {α β : Type} (f : α → β) (first : α) (rest : List α) (last : β) :
    ((first :: rest).getLast?.map f).getD last = (rest.getLast?.map f).getD (f first) := by
  rw [List.getLast?_cons]
  cases rest.getLast? <;> rfl

/-- A value in a block ends where its location does exactly when it is closed. -/
def Ends (value : Written) : Prop :=
  ∀ behind, value.expand.nodeEnd = value.textStop behind ↔ value.Closed

theorem lastEnd_eq_valuesStop_iff {values : List Written} (h : ∀ value ∈ values, value.Ends)
    (recorded behind : Nat) :
    (values.getLast?.map fun value => value.expand.nodeEnd).getD recorded =
        valuesStop behind values ↔
      ValuesClosed (recorded = behind) values := by
  induction values generalizing recorded behind with
  | nil => exact Iff.rfl
  | cons value rest ih =>
      obtain ⟨hvalue, hrest⟩ := List.forall_mem_cons.mp h
      rw [getLast?_cons_map, valuesStop, ih hrest, propext (hvalue behind)]
      exact Iff.rfl

/-- An entry ends where the location of its value does exactly when the value is closed. -/
def EntryEnds (key : WrittenKey) (value : Written) : Prop :=
  value.expand.nodeEnd = value.textStop (key.colon + 1) ↔ value.Closed

theorem lastEnd_eq_entriesStop_iff {entries : List (WrittenKey × Written)}
    (h : ∀ entry ∈ entries, EntryEnds entry.1 entry.2) (recorded behind : Nat) :
    (entries.getLast?.map fun entry => entry.2.expand.nodeEnd).getD recorded =
        entriesStop behind entries ↔
      EntriesClosed (recorded = behind) entries := by
  induction entries generalizing recorded behind with
  | nil => exact Iff.rfl
  | cons entry rest ih =>
      obtain ⟨hentry, hrest⟩ := List.forall_mem_cons.mp h
      obtain ⟨key, value⟩ := entry
      rw [getLast?_cons_map, entriesStop, ih hrest]
      rw [EntriesClosed, ← propext hentry]

/-- The location of an absent value ends in front of the colon of its key. -/
theorem ends_absent {key : WrittenKey} {value : Written}
    (h : key.Stands document) (hvalue : value = .absent key.mark.location) :
    EntryEnds key value := by
  subst hvalue
  obtain ⟨inner, hinner, hstop⟩ := h.stop
  refine iff_of_false (fun heq => ?_) id
  change key.mark.location.stop = key.colon + 1 at heq
  rw [WrittenKey.colon, Mark.start] at heq
  omega

/-- In a block the location of a value ends where its text does exactly when it is closed. -/
theorem Traced.ends {value : Written} (h : value.Traced document) (hwhole : value.Whole) :
    value.Ends := by
  induction h with
  | absent => exact hwhole.elim
  | scalar stands => exact fun _ => stands.stop_iff hwhole
  | flowSequence stands => exact fun _ => stands.stop_iff hwhole
  | flowMapping stands => exact fun _ => stands.stop_iff hwhole
  | folded => exact fun _ => iff_of_true rfl trivial
  | @sequence values location _ stop whole _ ih =>
      intro behind
      change location.stop = valuesStop location.start values ↔ ValuesClosed True values
      rw [stop, lastEnd_eq_valuesStop_iff fun value hvalue => ih value hvalue (whole value hvalue),
        eq_self]
  | @mapping entries location _ _ stop keys whole _ ih =>
      intro behind
      have hentries : ∀ entry ∈ entries, EntryEnds entry.1 entry.2 := fun entry hentry =>
        (whole entry hentry).elim (fun hvalue => ih entry hentry hvalue _)
          (ends_absent (keys entry hentry))
      change location.stop = entriesStop location.start entries ↔ EntriesClosed True entries
      rw [stop, lastEnd_eq_entriesStop_iff hentries, eq_self]
  | @reference target inFlow mark stands _ _ _ _ _ =>
      intro behind
      obtain ⟨rfl, hpadding⟩ := hwhole
      have hlocation :
          (Written.reference target false mark).expand.nodeEnd = mark.location.stop := by
        change (target.expand.setNodeLocation mark.location).location.stop = _
        rw [setNodeLocation_location]
      rw [hlocation]
      exact stands.stop_iff hpadding

end Ends

section Places

variable {document : List Char}

/-- The location of a value is the place of its text exactly when the value is bare. -/
theorem Traced.located_iff_bare {value : Written} (h : value.Traced document) :
    value.Located ↔ value.Bare := by
  cases h with
  | absent => exact Iff.rfl
  | scalar stands => exact stands.located_iff
  | flowSequence stands => exact stands.located_iff
  | flowMapping stands => exact stands.located_iff
  | folded _ _ _ _ hidden =>
      exact iff_of_false (fun hlocated => hidden (eq_add_byteLength_iff.mp hlocated.1)) id
  | @sequence values location _ stop whole traced =>
      have hends : ∀ value ∈ values, value.Ends := fun value hvalue =>
        (traced value hvalue).ends (whole value hvalue)
      change location.start = location.start ∧
        location.stop = valuesStop location.start values ↔ ValuesClosed True values
      rw [stop, lastEnd_eq_valuesStop_iff hends, eq_self, true_and]
  | @mapping entries location skipped _ stop keys whole traced =>
      have hentries : ∀ entry ∈ entries, EntryEnds entry.1 entry.2 := fun entry hentry =>
        (whole entry hentry).elim (fun hvalue => (traced entry hentry).ends hvalue _)
          (ends_absent (keys entry hentry))
      change location.start = location.start + byteLength skipped ∧
        location.stop = entriesStop location.start entries ↔
          skipped = [] ∧ EntriesClosed True entries
      rw [eq_add_byteLength_iff, stop, lastEnd_eq_entriesStop_iff hentries, eq_self]
  | @reference target inFlow mark stands _ _ _ earlier =>
      cases inFlow with
      | true =>
          -- the location of the anchor is in front of the alias
          refine iff_of_false (fun hlocated => ?_) (fun hbare => by cases hbare.1)
          have hstart : target.expand.location.start = mark.start := hlocated.1
          have hearlier := earlier rfl
          rw [Mark.start] at hstart
          omega
      | false =>
          change (target.expand.setNodeLocation mark.location).location.start = mark.start ∧
            (target.expand.setNodeLocation mark.location).location.stop = mark.stop ↔ _
          rw [setNodeLocation_location, stands.located_iff]
          exact ⟨fun hbare => ⟨rfl, hbare⟩, fun hbare => hbare.2⟩

end Places

end Written

namespace YamlNode

mutual

/-- The entries of the mappings in a node, at every depth. -/
def entries : YamlNode → List (String × Loc × YamlNode)
  | scalar _ _ => []
  | sequence values _ => valuesEntries values
  | mapping fields _ => fieldsEntries fields

def valuesEntries : List YamlNode → List (String × Loc × YamlNode)
  | [] => []
  | value :: rest => value.entries ++ valuesEntries rest

def fieldsEntries : List (String × Loc × YamlNode) → List (String × Loc × YamlNode)
  | [] => []
  | (name, location, value) :: rest =>
      (name, location, value) :: (value.entries ++ fieldsEntries rest)

end

theorem entries_setNodeLocation (node : YamlNode) (location : Loc) :
    (node.setNodeLocation location).entries = node.entries := by
  cases node <;> rfl

end YamlNode

namespace Written

mutual

/-- The entries that are written, at every depth, also behind the aliases. -/
def entries : Written → List (WrittenKey × Written)
  | absent _ | scalar _ _ | folded _ _ _ => []
  | flowSequence values _ | sequence values _ => valuesEntries values
  | flowMapping fields _ | mapping fields _ _ => fieldsEntries fields
  | reference target _ _ => target.entries

def valuesEntries : List Written → List (WrittenKey × Written)
  | [] => []
  | value :: rest => value.entries ++ valuesEntries rest

def fieldsEntries : List (WrittenKey × Written) → List (WrittenKey × Written)
  | [] => []
  | (key, value) :: rest => (key, value) :: (value.entries ++ fieldsEntries rest)

end

/-- The entry of the node that a written entry expands to. -/
def expandEntry (entry : WrittenKey × Written) : String × Loc × YamlNode :=
  (entry.1.name, entry.1.mark.location, entry.2.expand)

mutual

/-- The entries of a document are those that are written, in the same order. -/
theorem entries_expand (value : Written) :
    value.expand.entries = value.entries.map expandEntry := by
  cases value with
  | absent | scalar | folded => rfl
  | flowSequence values | sequence values => exact valuesEntries_expand values
  | flowMapping fields | mapping fields => exact fieldsEntries_expand fields
  | reference target inFlow mark =>
      cases inFlow with
      | true => exact entries_expand target
      | false =>
          change (target.expand.setNodeLocation mark.location).entries = _
          rw [YamlNode.entries_setNodeLocation]
          exact entries_expand target

theorem valuesEntries_expand (values : List Written) :
    YamlNode.valuesEntries (expandValues values) = (valuesEntries values).map expandEntry := by
  cases values with
  | nil => rfl
  | cons value rest =>
      rw [expandValues, YamlNode.valuesEntries, valuesEntries, List.map_append,
        entries_expand value, valuesEntries_expand rest]

theorem fieldsEntries_expand (fields : List (WrittenKey × Written)) :
    YamlNode.fieldsEntries (expandEntries fields) = (fieldsEntries fields).map expandEntry := by
  cases fields with
  | nil => rfl
  | cons field rest =>
      obtain ⟨key, value⟩ := field
      rw [expandEntries, YamlNode.fieldsEntries, fieldsEntries, List.map_cons, List.map_append,
        entries_expand value, fieldsEntries_expand rest]
      rfl

end

theorem mem_valuesEntries {entry : WrittenKey × Written} {values : List Written} :
    entry ∈ valuesEntries values ↔ ∃ value ∈ values, entry ∈ value.entries := by
  induction values with
  | nil => exact iff_of_false List.not_mem_nil fun ⟨_, h, _⟩ => List.not_mem_nil h
  | cons value rest ih =>
      rw [valuesEntries, List.mem_append, ih, List.exists_mem_cons_iff]

theorem mem_fieldsEntries {entry : WrittenKey × Written} {fields : List (WrittenKey × Written)} :
    entry ∈ fieldsEntries fields ↔ ∃ field ∈ fields, entry = field ∨ entry ∈ field.2.entries := by
  induction fields with
  | nil => exact iff_of_false List.not_mem_nil fun ⟨_, h, _⟩ => List.not_mem_nil h
  | cons field rest ih =>
      obtain ⟨key, value⟩ := field
      rw [fieldsEntries, List.mem_cons, List.mem_append, ih, List.exists_mem_cons_iff, or_assoc]

/-- The entries of a traced outline are traced. -/
theorem Traced.entry {document : List Char} {root : Written} (h : root.Traced document) :
    ∀ entry ∈ root.entries, entry.1.Stands document ∧ entry.2.Traced document := by
  induction h with
  | absent | scalar | folded =>
      intro entry hentry
      exact (List.not_mem_nil hentry).elim
  | flowSequence _ _ _ ih | sequence _ _ _ _ ih =>
      intro entry hentry
      obtain ⟨value, hvalue, hentry⟩ := mem_valuesEntries.mp hentry
      exact ih value hvalue entry hentry
  | flowMapping _ _ keys traced ih | mapping _ _ keys _ traced ih =>
      intro entry hentry
      obtain ⟨field, hfield, hentry⟩ := mem_fieldsEntries.mp hentry
      rcases hentry with rfl | hentry
      · exact ⟨keys entry hfield, traced entry hfield⟩
      · exact ih field hfield entry hentry
  | reference _ _ _ _ _ ih => exact ih

end Written

/-- An accepted document has an outline with its entries, in which the text of every key stands
at a place of its own. All entries have the places of their texts as locations if and only if
nothing around their keys and values is counted wrong. -/
theorem entries_located_iff {source sourceLength : Nat} {fragments : List (List Char)}
    {node : YamlNode}
    (h : lowerLines source sourceLength (documentLines fragments) = .ok node) :
    ∃ root, outline source fragments = some root ∧ root.expand = node ∧
      root.Traced fragments.flatten ∧ node.entries = root.entries.map Written.expandEntry ∧
      (∀ entry ∈ root.entries, parseKey entry.1.mark.text = .ok entry.1.name ∧
        sliceBytes entry.1.mark.start entry.1.mark.stop fragments.flatten =
          some entry.1.mark.text) ∧
      ((∀ entry ∈ root.entries, entry.1.Located ∧ entry.2.Located) ↔
        ∀ entry ∈ root.entries, entry.1.mark.Bare ∧ entry.2.Bare) := by
  obtain ⟨root, houtline, rfl, htraced, -⟩ := exists_outline h
  refine ⟨root, houtline, rfl, htraced, root.entries_expand, fun entry hentry => ?_, ?_⟩
  · obtain ⟨hkey, -⟩ := htraced.entry entry hentry
    exact ⟨hkey.name, hkey.text.slice⟩
  · refine forall₂_congr fun entry hentry => ?_
    obtain ⟨hkey, hvalue⟩ := htraced.entry entry hentry
    rw [hkey.located_iff, hvalue.located_iff_bare]

/-- A block in a block, an item with an entry, and entries in flow style. -/
def nested : List Char := "a:\n  b: 1\n  c: x\nd:\n  - \x7be: 2\x7d\n  - 3\nf: \x7bg: [4]\x7d\n".toList

/-- Nested entries of every style, all in their places. -/
theorem entries_located_nested :
    ∃ node root, lowerLines 0 nested.length (documentLines [nested]) = .ok node ∧
      outline 0 [nested] = some root ∧ root.entries.map (·.1.name) =
        ["a", "b", "c", "d", "e", "f", "g"] ∧
      ∀ entry ∈ root.entries, entry.1.Located ∧ entry.2.Located := by
  have hok : (lowerLines 0 nested.length (documentLines [nested])).toOption.isSome = true := by
    decide +kernel
  have hbare : (outline 0 [nested]).all (fun root =>
      root.entries.map (·.1.name) = ["a", "b", "c", "d", "e", "f", "g"] ∧
        ∀ entry ∈ root.entries, entry.1.mark.Bare ∧ entry.2.Bare) = true := by decide +kernel
  cases h : lowerLines 0 nested.length (documentLines [nested]) with
  | error diagnostic =>
      rw [h] at hok
      cases hok
  | ok node =>
      obtain ⟨root, houtline, -, -, -, -, hiff⟩ := entries_located_iff h
      rw [houtline] at hbare
      obtain ⟨hnames, hall⟩ := of_decide_eq_true hbare
      exact ⟨node, root, rfl, houtline, hnames, hiff.mpr hall⟩

/-- The key of an item is located at the dash in front of it. -/
theorem exists_not_located :
    ¬ ∀ (source sourceLength : Nat) (fragments : List (List Char)) (node : YamlNode)
      (root : Written), lowerLines source sourceLength (documentLines fragments) = .ok node →
      outline source fragments = some root → root.expand = node →
      ∀ entry ∈ root.entries, entry.1.Located ∧ entry.2.Located := by
  intro hclaim
  have hok : (lowerLines 0 7 (documentLines ["- a: 1\n".toList])).toOption.isSome = true := by
    decide +kernel
  have hbare : ((outline 0 ["- a: 1\n".toList]).map fun root =>
      root.entries.map fun entry => decide entry.1.mark.Bare) = some [false] := by decide +kernel
  cases h : lowerLines 0 7 (documentLines ["- a: 1\n".toList]) with
  | error diagnostic =>
      rw [h] at hok
      cases hok
  | ok node =>
      obtain ⟨root, houtline, hexpand, htraced, -⟩ := exists_outline h
      rw [houtline] at hbare
      have hentries : root.entries.map _ = [false] := Option.some.inj hbare
      obtain ⟨entry, hentry, hfalse⟩ : ∃ entry ∈ root.entries, decide entry.1.mark.Bare = false :=
        List.mem_map.mp (hentries ▸ List.mem_singleton_self false)
      have hlocated := (hclaim 0 7 _ node root h houtline hexpand entry hentry).1
      have hkey := (htraced.entry entry hentry).1.located_iff.mp hlocated
      exact of_decide_eq_false hfalse hkey

end Telora.Yaml
