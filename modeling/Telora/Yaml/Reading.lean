import Telora.Library.ExceptBind
import Telora.Yaml.Layout

/-!
# Reading the lines of a layout

What the reader makes of a single line of a layout: a key is cut off at its colon, the
text of a scalar is read as its value, and no line is taken for trivia. A block ends at
the first line behind it.
-/

namespace Telora.Yaml

open Library

/-- A line of text that is neither blank nor a comment. -/
structure Content (text : List Char) : Prop where
  starts : StartsSolid text
  ends : EndsSolid text
  oneLine : '\n' ∉ text
  uncommented : text.head? ≠ some '#'

def isKeyChar (c : Char) : Bool := c.isAlphanum || c = '_' || c = '-'

theorem isKeyChar_bounds {c : Char} (h : isKeyChar c = true) : 45 ≤ c.toNat ∧ c.toNat ≤ 122 := by
  delta isKeyChar Char.isAlphanum Char.isAlpha Char.isUpper Char.isLower Char.isDigit at h
  simp only [Bool.or_eq_true, Bool.and_eq_true, decide_eq_true_eq, ge_iff_le,
    UInt32.le_iff_toNat_le] at h
  change 45 ≤ c.val.toNat ∧ c.val.toNat ≤ 122
  rcases h with (((h | h) | h) | rfl) | rfl
  · exact ⟨le_trans (by decide) h.1, le_trans h.2 (by decide)⟩
  · exact ⟨le_trans (by decide) h.1, le_trans h.2 (by decide)⟩
  · exact ⟨le_trans (by decide) h.1, le_trans h.2 (by decide)⟩
  · decide
  · decide

theorem isWhitespaceChar_of_key {c : Char} (h : isKeyChar c = true) :
    isWhitespaceChar c = false := by
  obtain ⟨hlow, hhigh⟩ := isKeyChar_bounds h
  simp only [isWhitespaceChar, Bool.or_eq_false_iff, Bool.and_eq_false_iff, decide_eq_false_iff_not,
    beq_eq_false_iff_ne]
  omega

theorem isWhitespaceChar_newline : isWhitespaceChar '\n' = true := by decide

namespace Identifier

variable (key : Identifier)

theorem isKeyChar_of_mem {c : Char} (h : c ∈ key.text) : isKeyChar c = true :=
  List.all_eq_true.mp key.plain c h

/-- The first letter of a key, which is no dash. -/
theorem first : ∃ c rest, key.text = c :: rest ∧ (c.isAlpha = true ∨ c = '_') := by
  have hhead := key.head
  cases htext : key.text with
  | nil => simp [htext] at hhead
  | cons c rest => exact ⟨c, rest, rfl, by simpa [htext] using hhead⟩

theorem head_ne {d : Char} (h : (d.isAlpha || d = '_') = false) : key.text.head? ≠ some d := by
  obtain ⟨c, rest, htext, hc⟩ := key.first
  rw [htext]
  intro hd
  obtain rfl := Option.some.inj hd
  rcases hc with hc | rfl
  · simp [hc] at h
  · simp at h

theorem startsSolid : StartsSolid key.text := by
  obtain ⟨c, rest, htext, -⟩ := key.first
  exact ⟨c, rest, htext, isWhitespaceChar_of_key (key.isKeyChar_of_mem (htext ▸ List.mem_cons_self))⟩

theorem endsSolid : EndsSolid key.text := by
  have hne := key.startsSolid.ne_nil
  exact ⟨key.text.dropLast, key.text.getLast hne, (List.dropLast_append_getLast hne).symm,
    isWhitespaceChar_of_key (key.isKeyChar_of_mem (List.getLast_mem hne))⟩

theorem decodeQuoted_eq : decodeQuoted key.text = none := by
  have hsingle := key.head_ne (d := '\'') (by decide)
  have hdouble := key.head_ne (d := '"') (by decide)
  simp [decodeQuoted, hsingle, hdouble]

theorem name_ne_merge : key.name ≠ "<<" := by
  intro h
  have htext : key.text = ['<', '<'] := by
    have := congrArg String.toList h
    simpa [name] using this
  exact key.head_ne (d := '<') (by decide) (by rw [htext]; rfl)

/-- A key is read as a string, or refused. -/
theorem parseKey_eq : parseKey key.text =
    if key.isString then .ok key.name else .error "YAML mapping keys must be Strings" := by
  obtain ⟨c, rest, htext, -⟩ := key.first
  have hne := key.startsSolid.ne_nil
  have hbracket : ∀ d ∈ ['[', '\x7b', '?', '\'', '"'], c ≠ d := by
    rintro d hd rfl
    refine key.head_ne (d := c) ?_ (by rw [htext]; rfl)
    revert hd
    simp only [List.mem_cons, List.not_mem_nil, or_false]
    rintro (rfl | rfl | rfl | rfl | rfl) <;> decide
  have hflow : key.text.head?.any (· ∈ ['[', '\x7b', '?']) = false := by
    have h₁ := hbracket '[' (by simp)
    have h₂ := hbracket '\x7b' (by simp)
    have h₃ := hbracket '?' (by simp)
    simp [htext, h₁, h₂, h₃]
  have hquote : key.text.head?.any isQuote = false := by
    have h₁ := hbracket '\'' (by simp)
    have h₂ := hbracket '"' (by simp)
    simp [htext, isQuote, h₁, h₂]
  simp only [parseKey, trim_of_solid key.startsSolid key.endsSolid, if_neg hne, hflow, hquote,
    key.decodeQuoted_eq, isString, Bool.false_eq_true, if_false, false_or, name]
  by_cases hcore : coreNonString key.text = true <;> simp [hcore]

theorem splitMapping_eq {rest : List Char} (hrest : rest.head?.all isWhitespaceChar = true) :
    splitMapping (key.text ++ ':' :: rest) = some (key.text, rest) := by
  have hchars : ∀ c ∈ key.text, isKeyChar c = true := fun c => key.isKeyChar_of_mem
  rw [splitMapping]
  generalize key.text = text at hchars
  induction text with
  | nil => simp [splitMappingFrom, isQuote, hrest]
  | cons c text ih =>
      obtain ⟨hc, htext⟩ := List.forall_mem_cons.mp hchars
      have hne : ∀ d : Char, isKeyChar d = false → c ≠ d := by
        rintro d hd rfl
        rw [hd] at hc
        cases hc
      have hquote : isQuote c = false := by
        simp [isQuote, hne '\'' (by decide), hne '"' (by decide)]
      simp only [List.cons_append, splitMappingFrom, Bool.false_eq_true, if_false, hquote,
        reduceCtorEq, false_and, hne '[' (by decide), hne '\x7b' (by decide),
        hne ']' (by decide), hne '\x7d' (by decide), hne ':' (by decide), or_self, ih htext]
      rfl

end Identifier

namespace Scalar

variable (scalar : Scalar)

theorem content : Content scalar.text where
  starts := scalar.starts
  ends := scalar.ends
  oneLine := scalar.oneLine
  uncommented h := scalar.plainStart '#' h (by decide)

variable (source : Nat) (line : Line) (offset : Nat) (reader : Reader)

/-- A scalar on a line is read as its value. -/
theorem parseInlineValue_eq : parseInlineValue source line scalar.text offset reader =
    .ok (.scalar scalar.value (location source offset (offset + byteLength scalar.text)),
      reader) := by
  have hne : ∀ c ∈ indicators, scalar.text.head? ≠ some c := fun c hc h =>
    scalar.plainStart c h hc
  simp only [parseInlineValue, parseInlineWith, scalar.uncommented,
    trim_of_solid scalar.starts scalar.ends, hne '!' (by decide), hne '*' (by decide),
    hne '&' (by decide), hne '[' (by decide), hne '\x7b' (by decide), if_false, or_self,
    scalar.reads]

end Scalar

theorem parseScalar_ne_array (text : List Char) (values : List Value) :
    parseScalar text ≠ .ok (.array values) := by
  unfold parseScalar
  intro h
  split at h
  · cases h
  · dsimp only at h
    split_ifs at h
    · cases h
    · cases h
    · cases h
    · cases h
    · cases h
    · cases h
    · obtain ⟨number, -, hnumber⟩ := map_eq_ok.mp h
      cases hnumber
    · split at h <;> cases h
    · cases h

/-- A line that starts with a dash is no sequence when it is read as a value. -/
theorem parseInlineValue_dash (source : Nat) (line : Line) (text : List Char) (offset : Nat)
    (reader : Reader) {node : YamlNode} {reader' : Reader}
    (h : parseInlineValue source line ('-' :: text) offset reader = .ok (node, reader'))
    (values : List Value) : node.materialize ≠ .ok (.array values) := by
  have hstarts : StartsSolid ('-' :: stripCommentFrom none (some '-') text) :=
    ⟨'-', _, rfl, by decide⟩
  obtain ⟨-, hhead⟩ := hstarts.trim
  have hstrip : stripComment ('-' :: text) = '-' :: stripCommentFrom none (some '-') text := rfl
  simp only [parseInlineValue, parseInlineWith, hstrip, hhead, List.head?_cons, Option.some.injEq,
    Char.reduceEq, if_false, or_self] at h
  split at h
  · next value hvalue =>
      obtain ⟨rfl, -⟩ := Prod.mk.inj (Except.ok.inj h)
      rw [YamlNode.materialize]
      intro harray
      exact parseScalar_ne_array _ values (Except.ok.inj harray ▸ hvalue)
  · cases h

theorem itemText_dash (text : List Char) :
    itemText ('-' :: text) = if text = [] ∨ text.head? = some ' ' then some text else none := by
  simp [itemText, stripStart, List.isPrefixOf]

theorem itemText_eq_none {content : List Char} (h : content.head? ≠ some '-') :
    itemText content = none := by
  cases content with
  | nil => rfl
  | cons c rest =>
      have hc : ('-' == c) = false := by
        rw [beq_eq_false_iff_ne]
        rintro rfl
        exact h rfl
      simp [itemText, stripStart, List.isPrefixOf, hc]

/-- The test for a sequence is whether its first line is an item. -/
theorem isItem_iff (content : List Char) :
    (content = ['-'] ∨ ['-', ' '].isPrefixOf content = true) ↔ itemText content ≠ none := by
  cases content with
  | nil => simp [itemText, stripStart, List.isPrefixOf]
  | cons c rest =>
      by_cases hc : c = '-'
      · subst hc
        rw [itemText_dash]
        cases rest with
        | nil => simp
        | cons d rest =>
            by_cases hd : d = ' '
            · simp [List.isPrefixOf, hd]
            · simp [List.isPrefixOf, hd, Ne.symm hd]
      · rw [itemText_eq_none (by simpa using hc)]
        simp [List.isPrefixOf, hc, Ne.symm hc]

theorem spaces_succ (n : Nat) : spaces (n + 1) = ' ' :: spaces n := rfl

theorem trimStart_spaces {text : List Char} (h : StartsSolid text) (n : Nat) :
    trimStart (spaces n ++ text) = text := by
  rw [spaces, trimStart_replicate, h.trimStart]

theorem not_mem_spaces {c : Char} (h : c ≠ ' ') (n : Nat) : c ∉ spaces n :=
  fun hmem => h (List.eq_of_mem_replicate hmem)

/-- Text behind a dash. -/
theorem Content.onDash {text : List Char} (h : Content text) (gap : Nat) :
    Content ('-' :: (spaces (gap + 1) ++ text)) where
  starts := ⟨'-', _, rfl, by decide⟩
  ends := h.ends.append ('-' :: spaces (gap + 1))
  oneLine hmem := by
    rcases List.mem_cons.mp hmem with hdash | hmem
    · cases hdash
    · exact (List.mem_append.mp hmem).elim (not_mem_spaces (by decide) _) h.oneLine
  uncommented h := by cases h

theorem content_dash : Content ['-'] :=
  ⟨⟨'-', [], rfl, by decide⟩, ⟨[], '-', rfl, by decide⟩, by decide, by decide⟩

namespace Entry

variable (entry : Entry)

theorem behind_head : entry.behind.head?.all isWhitespaceChar = true := by
  cases entry with
  | onLine key gap scalar => rfl
  | under key extra node => rfl
  | flush key items => rfl

theorem content : Content entry.line := by
  have hstarts := entry.key.startsSolid.append (':' :: entry.behind)
  have hends : EndsSolid entry.line := by
    rw [line]
    refine EndsSolid.append ?_ entry.key.text
    cases entry with
    | onLine key gap scalar => exact scalar.ends.append (':' :: spaces (gap + 1))
    | under key extra node => exact ⟨[], ':', rfl, by decide⟩
    | flush key items => exact ⟨[], ':', rfl, by decide⟩
  have hbehind : '\n' ∉ entry.behind := by
    cases entry with
    | onLine key gap scalar => exact fun hmem =>
        (List.mem_append.mp hmem).elim (not_mem_spaces (by decide) _) scalar.oneLine
    | under key extra node => simp [behind]
    | flush key items => simp [behind]
  refine ⟨hstarts, hends, ?_, ?_⟩
  · have hkey : '\n' ∉ entry.key.text := fun h => by
      have := isWhitespaceChar_of_key (entry.key.isKeyChar_of_mem h)
      rw [isWhitespaceChar_newline] at this
      cases this
    simp [line, hkey, hbehind]
  · have := entry.key.head_ne (d := '#') (by decide)
    obtain ⟨c, rest, htext, -⟩ := entry.key.first
    rw [htext] at this
    simpa [line, htext] using this

theorem itemText_line : itemText entry.line = none := by
  refine itemText_eq_none ?_
  have := entry.key.head_ne (d := '-') (by decide)
  obtain ⟨c, rest, htext, -⟩ := entry.key.first
  rw [htext] at this
  simpa [line, htext] using this

theorem splitMapping_line : splitMapping entry.line = some (entry.key.text, entry.behind) :=
  entry.key.splitMapping_eq entry.behind_head

end Entry

mutual

theorem Layout.content_render (column : Nat) : ∀ (node : Layout),
    ∀ line ∈ node.render column, Content line.2
  | .scalar scalar => by
      rw [Layout.render]
      exact List.forall_mem_singleton.mpr scalar.content
  | .sequence items => content_renderItems column items
  | .mapping entries => content_renderEntries column entries

theorem Item.content_render (column : Nat) : ∀ (item : Item),
    ∀ line ∈ item.render column, Content line.2
  | .onLine gap node => by
      have hnode := Layout.content_render (column + 2 + gap) node
      rw [Item.render]
      cases hrender : node.render (column + 2 + gap) with
      | nil => exact List.forall_mem_nil _
      | cons first rest =>
          rw [hrender] at hnode
          obtain ⟨hfirst, hrest⟩ := List.forall_mem_cons.mp hnode
          exact List.forall_mem_cons.mpr ⟨hfirst.onDash gap, hrest⟩
  | .under extra node =>
      List.forall_mem_cons.mpr ⟨content_dash, Layout.content_render (column + extra + 1) node⟩

theorem Entry.content_renderBelow (column : Nat) : ∀ (entry : Entry),
    ∀ line ∈ entry.renderBelow column, Content line.2
  | .onLine _ _ _ => List.forall_mem_nil _
  | .under _ extra node => Layout.content_render (column + extra + 1) node
  | .flush _ items => content_renderItems column items

theorem content_renderItems (column : Nat) : ∀ (items : List Item),
    ∀ line ∈ renderItems column items, Content line.2
  | [] => List.forall_mem_nil _
  | item :: rest => List.forall_mem_append.mpr
      ⟨Item.content_render column item, content_renderItems column rest⟩

theorem content_renderEntries (column : Nat) : ∀ (entries : List Entry),
    ∀ line ∈ renderEntries column entries, Content line.2
  | [] => List.forall_mem_nil _
  | entry :: rest => List.forall_mem_cons.mpr ⟨entry.content, List.forall_mem_append.mpr
      ⟨Entry.content_renderBelow column entry, content_renderEntries column rest⟩⟩

end

mutual

/-- A block starts at its column. -/
theorem Layout.render_cons (column : Nat) : ∀ (node : Layout), node.WellFormed →
    ∃ text rest, node.render column = (column, text) :: rest
  | .scalar scalar, _ => ⟨scalar.text, [], rfl⟩
  | .sequence [], h => absurd rfl h.1
  | .sequence (item :: rest), h => by
      obtain ⟨behind, lines, hlines, -⟩ := Item.render_cons column item h.2.1
      exact ⟨'-' :: behind, lines ++ renderItems column rest, by
        rw [Layout.render, renderItems, hlines, List.cons_append]⟩
  | .mapping [], h => absurd rfl h.1
  | .mapping (entry :: rest), _ => ⟨entry.line, _, rfl⟩

/-- An item starts with a dash at its column. -/
theorem Item.render_cons (column : Nat) : ∀ (item : Item), item.WellFormed →
    ∃ behind rest, item.render column = (column, '-' :: behind) :: rest ∧
      itemText ('-' :: behind) = some behind
  | .onLine gap node, h => by
      obtain ⟨text, lines, hlines⟩ := Layout.render_cons (column + 2 + gap) node h
      exact ⟨spaces (gap + 1) ++ text, lines, by rw [Item.render, hlines, onDash], by
        rw [itemText_dash, if_pos (.inr rfl)]⟩
  | .under extra node, _ => ⟨[], node.render (column + extra + 1), rfl, rfl⟩

end

namespace Line

def shape (line : Line) : Nat × List Char := (line.indent, line.content)

theorem content_of_shape {lines : List Line} {rendered : List (Nat × List Char)}
    (hlines : lines.map shape = rendered) (h : ∀ line ∈ rendered, Content line.2) :
    ∀ line ∈ lines, Content line.content := fun line hmem =>
  h line.shape (hlines ▸ List.mem_map_of_mem hmem)

theorem not_isTrivia {line : Line} (h : Content line.content) : line.isTrivia = false := by
  have htrim := trim_of_solid h.starts h.ends
  have hne := h.starts.ne_nil
  simp [isTrivia, htrim, hne, h.uncommented]

end Line

namespace Reader

/-- The reader in front of some lines. -/
def «at» (reader : Reader) (lines : List Line) : Reader := { reader with remaining := lines }

variable (reader : Reader) (lines : List Line)

@[simp] theorem remaining_at : (reader.at lines).remaining = lines := rfl

@[simp] theorem at_at (lines' : List Line) : (reader.at lines).at lines' = reader.at lines' := rfl

theorem skipTrivia_at {lines : List Line} (h : ∀ line ∈ lines.head?, line.isTrivia = false) :
    (reader.at lines).skipTrivia = reader.at lines := by
  cases lines with
  | nil => rfl
  | cons line rest =>
      have hline := h line rfl
      simp [skipTrivia, Reader.at, hline]

theorem skipTrivia_content {line : Line} (h : Content line.content) :
    (reader.at (line :: lines)).skipTrivia = reader.at (line :: lines) := by
  refine reader.skipTrivia_at fun first hfirst => ?_
  obtain rfl := Option.some.inj hfirst
  exact Line.not_isTrivia h

end Reader

/-- The next line is no trivia, and not indented further than a column. -/
def AtMost (column : Nat) (lines : List Line) : Prop :=
  ∀ line ∈ lines.head?, line.isTrivia = false ∧ line.indent ≤ column

/-- The next line is no trivia, and indented less than a column. -/
def Before (column : Nat) (lines : List Line) : Prop :=
  ∀ line ∈ lines.head?, line.isTrivia = false ∧ line.indent < column

/-- The next line is at most at a column, and no item at it. -/
def EndsItems (column : Nat) (lines : List Line) : Prop :=
  AtMost column lines ∧
    ∀ line ∈ lines.head?, line.indent = column → itemText line.content = none

theorem Before.endsItems {column : Nat} {lines : List Line} (h : Before column lines) :
    EndsItems column lines :=
  ⟨fun line hline => ⟨(h line hline).1, (h line hline).2.le⟩, fun line hline heq =>
    absurd heq (h line hline).2.ne⟩

theorem AtMost.before {column column' : Nat} {lines : List Line} (h : AtMost column lines)
    (hlt : column < column') : Before column' lines := fun line hline =>
  ⟨(h line hline).1, (h line hline).2.trans_lt hlt⟩

theorem atMost_cons {column : Nat} {line : Line} {lines : List Line}
    (hcontent : Content line.content) (hindent : line.indent = column) :
    AtMost column (line :: lines) := by
  intro first hfirst
  obtain rfl := Option.some.inj hfirst
  exact ⟨Line.not_isTrivia hcontent, hindent.le⟩

theorem head_not_isTrivia {column : Nat} {lines rest : List Line}
    (hlines : ∀ line ∈ lines, Content line.content) (hrest : AtMost column rest) :
    ∀ next ∈ (lines ++ rest).head?, next.isTrivia = false := by
  cases lines with
  | nil => exact fun next hnext => (hrest next hnext).1
  | cons line lines =>
      intro next hnext
      obtain rfl := Option.some.inj hnext
      exact Line.not_isTrivia (hlines line List.mem_cons_self)

/-- The items of a sequence are followed by lines at most at their column. -/
theorem atMost_items {column : Nat} {items : List Item} {lines rest : List Line}
    (hitems : ItemsWellFormed items) (hlines : lines.map Line.shape = renderItems column items)
    (hrest : EndsItems column rest) : AtMost column (lines ++ rest) := by
  cases items with
  | nil =>
      obtain rfl := List.map_eq_nil_iff.mp hlines
      exact hrest.1
  | cons item items =>
      have hcontent := Line.content_of_shape hlines (content_renderItems column (item :: items))
      obtain ⟨behind, more, hrender, -⟩ := item.render_cons column hitems.1
      rw [renderItems, hrender, List.cons_append] at hlines
      obtain ⟨line, lines, rfl, hshape, -⟩ := List.map_eq_cons_iff.mp hlines
      exact atMost_cons (hcontent line List.mem_cons_self) (Prod.mk.inj hshape).1

/-- The entries of a mapping end the items of a sequence that is flush with their keys. -/
theorem endsItems_entries {column : Nat} {entries : List Entry} {lines rest : List Line}
    (hlines : lines.map Line.shape = renderEntries column entries) (hrest : Before column rest) :
    EndsItems column (lines ++ rest) := by
  cases entries with
  | nil =>
      obtain rfl := List.map_eq_nil_iff.mp hlines
      exact hrest.endsItems
  | cons entry entries =>
      obtain ⟨line, lines, rfl, hshape, -⟩ := List.map_eq_cons_iff.mp hlines
      obtain ⟨hindent, hline⟩ := Prod.mk.inj hshape
      refine ⟨atMost_cons (hline ▸ entry.content) hindent, fun next hnext _ => ?_⟩
      obtain rfl := Option.some.inj hnext
      exact hline ▸ entry.itemText_line

theorem completeLines_append (start : Nat) (pending left right : List Char) :
    completeLines start pending (left ++ right) =
      let (lines, start, pending) := completeLines start pending left
      let (more, state) := completeLines start pending right
      (lines ++ more, state) := by
  induction left generalizing start pending with
  | nil => rfl
  | cons c left ih =>
      rw [List.cons_append, completeLines, completeLines]
      by_cases hc : c = '\n'
      · rw [if_pos hc, if_pos hc, ih]
        rfl
      · rw [if_neg hc, if_neg hc, ih]

/-- How a document is cut into fragments does not matter. -/
theorem fragmentLines_eq (fragments : List (List Char)) (start : Nat) (pending : List Char) :
    fragmentLines start pending fragments =
      let (lines, start, pending) := completeLines start pending fragments.flatten
      lines ++ fragmentLines start pending [] := by
  induction fragments generalizing start pending with
  | nil => rfl
  | cons fragment rest ih =>
      rw [fragmentLines, List.flatten_cons, completeLines_append]
      simp only [ih, List.append_assoc]

theorem completeLines_line {text : List Char} (htext : '\n' ∉ text) (start : Nat)
    (pending rest : List Char) : completeLines start pending (text ++ '\n' :: rest) =
      let (lines, state) := completeLines (start + byteLength (pending ++ text) + 1) [] rest
      (.ofText start ((pending ++ text).rdropWhile (· = '\r')) :: lines, state) := by
  induction text generalizing pending with
  | nil =>
      rw [List.nil_append, completeLines, if_pos rfl, List.append_nil]
  | cons c text ih =>
      obtain ⟨hc, htext⟩ := not_or.mp (List.mem_cons.not.mp htext)
      rw [List.cons_append, completeLines, if_neg (Ne.symm hc), ih htext, List.append_assoc,
        List.singleton_append]

theorem shape_ofText {content : List Char} (h : Content content) (start column : Nat) :
    (Line.ofText start ((spaces column ++ content).rdropWhile (· = '\r'))).shape =
      (column, content) := by
  obtain ⟨front, last, hlast, hsolid⟩ := h.ends.append (spaces column)
  have hreturn : last ≠ '\r' := by
    rintro rfl
    cases hsolid
  have hraw : (spaces column ++ content).rdropWhile (· = '\r') = spaces column ++ content := by
    rw [hlast, List.rdropWhile_concat_neg _ _ _ (by simpa using hreturn)]
  have hindent : ((spaces column ++ content).takeWhile (· = ' ')).length = column := by
    obtain ⟨c, rest, rfl, hc⟩ := h.starts
    have hspace : c ≠ ' ' := by
      rintro rfl
      cases hc
    rw [List.takeWhile_append_of_pos (by simp [spaces]),
      List.takeWhile_cons_of_neg (by simpa using hspace)]
    simp [spaces]
  rw [hraw, Line.ofText, Line.shape]
  simp only [hindent]
  rw [List.drop_left' (by simp [spaces])]

theorem completeLines_linesText {rendered : List (Nat × List Char)}
    (h : ∀ line ∈ rendered, Content line.2) (start : Nat) :
    (completeLines start [] (linesText rendered)).1.map Line.shape = rendered ∧
      (completeLines start [] (linesText rendered)).2.2 = [] := by
  induction rendered generalizing start with
  | nil => exact ⟨rfl, rfl⟩
  | cons line rest ih =>
      obtain ⟨hline, hrest⟩ := List.forall_mem_cons.mp h
      have htext : linesText (line :: rest) =
          (spaces line.1 ++ line.2) ++ '\n' :: linesText rest := by
        simp [linesText]
      have honeLine : '\n' ∉ spaces line.1 ++ line.2 := fun hmem =>
        (List.mem_append.mp hmem).elim (not_mem_spaces (by decide) _) hline.oneLine
      rw [htext, completeLines_line honeLine]
      obtain ⟨hlines, hpending⟩ :=
        ih hrest (start + byteLength ([] ++ (spaces line.1 ++ line.2)) + 1)
      refine ⟨?_, hpending⟩
      rw [List.map_cons, List.nil_append, shape_ofText hline]
      exact congrArg (line :: ·) hlines

/-- The lines of the text of a layout are the lines of the layout. -/
theorem documentLines_shape {rendered : List (Nat × List Char)} (hne : rendered ≠ [])
    (h : ∀ line ∈ rendered, Content line.2) {fragments : List (List Char)}
    (htext : fragments.flatten = linesText rendered) :
    (documentLines fragments).map Line.shape = rendered := by
  have hlength : byteLength fragments.flatten ≠ 0 := by
    cases rendered with
    | nil => exact absurd rfl hne
    | cons line rest =>
        have hbreak : linesText (line :: rest) =
            spaces line.1 ++ line.2 ++ '\n' :: linesText rest := by simp [linesText]
        rw [htext, hbreak, byteLength, List.map_append, List.sum_append, List.map_cons,
          List.sum_cons]
        have : 0 < Char.utf8Size '\n' := by decide
        omega
  obtain ⟨hlines, hpending⟩ := completeLines_linesText h 0
  rw [documentLines, if_neg hlength, fragmentLines_eq, htext]
  simp only [hpending, fragmentLines, if_true, List.append_nil, hlines]

/-- The first line of a layout is no document marker. -/
theorem Layout.first_ne_marker {node : Layout} (h : node.WellFormed) {column : Nat}
    {text : List Char} {rest : List (Nat × List Char)}
    (hrender : node.render column = (column, text) :: rest) : text ≠ ['-', '-', '-'] := by
  cases node with
  | scalar scalar =>
      obtain ⟨hline, -⟩ := List.cons.inj hrender
      exact (Prod.mk.inj hline).2 ▸ scalar.notMarker
  | sequence items =>
      cases items with
      | nil => exact absurd rfl h.1
      | cons item items =>
          obtain ⟨behind, more, hitem, htext⟩ := item.render_cons column h.2.1
          rw [render, renderItems, hitem] at hrender
          obtain ⟨hline, -⟩ := List.cons.inj hrender
          rintro rfl
          obtain rfl := (List.cons.inj (Prod.mk.inj hline).2).2
          cases htext
  | mapping entries =>
      cases entries with
      | nil => exact absurd rfl h.1
      | cons entry entries =>
          obtain ⟨hline, -⟩ := List.cons.inj hrender
          rintro rfl
          obtain ⟨c, more, htext, -⟩ := entry.key.first
          have hdash := entry.key.head_ne (d := '-') (by decide)
          rw [htext] at hdash
          have hhead := congrArg List.head? (Prod.mk.inj hline).2
          rw [Entry.line, htext] at hhead
          exact hdash hhead

end Telora.Yaml
