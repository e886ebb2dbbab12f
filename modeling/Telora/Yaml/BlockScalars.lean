import Mathlib.Algebra.Order.BigOperators.Group.List
import Telora.Library.Lists
import Telora.Library.Utf8
import Telora.Yaml.Chomping

/-!
# Block scalars

The text that a block scalar stands for: its lines without the indentation of the block, joined
or folded, with the line ends at the end removed, reduced to one, or kept. The reader gives this
text but for blocks without content, blank lines of other white space than spaces, and the last
line of a document.
-/

namespace Telora.Yaml

open Library

/-- What happens to the line ends at the end of a block. -/
inductive Chomping where
  | strip
  | clip
  | keep
  deriving DecidableEq, Repr

/-- The indicator of a chomping. -/
def Chomping.text : Chomping → List Char
  | .strip => ['-']
  | .clip => []
  | .keep => ['+']

/-- A header: the style, a digit and a chomping indicator in either order, and white space. -/
structure Header where
  folded : Bool
  digit : Option (Fin 9)
  chomping : Chomping
  digitFirst : Bool
  trailing : List Char
  blank : ∀ c ∈ trailing, isWhitespaceChar c = true

namespace Header

variable (header : Header)

/-- The columns of an explicit indentation. -/
def columns : Option Nat := header.digit.map (·.val + 1)

def digitText : List Char := (header.digit.map fun digit => Char.ofNat (digit.val + 49)).toList

def indicators : List Char :=
  if header.digitFirst then header.digitText ++ header.chomping.text
  else header.chomping.text ++ header.digitText

def text : List Char :=
  (if header.folded then '>' else '|') :: (header.indicators ++ header.trailing)

end Header

section Indicators

/-- What the reader asks of an indicator. -/
def isIndicator (c : Char) : Bool := c = '+' || c = '-' || ('1' ≤ c && c ≤ '9')

/-- White space behind some solid characters is trimmed. -/
theorem trim_append_blank {text blank : List Char}
    (htext : ∀ c ∈ text, (!isWhitespaceChar c) = true)
    (hblank : ∀ c ∈ blank, isWhitespaceChar c = true) : trim (text ++ blank) = text := by
  have hback : trimEnd (text ++ blank) = text := by
    induction blank using List.reverseRecOn with
    | nil =>
        rw [List.append_nil, trimEnd, List.rdropWhile_eq_self_iff]
        intro hne
        have := htext _ (List.getLast_mem hne)
        rwa [Bool.not_eq_true', ← Bool.not_eq_true] at this
    | append_singleton blank c ih =>
        have hc := hblank c (List.mem_append_right _ List.mem_cons_self)
        rw [← List.append_assoc, trimEnd, List.rdropWhile_concat_pos _ _ _ hc]
        exact ih fun d hd => hblank d (List.mem_append_left _ hd)
  cases text with
  | nil =>
      rw [List.nil_append, trim, trimStart, List.dropWhile_eq_nil_iff.mpr hblank]
      rfl
  | cons c text =>
      have hc := htext c List.mem_cons_self
      rw [Bool.not_eq_true', ← Bool.not_eq_true] at hc
      rw [trim, trimStart, List.cons_append, List.dropWhile_cons_of_neg hc, ← List.cons_append,
        hback]

theorem digit_facts : ∀ digit : Fin 9, isIndicator (Char.ofNat (digit.val + 49)) = true ∧
    toDigit 10 (Char.ofNat (digit.val + 49)) = some (digit.val + 1) ∧
    (Char.ofNat (digit.val + 49) = '+' || Char.ofNat (digit.val + 49) = '-') = false ∧
    isWhitespaceChar (Char.ofNat (digit.val + 49)) = false ∧
    (Char.ofNat (digit.val + 49)).utf8Size = 1 := by decide

theorem chomping_facts (chomping : Chomping) : chomping.text.all isIndicator = true ∧
    chomping.text.findSome? (toDigit 10) = none ∧
    (chomping.text.find? fun c => c = '+' || c = '-') = chomping.text.head? ∧
    chomping.text.all (fun c => !isWhitespaceChar c) = true ∧ byteLength chomping.text ≤ 1 := by
  cases chomping <;> decide

namespace Header

variable (header : Header)

theorem digitText_facts : header.digitText.all isIndicator = true ∧
    header.digitText.findSome? (toDigit 10) = header.columns ∧
    (header.digitText.find? fun c => c = '+' || c = '-') = none ∧
    header.digitText.all (fun c => !isWhitespaceChar c) = true ∧
    byteLength header.digitText ≤ 1 := by
  rw [digitText, columns]
  cases header.digit with
  | none => decide
  | some digit =>
      obtain ⟨hindicator, hvalue, hsign, hwhite, hsize⟩ := digit_facts digit
      simp [hindicator, hvalue, hsign, hwhite, hsize, byteLength]

theorem indicators_facts : header.indicators.all isIndicator = true ∧
    header.indicators.findSome? (toDigit 10) = header.columns ∧
    (header.indicators.find? fun c => c = '+' || c = '-') = header.chomping.text.head? ∧
    header.indicators.all (fun c => !isWhitespaceChar c) = true ∧
    byteLength header.indicators ≤ 2 := by
  obtain ⟨hindicator, hvalue, hsign, hwhite, hsize⟩ := header.digitText_facts
  obtain ⟨hindicator', hvalue', hsign', hwhite', hsize'⟩ := chomping_facts header.chomping
  rw [indicators]
  split
  · refine ⟨?_, ?_, ?_, ?_, ?_⟩
    · rw [List.all_append, hindicator, hindicator', Bool.and_self]
    · rw [List.findSome?_append, hvalue, hvalue', Option.or_none]
    · rw [List.find?_append, hsign, hsign', Option.none_or]
    · rw [List.all_append, hwhite, hwhite', Bool.and_self]
    · rw [byteLength_append]
      omega
  · refine ⟨?_, ?_, ?_, ?_, ?_⟩
    · rw [List.all_append, hindicator, hindicator', Bool.and_self]
    · rw [List.findSome?_append, hvalue, hvalue', Option.none_or]
    · rw [List.find?_append, hsign, hsign', Option.or_none]
    · rw [List.all_append, hwhite, hwhite', Bool.and_self]
    · rw [byteLength_append]
      omega

theorem trim_indicators : trim (header.indicators ++ header.trailing) = header.indicators := by
  exact trim_append_blank (List.all_eq_true.mp header.indicators_facts.2.2.2.1) header.blank

end Header

end Indicators

/-- The indentation of a block: explicit, or that of its first line that is not blank. A block
that has no such line has none. -/
def blockIndent (columns : Option Nat) (parent : Nat) (lines : List Line) : Option Nat :=
  match columns with
  | some columns => some (parent + columns)
  | none => ((lines.find? (!·.isBlank)).filter (parent < ·.indent)).map (·.indent)

/-- The lines of a block: blank ones, and those that are indented as far as it is. -/
def blockLines (indent : Option Nat) (lines : List Line) : List Line :=
  lines.takeWhile fun line => line.isBlank || indent.any (· ≤ line.indent)

/-- A line without the indentation of the block; in a block without one nothing is left of it. -/
def dedent (indent : Option Nat) (line : Line) : Piece :=
  match indent with
  | some indent => (List.replicate (line.indent - indent) ' ' ++ line.content, indent < line.indent)
  | none => (line.content, false)

/-- The joined or folded lines. -/
def joined (folded : Bool) (pieces : List Piece) : List Char :=
  if folded then ['\n'].intercalate (paragraphs pieces)
  else ['\n'].intercalate (pieces.map (·.1))

/-- The text of some lines, the last of which is ended or not. -/
def linesOf (folded ended : Bool) (pieces : List Piece) : List Char :=
  if pieces = [] then []
  else joined folded pieces ++ if ended then ['\n'] else []

/-- A text with its last line ends removed, reduced to at most one and to none if there is nothing
else, or kept. -/
def chomped (chomping : Chomping) (text : List Char) : List Char :=
  match chomping with
  | .strip => stripped text
  | .clip => if stripped text = [] ∨ stripped text = text then stripped text
      else stripped text ++ ['\n']
  | .keep => text

/-- The lines of the block in front of the remaining lines. -/
def blockOf (header : Header) (parent : Nat) (remaining : List Line) : List Line :=
  blockLines (blockIndent header.columns parent remaining) remaining

/-- Whether the last line of a block is ended: all but the last one of a document are. -/
def ended (fragments : List (List Char)) (block remaining : List Line) : Bool :=
  block.length < remaining.length || fragments.flatten.getLast? = some '\n'

/-- The text that the block in front of the remaining lines of a document stands for. -/
def blockText (fragments : List (List Char)) (header : Header) (parent : Nat)
    (remaining : List Line) : List Char :=
  let block := blockOf header parent remaining
  chomped header.chomping (linesOf header.folded (ended fragments block remaining)
    (block.map (dedent (blockIndent header.columns parent remaining))))

section Reader

variable (source : Nat)

/-- The indentation that the reader takes for that of the block. -/
def contentIndent (columns : Option Nat) (parent : Nat) (lines : List Line) : Nat :=
  ((columns.map (parent + ·)).or ((lines.find? fun line =>
    !line.isBlank && parent < line.indent).map (·.indent))).getD (parent + 1)

/-- What the reader makes of a line. -/
def pieceOf (indent parent : Nat) (line : Line) : Piece :=
  if line.indent ≤ parent && line.isBlank then ([], false)
  else (List.replicate (line.indent - indent) ' ' ++ line.content, 0 < line.indent - indent)

/-- A line of the block for the reader. -/
def within (indent : Nat) (line : Line) : Bool := line.isBlank || indent ≤ line.indent

theorem blockPieces_eq (indent parent : Nat) (lines : List Line) : ∀ stop,
    ∃ stop', blockPieces indent parent stop lines =
      ((lines.takeWhile (within indent)).map (pieceOf indent parent),
        lines.dropWhile (within indent), stop') := by
  induction lines with
  | nil => exact fun stop => ⟨stop, rfl⟩
  | cons line lines ih =>
      intro stop
      rw [blockPieces]
      by_cases hinside : within indent line = true
      · have hkept : ¬(!line.isBlank && decide (line.indent < indent)) = true := by
          rw [within, Bool.or_eq_true, decide_eq_true_eq] at hinside
          rcases hinside with hblank | hle
          · simp [hblank]
          · simp [Nat.not_lt.mpr hle]
        obtain ⟨stop', hrest⟩ := ih line.stop
        refine ⟨stop', ?_⟩
        rw [if_neg hkept, hrest, List.takeWhile_cons_of_pos hinside,
          List.dropWhile_cons_of_pos hinside]
        rfl
      · have hleft : (!line.isBlank && decide (line.indent < indent)) = true := by
          simp only [within, Bool.or_eq_true, decide_eq_true_eq, not_or, Nat.not_le] at hinside
          simp [hinside]
        refine ⟨stop, ?_⟩
        rw [if_pos hleft, List.takeWhile_cons_of_neg hinside, List.dropWhile_cons_of_neg hinside]
        rfl

theorem parseBlockScalar_header (header : Header) (line : Line) (parent : Nat) (reader : Reader) :
    ∃ location, parseBlockScalar source line header.text parent reader =
      let indent := contentIndent header.columns parent reader.remaining
      let pieces := (reader.remaining.takeWhile (within indent)).map (pieceOf indent parent)
      .ok (.scalar (.string (String.ofList (chompEnd header.chomping.text.head? (!pieces.isEmpty)
          (joined header.folded pieces)))) location,
        { reader with remaining := reader.remaining.dropWhile (within indent) }) := by
  obtain ⟨hindicators, hcolumns, hchomping, -, hsize⟩ := header.indicators_facts
  have htail : header.text.tail = header.indicators ++ header.trailing := rfl
  have hallowed : (decide (2 < byteLength header.indicators) ||
      !header.indicators.all fun c => c = '+' || c = '-' || ('1' ≤ c && c ≤ '9')) = false := by
    rw [decide_eq_false (Nat.not_lt.mpr hsize)]
    exact congrArg (!·) hindicators
  obtain ⟨stop', hpieces⟩ := blockPieces_eq (contentIndent header.columns parent reader.remaining)
    parent reader.remaining line.stop
  refine ⟨location source line.start stop', ?_⟩
  rw [parseBlockScalar]
  simp only [htail, header.trim_indicators, hallowed, Bool.false_eq_true, if_false]
  rw [hchomping, hcolumns]
  unfold contentIndent at hpieces ⊢
  rw [hpieces]
  cases hfolded : header.folded with
  | true =>
      have hstyle : header.text.head? ≠ some '|' := by
        rw [Header.text, hfolded]
        exact fun h => absurd (Option.some.inj h) (by decide)
      rw [if_neg hstyle, joined, if_pos rfl, foldLines_eq_joinWith, joinWith_paragraphs]
  | false =>
      have hstyle : header.text.head? = some '|' := by
        rw [Header.text, hfolded]
        rfl
      rw [if_pos hstyle, joined, if_neg Bool.false_ne_true]

end Reader

section Extent

variable {parent : Nat} {lines : List Line}

theorem parent_lt_contentIndent (header : Header) :
    parent < contentIndent header.columns parent lines := by
  rw [contentIndent, Header.columns]
  cases header.digit with
  | some digit =>
      change parent < parent + (digit.val + 1)
      omega
  | none =>
      cases hfind : lines.find? fun line => !line.isBlank && parent < line.indent with
      | none => exact Nat.lt_succ_self parent
      | some line =>
          have := List.find?_some hfind
          rw [Bool.and_eq_true, decide_eq_true_eq] at this
          exact this.2

/-- Lines up to the first one that is not blank. -/
theorem exists_firstContent (lines : List Line) :
    (∀ line ∈ lines, line.isBlank = true) ∧ (lines.find? fun line => !line.isBlank) = none ∨
      ∃ front line back, lines = front ++ line :: back ∧ (∀ line ∈ front, line.isBlank = true) ∧
        line.isBlank = false ∧ (lines.find? fun line => !line.isBlank) = some line := by
  induction lines with
  | nil => exact .inl ⟨fun _ h => (List.not_mem_nil h).elim, rfl⟩
  | cons line lines ih =>
      by_cases hblank : line.isBlank = true
      · have hskip : ((line :: lines).find? fun line => !line.isBlank) =
            lines.find? fun line => !line.isBlank :=
          List.find?_cons_of_neg (by rw [hblank]; decide)
        rcases ih with ⟨hall, hnone⟩ | ⟨front, found, back, rfl, hall, hcontent, hfind⟩
        · exact .inl ⟨List.forall_mem_cons.mpr ⟨hblank, hall⟩, hskip.trans hnone⟩
        · exact .inr ⟨line :: front, found, back, rfl, List.forall_mem_cons.mpr ⟨hblank, hall⟩,
            hcontent, hskip.trans hfind⟩
      · rw [Bool.not_eq_true] at hblank
        refine .inr ⟨[], line, lines, rfl, fun _ h => (List.not_mem_nil h).elim, hblank, ?_⟩
        exact List.find?_cons_of_pos (by rw [hblank]; rfl)

/-- The indentation of a block is the one that the reader takes; where there is none, the block
is blank. -/
theorem blockIndent_cases (header : Header) (parent : Nat) (lines : List Line) :
    blockIndent header.columns parent lines =
        some (contentIndent header.columns parent lines) ∨
      blockIndent header.columns parent lines = none ∧
        ∀ line ∈ blockLines none lines, line.isBlank = true := by
  unfold blockIndent contentIndent
  cases header.columns with
  | some columns => exact .inl rfl
  | none =>
      simp only [Option.map_none, Option.none_or]
      rcases exists_firstContent lines with ⟨hall, hnone⟩ | ⟨front, line, back, rfl, hall, hcontent,
        hfind⟩
      · rw [hnone]
        exact .inr ⟨rfl, fun line h => hall line ((List.takeWhile_sublist _).subset h)⟩
      · rw [hfind]
        by_cases hdeep : parent < line.indent
        · have hboth : ((front ++ line :: back).find? fun line =>
              !line.isBlank && decide (parent < line.indent)) = some line := by
            rw [List.find?_append, List.find?_eq_none.mpr, Option.none_or,
              List.find?_cons_of_pos]
            · simp [hcontent, hdeep]
            · intro other hmem
              simp [hall other hmem]
          rw [hboth]
          refine .inl ?_
          simp [hdeep]
        · refine .inr ⟨by simpa using hdeep, fun other h => ?_⟩
          have := List.mem_takeWhile_imp h
          simpa using this

/-- The reader stops where the block ends. -/
theorem takeWhile_eq_blockLines (header : Header) (parent : Nat) (lines : List Line) :
    lines.takeWhile (within (contentIndent header.columns parent lines)) =
      blockOf header parent lines := by
  rcases blockIndent_cases header parent lines with hindent | ⟨hindent, -⟩
  · rw [blockOf, hindent]
    rfl
  -- the first line that is not blank is no deeper than the key, and ends the block
  rw [blockOf, hindent, blockLines]
  have hdeep := @parent_lt_contentIndent parent lines header
  generalize contentIndent header.columns parent lines = indent at hdeep
  unfold blockIndent at hindent
  cases hcolumns : header.columns with
  | some columns => rw [hcolumns] at hindent; cases hindent
  | none =>
      rw [hcolumns] at hindent
      simp only at hindent
      have hin : ∀ line : Line, line.isBlank = true → within indent line = true := fun line h => by
        rw [within, h]
        rfl
      have hblock : ∀ line : Line, line.isBlank = true →
          (line.isBlank || (none : Option Nat).any (· ≤ line.indent)) = true := fun line h => by
        rw [h]
        rfl
      rcases exists_firstContent lines with ⟨hall, -⟩ | ⟨front, line, back, rfl, hall, hcontent,
        hfind⟩
      · rw [List.takeWhile_eq_self_iff.mpr fun line h => hin line (hall line h),
          List.takeWhile_eq_self_iff.mpr fun line h => hblock line (hall line h)]
      · rw [hfind] at hindent
        have hshallow : line.indent ≤ parent := by
          simpa using hindent
        rw [List.takeWhile_append_of_pos fun line h => hin line (hall line h),
          List.takeWhile_append_of_pos fun line h => hblock line (hall line h),
          List.takeWhile_cons_of_neg, List.takeWhile_cons_of_neg]
        · simp [hcontent]
        · simp only [within, hcontent, Bool.false_or, decide_eq_true_eq]
          omega

end Extent

section Law

/-- The reader gives the text of the block and goes on behind it. -/
def FollowsLaw (source : Nat) (fragments : List (List Char)) (header : Header) (line : Line)
    (parent : Nat) (reader : Reader) : Prop :=
  ∃ location, parseBlockScalar source line header.text parent reader =
    .ok (.scalar (.string
        (String.ofList (blockText fragments header parent reader.remaining))) location,
      { reader with
        remaining := reader.remaining.drop (blockOf header parent reader.remaining).length })

/-- The blocks that the reader gives the text of. -/
structure Lawful (fragments : List (List Char)) (header : Header) (parent : Nat)
    (remaining : List Line) : Prop where
  /-- A blank line that is no deeper than the key is made of spaces. -/
  spaces : ∀ line ∈ blockOf header parent remaining,
    line.isBlank = true → line.indent ≤ parent → line.content = []
  /-- In a block without an indentation no line is deeper than the one that is taken. -/
  shallow : blockIndent header.columns parent remaining = none →
    ∀ line ∈ blockOf header parent remaining,
      line.indent ≤ contentIndent header.columns parent remaining
  /-- A clipped block that has lines has content, and a last line that is ended or blank. -/
  clip : header.chomping = .clip → blockOf header parent remaining ≠ [] →
    (∃ line ∈ blockOf header parent remaining,
      (dedent (blockIndent header.columns parent remaining) line).1 ≠ []) ∧
    (ended fragments (blockOf header parent remaining) remaining = false →
      ∃ last ∈ (blockOf header parent remaining).getLast?,
        (dedent (blockIndent header.columns parent remaining) last).1 = [])
  /-- A kept block has lines, the last of which is ended. -/
  keep : header.chomping = .keep → blockOf header parent remaining ≠ [] ∧
    ended fragments (blockOf header parent remaining) remaining = true

/-- The line has no space before its content and no line end in it. -/
structure Line.Split (line : Line) : Prop where
  start : line.content.head? ≠ some ' '
  oneLine : '\n' ∉ line.content

variable {indent parent : Nat} {line : Line}

theorem pieceOf_deep (h : ¬(line.indent ≤ parent ∧ line.isBlank = true)) :
    pieceOf indent parent line = dedent (some indent) line := by
  have hdeep : (decide (line.indent ≤ parent) && line.isBlank) = false := by
    rw [Bool.and_eq_false_iff, decide_eq_false_iff_not, ← Bool.not_eq_true]
    exact not_and_or.mp h
  rw [pieceOf, hdeep, if_neg Bool.false_ne_true, dedent, decide_eq_decide.mpr Nat.sub_pos_iff_lt]

theorem pieceOf_shallow (h : line.indent ≤ parent) (hblank : line.isBlank = true) :
    pieceOf indent parent line = ([], false) := by
  rw [pieceOf, hblank, decide_eq_true h]
  rfl

/-- What is left of a line is what the reader makes of it, if its white space is spaces and, in a
block without an indentation, it is not too deep. -/
theorem pieceOf_eq {found : Option Nat} (hindent : parent < indent)
    (hspaces : line.isBlank = true → line.indent ≤ parent → line.content = [])
    (hfound : found = some indent ∨ found = none ∧ line.isBlank = true ∧ line.indent ≤ indent) :
    pieceOf indent parent line = dedent found line := by
  by_cases hshallow : line.indent ≤ parent ∧ line.isBlank = true
  · have hnone : line.indent - indent = 0 := by omega
    have hless : ¬indent < line.indent := by omega
    rw [pieceOf_shallow hshallow.1 hshallow.2]
    rcases hfound with rfl | ⟨rfl, -, -⟩
    · simp [dedent, hnone, hless, hspaces hshallow.2 hshallow.1]
    · simp [dedent, hspaces hshallow.2 hshallow.1]
  · rw [pieceOf_deep hshallow]
    rcases hfound with rfl | ⟨rfl, -, hdeep⟩
    · rfl
    · have hnone : line.indent - indent = 0 := by omega
      have hless : ¬indent < line.indent := by omega
      simp [dedent, hnone, hless]

theorem exists_joint (folded : Bool) : ∃ joint, Joins joint ∧
    ∀ pieces, joined folded pieces = joinWith joint pieces := by
  cases folded with
  | true =>
      exact ⟨foldJoint, joins_fold, fun pieces => (joinWith_paragraphs pieces).symm⟩
  | false => exact ⟨_, joins_literal, fun pieces => intercalate_eq_joinWith pieces⟩

/-- Terms that are no larger one by one and as large in sum are the same. -/
theorem eq_of_sum_eq {α : Type} {f g : α → Nat} {values : List α}
    (hle : ∀ value ∈ values, f value ≤ g value)
    (hsum : (values.map f).sum = (values.map g).sum) : ∀ value ∈ values, f value = g value := by
  induction values with
  | nil => exact fun _ h => (List.not_mem_nil h).elim
  | cons value values ih =>
      obtain ⟨hfirst, hrest⟩ := List.forall_mem_cons.mp hle
      have htail : (values.map f).sum ≤ (values.map g).sum := List.sum_le_sum hrest
      rw [List.map_cons, List.map_cons, List.sum_cons, List.sum_cons] at hsum
      exact List.forall_mem_cons.mpr ⟨by omega, ih hrest (by omega)⟩

/-- The texts have the same characters besides spaces and line ends, so the reader keeps those of
every line. -/
theorem spaces_of_stripped {joint : Piece → Piece → Char} (hjoins : Joins joint)
    {found : Option Nat} {lines : List Line}
    (hsplit : ∀ line ∈ lines, line.Split) (hfound : found = some indent ∨ found = none)
    (h : stripped (joinWith joint (lines.map (pieceOf indent parent))) =
      stripped (joinWith joint (lines.map (dedent found)))) :
    ∀ line ∈ lines, line.isBlank = true → line.indent ≤ parent → line.content = [] := by
  have hspaces : ∀ count, solid (List.replicate count ' ') = [] := by
    intro count
    rw [solid, List.filter_eq_nil_iff]
    intro c hc
    rw [(List.mem_replicate.mp hc).2]
    decide
  have hdedent : ∀ line, solid (dedent found line).1 = solid line.content := by
    intro line
    rcases hfound with rfl | rfl
    · rw [dedent, solid_append, hspaces, List.nil_append]
    · rfl
  have hle : ∀ line ∈ lines,
      (solid (pieceOf indent parent line).1).length ≤ (solid (dedent found line).1).length := by
    intro line _
    rw [hdedent, pieceOf]
    split
    · exact Nat.zero_le _
    · rw [solid_append, hspaces, List.nil_append]
  have hsolid := congrArg (fun text => (solid text).length) h
  simp only [solid_stripped, solid_joinWith hjoins, List.length_flatMap, List.map_map] at hsolid
  intro line hmem hblank hshallow
  have hsame := eq_of_sum_eq hle hsolid line hmem
  rw [pieceOf_shallow hshallow hblank, hdedent] at hsame
  by_contra hne
  obtain ⟨c, rest, hcontent⟩ := List.exists_cons_of_ne_nil hne
  have hstart := (hsplit line hmem).start
  have hline := (hsplit line hmem).oneLine
  rw [hcontent] at hsame hstart hline
  have hspace : c ≠ ' ' := fun h => hstart (by rw [h]; rfl)
  have hend : c ≠ '\n' := fun h => hline (by rw [h]; exact List.mem_cons_self)
  have hmore : (solid (c :: rest)).length = (solid rest).length + 1 := by
    rw [solid, List.filter_cons_of_pos (by simp [hspace, hend]), List.length_cons]
    rfl
  exact absurd (hsame.trans hmore) (Nat.zero_ne_add_one _)

/-- Where no text is left of the lines of a block, the reader leaves none either. -/
theorem shallow_of_stripped {joint : Piece → Piece → Char} (hjoins : Joins joint)
    {lines : List Line} (hindent : parent < indent) (hsplit : ∀ line ∈ lines, line.Split)
    (hspaces : ∀ line ∈ lines, line.isBlank = true → line.indent ≤ parent → line.content = [])
    (h : stripped (joinWith joint (lines.map (pieceOf indent parent))) =
      stripped (joinWith joint (lines.map (dedent none)))) :
    ∀ line ∈ lines, line.indent ≤ indent := by
  -- a piece is the line without its indentation, and some more spaces in front
  have hpiece : ∀ line ∈ lines, (pieceOf indent parent line).1 =
      List.replicate (line.indent - indent) ' ' ++ (dedent none line).1 := by
    intro line hmem
    by_cases hshallow : line.indent ≤ parent ∧ line.isBlank = true
    · have hnone : line.indent - indent = 0 := by omega
      rw [pieceOf_shallow hshallow.1 hshallow.2, hnone]
      exact (hspaces line hmem hshallow.2 hshallow.1).symm
    · rw [pieceOf_deep hshallow]
      rfl
  have hends : ∀ line ∈ lines, ∀ c ∈ (pieceOf indent parent line).1, c ≠ '\n' := by
    intro line hmem c hc
    rw [hpiece line hmem] at hc
    rcases List.mem_append.mp hc with hc | hc
    · rw [(List.mem_replicate.mp hc).2]
      decide
    · exact fun h => (hsplit line hmem).oneLine (h ▸ hc)
  have hzero : ∀ line ∈ lines, (pieceOf indent parent line).1 = [] → line.indent ≤ indent ∧
      (dedent none line).1 = [] := by
    intro line hmem hnone
    rw [hpiece line hmem, List.append_eq_nil_iff, List.replicate_eq_nil_iff] at hnone
    exact ⟨by omega, hnone.2⟩
  rcases exists_last (fun line => (pieceOf indent parent line).1 ≠ []) lines with
    hnone | ⟨front, last, back, rfl, hlast, hback⟩
  · intro line hmem
    exact (hzero line hmem (not_not.mp (hnone line hmem))).1
  -- the lines behind the last one with some text are line ends in both texts
  have hback' : ∀ line ∈ back, line ∈ front ++ last :: back := fun line h =>
    List.mem_append_right _ (List.mem_cons_of_mem _ h)
  have hfront' : ∀ line ∈ front ++ [last], line ∈ front ++ last :: back := fun line h => by
    rw [List.append_cons]
    exact List.mem_append_left _ h
  have hcut : ∀ f : Line → Piece, (∀ line ∈ back, (f line).1 = []) →
      stripped (joinWith joint ((front ++ last :: back).map f)) =
        stripped (joinWith joint ((front ++ [last]).map f)) := by
    intro f hblank
    rw [List.append_cons, List.map_append,
      joinWith_blank hjoins (by simp) (List.forall_mem_map.mpr hblank), stripped_append]
  rw [hcut _ fun line hmem => not_not.mp (hback line hmem),
    hcut _ fun line hmem => (hzero line (hback' line hmem) (not_not.mp (hback line hmem))).2] at h
  have hwhole : stripped (joinWith joint ((front ++ [last]).map (pieceOf indent parent))) =
      joinWith joint ((front ++ [last]).map (pieceOf indent parent)) := by
    obtain ⟨init, c, hconcat⟩ := (List.eq_nil_or_concat' _).resolve_left hlast
    obtain ⟨before, hbefore⟩ := exists_joinWith_concat joint
      (front.map (pieceOf indent parent)) (pieceOf indent parent last)
    rw [List.map_append]
    refine stripped_of_end (before ++ init) (hends last (hfront' last (by simp)) c ?_) ?_
    · rw [hconcat]
      simp
    · rw [List.append_assoc, ← hconcat, ← hbefore]
      rfl
  have hlength : (joinWith joint ((front ++ [last]).map (pieceOf indent parent))).length ≤
      (joinWith joint ((front ++ [last]).map (dedent none))).length := by
    rw [← hwhole, h]
    exact length_stripped_le _
  have hpieces := @length_joinWith joint ((front ++ [last]).map (pieceOf indent parent)) (by simp)
  have hdedents := @length_joinWith joint ((front ++ [last]).map (dedent none)) (by simp)
  have hle : ∀ line ∈ front ++ [last],
      (dedent none line).1.length ≤ (pieceOf indent parent line).1.length := by
    intro line hmem
    rw [hpiece line (hfront' line hmem), List.length_append]
    exact Nat.le_add_left _ _
  simp only [List.map_map, List.length_map, Function.comp_def] at hpieces hdedents
  have hsum := List.sum_le_sum hle
  have hsame := eq_of_sum_eq hle (by omega)
  intro line hmem
  rcases List.mem_append.mp (List.append_cons front last back ▸ hmem) with hfront | hblank
  · have := hsame line hfront
    rw [hpiece line hmem, List.length_append, List.length_replicate] at this
    omega
  · exact (hzero line hmem (not_not.mp (hback line hblank))).1

/-- A text of lines is nothing but line ends where nothing is left of any line. -/
theorem stripped_joinWith_eq_nil {joint : Piece → Piece → Char} (hjoins : Joins joint)
    {pieces : List Piece} (hlines : ∀ piece ∈ pieces, '\n' ∉ piece.1) :
    stripped (joinWith joint pieces) = [] ↔ ∀ piece ∈ pieces, piece.1 = [] := by
  constructor
  · intro h piece hmem
    obtain ⟨count, hcount⟩ := exists_stripped (joinWith joint pieces)
    rw [h, List.nil_append] at hcount
    refine List.eq_nil_iff_forall_not_mem.mpr fun c hc => ?_
    have hend : c ∈ joinWith joint pieces := mem_joinWith hmem hc
    rw [hcount] at hend
    exact hlines piece hmem ((List.mem_replicate.mp hend).2 ▸ hc)
  · intro hblank
    cases pieces with
    | nil => rfl
    | cons piece pieces =>
        obtain ⟨hfirst, hrest⟩ := List.forall_mem_cons.mp hblank
        have := joinWith_blank hjoins (List.cons_ne_nil piece []) hrest
        rw [List.singleton_append, joinWith, hfirst] at this
        rw [this]
        exact stripped_append [] _

/-- A text of lines that are not all blank ends with a line end where its last line is blank. -/
theorem stripped_joinWith_eq_self {joint : Piece → Piece → Char} (hjoins : Joins joint)
    {front : List Piece} {last : Piece} (hlines : '\n' ∉ last.1)
    (hcontent : ∃ piece ∈ front ++ [last], piece.1 ≠ []) :
    stripped (joinWith joint (front ++ [last])) = joinWith joint (front ++ [last]) ↔
      last.1 ≠ [] := by
  constructor
  · intro h hblank
    have hfront : front ≠ [] := by
      rintro rfl
      obtain ⟨piece, hmem, hne⟩ := hcontent
      exact hne (List.mem_singleton.mp hmem ▸ hblank)
    rw [joinWith_blank hjoins hfront (by simpa using hblank), stripped_append] at h
    have hlength := congrArg List.length h
    have := length_stripped_le (joinWith joint front)
    rw [List.length_append, List.length_replicate, List.length_singleton] at hlength
    omega
  · intro hne
    obtain ⟨init, c, hconcat⟩ := (List.eq_nil_or_concat' _).resolve_left hne
    obtain ⟨before, hbefore⟩ := exists_joinWith_concat joint front last
    refine stripped_of_end (before ++ init) (c := c) ?_ ?_
    · rintro rfl
      exact hlines (by rw [hconcat]; simp)
    · rw [hbefore, hconcat, List.append_assoc]

theorem stripped_linesOf (folded ended : Bool) (pieces : List Piece) :
    stripped (linesOf folded ended pieces) = stripped (joined folded pieces) := by
  rw [linesOf]
  by_cases hnil : pieces = []
  · obtain ⟨joint, -, hjoined⟩ := exists_joint folded
    rw [if_pos hnil, hnil, hjoined]
    rfl
  · rw [if_neg hnil]
    cases ended with
    | false => rw [if_neg Bool.false_ne_true, List.append_nil]
    | true => exact stripped_append _ 1

theorem stripped_chomped (chomping : Chomping) (text : List Char) :
    stripped (chomped chomping text) = stripped text := by
  cases chomping with
  | strip => exact stripped_stripped text
  | keep => rfl
  | clip =>
      rw [chomped]
      split
      · exact stripped_stripped text
      · exact (stripped_append _ 1).trans (stripped_stripped text)

theorem stripped_chompEnd (chomping : Chomping) (lines : Bool) (text : List Char) :
    stripped (chompEnd chomping.text.head? lines text) = stripped text := by
  cases chomping with
  | strip => exact stripped_stripped text
  | keep => exact stripped_append text 1
  | clip =>
      cases lines with
      | false => exact stripped_stripped text
      | true => exact (stripped_append _ 1).trans (stripped_stripped text)

/-- When the reader gives the text of the lines that it takes. -/
theorem chompEnd_eq_chomped (chomping : Chomping) (folded ended : Bool) {pieces : List Piece}
    (hlines : ∀ piece ∈ pieces, '\n' ∉ piece.1) :
    chompEnd chomping.text.head? (!pieces.isEmpty) (joined folded pieces) =
        chomped chomping (linesOf folded ended pieces) ↔
      (chomping = .clip → pieces ≠ [] → (∃ piece ∈ pieces, piece.1 ≠ []) ∧
        (ended = false → ∃ last ∈ pieces.getLast?, last.1 = [])) ∧
      (chomping = .keep → pieces ≠ [] ∧ ended = true) := by
  obtain ⟨joint, hjoins, hjoined⟩ := exists_joint folded
  have hstripped := stripped_linesOf folded ended pieces
  cases chomping with
  | strip =>
      constructor
      · exact fun _ => ⟨(fun h => by cases h), (fun h => by cases h)⟩
      · exact fun _ => hstripped.symm
  | keep =>
      change joined folded pieces ++ ['\n'] = linesOf folded ended pieces ↔ _
      rw [linesOf]
      by_cases hnil : pieces = []
      · simp [hnil]
      · cases ended <;> simp [hnil]
  | clip =>
      have hclip : chompEnd Chomping.clip.text.head? (!pieces.isEmpty) (joined folded pieces) =
          if pieces = [] then stripped (joined folded pieces)
          else stripped (joined folded pieces) ++ ['\n'] := by
        cases pieces <;> rfl
      rw [hclip, chomped, hstripped, hjoined]
      rcases List.eq_nil_or_concat' pieces with rfl | ⟨front, last, rfl⟩
      · simp [stripped, joinWith]
      have hne : front ++ [last] ≠ [] := by simp
      have hvalue : linesOf folded ended (front ++ [last]) =
          joinWith joint (front ++ [last]) ++ if ended then ['\n'] else [] := by
        rw [linesOf, if_neg hne, hjoined]
      have hcontent : (∃ piece ∈ front ++ [last], piece.1 ≠ []) ↔
          stripped (joinWith joint (front ++ [last])) ≠ [] := by
        rw [Ne, stripped_joinWith_eq_nil hjoins hlines]
        push Not
        rfl
      have hlast : '\n' ∉ last.1 := hlines last (by simp)
      have hmore : stripped (joinWith joint (front ++ [last])) ++ ['\n'] ≠
          stripped (joinWith joint (front ++ [last])) := by simp
      rw [if_neg hne, hvalue, hcontent]
      have hclipped : (stripped (joinWith joint (front ++ [last])) ≠ [] ∧
            (ended = false → ∃ value ∈ (front ++ [last]).getLast?, value.1 = [])) ↔
          ¬(stripped (joinWith joint (front ++ [last])) = [] ∨
            stripped (joinWith joint (front ++ [last])) =
              joinWith joint (front ++ [last]) ++ if ended then ['\n'] else []) := by
        rw [not_or]
        refine and_congr_right fun hsome => ?_
        have hself := stripped_joinWith_eq_self hjoins hlast (hcontent.mpr hsome)
        cases ended with
        | false =>
            rw [if_neg Bool.false_ne_true, List.append_nil, hself]
            simp
        | true =>
            have := length_stripped_le (joinWith joint (front ++ [last]))
            refine iff_of_true (fun h => by cases h) fun h => ?_
            have hlength := congrArg List.length h
            rw [if_pos rfl, List.length_append, List.length_singleton] at hlength
            omega
      constructor
      · intro h
        refine ⟨fun _ _ => hclipped.mpr fun hor => ?_, (fun h => by cases h)⟩
        rw [if_pos hor] at h
        exact hmore h
      · intro h
        rw [if_neg (hclipped.mp (h.1 rfl hne))]

theorem Line.split_ofText (start : Nat) {text : List Char} (h : '\n' ∉ text) :
    (Line.ofText start text).Split where
  start := by
    intro hhead
    change (text.drop (text.takeWhile (· = ' ')).length).head? = some ' ' at hhead
    rw [drop_length_takeWhile] at hhead
    have := List.head?_dropWhile_not (· = ' ') text
    rw [hhead] at this
    exact absurd this (by decide)
  oneLine := fun hmem => h ((List.drop_sublist _ _).subset hmem)

theorem completeLines_split : ∀ (text : List Char) (start : Nat) (pending : List Char),
    '\n' ∉ pending →
      (∀ line ∈ (completeLines start pending text).1, line.Split) ∧
        '\n' ∉ (completeLines start pending text).2.2 := by
  intro text
  induction text with
  | nil => exact fun start pending h => ⟨fun _ hmem => (List.not_mem_nil hmem).elim, h⟩
  | cons c rest ih =>
      intro start pending h
      rw [completeLines]
      split
      · obtain ⟨hlines, hpending⟩ := ih (start + byteLength pending + 1) [] List.not_mem_nil
        refine ⟨List.forall_mem_cons.mpr ⟨Line.split_ofText start fun hmem => ?_, hlines⟩,
          hpending⟩
        exact h ((List.rdropWhile_prefix _ _).sublist.subset hmem)
      · rename_i hc
        refine ih start (pending ++ [c]) fun hmem => ?_
        rcases List.mem_append.mp hmem with hmem | hmem
        · exact h hmem
        · exact hc (List.mem_singleton.mp hmem).symm

theorem fragmentLines_split : ∀ (fragments : List (List Char)) (start : Nat)
    (pending : List Char), '\n' ∉ pending →
      ∀ line ∈ fragmentLines start pending fragments, line.Split := by
  intro fragments
  induction fragments with
  | nil =>
      intro start pending h line hmem
      rw [fragmentLines] at hmem
      split at hmem
      · exact (List.not_mem_nil hmem).elim
      · rw [List.mem_singleton.mp hmem]
        exact Line.split_ofText start fun hend =>
          h ((List.rdropWhile_prefix _ _).sublist.subset hend)
  | cons fragment fragments ih =>
      intro start pending h line hmem
      obtain ⟨hlines, hpending⟩ := completeLines_split fragment start pending h
      rw [fragmentLines] at hmem
      rcases List.mem_append.mp hmem with hmem | hmem
      · exact hlines line hmem
      · exact ih _ _ hpending line hmem

theorem documentLines_split (fragments : List (List Char)) :
    ∀ line ∈ documentLines fragments, line.Split := by
  have hlines := fragmentLines_split fragments 0 [] List.not_mem_nil
  intro line hmem
  rw [documentLines] at hmem
  split at hmem
  · rcases List.mem_append.mp hmem with hmem | hmem
    · exact hlines line hmem
    · rw [List.mem_singleton.mp hmem]
      exact ⟨(fun h => nomatch h), List.not_mem_nil⟩
  · exact hlines line hmem

/-- In any document, the reader gives the text of the block exactly where the block is lawful. -/
theorem followsLaw_iff_lawful (source : Nat) (fragments : List (List Char)) (header : Header)
    (line : Line) (parent : Nat) (reader : Reader)
    (hremaining : reader.remaining <:+ documentLines fragments) :
    FollowsLaw source fragments header line parent reader ↔
      Lawful fragments header parent reader.remaining := by
  obtain ⟨location, hreader⟩ := parseBlockScalar_header source header line parent reader
  simp only [takeWhile_eq_blockLines] at hreader
  have hsplit : ∀ line ∈ blockOf header parent reader.remaining, line.Split := fun line hmem =>
    documentLines_split fragments line
      (hremaining.subset ((List.takeWhile_prefix _).subset hmem))
  have hrest : reader.remaining.dropWhile
      (within (contentIndent header.columns parent reader.remaining)) =
        reader.remaining.drop (blockOf header parent reader.remaining).length := by
    rw [← takeWhile_eq_blockLines, drop_length_takeWhile]
  have hlaw : FollowsLaw source fragments header line parent reader ↔
      chompEnd header.chomping.text.head?
          (!((blockOf header parent reader.remaining).map
            (pieceOf (contentIndent header.columns parent reader.remaining) parent)).isEmpty)
          (joined header.folded ((blockOf header parent reader.remaining).map
            (pieceOf (contentIndent header.columns parent reader.remaining) parent))) =
        blockText fragments header parent reader.remaining := by
    rw [FollowsLaw, hreader, hrest]
    constructor
    · rintro ⟨other, h⟩
      have hpair := Prod.mk.inj (Except.ok.inj h)
      exact String.ofList_injective (Value.string.inj (YamlNode.scalar.inj hpair.1).1)
    · intro h
      exact ⟨location, by rw [h]⟩
  have hdeep := @parent_lt_contentIndent parent reader.remaining header
  have hindent := blockIndent_cases header parent reader.remaining
  have hpieces : (∀ line ∈ blockOf header parent reader.remaining,
        line.isBlank = true → line.indent ≤ parent → line.content = []) →
      (blockIndent header.columns parent reader.remaining = none →
        ∀ line ∈ blockOf header parent reader.remaining,
          line.indent ≤ contentIndent header.columns parent reader.remaining) →
      (blockOf header parent reader.remaining).map
          (pieceOf (contentIndent header.columns parent reader.remaining) parent) =
        (blockOf header parent reader.remaining).map
          (dedent (blockIndent header.columns parent reader.remaining)) := by
    intro hspaces hshallow
    refine List.map_congr_left fun line hmem => pieceOf_eq hdeep (hspaces line hmem) ?_
    refine hindent.imp_right fun hnone => ⟨hnone.1, hnone.2 line ?_, hshallow hnone.1 line hmem⟩
    rw [blockOf, hnone.1] at hmem
    exact hmem
  have hends : ∀ line ∈ blockOf header parent reader.remaining,
      '\n' ∉ (dedent (blockIndent header.columns parent reader.remaining) line).1 := by
    intro line hmem
    cases blockIndent header.columns parent reader.remaining with
    | none => exact (hsplit line hmem).oneLine
    | some indent =>
        intro hend
        rcases List.mem_append.mp hend with hend | hend
        · exact absurd (List.mem_replicate.mp hend).2 (by decide)
        · exact (hsplit line hmem).oneLine hend
  have hchomping := chompEnd_eq_chomped header.chomping header.folded
    (ended fragments (blockOf header parent reader.remaining) reader.remaining)
    (List.forall_mem_map.mpr hends)
  rw [hlaw, blockText]
  constructor
  · intro h
    obtain ⟨joint, hjoins, hjoined⟩ := exists_joint header.folded
    have htexts := congrArg stripped h
    rw [stripped_chompEnd, stripped_chomped, stripped_linesOf, hjoined, hjoined] at htexts
    have hspaces := spaces_of_stripped hjoins hsplit
      (hindent.imp_right fun h => h.1) htexts
    have hshallow : blockIndent header.columns parent reader.remaining = none →
        ∀ line ∈ blockOf header parent reader.remaining,
          line.indent ≤ contentIndent header.columns parent reader.remaining := by
      intro hnone
      rw [hnone] at htexts
      exact shallow_of_stripped hjoins hdeep hsplit hspaces htexts
    rw [hpieces hspaces hshallow, hchomping] at h
    refine ⟨hspaces, hshallow, ?_, ?_⟩
    · intro hclip hlines
      have := h.1 hclip (by simpa using hlines)
      simpa using this
    · intro hkeep
      simpa using h.2 hkeep
  · intro h
    rw [hpieces h.spaces h.shallow, hchomping]
    refine ⟨fun hclip hlines => ?_, fun hkeep => ?_⟩
    · have := h.clip hclip (by simpa using hlines)
      simpa using this
    · simpa using h.keep hkeep

/-- A clipped literal block behind the key `k`. -/
def literalHeader : Header := ⟨false, none, .clip, true, [], fun _ h => nomatch h⟩

theorem followsLaw_iff_lawful_lines :
    FollowsLaw 0 ["k: |\n  a\n\n   b\n".toList] literalHeader ⟨0, 4, 0, "k: |".toList⟩ 0
      ⟨[⟨5, 8, 2, ['a']⟩, ⟨9, 9, 0, []⟩, ⟨10, 14, 3, ['b']⟩], [], 0⟩ := by
  refine (followsLaw_iff_lawful _ _ _ _ _ _ ⟨[⟨0, 4, 0, "k: |".toList⟩], by decide +kernel⟩).mpr
    ⟨by decide +kernel, by decide +kernel, fun _ _ => ⟨⟨⟨5, 8, 2, ['a']⟩, ?_, ?_⟩, ?_⟩, ?_⟩
  · decide +kernel
  · decide +kernel
  · exact fun h => absurd h (by decide +kernel)
  · exact fun h => nomatch h

/-- A clipped block of blank lines is read as a line end. -/
theorem not_followsLaw_blank : ¬∀ (source : Nat) (fragments : List (List Char)) (header : Header)
    (line : Line) (parent : Nat) (reader : Reader),
    reader.remaining <:+ documentLines fragments →
      FollowsLaw source fragments header line parent reader := by
  intro h
  obtain ⟨location, hread⟩ := h 0 ["k: |\n\n".toList] literalHeader ⟨0, 4, 0, "k: |".toList⟩ 0
    ⟨[⟨5, 5, 0, []⟩], [], 0⟩ ⟨[⟨0, 4, 0, "k: |".toList⟩], by decide +kernel⟩
  have hvalue : parseBlockScalar 0 ⟨0, 4, 0, "k: |".toList⟩ literalHeader.text 0
      ⟨[⟨5, 5, 0, []⟩], [], 0⟩ =
        .ok (.scalar (.string (String.ofList ['\n'])) (Telora.Yaml.location 0 0 5),
          ⟨[], [], 0⟩) := by
    rfl
  rw [hvalue] at hread
  have htext := String.ofList_injective
    (Value.string.inj (YamlNode.scalar.inj (Prod.mk.inj (Except.ok.inj hread)).1).1)
  exact absurd htext (by decide +kernel)

end Law

end Telora.Yaml
