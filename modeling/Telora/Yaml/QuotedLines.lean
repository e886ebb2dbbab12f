import Telora.Yaml.Layout
import Telora.Yaml.QuoteScans

/-!
# Quotes on a line

Where a quoted string or a plain text with quotes in it stands on a line, with a comment or
more text behind it, and when the readers of the line make of it what it says. Strings in single
quotes are always read back. In double quotes an escaped quote counts as one that closes for the
scanner of comments, and a quote in a plain text counts as one that opens.
-/

namespace Telora.Yaml

open Library

section Scans

/-- The scan for a key inside of single and of double quotes. -/
def KeyScan.inside (quote : Char) : KeyScan := ⟨some quote, 0, false⟩

variable {quote c : Char} {front back : List Char}

theorem nextQuote_inside (hc : c ≠ quote) : nextQuote (some quote) c = some quote :=
  if_neg hc

theorem KeyScan.next_inside (hc : c ≠ quote) (hslash : quote = '"' → c ≠ '\\') :
    (KeyScan.inside quote).next c = .inside quote := by
  have hescape : ¬ (some quote = some '"' ∧ c = '\\') := fun h =>
    hslash (Option.some_inj.mp h.1) h.2
  simp only [next, inside, Bool.false_eq_true, if_false, if_neg hescape, if_neg hc]

/-- Both scanners pass a character of a string in single quotes: two apostrophes close and
open again. -/
theorem scan_apostrophes (c : Char) :
    quoteAfter (some '\'') (if c = '\'' then ['\'', '\''] else [c]) = some '\'' ∧
      (KeyScan.inside '\'').after (if c = '\'' then ['\'', '\''] else [c]) = .inside '\'' := by
  by_cases hc : c = '\''
  · rw [if_pos hc]
    exact ⟨rfl, rfl⟩
  · rw [if_neg hc]
    exact ⟨nextQuote_inside hc, KeyScan.next_inside hc fun h => absurd h (by decide)⟩

theorem scan_single (content : List Char) :
    quoteAfter (some '\'') (QuotedText.single content).body = some '\'' ∧
      (KeyScan.inside '\'').after (QuotedText.single content).body = .inside '\'' := by
  induction content with
  | nil => exact ⟨rfl, rfl⟩
  | cons c content ih =>
      rw [QuotedText.body] at ih ⊢
      rw [List.flatMap_cons, quoteAfter_append, KeyScan.after_append, (scan_apostrophes c).1,
        (scan_apostrophes c).2]
      exact ih

/-- In front of any character but an apostrophe both scanners are inside of the quotes. -/
theorem scan_single_front {content : List Char} (hc : c ≠ '\'')
    (h : (QuotedText.single content).body = front ++ c :: back) :
    quoteAfter (some '\'') front = some '\'' ∧
      (KeyScan.inside '\'').after front = .inside '\'' := by
  induction content generalizing front with
  | nil => cases front <;> cases h
  | cons d content ih =>
      rw [QuotedText.body] at ih h
      rw [List.flatMap_cons] at h
      rcases List.append_eq_append_iff.mp h with ⟨more, rfl, hrest⟩ | ⟨more, hpiece, hrest⟩
      · rw [quoteAfter_append, KeyScan.after_append, (scan_apostrophes d).1,
          (scan_apostrophes d).2]
        exact ih hrest
      · cases more with
        | nil =>
            rw [List.append_nil] at hpiece
            rw [← hpiece]
            exact scan_apostrophes d
        | cons e more =>
            obtain ⟨rfl, -⟩ := List.cons.inj hrest
            cases front with
            | nil => exact ⟨rfl, rfl⟩
            | cons e front =>
                have hmem : c ∈ if d = '\'' then ['\'', '\''] else [d] := by
                  rw [hpiece]
                  exact List.mem_append_right _ List.mem_cons_self
                split at hpiece
                · next hd =>
                    rw [if_pos hd] at hmem
                    have : c = '\'' := by simpa using hmem
                    exact absurd this hc
                · have hlength := congrArg List.length hpiece
                  simp at hlength

/-- A digit is no double quote and no backslash. -/
theorem ne_of_digitValue (h : digitValue c < 16) : c ≠ '"' ∧ c ≠ '\\' := by
  constructor <;> rintro rfl <;> exact absurd h (by decide)

theorem after_digits {digits : List Char} (h : ∀ c ∈ digits, digitValue c < 16) :
    (KeyScan.inside '"').after digits = .inside '"' := by
  induction digits with
  | nil => rfl
  | cons c digits ih =>
      obtain ⟨hc, hdigits⟩ := List.forall_mem_cons.mp h
      change ((KeyScan.inside '"').next c).after digits = _
      rw [KeyScan.next_inside (ne_of_digitValue hc).1 fun _ => (ne_of_digitValue hc).2]
      exact ih hdigits

/-- The scanner for a key passes a piece, and stays inside of the quotes all along. -/
theorem after_piece (piece : QuotedChar) : (KeyScan.inside '"').after piece.text = .inside '"' := by
  cases piece with
  | bare c hquote hslash => exact KeyScan.next_inside hquote fun _ => hslash
  | escape c value legal => rfl
  | code marker digits width hexadecimal scalar =>
      change (KeyScan.inside '"').after digits = _
      exact after_digits hexadecimal

theorem after_piece_front {piece : QuotedChar} (h : piece.text = front ++ back) :
    ((KeyScan.inside '"').after front).quote = some '"' := by
  cases piece with
  | bare c hquote hslash =>
      cases front with
      | nil => rfl
      | cons d front =>
          obtain ⟨rfl, htail⟩ := List.cons.inj h
          cases front with
          | nil => exact congrArg KeyScan.quote (KeyScan.next_inside hquote fun _ => hslash)
          | cons e front => cases htail
  | escape c value legal =>
      cases front with
      | nil => rfl
      | cons d front =>
          obtain ⟨rfl, htail⟩ := List.cons.inj h
          cases front with
          | nil => rfl
          | cons e front =>
              have hnil : front = [] := by
                have := (List.cons.inj htail).2
                exact (List.append_eq_nil_iff.mp this.symm).1
              rw [hnil]
              rfl
  | code marker digits width hexadecimal scalar =>
      cases front with
      | nil => rfl
      | cons d front =>
          obtain ⟨rfl, htail⟩ := List.cons.inj h
          cases front with
          | nil => rfl
          | cons e front =>
              obtain ⟨rfl, rfl⟩ := List.cons.inj htail
              change ((KeyScan.inside '"').after front).quote = _
              rw [after_digits fun c hc => hexadecimal c (List.mem_append_left _ hc)]
              rfl

theorem after_double (pieces : List QuotedChar) :
    (KeyScan.inside '"').after (QuotedText.double pieces).body = .inside '"' := by
  induction pieces with
  | nil => rfl
  | cons piece pieces ih =>
      rw [QuotedText.body] at ih ⊢
      rw [List.flatMap_cons, KeyScan.after_append, after_piece]
      exact ih

theorem after_double_front {pieces : List QuotedChar}
    (h : (QuotedText.double pieces).body = front ++ back) :
    ((KeyScan.inside '"').after front).quote = some '"' := by
  induction pieces generalizing front with
  | nil =>
      rw [(List.append_eq_nil_iff.mp h.symm).1]
      rfl
  | cons piece pieces ih =>
      rw [QuotedText.body] at ih h
      rw [List.flatMap_cons] at h
      rcases List.append_eq_append_iff.mp h with ⟨more, rfl, hrest⟩ | ⟨more, hpiece, -⟩
      · rw [KeyScan.after_append, after_piece]
        exact ih hrest
      · exact after_piece_front hpiece

end Scans

section Quoted

variable (quoted : QuotedText)

/-- The scanner for a key is outside again behind a quoted string. -/
theorem KeyScan.after_quoted : start.after quoted.text = start := by
  have hbody : (inside quoted.quote).after quoted.body = inside quoted.quote := by
    cases quoted with
    | single content => exact (scan_single content).2
    | double pieces => exact after_double pieces
  have hopen : start.next quoted.quote = inside quoted.quote := by
    cases quoted <;> rfl
  have hclose : (inside quoted.quote).next quoted.quote = start := by
    cases quoted <;> rfl
  calc start.after quoted.text
    _ = ((start.next quoted.quote).after quoted.body).next quoted.quote := by
        change (start.next quoted.quote).after (quoted.body ++ [quoted.quote]) = _
        rw [KeyScan.after_append]
        rfl
    _ = start := by rw [hopen, hbody, hclose]

/-- A character that is no quote is found between the quotes. -/
theorem QuotedText.split_text {c : Char} (hc : isQuote c = false) {front back : List Char}
    (h : quoted.text = front ++ c :: back) :
    ∃ inner rest, front = quoted.quote :: inner ∧ quoted.body = inner ++ c :: rest := by
  have hne : quoted.quote ≠ c := by
    rintro rfl
    rw [quoted.isQuote_quote] at hc
    cases hc
  cases front with
  | nil => exact absurd (List.cons.inj h).1 hne
  | cons d inner =>
      obtain ⟨rfl, htail⟩ := List.cons.inj h
      rcases List.eq_nil_or_concat' back with rfl | ⟨rest, last, rfl⟩
      · exact absurd (List.cons.inj (List.append_inj' htail rfl).2).1 hne
      · have hconcat : quoted.body ++ [quoted.quote] = (inner ++ c :: rest) ++ [last] := by
          rw [List.append_assoc]
          exact htail
        exact ⟨inner, rest, rfl, (List.append_inj' hconcat rfl).1⟩

/-- No colon in a quoted string is the one of a key. -/
theorem KeyScan.unsplit_quoted (more : List Char) : start.Unsplit quoted.text more := by
  intro front back h _ hstart
  obtain ⟨inner, rest, rfl, hbody⟩ := quoted.split_text (by decide) h
  have hopen : start.after (quoted.quote :: inner) = (inside quoted.quote).after inner := by
    cases quoted <;> rfl
  rw [hopen] at hstart
  cases quoted with
  | single content =>
      rw [QuotedText.quote, (scan_single_front (by decide) hbody).2] at hstart
      cases hstart
  | double pieces =>
      have hquote := after_double_front hbody
      rw [QuotedText.quote] at hstart
      rw [hstart] at hquote
      cases hquote

/-- No comment starts in a string in single quotes, and it is closed behind it. -/
theorem uncut_single (content : List Char) :
    Uncut none none (QuotedText.single content).text ∧
      quoteAfter none (QuotedText.single content).text = none := by
  constructor
  · intro front back h hopens
    obtain ⟨inner, rest, rfl, hbody⟩ := QuotedText.split_text _ (by decide) h
    have houtside := hopens.outside
    change quoteAfter (some '\'') inner = none at houtside
    rw [(scan_single_front (by decide) hbody).1] at houtside
    cases houtside
  · change quoteAfter (some '\'') ((QuotedText.single content).body ++ ['\'']) = none
    rw [quoteAfter_append, (scan_single content).1]
    rfl

end Quoted

/-- A text of white space. -/
abbrev Blank := {text : List Char // ∀ c ∈ text, isWhitespaceChar c = true}

/-- What is behind a value: white space, and behind it maybe a comment. -/
structure Behind where
  gap : Blank
  note : Option (List Char)
  apart : note.isSome = true → gap.val ≠ []

namespace Behind

def text (behind : Behind) : List Char := behind.gap.val ++ (behind.note.map ('#' :: ·)).getD []

end Behind

section Blanks

theorem ne_of_isWhitespaceChar {c d : Char} (h : isWhitespaceChar c = true)
    (hd : isWhitespaceChar d = false) : c ≠ d := by
  rintro rfl
  rw [h] at hd
  cases hd

theorem isQuote_of_isWhitespaceChar {c : Char} (h : isWhitespaceChar c = true) :
    isQuote c = false := by
  have hsingle := ne_of_isWhitespaceChar h (by decide : isWhitespaceChar '\'' = false)
  have hdouble := ne_of_isWhitespaceChar h (by decide : isWhitespaceChar '"' = false)
  simp [isQuote, hsingle, hdouble]

variable (gap : Blank)

/-- White space leaves a scan as it is, unless it is behind a backslash. -/
theorem nextQuote_blank {quote : Option Char} (hquote : ∀ active ∈ quote, isQuote active = true)
    {c : Char} (h : isWhitespaceChar c = true) : nextQuote quote c = quote := by
  cases quote with
  | none => exact if_neg (by rw [isQuote_of_isWhitespaceChar h]; exact Bool.false_ne_true)
  | some active =>
      refine if_neg fun hc => ?_
      have := isQuote_of_isWhitespaceChar h
      rw [hc, hquote active rfl] at this
      cases this

theorem quoteAfter_blank {quote : Option Char}
    (hquote : ∀ active ∈ quote, isQuote active = true) : quoteAfter quote gap.val = quote := by
  obtain ⟨gap, hgap⟩ := gap
  induction gap with
  | nil => rfl
  | cons c gap ih =>
      obtain ⟨hc, hgap⟩ := List.forall_mem_cons.mp hgap
      change quoteAfter (nextQuote quote c) gap = quote
      rw [nextQuote_blank hquote hc]
      exact ih hgap

theorem uncut_blank (quote previous : Option Char) : Uncut quote previous gap.val := by
  intro front back h
  have hmem : '#' ∈ gap.val := by
    rw [h]
    exact List.mem_append_right _ List.mem_cons_self
  exact absurd (gap.property _ hmem) (by decide)

theorem after_blank : KeyScan.start.after gap.val = .start := by
  obtain ⟨gap, hgap⟩ := gap
  induction gap with
  | nil => rfl
  | cons c gap ih =>
      obtain ⟨hc, hgap⟩ := List.forall_mem_cons.mp hgap
      have hnext : KeyScan.start.next c = .start := by
        have hopen : ¬ (c = '[' ∨ c = '\x7b') := by
          rintro (rfl | rfl) <;> exact absurd hc (by decide)
        have hclose : ¬ (c = ']' ∨ c = '\x7d') := by
          rintro (rfl | rfl) <;> exact absurd hc (by decide)
        simp [KeyScan.next, KeyScan.start, isQuote_of_isWhitespaceChar hc, hopen, hclose]
      change (KeyScan.start.next c).after gap = .start
      rw [hnext]
      exact ih hgap

theorem unsplit_blank (scan : KeyScan) (more : List Char) : scan.Unsplit gap.val more := by
  intro front back h
  have hmem : ':' ∈ gap.val := by
    rw [h]
    exact List.mem_append_right _ List.mem_cons_self
  exact absurd (gap.property _ hmem) (by decide)

/-- Trimming leaves alone what is before a text that does not vanish. -/
theorem trimEnd_append {front back : List Char} (h : trimEnd back ≠ []) :
    trimEnd (front ++ back) = front ++ trimEnd back := by
  have hne : (back.reverse.dropWhile isWhitespaceChar).isEmpty = false := by
    rw [List.isEmpty_eq_false_iff]
    exact fun hnil => h (List.reverse_eq_nil_iff.mpr hnil)
  rw [trimEnd, List.rdropWhile, List.reverse_append, List.dropWhile_append, hne,
    if_neg Bool.false_ne_true, List.reverse_append, List.reverse_reverse]
  rfl

/-- White space behind a text that ends solid is trimmed. -/
theorem trimEnd_blank {text : List Char} (h : EndsSolid text) :
    trimEnd (text ++ gap.val) = text := by
  obtain ⟨gap, hgap⟩ := gap
  induction gap using List.reverseRecOn with
  | nil =>
      rw [List.append_nil]
      exact h.trimEnd
  | append_singleton gap c ih =>
      have hc := hgap c (List.mem_append_right _ List.mem_cons_self)
      rw [← List.append_assoc, trimEnd, List.rdropWhile_concat_pos _ _ _ hc]
      exact ih fun d hd => hgap d (List.mem_append_left _ hd)

theorem trim_blank {text : List Char} (hstart : StartsSolid text) (hend : EndsSolid text) :
    trim (text ++ gap.val) = text := by
  rw [trim, (hstart.append gap.val).trimStart, trimEnd_blank gap hend]

end Blanks

section Values

/-- The text that is left of a value without its comment. -/
def valueText (text : List Char) : List Char := trim (stripComment text)

variable {text : List Char} {behind : Behind}

theorem isQuote_quoteAfter {quote : Option Char} (hquote : ∀ active ∈ quote, isQuote active = true)
    (text : List Char) : ∀ active ∈ quoteAfter quote text, isQuote active = true := by
  induction text generalizing quote with
  | nil => exact hquote
  | cons c text ih =>
      refine ih fun active hactive => ?_
      cases quote with
      | some opened =>
          change active ∈ (if c = opened then none else some opened) at hactive
          split at hactive
          · cases hactive
          · exact hquote active hactive
      | none =>
          change active ∈ (if isQuote c then some c else none) at hactive
          split at hactive
          · next hc =>
              cases hactive
              exact hc
          · cases hactive

/-- A value without a comment in it is left alone, unless a quote is open in front of a note. -/
theorem valueText_behind (hstart : StartsSolid text) (hend : EndsSolid text)
    (huncut : Uncut none none text)
    (hclosed : behind.note.isSome = true → quoteAfter none text = none) :
    valueText (text ++ behind.text) = text := by
  have hgap := uncut_blank behind.gap (quoteAfter none text) (lastOf none text)
  have hstrip : stripComment (text ++ behind.text) = text ++ behind.gap.val := by
    rw [stripComment, huncut.strip_append, Behind.text]
    cases hnote : behind.note with
    | none => rw [Option.map_none, Option.getD_none, List.append_nil, hgap.strip]
    | some note =>
        have hnone := hclosed (by rw [hnote]; rfl)
        have hlast : (lastOf (lastOf none text) behind.gap.val).all isWhitespaceChar = true := by
          rcases List.eq_nil_or_concat' behind.gap.val with hnil | ⟨front, c, hconcat⟩
          · exact absurd hnil (behind.apart (by rw [hnote]; rfl))
          · rw [hconcat, lastOf_concat, Option.all_some]
            refine behind.gap.property c ?_
            rw [hconcat]
            exact List.mem_append_right _ List.mem_cons_self
        rw [Option.map_some, Option.getD_some, hgap.strip_append, hnone,
          quoteAfter_blank behind.gap (by simp), stripCommentFrom_cons,
          if_pos ⟨rfl, rfl, hlast⟩, List.append_nil]
  rw [valueText, hstrip, trim_blank behind.gap hstart hend]

/-- With an open quote in front of it, a note is taken for a part of the value. -/
theorem valueText_open (hstart : StartsSolid text) (huncut : Uncut none none text)
    (hnote : behind.note.isSome = true) {active : Char}
    (hopen : quoteAfter none text = some active) :
    ∃ more, more ≠ [] ∧ valueText (text ++ behind.text) = text ++ (behind.gap.val ++ more) := by
  obtain ⟨note, hnote⟩ := Option.isSome_iff_exists.mp hnote
  have hquote := @isQuote_quoteAfter none (by simp) text
  rw [hopen] at hquote
  have hgap := uncut_blank behind.gap (some active) (lastOf none text)
  have hopened : ¬ ('#' = '#' ∧ some active = none ∧
      (lastOf (lastOf none text) behind.gap.val).all isWhitespaceChar = true) := fun h => by
    cases h.2.1
  obtain ⟨rest, hstrip⟩ : ∃ rest, stripComment (text ++ behind.text) =
      text ++ (behind.gap.val ++ '#' :: rest) := by
    refine ⟨stripCommentFrom (nextQuote (some active) '#') (some '#') note, ?_⟩
    rw [stripComment, huncut.strip_append, Behind.text, hnote, Option.map_some, Option.getD_some,
      hopen, hgap.strip_append, quoteAfter_blank behind.gap hquote, stripCommentFrom_cons,
      if_neg hopened]
  have hsolid : trimEnd ('#' :: rest) ≠ [] := by
    have hhash : StartsSolid ('#' :: rest) := ⟨'#', rest, rfl, by decide⟩
    have htrim := hhash.trim.1.ne_nil
    rwa [trim, hhash.trimStart] at htrim
  refine ⟨trimEnd ('#' :: rest), hsolid, ?_⟩
  rw [valueText, hstrip, trim, (hstart.append _).trimStart, ← List.append_assoc,
    trimEnd_append hsolid, List.append_assoc]

end Values

section Reading

variable {quoted : QuotedText} {behind : Behind}

/-- A string in double quotes that is cut at a comment is not read. -/
theorem decodeQuoted_cut {pieces : List QuotedChar} {front back : List Char}
    (h : (QuotedText.double pieces).text = front ++ '#' :: back) :
    decodeQuoted (trim front) = none := by
  obtain ⟨inner, rest, rfl, hbody⟩ := QuotedText.split_text _ (by decide) h
  have hstart : StartsSolid ('"' :: inner) := ⟨'"', inner, rfl, by decide⟩
  have hhead : (trim ('"' :: inner)).head? = some '"' := hstart.trim.2
  rw [Option.eq_none_iff_forall_ne_some]
  intro content hdecode
  have hsome : (decodeQuoted (trim ('"' :: inner))).isSome = true := by
    change decodeQuoted (trim ('"' :: inner)) = some content at hdecode
    rw [hdecode]
    rfl
  obtain ⟨inside, htrim, hdecodes⟩ := (isSome_decodeQuoted_iff (by decide) hhead).mp hsome
  obtain ⟨content, hdecodes⟩ := hdecodes rfl
  obtain ⟨gap, hgap⟩ : trim ('"' :: inner) <+: '"' :: inner := by
    rw [trim, hstart.trimStart]
    exact List.rdropWhile_prefix _ _
  rw [htrim] at hgap
  have hinner : inner = inside ++ ['"'] ++ gap := (List.cons.inj hgap).2.symm
  have hquote : pieces.flatMap QuotedChar.text = inside ++ '"' :: (gap ++ '#' :: rest) := by
    change _ = inner ++ '#' :: rest at hbody
    rw [hinner, List.append_assoc, List.append_assoc] at hbody
    exact hbody
  exact not_decodes_front hquote hdecodes

/-- A quoted string that runs into more text is not read back. -/
theorem decodeQuoted_longer (quoted : QuotedText) {more : List Char} (hmore : more ≠ [])
    (hdouble : quoted.quote = '"') :
    decodeQuoted (quoted.text ++ more) ≠ some quoted.content := by
  cases quoted with
  | single content =>
      have hne : '\'' ≠ '"' := by decide
      exact absurd hdouble hne
  | double pieces =>
      intro hdecode
      have hsome : (decodeQuoted ((QuotedText.double pieces).text ++ more)).isSome = true := by
        rw [hdecode]
        rfl
      obtain ⟨inside, htext, -⟩ :
          Closes '"' ((QuotedText.double pieces).text ++ more) :=
        (isSome_decodeQuoted_iff (by decide) rfl).mp hsome
      obtain ⟨front, last, rfl⟩ := (List.eq_nil_or_concat' more).resolve_left hmore
      have hinside : pieces.flatMap QuotedChar.text ++ '"' :: front = inside := by
        have hconcat : pieces.flatMap QuotedChar.text ++ '"' :: front ++ [last] =
            inside ++ ['"'] := by
          rw [← (List.cons.inj htext).2, List.append_assoc]
          exact (List.append_assoc (pieces.flatMap QuotedChar.text) ['"'] (front ++ [last])).symm
        exact (List.append_inj' hconcat rfl).1
      rw [htext, ← hinside, decodeQuoted_double] at hdecode
      obtain ⟨-, rest, hcontent, hdecodes⟩ :=
        (decodes_pieces pieces).mp (decodes_of_decodeDouble hdecode)
      have hnil : rest = [] := by
        rw [QuotedText.content] at hcontent
        exact List.self_eq_append_right.mp hcontent
      rw [hnil] at hdecodes
      cases hdecodes

/-- A string is read back exactly when the decoder knows its escapes, no comment seems to start
in it, and it seems closed in front of a comment. -/
theorem decodeQuoted_valueText_iff (quoted : QuotedText) (behind : Behind) :
    decodeQuoted (valueText (quoted.text ++ behind.text)) = some quoted.content ↔
      quoted.Known ∧ Uncut none none quoted.text ∧
        (behind.note.isSome = true → quoteAfter none quoted.text = none) := by
  by_cases huncut : Uncut none none quoted.text
  · by_cases hclosed : behind.note.isSome = true → quoteAfter none quoted.text = none
    · rw [valueText_behind quoted.startsSolid quoted.endsSolid huncut hclosed,
        decodeQuoted_text_iff]
      exact (and_iff_left ⟨huncut, hclosed⟩).symm
    · refine iff_of_false ?_ fun h => hclosed h.2.2
      rw [Classical.not_imp] at hclosed
      obtain ⟨active, hopen⟩ := Option.ne_none_iff_exists'.mp hclosed.2
      obtain ⟨more, hmore, hvalue⟩ := valueText_open quoted.startsSolid huncut hclosed.1 hopen
      rw [hvalue]
      refine decodeQuoted_longer quoted ?_ ?_
      · exact fun hnil => hmore (List.append_eq_nil_iff.mp hnil).2
      · cases quoted with
        | single content => exact absurd (uncut_single content).2 hclosed.2
        | double pieces => rfl
  · refine iff_of_false ?_ fun h => huncut h.2.1
    obtain ⟨front, back, hsplit, -, hstrip⟩ := exists_cut huncut
    rw [valueText, stripComment, hstrip]
    cases quoted with
    | single content => exact absurd (uncut_single content).1 huncut
    | double pieces =>
        rw [decodeQuoted_cut hsplit]
        exact fun h => by cases h

variable (source : Nat) (line : Line) (offset : Nat) (reader : Reader)

theorem parseScalar_quote {quote : Char} (hquote : isQuote quote = true) {text : List Char}
    (hhead : text.head? = some quote) :
    parseScalar text = match decodeQuoted text with
      | some content => .ok (.string (String.ofList content))
      | none => .error "invalid quoted YAML String" := by
  have hany : text.head?.any isQuote = true := by
    rw [hhead]
    exact hquote
  rw [parseScalar]
  cases decodeQuoted text with
  | some content => rfl
  | none => exact if_pos hany

theorem head?_valueText {quote : Char} (hquote : isQuote quote = true) {text : List Char}
    (hhead : text.head? = some quote) : (valueText text).head? = some quote := by
  cases text with
  | nil => cases hhead
  | cons c rest =>
      cases hhead
      have hsolid : isWhitespaceChar quote = false := by
        rcases eq_of_isQuote hquote with rfl | rfl <;> decide
      have hhash : quote ≠ '#' := by
        rintro rfl
        exact absurd hquote (by decide)
      have hstrip : stripComment (quote :: rest) =
          quote :: stripCommentFrom (nextQuote none quote) (some quote) rest := by
        rw [stripComment, stripCommentFrom_cons, if_neg fun h => hhash h.1]
      have hstart : StartsSolid (stripComment (quote :: rest)) := ⟨quote, _, hstrip, hsolid⟩
      rw [valueText, hstart.trim.2, hstrip]
      rfl

/-- What a value that starts with a quote is read as. -/
theorem parseInlineValue_quote {quote : Char} (hquote : isQuote quote = true) {text : List Char}
    (hhead : text.head? = some quote) :
    parseInlineValue source line text offset reader =
      let location := location source offset (offset + byteLength (valueText text))
      match decodeQuoted (valueText text) with
      | some content => .ok (.scalar (.string (String.ofList content)) location, reader)
      | none => .error (.error "invalid quoted YAML String" location) := by
  have hvalue := head?_valueText hquote hhead
  have hne : ∀ c, isQuote c = false → (valueText text).head? ≠ some c := by
    intro c hc h
    rw [hvalue] at h
    cases h
    rw [hquote] at hc
    cases hc
  have hbracket : ¬ ((valueText text).head? = some '[' ∨
      (valueText text).head? = some '\x7b') := fun h =>
    h.elim (hne '[' (by decide)) (hne '\x7b' (by decide))
  rw [parseInlineValue, parseInlineWith.eq_def]
  unfold valueText at hvalue hne hbracket ⊢
  simp only [if_neg (hne '!' (by decide)), if_neg (hne '*' (by decide)),
    if_neg (hne '&' (by decide)), if_neg hbracket]
  rw [parseScalar_quote hquote hvalue]
  cases decodeQuoted (trim (stripComment text)) <;> rfl

/-- What a key that starts with a quote is read as. -/
theorem parseKey_quote {quote : Char} (hquote : isQuote quote = true) {text : List Char}
    (hhead : (trim text).head? = some quote) :
    parseKey text = match decodeQuoted (trim text) with
      | some content => .ok (String.ofList content)
      | none => .error "YAML mapping keys must be Strings" := by
  have hne : trim text ≠ [] := by
    intro hnil
    rw [hnil] at hhead
    cases hhead
  have hbracket : ¬ (trim text).head?.any (· ∈ ['[', '\x7b', '?']) = true := by
    rw [hhead]
    rcases eq_of_isQuote hquote with rfl | rfl <;> decide
  have hany : (trim text).head?.any isQuote = true := by
    rw [hhead]
    exact hquote
  rw [parseKey]
  simp only [if_neg hne, if_neg hbracket]
  cases decodeQuoted (trim text) with
  | some content => rfl
  | none => exact if_pos (.inl hany)

end Reading

/-- A plain text that is no comment and holds none, with no colon of a key before its end. -/
structure PlainText where
  text : List Char
  starts : StartsSolid text
  ends : EndsSolid text
  unquoted : text.head?.any isQuote = false
  plainStart : ∀ c ∈ text.head?, c ∉ indicators
  uncommented : ∀ front back, text = front ++ '#' :: back →
    (lastOf none front).all isWhitespaceChar = false
  unsplit : ∀ front back, text = front ++ ':' :: back → back.head?.any isWhitespaceChar = false

/-- What is left on a line behind a closing quote: some text that goes on with no quoted string
and is no comment. -/
structure Trail (quote : Char) where
  gap : Blank
  first : Char
  rest : List Char
  solid : isWhitespaceChar first = false
  apart : gap.val = [] → quote = '\'' → first ≠ quote
  uncommented : gap.val ≠ [] → first ≠ '#'

def Trail.text {quote : Char} (trail : Trail quote) : List Char :=
  trail.gap.val ++ trail.first :: trail.rest

/-- Where a text with quotes stands: a quoted string as a key in front of its colon, as the value
of an entry or as an item; a plain text as a key or as a value; a quoted string with more text
behind it as a key or as a value. -/
inductive Placed where
  | key (quoted : QuotedText) (gap : Blank) (rest : List Char)
      (colon : rest.head?.all isWhitespaceChar = true)
  | value (quoted : QuotedText) (behind : Behind)
  | item (quoted : QuotedText) (behind : Behind)
  | plainKey (plain : PlainText) (gap : Blank) (rest : List Char)
      (colon : rest.head?.all isWhitespaceChar = true)
      (apart : gap.val ≠ [] → plain.text.getLast? ≠ some ':')
  | plainValue (plain : PlainText) (behind : Behind)
  | trailedKey (quoted : QuotedText) (trail : Trail quoted.quote)
  | trailedValue (quoted : QuotedText) (trail : Trail quoted.quote)

namespace Placed

/-- The line is read as its quotes say: a quoted string is read back, a plain text is found as
it is, and text behind a closing quote is refused. -/
def Respected : Placed → Prop
  | key quoted gap rest _ =>
      splitMapping (quoted.text ++ gap.val ++ ':' :: rest) = some (quoted.text ++ gap.val, rest) ∧
        parseKey (quoted.text ++ gap.val) = .ok (String.ofList quoted.content)
  | value quoted behind => ∀ source sourceLength fuel indent line keyLocation reader,
      ∃ location, parseEntryValue source sourceLength (fuel + 1) indent line keyLocation
          (quoted.text ++ behind.text) reader =
        .ok (.scalar (.string (String.ofList quoted.content)) location, reader)
  | item quoted behind => ∀ source sourceLength fuel indent line reader,
      ∃ location, parseItem source sourceLength (fuel + 1) indent line
          (quoted.text ++ behind.text) reader =
        .ok (.scalar (.string (String.ofList quoted.content)) location, reader)
  | plainKey plain gap rest _ _ =>
      splitMapping (plain.text ++ gap.val ++ ':' :: rest) = some (plain.text ++ gap.val, rest)
  | plainValue plain behind => valueText (plain.text ++ behind.text) = plain.text
  | trailedKey quoted trail => ∀ name, parseKey (quoted.text ++ trail.text) ≠ .ok name
  | trailedValue quoted trail => ∀ source line offset reader result,
      parseInlineValue source line (quoted.text ++ trail.text) offset reader ≠ .ok result

/-- A string in single quotes, or one in double quotes in which no `#` behind white space seems
to be outside of quotes; in front of a note the quotes have to look closed. -/
def Enclosed (quoted : QuotedText) (behind : Behind) : Prop :=
  match quoted with
  | .single _ => True
  | .double pieces => Uncut none none (QuotedText.double pieces).text ∧
      (behind.note.isSome = true → quoteAfter none (QuotedText.double pieces).text = none)

/-- When a line is read as its quotes say. -/
def Fortunate : Placed → Prop
  | key quoted _ _ _ => quoted.Known
  | value quoted behind => quoted.Known ∧ Enclosed quoted behind
  | item quoted behind =>
      quoted.Known ∧ Enclosed quoted behind ∧ KeyScan.start.Unsplit behind.text []
  | plainKey plain gap _ _ _ => KeyScan.start.after (plain.text ++ gap.val) = .start
  | plainValue plain behind => behind.note.isSome = true → quoteAfter none plain.text = none
  | trailedKey quoted trail => ¬ Closes quoted.quote (trim (quoted.text ++ trail.text))
  | trailedValue quoted trail => ¬ Closes quoted.quote (valueText (quoted.text ++ trail.text))

/-- What is said of a quoted string holds of every one in single quotes. -/
theorem enclosed_iff (quoted : QuotedText) (behind : Behind) :
    Enclosed quoted behind ↔ Uncut none none quoted.text ∧
      (behind.note.isSome = true → quoteAfter none quoted.text = none) := by
  cases quoted with
  | single content =>
      exact iff_of_true trivial ⟨(uncut_single content).1, fun _ => (uncut_single content).2⟩
  | double pieces => exact Iff.rfl

theorem respected_key (quoted : QuotedText) (gap : Blank) (rest : List Char)
    (colon : rest.head?.all isWhitespaceChar = true) :
    (key quoted gap rest colon).Respected ↔ (key quoted gap rest colon).Fortunate := by
  have hunsplit : KeyScan.start.Unsplit (quoted.text ++ gap.val) (':' :: rest) := by
    rw [KeyScan.unsplit_append]
    exact ⟨KeyScan.unsplit_quoted quoted _, unsplit_blank gap _ _⟩
  have hafter : KeyScan.start.after (quoted.text ++ gap.val) = .start := by
    rw [KeyScan.after_append, KeyScan.after_quoted, after_blank]
  have hsplit : splitMapping (quoted.text ++ gap.val ++ ':' :: rest) =
      some (quoted.text ++ gap.val, rest) := (KeyScan.split_key_iff hunsplit colon).mpr hafter
  have htrim : trim (quoted.text ++ gap.val) = quoted.text :=
    trim_blank gap quoted.startsSolid quoted.endsSolid
  have hkey : parseKey (quoted.text ++ gap.val) = .ok (String.ofList quoted.content) ↔
      decodeQuoted quoted.text = some quoted.content := by
    rw [parseKey_quote quoted.isQuote_quote (by rw [htrim]; rfl), htrim]
    cases decodeQuoted quoted.text with
    | some content =>
        rw [Except.ok.injEq, String.ofList_inj, Option.some_inj]
    | none => exact iff_of_false (fun h => by cases h) fun h => by cases h
  rw [Respected, Fortunate, hkey, decodeQuoted_text_iff]
  exact and_iff_right hsplit

/-- A quoted value is read back exactly when its quotes are seen as they are. -/
theorem reads_iff (quoted : QuotedText) (behind : Behind) (source : Nat) (line : Line)
    (offset : Nat) (reader : Reader) :
    (∃ location, parseInlineValue source line (quoted.text ++ behind.text) offset reader =
      .ok (.scalar (.string (String.ofList quoted.content)) location, reader)) ↔
      quoted.Known ∧ Enclosed quoted behind := by
  have hhead : (quoted.text ++ behind.text).head? = some quoted.quote := rfl
  rw [enclosed_iff, ← decodeQuoted_valueText_iff,
    parseInlineValue_quote source line offset reader quoted.isQuote_quote hhead]
  cases decodeQuoted (valueText (quoted.text ++ behind.text)) with
  | some content =>
      simp only [Except.ok.injEq, Prod.mk.injEq, YamlNode.scalar.injEq, Value.string.injEq,
        String.ofList_inj, and_true, exists_and_left, exists_eq', Option.some_inj]
  | none => exact iff_of_false (fun ⟨_, h⟩ => by cases h) fun h => by cases h

theorem respected_value (quoted : QuotedText) (behind : Behind) :
    (value quoted behind).Respected ↔ (value quoted behind).Fortunate := by
  have hentry : ∀ source sourceLength fuel indent line keyLocation reader,
      parseEntryValue source sourceLength (fuel + 1) indent line keyLocation
          (quoted.text ++ behind.text) reader =
        parseInlineValue source line (quoted.text ++ behind.text)
          (line.stop - byteLength (quoted.text ++ behind.text)) reader := by
    intro source sourceLength fuel indent line keyLocation reader
    have hnil : quoted.text ++ behind.text ≠ [] := by
      rw [QuotedText.text]
      exact List.cons_ne_nil _ _
    have hblock : ¬ ((quoted.text ++ behind.text).head? = some '|' ∨
        (quoted.text ++ behind.text).head? = some '>') := by
      cases quoted <;> rintro (h | h) <;> cases h
    rw [parseEntryValue.eq_def]
    simp only [if_neg hnil, if_neg hblock]
  constructor
  · intro h
    obtain ⟨location, hread⟩ := h 0 0 0 0 ⟨0, 0, 0, []⟩ ⟨0, 0, 0⟩ ⟨[], [], 0⟩
    rw [hentry] at hread
    exact (reads_iff quoted behind _ _ _ _).mp ⟨location, hread⟩
  · intro h source sourceLength fuel indent line keyLocation reader
    rw [hentry]
    exact (reads_iff quoted behind _ _ _ _).mpr h

/-- An item is read as a mapping where its text has the colon of a key. -/
theorem respected_item (quoted : QuotedText) (behind : Behind) :
    (item quoted behind).Respected ↔ (item quoted behind).Fortunate := by
  have hnil : quoted.text ++ behind.text ≠ [] := by
    rw [QuotedText.text]
    exact List.cons_ne_nil _ _
  have hunsplit : splitMapping (quoted.text ++ behind.text) = none ↔
      KeyScan.start.Unsplit behind.text [] := by
    rw [← KeyScan.split_start, KeyScan.split_eq_none_iff, KeyScan.unsplit_append,
      KeyScan.after_quoted]
    exact and_iff_right (KeyScan.unsplit_quoted quoted _)
  rw [Fortunate, ← hunsplit]
  constructor
  · intro h
    have hread := h 0 0 0 0 ⟨0, 0, 0, []⟩ ⟨[], [], 0⟩
    rw [parseItem.eq_def] at hread
    simp only [if_neg hnil] at hread
    cases hsplit : splitMapping (quoted.text ++ behind.text) with
    | some found =>
        rw [hsplit] at hread
        obtain ⟨location, hread⟩ := hread
        rw [Option.isSome_some, if_pos rfl, parseMapping.eq_def] at hread
        cases hread
    | none =>
        rw [hsplit, Option.isSome_none, if_neg Bool.false_ne_true] at hread
        obtain ⟨hknown, henclosed⟩ := (reads_iff quoted behind _ _ _ _).mp hread
        exact ⟨hknown, henclosed, rfl⟩
  · rintro ⟨hknown, henclosed, hsplit⟩ source sourceLength fuel indent line reader
    rw [parseItem.eq_def]
    simp only [if_neg hnil, hsplit, Option.isSome_none, Bool.false_eq_true, if_false]
    exact (reads_iff quoted behind _ _ _ _).mpr ⟨hknown, henclosed⟩

theorem respected_plainKey (plain : PlainText) (gap : Blank) (rest : List Char)
    (colon : rest.head?.all isWhitespaceChar = true)
    (apart : gap.val ≠ [] → plain.text.getLast? ≠ some ':') :
    (plainKey plain gap rest colon apart).Respected ↔
      (plainKey plain gap rest colon apart).Fortunate := by
  have hunsplit : KeyScan.start.Unsplit (plain.text ++ gap.val) (':' :: rest) := by
    rw [KeyScan.unsplit_append]
    refine ⟨fun front back h hblank => ?_, unsplit_blank gap _ _⟩
    have hback := plain.unsplit front back h
    cases back with
    | cons c back =>
        have hc : isWhitespaceChar c = true := hblank
        rw [List.head?_cons, Option.any_some, hc] at hback
        cases hback
    | nil =>
        -- the colon of the key itself is next, unless white space is before it
        cases hgap : gap.val with
        | nil =>
            have hcolon : isWhitespaceChar ':' = true := by
              rw [hgap] at hblank
              exact hblank
            exact absurd hcolon (by decide)
        | cons c tail =>
            refine absurd ?_ (apart (by rw [hgap]; exact List.cons_ne_nil _ _))
            rw [h, List.getLast?_concat]
  rw [Respected, Fortunate, ← KeyScan.split_start, KeyScan.split_key_iff hunsplit colon]

theorem respected_plainValue (plain : PlainText) (behind : Behind) :
    (plainValue plain behind).Respected ↔ (plainValue plain behind).Fortunate := by
  have huncut : Uncut none none plain.text := by
    intro front back h hopens
    have hapart := hopens.apart
    rw [plain.uncommented front back h] at hapart
    cases hapart
  constructor
  · intro h hnote
    by_contra hopen
    obtain ⟨active, hactive⟩ := Option.ne_none_iff_exists'.mp hopen
    obtain ⟨more, hmore, hvalue⟩ := valueText_open plain.starts huncut hnote hactive
    have hnil := List.self_eq_append_right.mp (hvalue.symm.trans h).symm
    exact hmore (List.append_eq_nil_iff.mp hnil).2
  · exact fun h => valueText_behind plain.starts plain.ends huncut h

theorem respected_trailedKey (quoted : QuotedText) (trail : Trail quoted.quote) :
    (trailedKey quoted trail).Respected ↔ (trailedKey quoted trail).Fortunate := by
  have hhead : (trim (quoted.text ++ trail.text)).head? = some quoted.quote :=
    (quoted.startsSolid.append trail.text).trim.2
  rw [Respected, Fortunate, ← isSome_decodeQuoted_iff quoted.isQuote_quote hhead,
    parseKey_quote quoted.isQuote_quote hhead]
  cases decodeQuoted (trim (quoted.text ++ trail.text)) with
  | some content => exact iff_of_false (fun h => h _ rfl) fun h => h rfl
  | none => exact iff_of_true (fun _ h => by cases h) fun h => by cases h

theorem respected_trailedValue (quoted : QuotedText) (trail : Trail quoted.quote) :
    (trailedValue quoted trail).Respected ↔ (trailedValue quoted trail).Fortunate := by
  have hhead : (quoted.text ++ trail.text).head? = some quoted.quote := rfl
  rw [Respected, Fortunate, ← isSome_decodeQuoted_iff quoted.isQuote_quote
    (head?_valueText quoted.isQuote_quote hhead)]
  have hread := fun source line offset reader =>
    parseInlineValue_quote source line offset reader quoted.isQuote_quote hhead
  simp only [hread]
  cases decodeQuoted (valueText (quoted.text ++ trail.text)) with
  | some content =>
      exact iff_of_false (fun h => h 0 ⟨0, 0, 0, []⟩ 0 ⟨[], [], 0⟩ _ rfl) fun h => h rfl
  | none => exact iff_of_true (fun _ _ _ _ _ h => by cases h) fun h => by cases h

end Placed

end Telora.Yaml
