import Telora.Toml.StringReading

/-!
# Which basic strings are read back

What the decoder keeps of a literal is never longer than what the literal denotes, and is the
same exactly when nothing is lost on the way.
-/

namespace Telora.Toml

open Library

variable {multiline : Bool}

section LineBreaks

theorem replaceLineBreaks_of_not_mem {value : List Char} (h : '\r' ∉ value) :
    replaceLineBreaks value = value := by
  induction value with
  | nil => rfl
  | cons c rest ih =>
      have hc : ¬(c = '\r' ∧ rest.head? = some '\n') := fun hc =>
        h (hc.1 ▸ List.mem_cons_self)
      rw [replaceLineBreaks, if_neg hc, ih fun hmem => h (List.mem_cons_of_mem _ hmem)]

theorem normalize_eq (value : List Char) :
    normalizeMultilineNewlines value multiline =
      if multiline then replaceLineBreaks value else value := by
  rw [normalizeMultilineNewlines]
  cases multiline with
  | false => rfl
  | true =>
      rw [Bool.true_and]
      by_cases h : value.contains '\r' = true
      · rw [if_pos h, if_pos rfl]
      · rw [if_neg h, if_pos rfl]
        refine (replaceLineBreaks_of_not_mem fun hmem => h ?_).symm
        exact List.contains_iff_mem.mpr hmem

/-- A carriage return before a line feed is dropped over several lines, nothing else is. -/
theorem normalize_cons (c : Char) (rest : List Char) :
    normalizeMultilineNewlines (c :: rest) multiline =
      if multiline = true ∧ c = '\r' ∧ rest.head? = some '\n' then
        normalizeMultilineNewlines rest multiline
      else c :: normalizeMultilineNewlines rest multiline := by
  rw [normalize_eq, normalize_eq]
  cases multiline with
  | false => rfl
  | true =>
      rw [if_pos rfl, if_pos rfl, replaceLineBreaks]
      by_cases h : c = '\r' ∧ rest.head? = some '\n'
      · rw [if_pos h, if_pos ⟨rfl, h⟩]
      · rw [if_neg h, if_neg fun h' => h h'.2]

theorem normalize_nil : normalizeMultilineNewlines [] multiline = [] := by
  cases multiline <;> rfl

theorem normalize_cons_of_ne {c : Char} (hc : c ≠ '\r') (rest : List Char) :
    normalizeMultilineNewlines (c :: rest) multiline =
      c :: normalizeMultilineNewlines rest multiline := by
  rw [normalize_cons, if_neg fun h => hc h.2.1]

theorem length_normalize_cons_le (c : Char) (rest : List Char) :
    (normalizeMultilineNewlines (c :: rest) multiline).length ≤
      (normalizeMultilineNewlines rest multiline).length + 1 := by
  rw [normalize_cons]
  split
  · exact Nat.le_succ _
  · rfl

/-- Both line breaks are stored as a line feed. -/
theorem normalize_lineBreak (hline : multiline = true) (crlf : Bool) (rest : List Char) :
    normalizeMultilineNewlines (lineBreak crlf ++ rest) multiline =
      '\n' :: normalizeMultilineNewlines rest multiline := by
  cases crlf with
  | false => exact normalize_cons_of_ne (by decide) rest
  | true =>
      change normalizeMultilineNewlines ('\r' :: '\n' :: rest) multiline = _
      rw [normalize_cons, if_pos ⟨hline, rfl, rfl⟩, normalize_cons_of_ne (by decide)]

end LineBreaks

section Kept

theorem pieceValue_cons (piece : Piece multiline) (rest : List (Piece multiline)) :
    pieceValue (piece :: rest) = piece.value ++ pieceValue rest := rfl

theorem keptText_cons (continued : Bool) (piece : Piece multiline)
    (rest : List (Piece multiline)) :
    keptText continued (piece :: rest) =
      (keptOf continued piece).1 ++ keptText (keptOf continued piece).2 rest := rfl

/-- Not more is kept than the pieces denote. -/
theorem length_keptText_le (continued : Bool) (pieces : List (Piece multiline)) :
    (normalizeMultilineNewlines (keptText continued pieces) multiline).length ≤
      (pieceValue pieces).length := by
  induction pieces generalizing continued with
  | nil => rw [keptText, normalize_nil]; exact Nat.zero_le _
  | cons piece rest ih =>
      rw [keptText_cons, pieceValue_cons, List.length_append]
      cases piece with
      | raw c hc =>
          rw [keptOf]
          split
          · exact (ih true).trans (Nat.le_add_left _ _)
          · refine (length_normalize_cons_le c _).trans ?_
            rw [Nat.add_comm]
            exact Nat.add_le_add_left (ih false) 1
      | newline crlf hline =>
          rw [keptOf]
          split
          · exact (ih true).trans (Nat.le_add_left _ _)
          · rw [normalize_lineBreak hline, List.length_cons, Nat.add_comm]
            exact Nat.add_le_add_left (ih false) 1
      | escape text c h =>
          refine (length_normalize_cons_le c _).trans ?_
          rw [Nat.add_comm]
          exact Nat.add_le_add_left (ih false) 1
      | continuation => exact (ih true).trans (Nat.le_add_left _ _)
      | unknown => exact (ih false).trans (Nat.le_add_left _ _)
      | badScalar => exact (ih false).trans (Nat.le_add_left _ _)
      | loneReturn => exact (ih true).trans (Nat.le_add_left _ _)

theorem isRaw_ne_lineBreak {c : Char} (h : isRaw multiline c = true) : c ≠ '\n' ∧ c ≠ '\r' := by
  constructor <;> (rintro rfl; cases multiline <;> cases h)

/-- When nothing is lost, a line feed is kept first exactly when it is denoted first. -/
theorem head_keptText {continued : Bool} {pieces : List (Piece multiline)}
    (hlegal : Legal continued pieces) (hkept : Kept continued pieces) :
    (keptText continued pieces).head? = some '\n' ↔ startsLineFeed pieces = true := by
  induction pieces generalizing continued with
  | nil => exact iff_of_false (fun h => by cases h) Bool.false_ne_true
  | cons piece rest ih =>
      rw [keptText_cons]
      cases piece with
      | raw c hc =>
          have hspace : ¬(continued && isWhitespaceChar c) = true := by
            rw [Bool.and_eq_true]
            exact hkept.2.1
          rw [keptOf, if_neg hspace]
          refine iff_of_false (fun h => (isRaw_ne_lineBreak hc).1 (Option.some.inj h)) ?_
          exact Bool.false_ne_true
      | newline crlf hline =>
          obtain rfl := hlegal.1
          cases crlf with
          | false => exact iff_of_true rfl rfl
          | true =>
              exact iff_of_false (fun h => absurd (Option.some.inj h) (by decide))
                Bool.false_ne_true
      | escape text c h =>
          change some c = some '\n' ↔ decide (c = '\n') = true
          rw [Option.some.injEq, decide_eq_true_iff]
      | continuation => exact ih hlegal hkept.2
      | unknown => exact hkept.elim
      | badScalar => exact hkept.elim
      | loneReturn => exact hkept.elim

theorem Kept.decodes {continued : Bool} {pieces : List (Piece multiline)}
    (h : Kept continued pieces) : ∀ piece ∈ pieces, piece.decodes = true := by
  induction pieces generalizing continued with
  | nil => exact fun piece hmem => absurd hmem List.not_mem_nil
  | cons piece rest ih =>
      intro other hmem
      cases piece with
      | raw c hc =>
          rcases List.mem_cons.mp hmem with rfl | hmem
          · have hcontrol := h.1
            rw [not_and, not_not] at hcontrol
            rw [Piece.decodes, Bool.or_eq_true, Bool.not_eq_true', decide_eq_true_iff]
            by_cases hc' : isControl c = true
            · exact .inr (hcontrol hc')
            · exact .inl (Bool.not_eq_true _ ▸ hc')
          · exact ih h.2.2 other hmem
      | newline crlf hline =>
          rcases List.mem_cons.mp hmem with rfl | hmem
          · rfl
          · exact @ih false h other hmem
      | escape text c hescape =>
          rcases List.mem_cons.mp hmem with rfl | hmem
          · rfl
          · exact ih h.2 other hmem
      | continuation blanks crlf trail hline hblanks htrail =>
          rcases List.mem_cons.mp hmem with rfl | hmem
          · exact decide_eq_true h.1
          · exact ih h.2 other hmem
      | unknown => exact h.elim
      | badScalar => exact h.elim
      | loneReturn => exact h.elim

/-- Of pieces that are decoded either nothing is lost, or the result is shorter than what they
denote. -/
theorem kept_or_shorter {continued : Bool} {pieces : List (Piece multiline)}
    (hallowed : ∀ piece ∈ pieces, piece.allowed = true)
    (hdecodes : ∀ piece ∈ pieces, piece.decodes = true) (hlegal : Legal continued pieces) :
    (Kept continued pieces ∧
      normalizeMultilineNewlines (keptText continued pieces) multiline = pieceValue pieces) ∨
    (¬ Kept continued pieces ∧
      (normalizeMultilineNewlines (keptText continued pieces) multiline).length <
        (pieceValue pieces).length) := by
  induction pieces generalizing continued with
  | nil => exact .inl ⟨trivial, normalize_nil⟩
  | cons piece rest ih =>
      have hrestAllowed := fun other hmem => hallowed other (List.mem_cons_of_mem piece hmem)
      have hrestDecodes := fun other hmem => hdecodes other (List.mem_cons_of_mem piece hmem)
      have hpieceAllowed := hallowed piece List.mem_cons_self
      have hpieceDecodes := hdecodes piece List.mem_cons_self
      rw [keptText_cons, pieceValue_cons]
      cases piece with
      | raw c hc =>
          have hcontrol : ¬(isControl c = true ∧ c ≠ '\t') := by
            rw [Piece.decodes, Bool.or_eq_true, Bool.not_eq_true', decide_eq_true_iff]
              at hpieceDecodes
            rintro ⟨h, hne⟩
            rcases hpieceDecodes with h' | h'
            · rw [h'] at h
              cases h
            · exact hne h'
          by_cases hspace : (continued && isWhitespaceChar c) = true
          · refine .inr ⟨fun h => h.2.1 (Bool.and_eq_true_iff.mp hspace), ?_⟩
            rw [keptOf, if_pos hspace]
            exact Nat.lt_of_le_of_lt (length_keptText_le true rest)
              (by rw [List.length_append]; exact Nat.lt_add_of_pos_left Nat.one_pos)
          · have hnormal : normalizeMultilineNewlines (c :: keptText false rest) multiline =
                c :: normalizeMultilineNewlines (keptText false rest) multiline :=
              normalize_cons_of_ne (isRaw_ne_lineBreak hc).2 _
            rw [keptOf, if_neg hspace]
            rw [Bool.and_eq_true] at hspace
            rcases ih hrestAllowed hrestDecodes hlegal.2 with ⟨hkept, heq⟩ | ⟨hkept, hlt⟩
            · exact .inl ⟨⟨hcontrol, hspace, hkept⟩, hnormal.trans (congrArg (c :: ·) heq)⟩
            · exact .inr ⟨fun h => hkept h.2.2, by
                rw [List.singleton_append, hnormal]
                exact Nat.succ_lt_succ hlt⟩
      | newline crlf hline =>
          obtain ⟨rfl, hlegal⟩ := hlegal
          have hnormal := normalize_lineBreak hline crlf (keptText false rest)
          rcases ih hrestAllowed hrestDecodes hlegal with ⟨hkept, heq⟩ | ⟨hkept, hlt⟩
          · exact .inl ⟨hkept, hnormal.trans (congrArg ('\n' :: ·) heq)⟩
          · exact .inr ⟨hkept, by
              change (normalizeMultilineNewlines (lineBreak crlf ++ keptText false rest)
                multiline).length < _
              rw [hnormal]
              exact Nat.succ_lt_succ hlt⟩
      | escape text c h =>
          change (_ ∧ normalizeMultilineNewlines (c :: keptText false rest) multiline = _) ∨
            (_ ∧ (normalizeMultilineNewlines (c :: keptText false rest) multiline).length < _)
          rcases ih hrestAllowed hrestDecodes hlegal with ⟨hkept, heq⟩ | ⟨hkept, hlt⟩
          · by_cases hreturn : multiline = true ∧ c = '\r' ∧ startsLineFeed rest = true
            · refine .inr ⟨fun h => h.1 hreturn, ?_⟩
              rw [normalize_cons, if_pos ⟨hreturn.1, hreturn.2.1,
                (@head_keptText _ false rest hlegal hkept).mpr hreturn.2.2⟩, heq]
              exact Nat.lt_succ_self _
            · refine .inl ⟨⟨hreturn, hkept⟩, ?_⟩
              rw [normalize_cons, if_neg fun h => hreturn ⟨h.1, h.2.1,
                (@head_keptText _ false rest hlegal hkept).mp h.2.2⟩, heq]
              rfl
          · exact .inr ⟨fun h => hkept h.2,
              Nat.lt_of_le_of_lt (length_normalize_cons_le c _) (Nat.succ_lt_succ hlt)⟩
      | continuation blanks crlf trail hline hblanks htrail =>
          rcases @ih true hrestAllowed hrestDecodes hlegal with ⟨hkept, heq⟩ | ⟨hkept, hlt⟩
          · exact .inl ⟨⟨of_decide_eq_true hpieceDecodes, hkept⟩, heq⟩
          · exact .inr ⟨fun h => hkept h.2, hlt⟩
      | unknown => cases hpieceAllowed
      | badScalar => cases hpieceAllowed
      | loneReturn => cases hpieceAllowed

end Kept

section Literals

theorem Piece.text_head (piece : Piece multiline) :
    (∃ c h, piece = .raw c h) ∨ (∃ crlf h, piece = .newline crlf h) ∨
      ∃ rest, piece.text = '\\' :: rest := by
  cases piece with
  | raw c h => exact .inl ⟨c, h, rfl⟩
  | newline crlf h => exact .inr (.inl ⟨crlf, h, rfl⟩)
  | _ => exact .inr (.inr ⟨_, rfl⟩)

/-- Without a line break at the start nothing is taken off. -/
theorem stripFirstLineBreak_pieces {pieces : List (Piece multiline)}
    (h : ∀ crlf h, pieces.head? ≠ some (.newline crlf h)) :
    stripFirstLineBreak (pieceText pieces) = pieceText pieces := by
  have hhead : ∀ c ∈ (pieceText pieces).head?, c ≠ '\n' ∧ c ≠ '\r' := by
    intro c hc
    cases pieces with
    | nil => cases hc
    | cons piece rest =>
        rcases piece.text_head with ⟨d, hd, rfl⟩ | ⟨crlf, hline, rfl⟩ | ⟨text, htext⟩
        · obtain rfl := Option.some.inj hc
          exact isRaw_ne_lineBreak hd
        · exact absurd rfl (h crlf hline)
        · rw [pieceText_cons, htext] at hc
          obtain rfl := Option.some.inj hc
          decide
  generalize pieceText pieces = text at hhead
  rw [stripFirstLineBreak.eq_def]
  split
  · exact absurd rfl (hhead '\r' rfl).2
  · exact absurd rfl (hhead '\n' rfl).1
  · rfl

theorem stripFirstLineBreak_lineBreak (crlf : Bool) (text : List Char) :
    stripFirstLineBreak (lineBreak crlf ++ text) = text := by
  cases crlf <;> rfl

theorem not_three_quotes {c : Char} (hc : c ≠ '"') (text : List Char) :
    ['"', '"', '"'].isPrefixOf ('"' :: c :: text) = false := by
  rw [List.isPrefixOf_cons_cons, List.isPrefixOf_cons_cons, beq_false_of_ne hc.symm, Bool.false_and,
    Bool.and_false]

/-- Three quotes are seen exactly at strings of several lines. -/
theorem startsWith_quotes (pieces : List (Piece multiline)) (leading : List Char)
    (hleading : multiline = false → leading = []) :
    ['"', '"', '"'].isPrefixOf
      (BasicString.quotes multiline ++ ((leading ++ pieceText pieces) ++ BasicString.quotes
        multiline)) = multiline := by
  cases multiline with
  | true => rfl
  | false =>
      rw [hleading rfl, List.nil_append]
      cases pieces with
      | nil => rfl
      | cons piece tail =>
          rw [pieceText_cons]
          rcases piece.text_head with ⟨c, hc, rfl⟩ | ⟨crlf, hline, -⟩ | ⟨text, htext⟩
          · refine not_three_quotes ?_ _
            rintro rfl
            cases hc
          · cases hline
          · rw [htext]
            exact not_three_quotes (by decide) _

theorem BasicString.quotes_eq (multiline : Bool) : ∃ rest, quotes multiline = '"' :: rest := by
  cases multiline <;> exact ⟨_, rfl⟩

namespace BasicString

theorem slice_text (string : BasicString) :
    slice (if string.multiline then 3 else 1)
      (byteLength string.text - if string.multiline then 3 else 1) string.text =
      .ok (string.leading.elim [] lineBreak ++ pieceText string.pieces) := by
  have hwidth : byteLength (quotes string.multiline) = if string.multiline then 3 else 1 := by
    cases string.multiline <;> decide
  rw [text, ← hwidth, byteLength_append, byteLength_append, ← Nat.add_assoc,
    Nat.add_sub_cancel, slice, sliceBytes_append]

/-- What the decoder is given of a literal. -/
theorem decodeString_text (string : BasicString) :
    decodeString string.text =
      match decodeBasicString (pieceText string.pieces) string.multiline with
      | .error message => .error (.message message)
      | .ok value => .ok (normalizeMultilineNewlines value string.multiline) := by
  have hthree : ['"', '"', '"'].isPrefixOf string.text = string.multiline := by
    refine startsWith_quotes string.pieces _ fun hline => ?_
    cases hleading : string.leading with
    | none => rfl
    | some crlf =>
        rw [string.leading_multiline (by rw [hleading]; exact Option.some_ne_none crlf)] at hline
        cases hline
  obtain ⟨rest, hquotes⟩ := quotes_eq string.multiline
  have hsingle : ['\''].isPrefixOf string.text = false := by
    rw [text, hquotes]
    rfl
  have htriple : ['\'', '\'', '\''].isPrefixOf string.text = false := by
    rw [text, hquotes]
    rfl
  have hbody : (if string.multiline then
      stripFirstLineBreak (string.leading.elim [] lineBreak ++ pieceText string.pieces)
      else string.leading.elim [] lineBreak ++ pieceText string.pieces) =
      pieceText string.pieces := by
    cases hleading : string.leading with
    | none =>
        rw [Option.elim_none, List.nil_append, stripFirstLineBreak_pieces (string.first hleading),
          ite_self]
    | some crlf =>
        have hline : string.multiline = true :=
          string.leading_multiline (by rw [hleading]; exact Option.some_ne_none crlf)
        rw [if_pos hline, Option.elim_some, stripFirstLineBreak_lineBreak]
  rw [decodeString, hthree, hsingle, htriple, Bool.or_false, string.slice_text]
  change (match decodeBasicString (if string.multiline then _ else _) string.multiline with
    | .error message => _
    | .ok value => _) = _
  rw [hbody]

/-- A basic string is read back exactly when nothing is lost of it, or what is not allowed in
it is refused. -/
theorem readBack_decodeString_iff (string : BasicString) :
    string.ReadBack (decodeString string.text) ↔ string.Sound := by
  rw [ReadBack, Sound, value, decodeString_text]
  by_cases hallowed : string.pieces.all Piece.allowed = true
  · rw [if_pos hallowed, if_pos hallowed]
    by_cases hdecodes : ∀ piece ∈ string.pieces, piece.decodes = true
    · rw [decodeBasicString_pieces hdecodes]
      rcases kept_or_shorter (List.all_eq_true.mp hallowed) hdecodes string.legal with
        ⟨hkept, heq⟩ | ⟨hkept, hlt⟩
      · exact iff_of_true (congrArg Except.ok heq) hkept
      · refine iff_of_false (fun h => ?_) hkept
        rw [Except.ok.inj h] at hlt
        exact Nat.lt_irrefl _ hlt
    · refine iff_of_false (fun h => ?_) fun hkept => hdecodes hkept.decodes
      simp only [not_forall, Bool.not_eq_true] at hdecodes
      obtain ⟨piece, hmem, hpiece⟩ := hdecodes
      obtain ⟨message, hmessage⟩ := decodeBasicString_refused ⟨piece, hmem, hpiece⟩
      rw [hmessage] at h
      cases h
  · rw [if_neg hallowed, if_neg hallowed]
    constructor
    · rintro ⟨message, hmessage⟩
      by_contra hnone
      have hdecodes : ∀ piece ∈ string.pieces, piece.decodes = true := by
        intro piece hmem
        by_contra hpiece
        exact hnone ⟨piece, hmem, Bool.not_eq_true _ ▸ hpiece⟩
      rw [decodeBasicString_pieces hdecodes] at hmessage
      cases hmessage
    · intro hrefused
      obtain ⟨message, hmessage⟩ := decodeBasicString_refused hrefused
      rw [hmessage]
      exact ⟨message, rfl⟩

/-- An escaped carriage return and an escaped line feed over several lines. -/
def escapedLineBreak : BasicString where
  multiline := true
  leading := none
  pieces := [.escape ['r'] '\r' (.short (by decide)), .escape ['n'] '\n' (.short (by decide))]
  leading_multiline h := absurd rfl h
  legal := trivial
  first _ crlf h := fun hhead => by cases hhead

/-- They are read as a line feed. -/
theorem not_readBack_escapedLineBreak :
    ¬ escapedLineBreak.ReadBack (decodeString escapedLineBreak.text) := by
  have hread : decodeString escapedLineBreak.text = .ok ['\n'] := by rfl
  rw [hread]
  intro h
  cases Except.ok.inj h

end BasicString

end Literals

end Telora.Toml
