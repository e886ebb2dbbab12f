import Telora.Yaml.Scalar

/-!
# Quoted scalars

A string in single or double quotes, as the format writes it, and what the decoder makes of
the text between double quotes. The decoder takes bare quotes for characters and knows fewer
escapes than there are.
-/

namespace Telora.Yaml

open Library

/-- The escapes of one character in double quotes, with what each stands for. -/
def yamlEscapes : List (Char × Char) :=
  [('0', '\x00'), ('a', '\x07'), ('b', '\x08'), ('t', '\t'), ('\t', '\t'), ('n', '\n'),
    ('v', '\x0b'), ('f', '\x0c'), ('r', '\r'), ('e', '\x1b'), (' ', ' '), ('"', '"'), ('/', '/'),
    ('\\', '\\'), ('N', '\u0085'), ('_', '\u00a0'), ('L', '\u2028'), ('P', '\u2029')]

/-- The escapes by a number, with how many hexadecimal digits each has. -/
def codeEscapes : List (Char × Nat) := [('x', 2), ('u', 4), ('U', 8)]

/-- A character as it stands between double quotes. -/
inductive QuotedChar where
  | bare (c : Char) (hquote : c ≠ '"') (hslash : c ≠ '\\')
  | escape (c value : Char) (legal : (c, value) ∈ yamlEscapes)
  | code (marker : Char) (digits : List Char) (width : (marker, digits.length) ∈ codeEscapes)
      (hexadecimal : ∀ c ∈ digits, digitValue c < 16)
      (scalar : (numeral 16 digits).isValidChar)

namespace QuotedChar

def text : QuotedChar → List Char
  | bare c _ _ => [c]
  | escape c _ _ => ['\\', c]
  | code marker digits _ _ _ => '\\' :: marker :: digits

def value : QuotedChar → Char
  | bare c _ _ => c
  | escape _ value _ => value
  | code _ digits _ _ _ => Char.ofNat (numeral 16 digits)

/-- The escapes that the decoder does not know: a space, a next line, a space that is not
broken, and the separators of lines and of paragraphs. -/
def unknownEscapes : List Char := [' ', 'N', '_', 'L', 'P']

/-- Whether the decoder knows a piece. -/
def Known : QuotedChar → Prop
  | escape c _ _ => c ∉ unknownEscapes
  | _ => True

end QuotedChar

/-- A string in quotes. -/
inductive QuotedText where
  | single (content : List Char)
  | double (pieces : List QuotedChar)

namespace QuotedText

def quote : QuotedText → Char
  | single _ => '\''
  | double _ => '"'

/-- The text between the quotes: an apostrophe is written twice between apostrophes. -/
def body : QuotedText → List Char
  | single content => content.flatMap fun c => if c = '\'' then ['\'', '\''] else [c]
  | double pieces => pieces.flatMap QuotedChar.text

def text (quoted : QuotedText) : List Char := quoted.quote :: (quoted.body ++ [quoted.quote])

/-- The string that a quoted text stands for. -/
def content : QuotedText → List Char
  | single content => content
  | double pieces => pieces.map QuotedChar.value

/-- Whether the decoder knows every escape. -/
def Known : QuotedText → Prop
  | single _ => True
  | double pieces => ∀ piece ∈ pieces, piece.Known

theorem isQuote_quote (quoted : QuotedText) : isQuote quoted.quote = true := by
  cases quoted <;> rfl

theorem isWhitespaceChar_quote (quoted : QuotedText) : isWhitespaceChar quoted.quote = false := by
  cases quoted with
  | single content => exact (by decide : isWhitespaceChar '\'' = false)
  | double pieces => exact (by decide : isWhitespaceChar '"' = false)

theorem startsSolid (quoted : QuotedText) : StartsSolid quoted.text :=
  ⟨quoted.quote, _, rfl, quoted.isWhitespaceChar_quote⟩

theorem endsSolid (quoted : QuotedText) : EndsSolid quoted.text :=
  ⟨quoted.quote :: quoted.body, quoted.quote, rfl, quoted.isWhitespaceChar_quote⟩

end QuotedText

theorem unquoteSingle_body (content : List Char) :
    unquoteSingle (QuotedText.single content).body = content := by
  induction content with
  | nil => rfl
  | cons c content ih =>
      rw [QuotedText.body] at ih ⊢
      rw [List.flatMap_cons]
      by_cases hc : c = '\''
      · subst hc
        rw [if_pos rfl, List.cons_append, List.cons_append, List.nil_append, unquoteSingle, ih]
      · rw [if_neg hc, List.cons_append, List.nil_append,
          unquoteSingle.eq_2 _ _ fun _ hquote _ => hc hquote, ih]

/-- The texts that the decoder reads between double quotes, with what it makes of them. -/
inductive Decodes : List Char → List Char → Prop
  | nil : Decodes [] []
  | bare {c : Char} (h : c ≠ '\\') {text content : List Char} (rest : Decodes text content) :
      Decodes (c :: text) (c :: content)
  | escape {c value : Char} (h : simpleEscape c = some value) {text content : List Char}
      (rest : Decodes text content) : Decodes ('\\' :: c :: text) (value :: content)
  | code {marker : Char} {digits : List Char} (width : (marker, digits.length) ∈ codeEscapes)
      (hexadecimal : ∀ c ∈ digits, digitValue c < 16)
      (scalar : (numeral 16 digits).isValidChar) {text content : List Char}
      (rest : Decodes text content) :
      Decodes ('\\' :: marker :: (digits ++ text))
        (Char.ofNat (numeral 16 digits) :: content)

theorem simpleEscape_eq {c value : Char} (h : (c, value) ∈ yamlEscapes) :
    simpleEscape c = if c ∈ QuotedChar.unknownEscapes then none else some value := by
  simp only [yamlEscapes, List.mem_cons, Prod.mk.injEq, List.not_mem_nil, or_false] at h
  rcases h with ⟨rfl, rfl⟩ | ⟨rfl, rfl⟩ | ⟨rfl, rfl⟩ | ⟨rfl, rfl⟩ | ⟨rfl, rfl⟩ | ⟨rfl, rfl⟩ |
    ⟨rfl, rfl⟩ | ⟨rfl, rfl⟩ | ⟨rfl, rfl⟩ | ⟨rfl, rfl⟩ | ⟨rfl, rfl⟩ | ⟨rfl, rfl⟩ | ⟨rfl, rfl⟩ |
    ⟨rfl, rfl⟩ | ⟨rfl, rfl⟩ | ⟨rfl, rfl⟩ | ⟨rfl, rfl⟩ | ⟨rfl, rfl⟩ <;> decide

/-- An escape of one character is none by a number. -/
theorem escapeDigits_of_escape {c value : Char} (h : (c, value) ∈ yamlEscapes) :
    escapeDigits c = none := by
  simp only [yamlEscapes, List.mem_cons, Prod.mk.injEq, List.not_mem_nil, or_false] at h
  rcases h with ⟨rfl, rfl⟩ | ⟨rfl, rfl⟩ | ⟨rfl, rfl⟩ | ⟨rfl, rfl⟩ | ⟨rfl, rfl⟩ | ⟨rfl, rfl⟩ |
    ⟨rfl, rfl⟩ | ⟨rfl, rfl⟩ | ⟨rfl, rfl⟩ | ⟨rfl, rfl⟩ | ⟨rfl, rfl⟩ | ⟨rfl, rfl⟩ | ⟨rfl, rfl⟩ |
    ⟨rfl, rfl⟩ | ⟨rfl, rfl⟩ | ⟨rfl, rfl⟩ | ⟨rfl, rfl⟩ | ⟨rfl, rfl⟩ <;> decide

theorem codeEscape_spec {marker : Char} {width : Nat} (h : (marker, width) ∈ codeEscapes) :
    simpleEscape marker = none ∧ escapeDigits marker = some width ∧ width ≤ 8 := by
  simp only [codeEscapes, List.mem_cons, Prod.mk.injEq, List.not_mem_nil, or_false] at h
  rcases h with ⟨rfl, rfl⟩ | ⟨rfl, rfl⟩ | ⟨rfl, rfl⟩ <;> decide

theorem mem_codeEscapes {marker : Char} {width : Nat} (h : escapeDigits marker = some width) :
    (marker, width) ∈ codeEscapes := by
  rw [escapeDigits] at h
  split at h
  · next hx => subst hx; cases h; exact List.mem_cons_self
  · split at h
    · next hu => subst hu; cases h; exact List.mem_cons_of_mem _ List.mem_cons_self
    · split at h
      · next hU =>
          subst hU; cases h
          exact List.mem_cons_of_mem _ (List.mem_cons_of_mem _ List.mem_cons_self)
      · cases h

/-- Up to eight digits stay in 32 bits. -/
theorem hexDigits_eq_some_iff {count before value : Nat} (hvalue : value < 16 ^ before)
    (hcount : before + count ≤ 8) {text rest : List Char} {result : Nat} :
    hexDigits count value text = some (result, rest) ↔
      ∃ digits, digits.length = count ∧ (∀ c ∈ digits, digitValue c < 16) ∧
        text = digits ++ rest ∧
        result = digits.foldl (fun value c => value * 16 + digitValue c) value := by
  induction count generalizing before value text with
  | zero =>
      rw [hexDigits, Option.some_inj, Prod.mk.injEq]
      constructor
      · rintro ⟨rfl, rfl⟩
        exact ⟨[], rfl, fun _ h => (List.not_mem_nil h).elim, rfl, rfl⟩
      · rintro ⟨digits, hlength, -, rfl, rfl⟩
        cases List.length_eq_zero_iff.mp hlength
        exact ⟨rfl, rfl⟩
  | succ count ih =>
      cases text with
      | nil =>
          refine iff_of_false (by simp [hexDigits]) ?_
          rintro ⟨digits, hlength, -, htext, -⟩
          cases digits with
          | nil => cases hlength
          | cons c digits => cases htext
      | cons c text =>
          have hpow : 16 ^ (before + 1) ≤ 16 ^ 8 := Nat.pow_le_pow_right (by decide) (by omega)
          have hsmall : ¬ 2 ^ 32 ≤ value * 16 := by
            rw [Nat.pow_succ] at hpow
            omega
          rw [hexDigits, if_neg hsmall, toDigit_eq (by decide)]
          by_cases hc : digitValue c < 16
          · have hnext : value * 16 + digitValue c < 16 ^ (before + 1) := by
              rw [Nat.pow_succ]
              omega
            rw [if_pos hc, Option.bind_some, ih hnext (by omega)]
            constructor
            · rintro ⟨digits, hlength, hdigits, rfl, rfl⟩
              exact ⟨c :: digits, congrArg (· + 1) hlength,
                List.forall_mem_cons.mpr ⟨hc, hdigits⟩, rfl, rfl⟩
            · rintro ⟨digits, hlength, hdigits, htext, rfl⟩
              cases digits with
              | nil => cases hlength
              | cons d digits =>
                  obtain ⟨rfl, rfl⟩ := List.cons.inj htext
                  have htail := (List.forall_mem_cons.mp hdigits).2
                  exact ⟨digits, Nat.succ.inj hlength, htail, rfl, rfl⟩
          · rw [if_neg hc, Option.bind_none]
            refine iff_of_false (fun h => by cases h) ?_
            rintro ⟨digits, hlength, hdigits, htext, -⟩
            cases digits with
            | nil => cases hlength
            | cons d digits =>
                obtain ⟨rfl, -⟩ := List.cons.inj htext
                exact hc (hdigits _ List.mem_cons_self)

theorem hexDigits_numeral {marker : Char} {width : Nat} (h : (marker, width) ∈ codeEscapes)
    {text rest : List Char} {value : Nat} :
    hexDigits width 0 text = some (value, rest) ↔
      ∃ digits, digits.length = width ∧ (∀ c ∈ digits, digitValue c < 16) ∧
        text = digits ++ rest ∧ value = numeral 16 digits :=
  hexDigits_eq_some_iff (by decide : 0 < 16 ^ 0) (by have := (codeEscape_spec h).2.2; omega)

section Decoder

variable {fuel : Nat} {c value : Char} {text content : List Char}

theorem decodeDouble_bare (hc : c ≠ '\\') :
    decodeDouble (fuel + 1) (c :: text) = (c :: ·) <$> decodeDouble fuel text := by
  rw [decodeDouble.eq_def]
  exact if_pos hc

theorem decodeDouble_escape (hc : simpleEscape c = some value) :
    decodeDouble (fuel + 1) ('\\' :: c :: text) = (value :: ·) <$> decodeDouble fuel text := by
  rw [decodeDouble, if_neg (not_not_intro rfl)]
  simp only [hc]

theorem decodeDouble_code {width : Nat} (h : (c, width) ∈ codeEscapes) :
    decodeDouble (fuel + 1) ('\\' :: c :: text) =
      (hexDigits width 0 text).bind fun read =>
        if read.1.isValidChar then (Char.ofNat read.1 :: ·) <$> decodeDouble fuel read.2
        else none := by
  rw [decodeDouble, if_neg (not_not_intro rfl)]
  simp only [(codeEscape_spec h).1, (codeEscape_spec h).2.1]
  rfl

/-- The decoder reads every text that is made of characters and of escapes it knows. -/
theorem decodeDouble_of_decodes (h : Decodes text content) (hfuel : text.length ≤ fuel) :
    decodeDouble fuel text = some content := by
  induction h generalizing fuel with
  | nil => cases fuel <;> rfl
  | bare hc rest ih =>
      cases fuel with
      | zero => cases hfuel
      | succ fuel =>
          rw [decodeDouble_bare hc, ih (Nat.le_of_succ_le_succ hfuel)]
          rfl
  | escape hc rest ih =>
      cases fuel with
      | zero => cases hfuel
      | succ fuel =>
          rw [List.length_cons, List.length_cons] at hfuel
          rw [decodeDouble_escape hc, ih (by omega)]
          rfl
  | @code marker digits width hexadecimal scalar text content rest ih =>
      cases fuel with
      | zero => cases hfuel
      | succ fuel =>
          rw [List.length_cons, List.length_cons, List.length_append] at hfuel
          have hread : hexDigits digits.length 0 (digits ++ text) =
              some (numeral 16 digits, text) :=
            (hexDigits_numeral width).mpr ⟨digits, rfl, hexadecimal, rfl, rfl⟩
          rw [decodeDouble_code width, hread, Option.bind_some, if_pos scalar, ih (by omega)]
          rfl

/-- The decoder reads no other text. -/
theorem decodes_of_decodeDouble (h : decodeDouble fuel text = some content) :
    Decodes text content := by
  induction fuel generalizing text content with
  | zero =>
      cases text with
      | nil => cases h; exact .nil
      | cons c text => cases h
  | succ fuel ih =>
      cases text with
      | nil => cases h; exact .nil
      | cons c text =>
          by_cases hc : c = '\\'
          · subst hc
            cases text with
            | nil => cases h
            | cons c text =>
                cases hsimple : simpleEscape c with
                | some value =>
                    rw [decodeDouble_escape hsimple] at h
                    obtain ⟨rest, hrest, rfl⟩ := Option.map_eq_some_iff.mp h
                    exact .escape hsimple (ih hrest)
                | none =>
                    cases hdigits : escapeDigits c with
                    | some width =>
                        have hwidth := mem_codeEscapes hdigits
                        rw [decodeDouble_code hwidth] at h
                        obtain ⟨⟨value, rest⟩, hread, h⟩ := Option.bind_eq_some_iff.mp h
                        obtain ⟨digits, rfl, hexadecimal, rfl, rfl⟩ :=
                          (hexDigits_numeral hwidth).mp hread
                        by_cases hvalid : (numeral 16 digits).isValidChar
                        · rw [if_pos hvalid] at h
                          obtain ⟨rest, hrest, rfl⟩ := Option.map_eq_some_iff.mp h
                          exact .code hwidth hexadecimal hvalid (ih hrest)
                        · rw [if_neg hvalid] at h
                          cases h
                    | none =>
                        rw [decodeDouble, if_neg (not_not_intro rfl)] at h
                        simp only [hsimple, hdigits] at h
                        cases h
          · rw [decodeDouble_bare hc] at h
            obtain ⟨rest, hrest, rfl⟩ := Option.map_eq_some_iff.mp h
            exact .bare hc (ih hrest)

end Decoder

section Pieces

variable {text content : List Char}

/-- What the decoder reads of a piece and of the text behind it. -/
theorem decodes_piece (piece : QuotedChar) :
    Decodes (piece.text ++ text) content ↔
      piece.Known ∧ ∃ rest, content = piece.value :: rest ∧ Decodes text rest := by
  constructor
  · intro h
    generalize hfull : piece.text ++ text = full at h
    cases piece with
    | bare c hquote hslash =>
        change c :: text = full at hfull
        subst hfull
        cases h with
        | bare _ rest => exact ⟨trivial, _, rfl, rest⟩
        | escape _ _ => exact absurd rfl hslash
        | code _ _ _ _ => exact absurd rfl hslash
    | escape c value legal =>
        change '\\' :: c :: text = full at hfull
        cases h with
        | nil => cases hfull
        | bare hc rest => exact absurd (List.cons.inj hfull).1.symm hc
        | @escape c' value' hc text' content' rest =>
            obtain ⟨rfl, rfl⟩ := List.cons.inj (List.cons.inj hfull).2
            rw [simpleEscape_eq legal] at hc
            split at hc
            · cases hc
            · next hknown =>
                cases hc
                exact ⟨hknown, _, rfl, rest⟩
        | code width _ _ _ =>
            obtain ⟨rfl, -⟩ := List.cons.inj (List.cons.inj hfull).2
            have hnone := escapeDigits_of_escape legal
            rw [(codeEscape_spec width).2.1] at hnone
            cases hnone
    | code marker digits width hexadecimal scalar =>
        change '\\' :: marker :: (digits ++ text) = full at hfull
        cases h with
        | nil => cases hfull
        | bare hc rest => exact absurd (List.cons.inj hfull).1.symm hc
        | escape hc rest =>
            obtain ⟨rfl, -⟩ := List.cons.inj (List.cons.inj hfull).2
            rw [(codeEscape_spec width).1] at hc
            cases hc
        | @code marker' digits' width' hexadecimal' scalar' text' content' rest =>
            obtain ⟨rfl, htail⟩ := List.cons.inj (List.cons.inj hfull).2
            have hlength : digits.length = digits'.length := Option.some_inj.mp
              ((codeEscape_spec width).2.1.symm.trans (codeEscape_spec width').2.1)
            obtain ⟨rfl, rfl⟩ := List.append_inj htail hlength
            exact ⟨trivial, _, rfl, rest⟩
  · rintro ⟨hknown, rest, rfl, h⟩
    cases piece with
    | bare c hquote hslash => exact .bare hslash h
    | escape c value legal =>
        have hc := simpleEscape_eq legal
        rw [if_neg hknown] at hc
        exact .escape hc h
    | code marker digits width hexadecimal scalar => exact .code width hexadecimal scalar h

/-- What the decoder reads of some pieces and of the text behind them. -/
theorem decodes_pieces (pieces : List QuotedChar) :
    Decodes (pieces.flatMap QuotedChar.text ++ text) content ↔
      (∀ piece ∈ pieces, piece.Known) ∧
        ∃ rest, content = pieces.map QuotedChar.value ++ rest ∧ Decodes text rest := by
  induction pieces generalizing content with
  | nil => simp
  | cons piece pieces ih =>
      rw [List.flatMap_cons, List.append_assoc, decodes_piece, List.forall_mem_cons, and_assoc]
      refine and_congr_right fun _ => ?_
      constructor
      · rintro ⟨values, rfl, h⟩
        obtain ⟨hknown, rest, rfl, hrest⟩ := ih.mp h
        exact ⟨hknown, rest, rfl, hrest⟩
      · rintro ⟨hknown, rest, rfl, h⟩
        exact ⟨_, rfl, ih.mpr ⟨hknown, rest, rfl, h⟩⟩

/-- A double quote between the quotes is the second character of an escape: the decoder
stumbles over what stands before it. -/
theorem not_decodes_front {pieces : List QuotedChar} {front back : List Char}
    (h : pieces.flatMap QuotedChar.text = front ++ '"' :: back) : ¬ Decodes front content := by
  induction pieces generalizing front content with
  | nil => cases front <;> cases h
  | cons piece pieces ih =>
      intro hdecodes
      rw [List.flatMap_cons] at h
      rcases List.append_eq_append_iff.mp h with ⟨more, rfl, hrest⟩ | ⟨more, hpiece, hrest⟩
      · obtain ⟨-, rest, -, hdecodes⟩ := (decodes_piece piece).mp hdecodes
        exact ih hrest hdecodes
      · cases more with
        | nil =>
            rw [List.append_nil] at hpiece
            rw [← hpiece, ← List.append_nil piece.text] at hdecodes
            obtain ⟨-, rest, -, hdecodes⟩ := (decodes_piece piece).mp hdecodes
            have hsplit : pieces.flatMap QuotedChar.text = [] ++ '"' :: back := hrest.symm
            exact ih hsplit hdecodes
        | cons c more =>
            obtain ⟨rfl, -⟩ := List.cons.inj hrest
            cases piece with
            | bare c hquote hslash =>
                have hmem : '"' ∈ [c] := by
                  change [c] = _ at hpiece
                  rw [hpiece]
                  exact List.mem_append_right _ List.mem_cons_self
                exact hquote (List.mem_singleton.mp hmem).symm
            | escape c value legal =>
                change ['\\', c] = _ at hpiece
                cases front with
                | nil => exact absurd (List.cons.inj hpiece).1 (by decide)
                | cons d front =>
                    obtain ⟨rfl, htail⟩ := List.cons.inj hpiece
                    cases front with
                    | nil =>
                        cases hdecodes with
                        | bare hc _ => exact hc rfl
                    | cons e front =>
                        have := (List.cons.inj htail).2
                        cases front <;> cases this
            | code marker digits width hexadecimal scalar =>
                have hmem : '"' ∈ '\\' :: marker :: digits := by
                  change '\\' :: marker :: digits = _ at hpiece
                  rw [hpiece]
                  exact List.mem_append_right _ List.mem_cons_self
                rcases List.mem_cons.mp hmem with hslash | hmem
                · exact absurd hslash (by decide)
                · rcases List.mem_cons.mp hmem with rfl | hdigit
                  · exact absurd (codeEscape_spec width).1 (by decide)
                  · exact absurd (hexadecimal _ hdigit) (by decide)

end Pieces

section Quotes

variable {quote : Char} {text inside : List Char}

/-- A text between two quotes of a kind, which in double quotes is one that the decoder reads. -/
def Closes (quote : Char) (text : List Char) : Prop :=
  ∃ inside, text = quote :: (inside ++ [quote]) ∧
    (quote = '"' → ∃ content, Decodes inside content)

theorem two_le_byteLength (quote : Char) (inside : List Char) :
    ¬ byteLength (quote :: (inside ++ [quote])) < 2 := by
  have hsize := quote.utf8Size_pos
  simp only [byteLength, List.map_cons, List.map_append, List.sum_cons, List.sum_append,
    List.map_nil, List.sum_nil]
  omega

theorem getLast?_quoted (quote last : Char) (inside : List Char) :
    (quote :: (inside ++ [last])).getLast? = some last := by
  rw [← List.cons_append, List.getLast?_concat]

theorem decodeQuoted_single (inside : List Char) :
    decodeQuoted ('\'' :: (inside ++ ['\''])) = some (unquoteSingle inside) := by
  rw [decodeQuoted, if_neg (two_le_byteLength _ _), if_pos ⟨rfl, getLast?_quoted _ _ _⟩,
    List.tail_cons, List.dropLast_concat]

theorem decodeQuoted_double (inside : List Char) :
    decodeQuoted ('"' :: (inside ++ ['"'])) = decodeDouble (inside.length + 2) inside := by
  have hsingle : ¬ (('"' :: (inside ++ ['"'])).head? = some '\'' ∧
      ('"' :: (inside ++ ['"'])).getLast? = some '\'') := fun h => absurd h.1 (by simp)
  rw [decodeQuoted, if_neg (two_le_byteLength _ _), if_neg hsingle,
    if_pos ⟨rfl, getLast?_quoted _ _ _⟩, List.tail_cons, List.dropLast_concat, List.length_cons,
    List.length_append, List.length_singleton]

theorem isSome_decodeDouble_iff {fuel : Nat} (hfuel : inside.length ≤ fuel) :
    (decodeDouble fuel inside).isSome = true ↔ ∃ content, Decodes inside content := by
  rw [Option.isSome_iff_exists]
  exact exists_congr fun content =>
    ⟨decodes_of_decodeDouble, fun h => decodeDouble_of_decodes h hfuel⟩

theorem eq_of_isQuote (h : isQuote quote = true) : quote = '\'' ∨ quote = '"' := by
  simpa [isQuote] using h

/-- The decoder reads exactly the texts that end with the quote they start with. -/
theorem isSome_decodeQuoted_iff (hquote : isQuote quote = true)
    (hhead : text.head? = some quote) : (decodeQuoted text).isSome = true ↔ Closes quote text := by
  obtain ⟨rest, rfl⟩ : ∃ rest, text = quote :: rest := by
    cases text with
    | nil => cases hhead
    | cons c rest =>
        cases hhead
        exact ⟨rest, rfl⟩
  rcases List.eq_nil_or_concat' rest with rfl | ⟨inside, last, rfl⟩
  · refine iff_of_false (fun h => ?_) ?_
    · rcases eq_of_isQuote hquote with rfl | rfl <;> cases h
    · rintro ⟨inside, htext, -⟩
      have := congrArg List.length htext
      simp at this
  by_cases hlast : last = quote
  · subst hlast
    have hcloses : Closes last (last :: (inside ++ [last])) ↔
        (last = '"' → ∃ content, Decodes inside content) := by
      constructor
      · rintro ⟨inside', htext, h⟩
        have hinside : inside = inside' :=
          (List.append_inj' (List.cons.inj htext).2 rfl).1
        rw [hinside]
        exact h
      · exact fun h => ⟨inside, rfl, h⟩
    rw [hcloses]
    rcases eq_of_isQuote hquote with rfl | rfl
    · rw [decodeQuoted_single]
      exact iff_of_true rfl fun h => absurd h (by decide)
    · rw [decodeQuoted_double, isSome_decodeDouble_iff (by omega)]
      exact ⟨fun h _ => h, fun h => h rfl⟩
  · have hend := getLast?_quoted quote last inside
    have hother : (quote :: (inside ++ [last])).getLast? ≠ some quote := by
      rw [hend]
      exact fun h => hlast (Option.some_inj.mp h)
    refine iff_of_false (fun h => ?_) ?_
    · rw [decodeQuoted] at h
      split at h
      · cases h
      · split at h
        · next hsingle =>
            cases hsingle.1
            exact hother hsingle.2
        · split at h
          · next hdouble =>
              cases hdouble.1
              exact hother hdouble.2
          · cases h
    · rintro ⟨inside', htext, -⟩
      rw [htext] at hother
      exact hother (getLast?_quoted _ _ _)

/-- A quoted string is decoded to itself exactly when the decoder knows its escapes. -/
theorem decodeQuoted_text_iff (quoted : QuotedText) :
    decodeQuoted quoted.text = some quoted.content ↔ quoted.Known := by
  cases quoted with
  | single content =>
      refine iff_of_true ?_ trivial
      rw [QuotedText.text, QuotedText.quote, decodeQuoted_single, unquoteSingle_body]
      rfl
  | double pieces =>
      have hpieces := @decodes_pieces [] (pieces.map QuotedChar.value) pieces
      rw [List.append_nil] at hpieces
      rw [QuotedText.text, QuotedText.quote, decodeQuoted_double]
      constructor
      · exact fun h => (hpieces.mp (decodes_of_decodeDouble h)).1
      · intro hknown
        exact decodeDouble_of_decodes
          (hpieces.mpr ⟨hknown, [], (List.append_nil _).symm, .nil⟩) (by omega)

end Quotes

end Telora.Yaml
