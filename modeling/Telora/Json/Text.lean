import Telora.Json.Lowering
import Telora.Json.Writer
import Mathlib.Data.List.TakeWhile

/-!
# The tokens of written JSON

The lexemes of a rendering: they spell a syntax tree, without a lexical error, whatever
follows the rendering. Only a number needs a follower that cannot continue it.
-/

namespace Telora.Json

open Library

variable (errorLength : Mode → List Char → Nat)

section Strings

theorem isStringText_eq_true {c : Char} :
    isStringText c = true ↔ c ≠ '"' ∧ c ≠ '\\' ∧ '\x1f' < c := by
  simp [isStringText]

/-- A character is written as itself exactly when it is text of a string. -/
theorem escapedChar_of_text {c : Char} (h : isStringText c = true) : escapedChar c = [c] := by
  obtain ⟨hquote, hescape, hcontrol⟩ := isStringText_eq_true.mp h
  have hne : ∀ d : Char, d ≤ '\x1f' → c ≠ d := fun d hd heq =>
    absurd hcontrol (not_lt.mpr (heq ▸ hd))
  rw [escapedChar, if_neg hquote, if_neg hescape, if_neg (hne _ (by decide)),
    if_neg (hne _ (by decide)), if_neg (hne _ (by decide)), if_neg (hne _ (by decide)),
    if_neg (hne _ (by decide)), if_neg (not_le.mpr hcontrol)]

theorem hexQuadText_eq : ∀ n < 32, hexQuadText n =
    ['0', '0', (n / 16).digitChar, (n % 16).digitChar] := by
  decide

theorem digitChar_hex : ∀ n < 16, isHexDigit n.digitChar = true ∧
    hexDigitValue n.digitChar = n := by
  decide

/-- The control character of a code. -/
theorem control_lt {c : Char} (h : c ≤ '\x1f') : c.toNat < 32 := by
  have : c.val.toNat ≤ '\x1f'.val.toNat := h
  exact Nat.lt_succ_of_le this

theorem hexDigits_control {n : Nat} (h : n < 32) (text : List Char) :
    hexQuad (hexQuadText n ++ text) = .ok (n, text) := by
  obtain ⟨hhigh, hhighValue⟩ := digitChar_hex (n / 16) (by omega)
  obtain ⟨hlow, hlowValue⟩ := digitChar_hex (n % 16) (by omega)
  have hzero : isHexDigit '0' = true ∧ hexDigitValue '0' = 0 := by decide
  rw [hexQuadText_eq n h]
  simp only [hexQuad, List.cons_append, List.nil_append, hexDigits, hhigh, hlow, hzero.1, hzero.2,
    hhighValue, hlowValue, if_true]
  congr 2
  omega

/-- What an escaped character is: a backslash and an escape that is read back. -/
structure Escapes (c : Char) (escape : List Char) : Prop where
  scan : ∀ text, scanEscape (escape ++ text) = (.escapeSequence, escape.length)
  decode : ∀ fuel text,
    decodeWith (fuel + 1) ('\\' :: escape ++ text) = (c :: ·) <$> decodeWith fuel text

theorem byteLength_cons (c : Char) (text : List Char) :
    byteLength (c :: text) = c.utf8Size + byteLength text := by
  simp [byteLength]

theorem byteLength_cons_cons (c d : Char) (text : List Char) : ¬byteLength (c :: d :: text) ≤ 1 := by
  have hc := c.utf8Size_pos
  have hd := d.utf8Size_pos
  rw [byteLength_cons, byteLength_cons]
  omega

theorem escapes_simple {c letter : Char} (hletter : letter ≠ 'u')
    (hscan : letter ∈ ['"', '\\', '/', 'b', 'f', 'n', 'r', 't'])
    (hdecode : simpleEscape letter = some c) : Escapes c [letter] where
  scan text := by
    rw [List.singleton_append, scanEscape, if_neg hletter, if_pos hscan]
    rfl
  decode fuel text := by
    change decodeWith (fuel + 1) ('\\' :: letter :: text) = _
    rw [decodeWith, if_neg (byteLength_cons_cons _ _ _)]
    simp [hletter, hdecode]

theorem unicodeEscape_control {c : Char} (h : c ≤ '\x1f') (text : List Char) :
    unicodeEscape (hexQuadText c.toNat ++ text) = .ok (c, text) := by
  have hnat := control_lt h
  have hvalid : c.toNat.isValidChar := c.valid
  have hhigh : ¬(0xd800 ≤ c.toNat ∧ c.toNat ≤ 0xdbff) := by omega
  have hlow : ¬(0xdc00 ≤ c.toNat ∧ c.toNat ≤ 0xdfff) := by omega
  rw [unicodeEscape, hexDigits_control hnat]
  simp [bind, Except.bind, pure, Except.pure, hhigh, hlow, hvalid]

theorem escapes_control {c : Char} (h : c ≤ '\x1f') : Escapes c ('u' :: hexQuadText c.toNat) where
  scan text := by
    have hdigits : ((hexQuadText c.toNat ++ text).take 4).takeWhile isHexDigit =
        hexQuadText c.toNat := by
      rw [hexQuadText_eq _ (control_lt h)]
      obtain ⟨hhigh, -⟩ := digitChar_hex (c.toNat / 16) (by have := control_lt h; omega)
      obtain ⟨hlow, -⟩ := digitChar_hex (c.toNat % 16) (by omega)
      have hzero : isHexDigit '0' = true := by decide
      simp [hhigh, hlow, hzero]
    have hlength : (hexQuadText c.toNat).length = 4 := by
      rw [hexQuadText_eq _ (control_lt h)]
      rfl
    rw [List.cons_append, scanEscape, if_pos rfl, hdigits, if_pos hlength, List.length_cons,
      hlength]
  decode fuel text := by
    change decodeWith (fuel + 1) ('\\' :: 'u' :: (hexQuadText c.toNat ++ text)) = _
    rw [decodeWith, if_neg (byteLength_cons_cons _ _ _)]
    simp only [ne_eq, not_true_eq_false, if_false, if_true, unicodeEscape_control h]
    rfl

/-- Every other character is escaped. -/
theorem escapedChar_of_not_text {c : Char} (h : isStringText c = false) :
    ∃ escape, escapedChar c = '\\' :: escape ∧ Escapes c escape := by
  have hcases : c = '"' ∨ c = '\\' ∨ c ≤ '\x1f' := by
    by_contra hnone
    rw [not_or, not_or, not_le] at hnone
    rw [isStringText_eq_true.mpr hnone] at h
    cases h
  rw [escapedChar]
  -- the escapes of one letter, in the order of the branches
  iterate 7
    split
    · next heq => exact ⟨_, rfl, escapes_simple (by decide) (by decide) (by rw [heq]; rfl)⟩
  split
  · next hcontrol => exact ⟨_, rfl, escapes_control hcontrol⟩
  · next hquote hescape _ _ _ _ _ hcontrol =>
      exact absurd hcases (not_or.mpr ⟨hquote, not_or.mpr ⟨hescape, hcontrol⟩⟩)

/-- The content of a string is read back from its escaped form. -/
theorem decodeWith_escaped (content : List Char) : ∀ fuel, content.length < fuel →
    decodeWith fuel (content.flatMap escapedChar ++ ['"']) = .ok content := by
  induction content with
  | nil =>
      intro fuel hfuel
      cases fuel with
      | zero => cases hfuel
      | succ fuel => rfl
  | cons c content ih =>
      intro fuel hfuel
      obtain ⟨fuel, rfl⟩ : ∃ less, fuel = less + 1 := ⟨fuel - 1, by omega⟩
      have hrest := ih fuel (by rw [List.length_cons] at hfuel; omega)
      rw [List.flatMap_cons, List.append_assoc]
      cases htext : isStringText c with
      | true =>
          obtain ⟨-, hescape, -⟩ := isStringText_eq_true.mp htext
          obtain ⟨d, more, hmore⟩ : ∃ d more,
              content.flatMap escapedChar ++ ['"'] = d :: more := by
            cases hcontent : content.flatMap escapedChar with
            | nil => exact ⟨_, _, rfl⟩
            | cons d more => exact ⟨d, _, rfl⟩
          rw [hmore] at hrest
          rw [escapedChar_of_text htext, List.singleton_append, hmore, decodeWith,
            if_neg (byteLength_cons_cons _ _ _)]
          simp only [ne_eq, hescape, not_false_eq_true, if_true, hrest]
          rfl
      | false =>
          obtain ⟨escape, hescaped, hescapes⟩ := escapedChar_of_not_text htext
          rw [hescaped, hescapes.decode, hrest]
          rfl

theorem flatMap_text {content : List Char} (h : ∀ c ∈ content, isStringText c = true) :
    content.flatMap escapedChar = content := by
  induction content with
  | nil => rfl
  | cons c content ih =>
      obtain ⟨hc, hrest⟩ := List.forall_mem_cons.mp h
      rw [List.flatMap_cons, escapedChar_of_text hc, ih hrest, List.singleton_append]

/-- A run of text ends where the escaped content that is left begins. -/
theorem takeWhile_escaped (content rest : List Char) :
    ((content.dropWhile isStringText).flatMap escapedChar ++ '"' :: rest).takeWhile isStringText =
      [] := by
  cases hdrop : content.dropWhile isStringText with
  | nil => rfl
  | cons d more =>
      have hd : isStringText d = false := by
        have := List.head?_dropWhile_not isStringText content
        rwa [hdrop] at this
      obtain ⟨escape, hescaped, -⟩ := escapedChar_of_not_text hd
      rw [List.flatMap_cons, hescaped]
      rfl

/-- A run of text. -/
def textPiece (text : List Char) : Piece := ⟨⟨.stringText, text⟩, List.mem_cons_self⟩

/-- An escape after its backslash. -/
def escapePiece (escape : List Char) : Piece :=
  ⟨⟨.escapeSequence, '\\' :: escape⟩, List.mem_cons_of_mem _ List.mem_cons_self⟩

theorem tokens_run {c : Char} {run tail : List Char} (hc : isStringText c = true)
    (hrun : ∀ d ∈ run, isStringText d = true) (htail : tail.takeWhile isStringText = []) :
    (lexer errorLength).tokens .string (c :: run ++ tail) =
      ⟨.stringText, c :: run⟩ :: (lexer errorLength).tokens .string tail := by
  obtain ⟨hquote, hescape, -⟩ := isStringText_eq_true.mp hc
  refine Lexer.tokens_append (lexer errorLength) ?_
  change scanString errorLength (c :: (run ++ tail)) = (.stringText, run.length)
  rw [scanString, if_neg hquote, if_neg hescape, if_pos hc, List.takeWhile_append_of_pos hrun,
    htail, List.append_nil]

theorem tokens_escape {c : Char} {escape : List Char} (h : Escapes c escape) (tail : List Char) :
    (lexer errorLength).tokens .string ('\\' :: escape ++ tail) =
      ⟨.escapeSequence, '\\' :: escape⟩ :: (lexer errorLength).tokens .string tail := by
  refine Lexer.tokens_append (lexer errorLength) ?_
  change scanString errorLength ('\\' :: (escape ++ tail)) = (.escapeSequence, escape.length)
  rw [scanString, if_neg (by decide), if_pos rfl, h.scan]

/-- The pieces of a string: maximal runs of text, and escapes. -/
theorem tokens_escaped : ∀ content : List Char, ∃ pieces : List Piece,
    (∀ rest, (lexer errorLength).tokens .string (content.flatMap escapedChar ++ '"' :: rest) =
      pieces.map (·.lexeme) ++ (lexer errorLength).tokens .string ('"' :: rest)) ∧
    Lexer.covered (pieces.map (·.lexeme)) = content.flatMap escapedChar ∧
    ∀ piece ∈ pieces, tokenDiagnostic piece.lexeme.token = none
  | [] => ⟨[], fun _ => rfl, rfl, by simp⟩
  | c :: content => by
      cases htext : isStringText c with
      | true =>
          obtain ⟨pieces, htokens, hcovered, hdiagnostics⟩ :=
            tokens_escaped (content.dropWhile isStringText)
          have hsplit : (c :: content).flatMap escapedChar = c :: content.takeWhile isStringText ++
              (content.dropWhile isStringText).flatMap escapedChar :=
            calc (c :: content).flatMap escapedChar
                = (c :: content.takeWhile isStringText).flatMap escapedChar ++
                    (content.dropWhile isStringText).flatMap escapedChar := by
                  rw [← List.flatMap_append, List.cons_append, List.takeWhile_append_dropWhile]
              _ = c :: content.takeWhile isStringText ++
                    (content.dropWhile isStringText).flatMap escapedChar := by
                  rw [flatMap_text (List.forall_mem_cons.mpr
                    ⟨htext, fun d hd => List.mem_takeWhile_imp hd⟩)]
          refine ⟨textPiece (c :: content.takeWhile isStringText) :: pieces, ?_, ?_,
            List.forall_mem_cons.mpr ⟨rfl, hdiagnostics⟩⟩
          · intro rest
            rw [hsplit, List.append_assoc, tokens_run errorLength htext
              (fun d hd => List.mem_takeWhile_imp hd) (takeWhile_escaped content rest), htokens]
            rfl
          · rw [hsplit, ← hcovered]
            rfl
      | false =>
          obtain ⟨pieces, htokens, hcovered, hdiagnostics⟩ := tokens_escaped content
          obtain ⟨escape, hescaped, hescapes⟩ := escapedChar_of_not_text htext
          refine ⟨escapePiece escape :: pieces, ?_, ?_,
            List.forall_mem_cons.mpr ⟨rfl, hdiagnostics⟩⟩
          · intro rest
            rw [List.flatMap_cons, hescaped, List.append_assoc, tokens_escape errorLength hescapes,
              htokens]
            rfl
          · rw [List.flatMap_cons, hescaped, ← hcovered]
            rfl
termination_by content => content.length
decreasing_by
  · exact Nat.lt_succ_self _
  · exact Nat.lt_succ_of_le (List.length_dropWhile_le _ _)

theorem length_le_escaped (content : List Char) :
    content.length ≤ (content.flatMap escapedChar).length := by
  induction content with
  | nil => exact Nat.le_refl _
  | cons c content ih =>
      have hc : 1 ≤ (escapedChar c).length := by
        cases htext : isStringText c with
        | true => rw [escapedChar_of_text htext]; rfl
        | false =>
            obtain ⟨escape, hescaped, -⟩ := escapedChar_of_not_text htext
            rw [hescaped, List.length_cons]
            omega
      rw [List.flatMap_cons, List.length_append, List.length_cons]
      omega

/-- The lexemes of a string literal, and its content. -/
theorem tokens_stringText (content : String) : ∃ pieces : List Piece,
    (∀ rest, (lexer errorLength).tokens .normal (stringText content ++ rest) =
      stringWord pieces ++ (lexer errorLength).tokens .normal rest) ∧
    diagnostics (stringWord pieces) = [] ∧
    decodeString (Lexer.covered (stringWord pieces)) = .ok content := by
  obtain ⟨pieces, htokens, hcovered, hdiagnostics⟩ := tokens_escaped errorLength content.toList
  refine ⟨pieces, fun rest => ?_, ?_, ?_⟩
  · have hopening : (lexer errorLength).tokens .normal (stringText content ++ rest) =
        quote :: (lexer errorLength).tokens .string
          (content.toList.flatMap escapedChar ++ '"' :: rest) := by
      rw [stringText, List.append_assoc, List.singleton_append]
      exact @Lexer.tokens_append _ _ (lexer errorLength) .normal .doubleQuote '"' [] _ rfl
    have hclosing : (lexer errorLength).tokens .string ('"' :: rest) =
        quote :: (lexer errorLength).tokens .normal rest :=
      @Lexer.tokens_append _ _ (lexer errorLength) .string .doubleQuote '"' [] _ rfl
    rw [hopening, htokens, hclosing]
    simp [stringWord]
  · refine List.filterMap_eq_nil_iff.mpr (List.forall_mem_cons.mpr ⟨rfl,
      List.forall_mem_append.mpr ⟨List.forall_mem_map.mpr hdiagnostics, by decide⟩⟩)
  · have htext : Lexer.covered (stringWord pieces) = stringText content := by
      rw [stringText, ← hcovered]
      simp [stringWord, Lexer.covered, quote]
    have hlength : content.toList.length < (stringText content).length := by
      have := length_le_escaped content.toList
      simp only [stringText, List.length_cons, List.length_append]
      omega
    rw [htext, decodeString]
    change String.ofList <$> decodeWith (stringText content).length
      (content.toList.flatMap escapedChar ++ ['"']) = _
    rw [decodeWith_escaped _ _ hlength]
    exact congrArg Except.ok String.ofList_toList

end Strings

section Numbers

/-- What follows a number does not continue it. -/
def Ends (rest : List Char) : Prop :=
  ∀ c ∈ rest.head?, c.isDigit = false ∧ c ≠ '.' ∧ c ≠ 'e' ∧ c ≠ 'E'

theorem Ends.digits {rest digits : List Char} (h : ∀ c ∈ rest.head?, c.isDigit = false)
    (hdigits : ∀ c ∈ digits, c.isDigit = true) : digitsLength (digits ++ rest) = digits.length := by
  rw [digitsLength, (F64.takeWhile_digits hdigits rest h).1]

theorem Ends.fraction {rest : List Char} (h : Ends rest) : fractionLength rest = 0 := by
  cases rest with
  | nil => rfl
  | cons c rest => simp [fractionLength, (h c rfl).2.1]

theorem Ends.exponent {rest : List Char} (h : Ends rest) : exponentLength rest = 0 := by
  cases rest with
  | nil => rfl
  | cons c rest => simp [exponentLength, (h c rfl).2.2.1, (h c rfl).2.2.2]

/-- No leading zero is written. -/
theorem toDigits_head (n : Nat) : ∃ c digits, Nat.toDigits 10 n = c :: digits ∧
    c.isDigit = true ∧ (c = '0' → digits = []) := by
  induction n using Nat.strongRecOn with
  | ind n ih =>
      by_cases hsmall : n < 10
      · have hall : ∀ n < 10, (Nat.digitChar n).isDigit = true := by decide
        exact ⟨n.digitChar, [], Nat.toDigits_of_lt_base hsmall, hall n hsmall, fun _ => rfl⟩
      · obtain ⟨c, digits, hdigits, hdigit, hzero⟩ := ih (n / 10) (by omega)
        have hsplit : Nat.toDigits 10 n = Nat.toDigits 10 (n / 10) ++ Nat.toDigits 10 (n % 10) := by
          rw [Nat.toDigits_append_toDigits (by decide) (by omega) (by omega), Nat.div_add_mod]
        refine ⟨c, digits ++ Nat.toDigits 10 (n % 10), by rw [hsplit, hdigits]; rfl, hdigit, ?_⟩
        intro hc
        exfalso
        have hvalue : Nat.ofDigitChars 10 (Nat.toDigits 10 (n / 10)) 0 = n / 10 :=
          Nat.ofDigitChars_ten_toDigits
        rw [hdigits, hc, hzero hc] at hvalue
        have : n / 10 = 0 := hvalue.symm
        omega

/-- A number as it is written: a sign, an integer without leading zeros, and a fraction. -/
structure Decimal (text : List Char) : Prop where
  parts : ∃ (negative : Bool) (whole : Nat) (fraction : List Char),
    text = (if negative then ['-'] else []) ++ (Nat.toDigits 10 whole ++ fraction) ∧
      (fraction = [] ∨ ∃ digits, digits ≠ [] ∧ (∀ c ∈ digits, c.isDigit = true) ∧
        fraction = '.' :: digits)

theorem integerLength_toDigits (n : Nat) {rest : List Char}
    (h : ∀ c ∈ rest.head?, c.isDigit = false) :
    integerLength (Nat.toDigits 10 n ++ rest) = (Nat.toDigits 10 n).length := by
  obtain ⟨c, digits, hdigits, hdigit, hzero⟩ := toDigits_head n
  have hall := F64.all_isDigit_toDigits n
  rw [hdigits] at hall ⊢
  rw [List.cons_append, integerLength]
  by_cases hc : c = '0'
  · rw [if_pos hc, hzero hc]
    rfl
  · rw [if_neg hc, if_pos hdigit, Ends.digits h (List.forall_mem_cons.mp hall).2,
      List.length_cons, Nat.add_comm]

theorem fractionLength_digits {digits rest : List Char} (hne : digits ≠ [])
    (hdigits : ∀ c ∈ digits, c.isDigit = true) (h : Ends rest) :
    fractionLength ('.' :: digits ++ rest) = digits.length + 1 := by
  have hlength : digitsLength (digits ++ rest) = digits.length :=
    Ends.digits (fun c hc => (h c hc).1) hdigits
  have hpos : digits.length ≠ 0 := fun h => hne (List.length_eq_zero_iff.mp h)
  rw [List.cons_append, fractionLength, hlength, if_pos ⟨rfl, hpos⟩, Nat.add_comm]

/-- The parts of a number without an exponent. -/
theorem numberLength_parts {sign integer fraction rest : List Char}
    (hsign : signLength ['-'] (sign ++ (integer ++ (fraction ++ rest))) = sign.length)
    (hinteger : integerLength (integer ++ (fraction ++ rest)) = integer.length)
    (hpos : integer.length ≠ 0) (hfraction : fractionLength (fraction ++ rest) = fraction.length)
    (hexponent : exponentLength rest = 0) :
    numberLength (sign ++ (integer ++ (fraction ++ rest))) =
      sign.length + integer.length + fraction.length := by
  have hafterSign : (sign ++ (integer ++ (fraction ++ rest))).drop sign.length =
      integer ++ (fraction ++ rest) := List.drop_left
  have hafterInteger : (sign ++ (integer ++ (fraction ++ rest))).drop
      (sign.length + integer.length) = fraction ++ rest := by
    rw [← List.drop_drop, hafterSign, List.drop_left]
  have hafterFraction : (sign ++ (integer ++ (fraction ++ rest))).drop
      (sign.length + integer.length + fraction.length) = rest := by
    rw [← List.drop_drop, hafterInteger, List.drop_left]
  simp only [numberLength, hsign, hafterSign, hinteger, if_neg hpos, hafterInteger, hfraction,
    hafterFraction, hexponent, Nat.add_zero]

/-- A number is scanned to its end. -/
theorem Decimal.numberLength {text rest : List Char} (htext : Decimal text) (h : Ends rest) :
    numberLength (text ++ rest) = text.length := by
  obtain ⟨negative, whole, fraction, rfl, hfraction⟩ := htext.parts
  have hsign : signLength ['-'] ((if negative then ['-'] else []) ++
      (Nat.toDigits 10 whole ++ fraction) ++ rest) =
        (if negative then ['-'] else [] : List Char).length := by
    cases negative with
    | true => rfl
    | false =>
        obtain ⟨c, digits, hdigits, hdigit, -⟩ := toDigits_head whole
        have hc : c ≠ '-' := by
          rintro rfl
          cases hdigit
        simp [hdigits, signLength, hc]
  have hfollow : ∀ c ∈ (fraction ++ rest).head?, c.isDigit = false := by
    rcases hfraction with rfl | ⟨digits, -, -, rfl⟩
    · exact fun c hc => (h c hc).1
    · intro c hc
      obtain rfl := Option.some.inj hc
      decide
  have hfractionLength : fractionLength (fraction ++ rest) = fraction.length := by
    rcases hfraction with rfl | ⟨digits, hne, hdigits, rfl⟩
    · exact h.fraction
    · exact fractionLength_digits hne hdigits h
  have hpos : (Nat.toDigits 10 whole).length ≠ 0 := fun hzero =>
    Nat.toDigits_ne_nil (List.length_eq_zero_iff.mp hzero)
  simp only [List.append_assoc] at hsign ⊢
  rw [numberLength_parts hsign (integerLength_toDigits whole hfollow) hpos hfractionLength
    h.exponent]
  simp only [List.length_append, Nat.add_assoc]

theorem Decimal.head {text : List Char} (h : Decimal text) :
    ∃ c rest, text = c :: rest ∧ (c.isDigit = true ∨ c = '-') := by
  obtain ⟨negative, whole, fraction, rfl, -⟩ := h.parts
  obtain ⟨c, digits, hdigits, hdigit, -⟩ := toDigits_head whole
  cases negative with
  | true => exact ⟨'-', _, rfl, .inr rfl⟩
  | false => exact ⟨c, digits ++ fraction, by rw [hdigits]; rfl, .inl hdigit⟩

/-- A written number is one lexeme. -/
theorem Decimal.tokens {text rest : List Char} (htext : Decimal text) (h : Ends rest) :
    (lexer errorLength).tokens .normal (text ++ rest) =
      ⟨.number, text⟩ :: (lexer errorLength).tokens .normal rest := by
  have hlength := htext.numberLength h
  obtain ⟨c, more, rfl, hhead⟩ := htext.head
  have hne : ∀ d : Char, d.isDigit = false → d ≠ '-' → c ≠ d := by
    rintro d hd hminus rfl
    rcases hhead with hdigit | hsign
    · rw [hd] at hdigit
      cases hdigit
    · exact hminus hsign
  have hkeyword : keywords.find? (·.1.isPrefixOf (c :: more ++ rest)) = none := by
    have ht := hne 't' (by decide) (by decide)
    have hf := hne 'f' (by decide) (by decide)
    have hn := hne 'n' (by decide) (by decide)
    simp [keywords, List.isPrefixOf, ht.symm, hf.symm, hn.symm]
  have hpunctuation : punctuation c = none := by
    simp only [punctuation]
    rw [if_neg (hne _ (by decide) (by decide)), if_neg (hne _ (by decide) (by decide)),
      if_neg (hne _ (by decide) (by decide)), if_neg (hne _ (by decide) (by decide)),
      if_neg (hne _ (by decide) (by decide)), if_neg (hne _ (by decide) (by decide)),
      if_neg (hne _ (by decide) (by decide))]
  refine Lexer.tokens_append (lexer errorLength) ?_
  change scanNormal errorLength (c :: more ++ rest) = (.number, more.length)
  have hscan : (c :: more ++ rest).head?.bind punctuation = none := hpunctuation
  simp only [scanNormal, hkeyword, hscan, hlength, List.length_cons]
  rfl

theorem decimal_intText (value : Int) : Decimal (intText value) := by
  refine ⟨⟨decide (value < 0), value.natAbs, [], ?_, .inl rfl⟩⟩
  by_cases hnegative : value < 0
  · simp [intText, hnegative]
  · simp [intText, hnegative]

theorem decimal_displayDecimal (negative : Bool) (digits : Nat) (point : Int) :
    Decimal ((if negative then ['-'] else []) ++ F64.displayDecimal digits point) := by
  rw [F64.displayDecimal]
  by_cases hpoint : 0 ≤ point
  · rw [if_pos hpoint]
    exact ⟨⟨negative, _, [], by rw [List.append_nil], .inl rfl⟩⟩
  · rw [if_neg hpoint]
    refine ⟨⟨negative, _, _, rfl, .inr ⟨_, ?_, F64.all_isDigit_paddedDigits _ _, rfl⟩⟩⟩
    exact fun hnil => Nat.toDigits_ne_nil (List.append_eq_nil_iff.mp hnil).2

theorem decimal_display {x : F64} (h : x.isFinite = true) : Decimal x.display := by
  rw [F64.display_of_isFinite h]
  exact decimal_displayDecimal _ _ _

end Numbers

section Renderings

variable (indent : Option Nat)

/-- A text whose lexemes spell some words without a lexical error, whatever follows. -/
def Written (text : List Char) (words : List Word) : Prop :=
  ∀ rest, Ends rest → ∃ lexemes,
    (lexer errorLength).tokens .normal (text ++ rest) =
      lexemes ++ (lexer errorLength).tokens .normal rest ∧
    Spells words lexemes ∧ diagnostics lexemes = []

/-- A text that does not start with whitespace. -/
def StartsSolid (text : List Char) : Prop := ∃ c rest, text = c :: rest ∧ isWhitespace c = false

theorem StartsSolid.append {text : List Char} (h : StartsSolid text) (rest : List Char) :
    StartsSolid (text ++ rest) := by
  obtain ⟨c, more, rfl, hc⟩ := h
  exact ⟨c, more ++ rest, rfl, hc⟩

theorem isWhitespace_eq_true {c : Char} :
    isWhitespace c = true ↔ c = ' ' ∨ c = '\t' ∨ c = '\r' ∨ c = '\n' := by
  simp [isWhitespace]

/-- The lexeme of whitespace, if there is any. -/
def spaceLexemes (text : List Char) : List (Lexeme Token) :=
  if text = [] then [] else [⟨.whitespace, text⟩]

theorem tokens_space {text rest : List Char} (htext : ∀ c ∈ text, isWhitespace c = true)
    (hrest : StartsSolid rest) :
    (lexer errorLength).tokens .normal (text ++ rest) =
      spaceLexemes text ++ (lexer errorLength).tokens .normal rest := by
  cases text with
  | nil => rfl
  | cons c text =>
      obtain ⟨hc, -⟩ := List.forall_mem_cons.mp htext
      obtain ⟨d, more, rfl, hd⟩ := hrest
      have hrun : (c :: text ++ d :: more).takeWhile isWhitespace = c :: text := by
        rw [List.takeWhile_append_of_pos htext]
        simp [hd]
      have hkeyword : keywords.find? (·.1.isPrefixOf (c :: text ++ d :: more)) = none := by
        rcases isWhitespace_eq_true.mp hc with rfl | rfl | rfl | rfl <;> rfl
      have hpunctuation : (c :: text ++ d :: more).head?.bind punctuation = none := by
        rcases isWhitespace_eq_true.mp hc with rfl | rfl | rfl | rfl <;> rfl
      have hnumber : numberLength (c :: text ++ d :: more) = 0 := by
        rcases isWhitespace_eq_true.mp hc with rfl | rfl | rfl | rfl <;> rfl
      refine Lexer.tokens_append (lexer errorLength) ?_
      change scanNormal errorLength (c :: text ++ d :: more) = (.whitespace, text.length)
      simp only [scanNormal, hkeyword, hpunctuation, hnumber, hrun, List.length_cons]
      rfl

theorem spells_space {text : List Char} {words : List Word} {lexemes : List (Lexeme Token)}
    (h : Spells words lexemes) : Spells words (spaceLexemes text ++ lexemes) := by
  unfold spaceLexemes
  split
  · exact h
  · exact .space rfl h

theorem diagnostics_append (left right : List (Lexeme Token)) :
    diagnostics (left ++ right) = diagnostics left ++ diagnostics right := List.filterMap_append

theorem diagnostics_space (text : List Char) : diagnostics (spaceLexemes text) = [] := by
  unfold spaceLexemes
  split <;> rfl

theorem newline_space (depth : Nat) : ∀ c ∈ newline indent depth, isWhitespace c = true := by
  cases indent with
  | none => exact fun c hmem => absurd hmem List.not_mem_nil
  | some indent =>
      refine List.forall_mem_cons.mpr ⟨by decide, fun c hmem => ?_⟩
      rw [List.eq_of_mem_replicate hmem]
      decide

/-- A punctuation mark is a lexeme of its own. -/
theorem tokens_mark {c : Char} {token : Token} (hscan : ∀ rest, scanNormal errorLength (c :: rest) =
    (token, 0)) (hmode : nextMode .normal token = .normal) (rest : List Char) :
    (lexer errorLength).tokens .normal (c :: rest) =
      ⟨token, [c]⟩ :: (lexer errorLength).tokens .normal rest := by
  have h := @Lexer.tokens_append _ _ (lexer errorLength) .normal token c [] rest (hscan rest)
  rw [show (lexer errorLength).next .normal token = .normal from hmode] at h
  exact h

/-- A keyword is one lexeme. -/
theorem written_keyword {c : Char} {text : List Char} {token : Token}
    (hscan : ∀ rest, scanNormal errorLength (c :: text ++ rest) = (token, text.length))
    (hmode : nextMode .normal token = .normal) (hvalid : tokenDiagnostic token = none) :
    Written errorLength (c :: text) [[⟨token, c :: text⟩]] := by
  intro rest _
  refine ⟨[⟨token, c :: text⟩], ?_, .word .nil, by simp [diagnostics, hvalid]⟩
  have h := @Lexer.tokens_append _ _ (lexer errorLength) .normal token c text rest (hscan rest)
  rw [show (lexer errorLength).next .normal token = .normal from hmode] at h
  exact h

theorem written_number {text : List Char} (h : Decimal text) :
    Written errorLength text [[⟨.number, text⟩]] :=
  fun _ hrest => ⟨[⟨.number, text⟩], h.tokens errorLength hrest, .word .nil, rfl⟩

/-- A string literal, as one word. -/
theorem written_string (content : String) : ∃ pieces : List Piece,
    Written errorLength (stringText content) [stringWord pieces] ∧
      decodeString (Lexer.covered (stringWord pieces)) = .ok content := by
  obtain ⟨pieces, htokens, hvalid, hdecode⟩ := tokens_stringText errorLength content
  exact ⟨pieces, fun rest _ => ⟨stringWord pieces, htokens rest, .single _, hvalid⟩, hdecode⟩

/-- Items of a collection with the words they spell. -/
abbrev WrittenAll (texts : List (List Char)) (groups : List (List Word)) : Prop :=
  List.Forall₂ (fun text words => Written errorLength text words ∧ StartsSolid text) texts groups

theorem ends_more {texts : List (List Char)} {rest : List Char} (depth index : Nat)
    (h : Ends rest) : Ends (collectionText indent depth (index + 1) texts ++ rest) := by
  cases texts with
  | nil => exact h
  | cons text texts =>
      intro c hc
      obtain rfl := Option.some.inj hc
      decide

/-- The items after the first, each after a comma. -/
theorem written_more (depth : Nat) {texts : List (List Char)} {groups : List (List Word)}
    (h : WrittenAll errorLength texts groups) : ∀ index, Written errorLength
      (collectionText indent depth (index + 1) texts) (groups.flatMap ([comma] :: ·)) := by
  induction h with
  | nil => exact fun index rest _ => ⟨[], rfl, .nil, rfl⟩
  | @cons text words texts groups htext _ ih =>
      obtain ⟨hwritten, hsolid⟩ := htext
      intro index rest hrest
      obtain ⟨others, hothers, hspells, hvalid⟩ := ih (index + 1) rest hrest
      obtain ⟨lexemes, htokens, hfirst, hfirstValid⟩ :=
        hwritten _ (ends_more indent depth (index + 1) hrest)
      refine ⟨comma :: (spaceLexemes (newline indent depth) ++ lexemes) ++ others, ?_, ?_, ?_⟩
      · have htext : collectionText indent depth (index + 1) (text :: texts) ++ rest =
            ',' :: (newline indent depth ++ (text ++
              (collectionText indent depth (index + 2) texts ++ rest))) := by
          simp [collectionText, separator]
        rw [htext, tokens_mark errorLength (fun _ => rfl) rfl,
          tokens_space errorLength (newline_space indent depth) (hsolid.append _), htokens, hothers]
        simp [comma]
      · exact (Spells.word (spells_space hfirst)).append hspells
      · have hcomma : diagnostics (comma :: (spaceLexemes (newline indent depth) ++ lexemes)) =
            diagnostics (spaceLexemes (newline indent depth) ++ lexemes) := rfl
        rw [diagnostics_append, hcomma, diagnostics_append, diagnostics_space, hfirstValid, hvalid]
        rfl

/-- The items of a collection, with commas between them. -/
theorem written_items (depth : Nat) {texts : List (List Char)} {groups : List (List Word)}
    (h : WrittenAll errorLength texts groups) : Written errorLength
      (collectionText indent depth 0 texts) (separate [comma] groups) := by
  intro rest hrest
  cases h with
  | nil => exact ⟨[], rfl, .nil, rfl⟩
  | @cons text words texts groups htext hmore =>
      obtain ⟨hwritten, hsolid⟩ := htext
      obtain ⟨others, hothers, hspells, hvalid⟩ :=
        written_more errorLength indent depth hmore 0 rest hrest
      obtain ⟨lexemes, htokens, hfirst, hfirstValid⟩ :=
        hwritten _ (ends_more indent depth 0 hrest)
      refine ⟨spaceLexemes (newline indent depth) ++ lexemes ++ others, ?_, ?_, ?_⟩
      · have hfirstText : collectionText indent depth 0 (text :: texts) ++ rest =
            newline indent depth ++ (text ++ (collectionText indent depth 1 texts ++ rest)) := by
          simp [collectionText, separator]
        rw [hfirstText, tokens_space errorLength (newline_space indent depth) (hsolid.append _),
          htokens, hothers]
        simp
      · exact (spells_space hfirst).append hspells
      · rw [diagnostics_append, diagnostics_append, diagnostics_space, hfirstValid, hvalid]
        rfl

/-- A bracket, as its own lexeme. -/
structure Bracket (c : Char) (lexeme : Lexeme Token) : Prop where
  scan : ∀ rest, scanNormal errorLength (c :: rest) = (lexeme.token, 0)
  text : lexeme.text = [c]
  mode : nextMode .normal lexeme.token = .normal
  valid : tokenDiagnostic lexeme.token = none
  solid : isWhitespace c = false
  ends : ∀ rest, Ends (c :: rest)

theorem Bracket.tokens {c : Char} {lexeme : Lexeme Token} (h : Bracket errorLength c lexeme)
    (rest : List Char) : (lexer errorLength).tokens .normal (c :: rest) =
      lexeme :: (lexer errorLength).tokens .normal rest := by
  rw [tokens_mark errorLength h.scan h.mode, ← h.text]

/-- A collection between its brackets. -/
theorem written_collection (depth : Nat) {opening closing : Char} {first last : Lexeme Token}
    (hopening : Bracket errorLength opening first) (hclosing : Bracket errorLength closing last)
    {texts : List (List Char)} {groups : List (List Word)}
    (h : WrittenAll errorLength texts groups) (length : Nat) :
    Written errorLength (opening :: collectionText indent (depth + 1) 0 texts ++
        closeCollection indent length depth closing)
      ([first] :: separate [comma] groups ++ [[last]]) := by
  intro rest _
  let space := if 0 < length then newline indent depth else []
  have hspace : ∀ c ∈ space, isWhitespace c = true := by
    change ∀ c ∈ (if 0 < length then newline indent depth else []), isWhitespace c = true
    split
    · exact newline_space indent depth
    · exact fun c hmem => absurd hmem List.not_mem_nil
  have hends : Ends (space ++ closing :: rest) := by
    cases hshape : space with
    | nil => exact hclosing.ends rest
    | cons c more =>
        intro d hd
        obtain rfl := Option.some.inj hd
        have hc := hspace c (hshape ▸ List.mem_cons_self)
        rcases isWhitespace_eq_true.mp hc with rfl | rfl | rfl | rfl <;> decide
  obtain ⟨lexemes, htokens, hspells, hvalid⟩ :=
    written_items errorLength indent (depth + 1) h _ hends
  refine ⟨first :: lexemes ++ (spaceLexemes space ++ [last]), ?_, ?_, ?_⟩
  · have htext : opening :: collectionText indent (depth + 1) 0 texts ++
        closeCollection indent length depth closing ++ rest =
        opening :: (collectionText indent (depth + 1) 0 texts ++ (space ++ closing :: rest)) := by
      simp [closeCollection, space]
    rw [htext, hopening.tokens, htokens,
      tokens_space errorLength hspace ⟨closing, rest, rfl, hclosing.solid⟩, hclosing.tokens]
    simp
  · exact (Spells.word hspells).append (spells_space (.single [last]))
  · have hfirst : diagnostics (first :: lexemes) = diagnostics lexemes := by
      simp [diagnostics, hopening.valid]
    rw [diagnostics_append, hfirst, diagnostics_append, diagnostics_space, hvalid]
    simp [diagnostics, hclosing.valid]

/-- A member: its key, a colon and its value. -/
theorem written_member (key : String) : ∃ pieces : List Piece,
    decodeString (Lexer.covered (stringWord pieces)) = .ok key ∧
      ∀ {text : List Char} {words : List Word}, Written errorLength text words →
        StartsSolid text → Written errorLength (memberText indent key text)
          (stringWord pieces :: [colon] :: words) := by
  obtain ⟨pieces, htokens, hvalid, hdecode⟩ := tokens_stringText errorLength key
  refine ⟨pieces, hdecode, fun {text words} htext hsolid rest hrest => ?_⟩
  obtain ⟨lexemes, hvalue, hspells, hvalueValid⟩ := htext rest hrest
  let space : List Char := if indent.isSome then [' '] else []
  have hspace : ∀ c ∈ space, isWhitespace c = true := by
    intro c hc
    change c ∈ (if indent.isSome then [' '] else []) at hc
    split at hc
    · obtain rfl := List.mem_singleton.mp hc
      rfl
    · cases hc
  refine ⟨stringWord pieces ++ (colon :: (spaceLexemes space ++ lexemes)), ?_, ?_, ?_⟩
  · have hmember : memberText indent key text ++ rest =
        stringText key ++ (':' :: (space ++ (text ++ rest))) := by
      simp [memberText, space]
    rw [hmember, htokens, tokens_mark errorLength (fun _ => rfl) rfl,
      tokens_space errorLength hspace (hsolid.append rest), hvalue]
    simp [colon]
  · exact .word (@Spells.word [colon] _ _ (spells_space hspells))
  · have hcolon : diagnostics (colon :: (spaceLexemes space ++ lexemes)) =
        diagnostics (spaceLexemes space ++ lexemes) := rfl
    rw [diagnostics_append, hvalid, hcolon, diagnostics_append, diagnostics_space, hvalueValid]
    rfl

end Renderings

end Telora.Json
