import Telora.Library.Lexing
import Mathlib.Data.Char
import Mathlib.Data.List.Find

/-!
# JSON tokens

The lexer of JSON text: structure, numbers and keywords in one mode, the inside of a
string in another, each taking the longest match of its patterns. What an error token
covers beyond its first character is left to the generated automaton, which is given
as a parameter.
-/

namespace Telora.Json

open Library

inductive Token where
  | eof | true | false | null | lBrace | rBrace | lBracket | rBracket | comma | colon
  | doubleQuote | stringText | escapeSequence | unknownEscapeSequence
  | malformedUnicodeEscape | unterminatedEscapeSequence | number | whitespace | error
  deriving DecidableEq, Repr

inductive Mode where
  | normal
  | string
  deriving DecidableEq, Repr

def isWhitespace (c : Char) : Bool := c = ' ' ∨ c = '\t' ∨ c = '\r' ∨ c = '\n'

/-- The text of a string, apart from its quotes and escapes. -/
def isStringText (c : Char) : Bool := c ≠ '"' ∧ c ≠ '\\' ∧ '\x1f' < c

def isHexDigit (c : Char) : Bool :=
  c.isDigit ∨ ('a' ≤ c ∧ c ≤ 'f') ∨ ('A' ≤ c ∧ c ≤ 'F')

def digitsLength (text : List Char) : Nat := (text.takeWhile Char.isDigit).length

/-- `0|[1-9][0-9]*`; no match has length zero, here and below. -/
def integerLength : List Char → Nat
  | [] => 0
  | c :: text => if c = '0' then 1 else if c.isDigit then 1 + digitsLength text else 0

/-- `(\.[0-9]+)?` -/
def fractionLength : List Char → Nat
  | [] => 0
  | c :: text => if c = '.' ∧ digitsLength text ≠ 0 then 1 + digitsLength text else 0

def signLength (signs : List Char) : List Char → Nat
  | [] => 0
  | c :: _ => if c ∈ signs then 1 else 0

/-- `([eE][+-]?[0-9]+)?` -/
def exponentLength : List Char → Nat
  | [] => 0
  | c :: text =>
      let sign := signLength ['+', '-'] text
      if (c = 'e' ∨ c = 'E') ∧ digitsLength (text.drop sign) ≠ 0 then
        1 + sign + digitsLength (text.drop sign)
      else 0

/-- `-?(0|[1-9][0-9]*)(\.[0-9]+)?([eE][+-]?[0-9]+)?` -/
def numberLength (text : List Char) : Nat :=
  let sign := signLength ['-'] text
  let integer := integerLength (text.drop sign)
  if integer = 0 then 0
  else
    let fraction := fractionLength (text.drop (sign + integer))
    sign + integer + fraction + exponentLength (text.drop (sign + integer + fraction))

def keywords : List (List Char × Token) :=
  [("true".toList, .true), ("false".toList, .false), ("null".toList, .null)]

def punctuation (c : Char) : Option Token :=
  if c = '{' then some .lBrace
  else if c = '}' then some .rBrace
  else if c = '[' then some .lBracket
  else if c = ']' then some .rBracket
  else if c = ',' then some .comma
  else if c = ':' then some .colon
  else if c = '"' then some .doubleQuote
  else none

variable (errorLength : Mode → List Char → Nat)

/-- The token outside strings at the start of a text. -/
def scanNormal (text : List Char) : Token × Nat :=
  match keywords.find? (·.1.isPrefixOf text) with
  | some keyword => (keyword.2, keyword.1.length - 1)
  | none =>
      match text.head?.bind punctuation with
      | some token => (token, 0)
      | none =>
          if numberLength text ≠ 0 then (.number, numberLength text - 1)
          else if (text.takeWhile isWhitespace).length ≠ 0 then
            (.whitespace, (text.takeWhile isWhitespace).length - 1)
          else (.error, errorLength .normal text)

/-- The escape after a backslash. -/
def scanEscape : List Char → Token × Nat
  | [] => (.unterminatedEscapeSequence, 0)
  | c :: text =>
      if c = 'u' then
        if ((text.take 4).takeWhile isHexDigit).length = 4 then (.escapeSequence, 5)
        else (.malformedUnicodeEscape, 1 + ((text.take 4).takeWhile isStringText).length)
      else if c ∈ ['"', '\\', '/', 'b', 'f', 'n', 'r', 't'] then (.escapeSequence, 1)
      else if c ≠ '\n' then (.unknownEscapeSequence, 1)
      else (.unterminatedEscapeSequence, 0)

/-- The token inside a string at the start of a text. -/
def scanString : List Char → Token × Nat
  | [] => (.error, 0)
  | c :: text =>
      if c = '"' then (.doubleQuote, 0)
      else if c = '\\' then scanEscape text
      else if isStringText c then (.stringText, (text.takeWhile isStringText).length)
      else (.error, errorLength .string (c :: text))

/-- A quote starts and ends a string. -/
def nextMode (mode : Mode) (token : Token) : Mode :=
  match mode, token with
  | .normal, .doubleQuote => .string
  | .string, .doubleQuote => .normal
  | mode, _ => mode

def lexer : Lexer Mode Token where
  scan
    | .normal, text => scanNormal errorLength text
    | .string, text => scanString errorLength text
  next := nextMode

def tokenize (text : List Char) : List (Lexeme Token) := (lexer errorLength).tokens .normal text

/-- The diagnostic of a token. -/
def tokenDiagnostic : Token → Option String
  | .unknownEscapeSequence => some "unknown JSON escape"
  | .malformedUnicodeEscape => some "malformed JSON Unicode escape"
  | .unterminatedEscapeSequence => some "unterminated JSON escape"
  | .error => some "invalid token"
  | _ => none

def diagnostics (lexemes : List (Lexeme Token)) : List String :=
  lexemes.filterMap (tokenDiagnostic ·.token)

/-- The loop over the tokens from `index` on: whether it is inside a string, and the
tokens that are stable so far. -/
def stableFrom (count : Nat) : Nat → Bool → Nat → List Token → Nat
  | _, _, stable, [] => stable
  | index, string, stable, token :: rest =>
      let string := if token = .doubleQuote then !string else string
      let stable := if !string && index + 9 ≤ count then index + 1 else stable
      stableFrom count (index + 1) string stable rest

/-- The tokens up to the last one outside a string with eight tokens behind it. -/
def stableNormalPrefix (tokens : List Token) : Nat :=
  stableFrom tokens.length 0 false 0 tokens

def tokenizeFragments (fragments : List (List Char)) : List (Lexeme Token) :=
  (lexer errorLength).fragmentTokens .normal stableNormalPrefix [] fragments

section Lookahead

theorem takeWhile_of_behind {p : Char → Bool} {text : List Char} (more : List Char)
    (h : (text.takeWhile p).length < text.length) :
    (text ++ more).takeWhile p = text.takeWhile p := by
  rw [List.takeWhile_append, if_neg (Nat.ne_of_lt h)]

theorem digitsLength_append {text : List Char} (more : List Char)
    (h : digitsLength text < text.length) : digitsLength (text ++ more) = digitsLength text :=
  congrArg List.length (takeWhile_of_behind more h)

theorem signLength_append {signs text : List Char} (more : List Char) (h : 0 < text.length) :
    signLength signs (text ++ more) = signLength signs text := by
  cases text with
  | nil => cases h
  | cons c text => rfl

theorem signLength_le (signs text : List Char) : signLength signs text ≤ 1 := by
  cases text with
  | nil => exact Nat.zero_le _
  | cons c text =>
      simp only [signLength]
      split <;> omega

theorem integerLength_append {text : List Char} (more : List Char)
    (h : integerLength text < text.length) : integerLength (text ++ more) = integerLength text := by
  cases text with
  | nil => cases h
  | cons c text =>
      simp only [List.cons_append, integerLength] at h ⊢
      split
      · rfl
      · split
        · next hzero hdigit =>
            rw [if_neg hzero, if_pos hdigit, List.length_cons] at h
            rw [digitsLength_append more (by omega)]
        · rfl

theorem fractionLength_append {text : List Char} (more : List Char)
    (h : fractionLength text + 2 ≤ text.length) :
    fractionLength (text ++ more) = fractionLength text := by
  cases text with
  | nil => simp at h
  | cons c text =>
      simp only [List.cons_append, fractionLength, List.length_cons] at h ⊢
      have hdigits : c = '.' → digitsLength (text ++ more) = digitsLength text := by
        intro hpoint
        refine digitsLength_append more ?_
        by_cases hnone : digitsLength text = 0
        · omega
        · rw [if_pos ⟨hpoint, hnone⟩] at h
          omega
      by_cases hpoint : c = '.'
      · rw [hdigits hpoint]
      · simp [hpoint]

theorem exponentLength_append {text : List Char} (more : List Char)
    (h : exponentLength text + 3 ≤ text.length) :
    exponentLength (text ++ more) = exponentLength text := by
  cases text with
  | nil => simp at h
  | cons c text =>
      simp only [List.cons_append, exponentLength, List.length_cons] at h ⊢
      have hsign := signLength_le ['+', '-'] text
      by_cases hmark : c = 'e' ∨ c = 'E'
      · have hdigits : digitsLength (text.drop (signLength ['+', '-'] text)) <
            (text.drop (signLength ['+', '-'] text)).length := by
          rw [List.length_drop]
          by_cases hnone : digitsLength (text.drop (signLength ['+', '-'] text)) = 0
          · omega
          · rw [if_pos ⟨hmark, hnone⟩] at h
            omega
        rw [signLength_append more (by omega), List.drop_append_of_le_length (by omega),
          digitsLength_append more hdigits]
      · simp [hmark]

theorem numberLength_append {text : List Char} (more : List Char)
    (h : numberLength text + 3 ≤ text.length) :
    numberLength (text ++ more) = numberLength text := by
  have hsign := signLength_le ['-'] text
  simp only [numberLength] at h ⊢
  rw [signLength_append more (by omega), List.drop_append_of_le_length (by omega)]
  by_cases hnone : integerLength (text.drop (signLength ['-'] text)) = 0
  · rw [integerLength_append more (by rw [hnone, List.length_drop]; omega), if_pos hnone,
      if_pos hnone]
  · rw [if_neg hnone] at h
    rw [integerLength_append more (by rw [List.length_drop]; omega), if_neg hnone, if_neg hnone,
      List.drop_append_of_le_length (by omega),
      fractionLength_append more (by rw [List.length_drop]; omega),
      List.drop_append_of_le_length (by omega),
      exponentLength_append more (by rw [List.length_drop]; omega)]

theorem isPrefixOf_append {word text : List Char} (more : List Char)
    (h : word.length ≤ text.length) :
    word.isPrefixOf (text ++ more) = word.isPrefixOf text := by
  rw [Bool.eq_iff_iff, List.isPrefixOf_iff_prefix, List.isPrefixOf_iff_prefix]
  exact ⟨fun hprefix => List.prefix_of_prefix_length_le hprefix (List.prefix_append _ _) h,
    fun hprefix => hprefix.trans (List.prefix_append _ _)⟩

theorem keyword_append {text : List Char} (more : List Char) (h : 5 ≤ text.length) :
    keywords.find? (·.1.isPrefixOf (text ++ more)) = keywords.find? (·.1.isPrefixOf text) := by
  have hwords : ∀ keyword ∈ keywords, keyword.1.length ≤ 5 := by decide
  exact List.find?_congr fun keyword hmem =>
    isPrefixOf_append more (Nat.le_trans (hwords keyword hmem) h)

/-- Outside strings; what an error token covers has to be the same. -/
theorem scanNormal_append {text more : List Char}
    (herror : (scanNormal errorLength (text ++ more)).1 = .error →
      errorLength .normal text + 1 + 8 ≤ text.length →
        errorLength .normal (text ++ more) = errorLength .normal text)
    (h : (scanNormal errorLength text).2 + 1 + 8 ≤ text.length) :
    scanNormal errorLength text = scanNormal errorLength (text ++ more) := by
  have hhead : (text ++ more).head? = text.head? := by
    cases text with
    | nil => simp at h
    | cons c text => rfl
  rw [scanNormal, keyword_append more (show 5 ≤ text.length by omega), hhead] at herror
  rw [scanNormal] at h
  rw [scanNormal, scanNormal, keyword_append more (show 5 ≤ text.length by omega), hhead]
  split
  · rfl
  · next hkeyword =>
      simp only [hkeyword] at herror h
      split
      · rfl
      · next hpunctuation =>
          simp only [hpunctuation] at herror h
          have hnumber : numberLength (text ++ more) = numberLength text := by
            refine numberLength_append more ?_
            by_cases hnone : numberLength text = 0
            · omega
            · rw [if_pos hnone] at h
              omega
          rw [hnumber] at herror ⊢
          by_cases hnone : numberLength text = 0
          · have hspace : (text ++ more).takeWhile isWhitespace = text.takeWhile isWhitespace := by
              refine takeWhile_of_behind more ?_
              by_cases hempty : (text.takeWhile isWhitespace).length = 0
              · omega
              · rw [if_neg (not_not.mpr hnone), if_pos hempty] at h
                omega
            rw [hspace, if_neg (not_not.mpr hnone)] at herror
            rw [if_neg (not_not.mpr hnone)] at h
            rw [hspace, if_neg (not_not.mpr hnone), if_neg (not_not.mpr hnone)]
            split
            · rfl
            · next hempty =>
                rw [if_neg hempty] at herror h
                rw [herror rfl h]
          · rw [if_pos hnone, if_pos hnone]

theorem scanEscape_append {text : List Char} (more : List Char) (h : 5 ≤ text.length) :
    scanEscape (text ++ more) = scanEscape text := by
  cases text with
  | nil => simp at h
  | cons c text =>
      rw [List.cons_append, scanEscape, scanEscape,
        List.take_append_of_le_length (by rw [List.length_cons] at h; omega)]

/-- Inside a string. -/
theorem scanString_append {text more : List Char}
    (herror : (scanString errorLength (text ++ more)).1 = .error →
      errorLength .string text + 1 + 8 ≤ text.length →
        errorLength .string (text ++ more) = errorLength .string text)
    (h : (scanString errorLength text).2 + 1 + 8 ≤ text.length) :
    scanString errorLength text = scanString errorLength (text ++ more) := by
  cases text with
  | nil => simp at h
  | cons c text =>
      rw [List.length_cons] at h herror
      simp only [List.cons_append, scanString] at herror h ⊢
      split
      · rfl
      · next hquote =>
          rw [if_neg hquote] at herror h
          split
          · exact (scanEscape_append more (by omega)).symm
          · next hescape =>
              rw [if_neg hescape] at herror h
              split
              · next htext =>
                  rw [if_pos htext] at h
                  rw [takeWhile_of_behind more (by omega)]
              · next htext =>
                  rw [if_neg htext] at herror h
                  rw [herror rfl h]

/-- Eight tokens behind a token are more text than any pattern looks at. -/
theorem stableScan : (lexer errorLength).StableScan (· ≠ .error) 8 := by
  intro mode text more hgood h
  cases mode with
  | normal => exact scanNormal_append errorLength (fun herror => absurd herror hgood) h
  | string => exact scanString_append errorLength (fun herror => absurd herror hgood) h

/-- Eight characters behind an error token settle what it covers. -/
def ErrorsSettled : Prop :=
  ∀ mode text more, errorLength mode text + 1 + 8 ≤ text.length →
    errorLength mode (text ++ more) = errorLength mode text

/-- Then they settle every token. -/
theorem stableScan_all (h : ErrorsSettled errorLength) :
    (lexer errorLength).StableScan (fun _ => True) 8 := by
  intro mode text more _ hbehind
  cases mode with
  | normal => exact scanNormal_append errorLength (fun _ => h .normal text more) hbehind
  | string => exact scanString_append errorLength (fun _ => h .string text more) hbehind

end Lookahead

section Stable

theorem stableFrom_le (count : Nat) (tokens : List Token) :
    ∀ index string stable, (stable = 0 ∨ stable + 8 ≤ count) →
      stableFrom count index string stable tokens = 0 ∨
        stableFrom count index string stable tokens + 8 ≤ count := by
  induction tokens with
  | nil => exact fun index string stable h => h
  | cons token rest ih =>
      intro index string stable h
      refine ih _ _ _ ?_
      generalize (if token = .doubleQuote then !string else string) = string
      by_cases hcommit : (!string && decide (index + 9 ≤ count)) = true
      · rw [if_pos hcommit]
        have := of_decide_eq_true (Bool.and_eq_true_iff.mp hcommit).2
        omega
      · rw [if_neg hcommit]
        exact h

/-- The mode that the loop's flag stands for. -/
def flagMode (string : Bool) : Mode := if string then .string else .normal

/-- The stable tokens end outside strings, as long as the flag follows the mode. -/
theorem modeAfter_stableFrom (count : Nat) (all : List (Lexeme Token))
    (lexemes : List (Lexeme Token)) :
    ∀ (before : List (Lexeme Token)) string stable, all = before ++ lexemes →
      (lexer errorLength).modeAfter .normal before = flagMode string →
      (lexer errorLength).modeAfter .normal (all.take stable) = .normal →
      (lexer errorLength).modeAfter .normal (all.take
        (stableFrom count before.length string stable (lexemes.map (·.token)))) = .normal := by
  induction lexemes with
  | nil => exact fun before string stable _ _ h => h
  | cons lexeme rest ih =>
      intro before string stable hall hflag hstable
      have hnext : (lexer errorLength).modeAfter .normal (before ++ [lexeme]) =
          flagMode (if lexeme.token = .doubleQuote then !string else string) := by
        rw [Lexer.modeAfter, List.foldl_append]
        change nextMode ((lexer errorLength).modeAfter .normal before) lexeme.token = _
        rw [hflag]
        cases string <;> cases lexeme.token <;> rfl
      have hlength : (before ++ [lexeme]).length = before.length + 1 := by simp
      rw [List.map_cons, stableFrom]
      generalize (if lexeme.token = .doubleQuote then !string else string) = string at hnext ⊢
      rw [← hlength]
      refine ih _ _ _ (by rw [hall]; simp) hnext ?_
      by_cases hcommit : (!string && decide (before.length + 9 ≤ count)) = true
      · have houtside : string = false := by
          simpa using (Bool.and_eq_true_iff.mp hcommit).1
        have hsplit : before ++ lexeme :: rest = (before ++ [lexeme]) ++ rest := by simp
        rw [if_pos hcommit, hall, hsplit, List.take_left, hnext, houtside]
        rfl
      · rw [if_neg hcommit]
        exact hstable

theorem stableNormalPrefix_le (lexemes : List (Lexeme Token)) :
    stableNormalPrefix (lexemes.map (·.token)) = 0 ∨
      stableNormalPrefix (lexemes.map (·.token)) + 8 ≤ lexemes.length := by
  have h := stableFrom_le (lexemes.map (·.token)).length (lexemes.map (·.token)) 0 false 0 (.inl rfl)
  rw [List.length_map] at h
  rwa [stableNormalPrefix, List.length_map]

theorem modeAfter_stableNormalPrefix (lexemes : List (Lexeme Token)) :
    (lexer errorLength).modeAfter .normal
      (lexemes.take (stableNormalPrefix (lexemes.map (·.token)))) = .normal :=
  modeAfter_stableFrom errorLength _ lexemes lexemes [] false 0 rfl rfl rfl

/-- A text without error tokens has the same tokens in any fragments. -/
theorem tokenizeFragments_eq (fragments : List (List Char))
    (hgood : ∀ lexeme ∈ tokenize errorLength fragments.flatten, lexeme.token ≠ .error) :
    tokenizeFragments errorLength fragments = tokenize errorLength fragments.flatten :=
  (stableScan errorLength).fragmentTokens (by decide) stableNormalPrefix_le
    (modeAfter_stableNormalPrefix errorLength) fragments [] hgood

/-- Any text has, when error tokens are settled by what is behind them. -/
theorem tokenizeFragments_settled (h : ErrorsSettled errorLength) (fragments : List (List Char)) :
    tokenizeFragments errorLength fragments = tokenize errorLength fragments.flatten :=
  (stableScan_all errorLength h).fragmentTokens (by decide) stableNormalPrefix_le
    (modeAfter_stableNormalPrefix errorLength) fragments [] fun _ _ => trivial

end Stable

end Telora.Json
