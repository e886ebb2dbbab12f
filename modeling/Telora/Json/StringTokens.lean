import Telora.Json.StringDecoder
import Telora.Json.Text
import Telora.Library.Utf16

/-!
# String tokens and their contents

The parts of a string literal are characters that stand for themselves, escapes of one letter
and UTF-16 units; the content of the literal is the text with these units. Literals of the lexer
have such parts only. Decoding gives the content when the units are those of a text, and is
refused when a surrogate stands alone or out of order.
-/

namespace Telora.Json

open Library

/-- One part of a string literal. -/
inductive Form where
  | raw (c : Char)
  | short (letter c : Char)
  | unit (digits : List Char)

namespace Form

def Legal : Form → Prop
  | raw c => isStringText c = true
  | short letter c => simpleEscape letter = some c
  | unit digits => digits.length = 4 ∧ ∀ d ∈ digits, isHexDigit d = true

def text : Form → List Char
  | raw c => [c]
  | short letter _ => ['\\', letter]
  | unit digits => '\\' :: 'u' :: digits

/-- The UTF-16 units that a part stands for. -/
def units : Form → List Nat
  | raw c | short _ c => Utf16.encodeChar c
  | unit digits => [numeral 16 digits]

end Form

/-- The literal with some parts. -/
def literalText (forms : List Form) : List Char := '"' :: (forms.flatMap Form.text ++ ['"'])

/-- Ways to write a character in a literal. -/
inductive Spelling (c : Char) : List Char → Prop
  | raw (h : isStringText c = true) : Spelling c [c]
  | short {letter : Char} (h : simpleEscape letter = some c) : Spelling c ['\\', letter]
  | unicode {digits : List Char} (hlength : digits.length = 4)
      (hdigits : ∀ d ∈ digits, isHexDigit d = true)
      (hvalue : Utf16.encodeChar c = [numeral 16 digits]) : Spelling c ('\\' :: 'u' :: digits)
  | pair {high low : List Char} (hhigh : high.length = 4 ∧ ∀ d ∈ high, isHexDigit d = true)
      (hlow : low.length = 4 ∧ ∀ d ∈ low, isHexDigit d = true)
      (hvalue : Utf16.encodeChar c = [numeral 16 high, numeral 16 low]) :
      Spelling c ('\\' :: 'u' :: high ++ '\\' :: 'u' :: low)

section Units

theorem digitValue_of_isHexDigit {c : Char} (h : isHexDigit c = true) :
    hexDigitValue c = digitValue c ∧ digitValue c < 16 := by
  have hcases : c.isDigit = true ∨ ('a' ≤ c ∧ c ≤ 'f') ∨ ('A' ≤ c ∧ c ≤ 'F') := of_decide_eq_true h
  rw [hexDigitValue, digitValue]
  by_cases hdigit : c.isDigit = true
  · have := (isDigit_iff c).mp hdigit
    rw [if_pos hdigit, if_pos hdigit]
    change _ ∧ c.toNat - 48 < 16
    exact ⟨rfl, by omega⟩
  · rw [if_neg hdigit, if_neg hdigit]
    rcases hcases.resolve_left hdigit with hlower | hupper
    · have hlow := (charLe_iff 'a' c).mp hlower.1
      have hhigh := (charLe_iff c 'f').mp hlower.2
      rw [if_pos hlower.1, if_pos hlower]
      change 97 ≤ c.toNat at hlow
      change c.toNat ≤ 102 at hhigh
      change _ ∧ c.toNat - 97 + 10 < 16
      exact ⟨rfl, by omega⟩
    · have hlow := (charLe_iff 'A' c).mp hupper.1
      have hhigh := (charLe_iff c 'F').mp hupper.2
      change 65 ≤ c.toNat at hlow
      change c.toNat ≤ 70 at hhigh
      have hnot : ¬ 'a' ≤ c := by
        intro hle
        have hle' := (charLe_iff 'a' c).mp hle
        change 97 ≤ c.toNat at hle'
        omega
      rw [if_neg hnot, if_neg (fun h => hnot h.1), if_pos hupper]
      change _ ∧ c.toNat - 65 + 10 < 16
      exact ⟨rfl, by omega⟩

theorem hexDigits_append {digits : List Char} (h : ∀ d ∈ digits, isHexDigit d = true)
    (rest : List Char) (value : Nat) : hexDigits digits.length value (digits ++ rest) =
      .ok (digits.foldl (fun value c => value * 16 + digitValue c) value, rest) := by
  induction digits generalizing value with
  | nil => rfl
  | cons c digits ih =>
      obtain ⟨hc, hdigits⟩ := List.forall_mem_cons.mp h
      rw [List.cons_append, List.length_cons, hexDigits, if_pos hc, ih hdigits,
        (digitValue_of_isHexDigit hc).1]
      rfl

theorem hexQuad_append {digits : List Char} (h : Form.Legal (.unit digits)) (rest : List Char) :
    hexQuad (digits ++ rest) = .ok (numeral 16 digits, rest) := by
  have hdigits := hexDigits_append h.2 rest 0
  rwa [h.1] at hdigits

theorem Form.Legal.unit_lt {digits : List Char} (h : Form.Legal (.unit digits)) :
    numeral 16 digits < 0x10000 := by
  have hlt := numeral_lt_pow fun d hd => (digitValue_of_isHexDigit (h.2 d hd)).2
  rwa [h.1] at hlt

theorem Form.Legal.units_lt {form : Form} (h : form.Legal) :
    ∀ unit ∈ form.units, unit < 0x10000 := by
  cases form with
  | raw c => exact Utf16.encodeChar_lt c
  | short letter c => exact Utf16.encodeChar_lt c
  | unit digits =>
      intro unit hmem
      obtain rfl := List.mem_singleton.mp hmem
      exact h.unit_lt

end Units

section Decoding

/-- What is left of a literal ends with its quote. -/
def behind (forms : List Form) : List Char := forms.flatMap Form.text ++ ['"']

theorem behind_cons (form : Form) (forms : List Form) :
    behind (form :: forms) = form.text ++ behind forms := by
  rw [behind, List.flatMap_cons, List.append_assoc]
  rfl

theorem toOption_cons (c : Char) (result : Except String (List Char)) :
    ((c :: ·) <$> result).toOption = result.toOption.map (c :: ·) := by
  cases result <;> rfl

theorem decodeWith_raw {c : Char} (h : isStringText c = true) (fuel : Nat) (forms : List Form) :
    decodeWith (fuel + 1) (c :: behind forms) = (c :: ·) <$> decodeWith fuel (behind forms) := by
  obtain ⟨-, hescape, -⟩ := isStringText_eq_true.mp h
  obtain ⟨d, rest, hrest⟩ : ∃ d rest, behind forms = d :: rest := by
    cases hforms : behind forms with
    | nil => exact absurd hforms (by simp [behind])
    | cons d rest => exact ⟨d, rest, rfl⟩
  rw [hrest, decodeWith, if_neg (byteLength_cons_cons _ _ _)]
  exact if_pos hescape

theorem decodeWith_short {letter c : Char} (h : simpleEscape letter = some c) (fuel : Nat)
    (rest : List Char) :
    decodeWith (fuel + 1) ('\\' :: letter :: rest) = (c :: ·) <$> decodeWith fuel rest := by
  have hletter : letter ≠ 'u' := by
    rintro rfl
    cases h
  rw [decodeWith, if_neg (byteLength_cons_cons _ _ _)]
  simp [hletter, h]

theorem decodeWith_unit (fuel : Nat) (rest : List Char) :
    decodeWith (fuel + 1) ('\\' :: 'u' :: rest) =
      unicodeEscape rest >>= fun read => (read.1 :: ·) <$> decodeWith fuel read.2 := by
  rw [decodeWith, if_neg (byteLength_cons_cons _ _ _)]
  simp only [ne_eq, not_true_eq_false, if_false, if_true]

theorem ok_bind {α β : Type} (a : α) (next : α → Except String β) :
    ((.ok a : Except String α) >>= next) = next a := rfl

theorem throw_bind {α β : Type} (message : String) (next : α → Except String β) :
    ((throw message : Except String α) >>= next) = .error message := rfl

variable {digits : List Char} (hdigits : Form.Legal (.unit digits)) (rest : List Char)
include hdigits

theorem unicodeEscape_scalar (hhigh : Utf16.isHigh (numeral 16 digits) = false)
    (hlow : Utf16.isLow (numeral 16 digits) = false) :
    unicodeEscape (digits ++ rest) = .ok (Char.ofNat (numeral 16 digits), rest) := by
  have hvalid := Utf16.isValidChar_unit hdigits.unit_lt hhigh hlow
  rw [← Bool.not_eq_true, Utf16.isHigh_iff] at hhigh
  rw [← Bool.not_eq_true, Utf16.isLow_iff] at hlow
  rw [unicodeEscape, hexQuad_append hdigits, ok_bind]
  simp only [if_neg hhigh, if_neg hlow, pure_bind]
  rw [if_pos hvalid]
  rfl

theorem unicodeEscape_low (hlow : Utf16.isLow (numeral 16 digits) = true) :
    ∃ message, unicodeEscape (digits ++ rest) = .error message := by
  rw [Utf16.isLow_iff] at hlow
  have hhigh : ¬(0xd800 ≤ numeral 16 digits ∧ numeral 16 digits ≤ 0xdbff) := by omega
  rw [unicodeEscape, hexQuad_append hdigits, ok_bind]
  simp only [if_neg hhigh, if_pos hlow, throw_bind]
  exact ⟨_, rfl⟩

theorem unicodeEscape_alone (hhigh : Utf16.isHigh (numeral 16 digits) = true)
    (hrest : "\\u".toList.isPrefixOf rest = false) :
    ∃ message, unicodeEscape (digits ++ rest) = .error message := by
  rw [Utf16.isHigh_iff] at hhigh
  rw [unicodeEscape, hexQuad_append hdigits, ok_bind]
  simp only [if_pos hhigh, hrest, Bool.false_eq_true, if_false, throw_bind]
  exact ⟨_, rfl⟩

variable {second : List Char} (hsecond : Form.Legal (.unit second))
include hsecond

theorem unicodeEscape_pair (hhigh : Utf16.isHigh (numeral 16 digits) = true)
    (hlow : Utf16.isLow (numeral 16 second) = true) :
    unicodeEscape (digits ++ '\\' :: 'u' :: (second ++ rest)) =
      .ok (Char.ofNat (Utf16.combine (numeral 16 digits) (numeral 16 second)), rest) := by
  have hvalid := Utf16.combine_isValidChar hhigh hlow
  rw [Utf16.isHigh_iff] at hhigh
  rw [Utf16.isLow_iff] at hlow
  have hescape : "\\u".toList.isPrefixOf ('\\' :: 'u' :: (second ++ rest)) = true := rfl
  have hdrop : ('\\' :: 'u' :: (second ++ rest)).drop 2 = second ++ rest := rfl
  have hcombine : 0x10000 + (numeral 16 digits - 0xd800) * 2 ^ 10 +
      (numeral 16 second - 0xdc00) = Utf16.combine (numeral 16 digits) (numeral 16 second) := by
    unfold Utf16.combine
    omega
  rw [unicodeEscape, hexQuad_append hdigits, ok_bind]
  simp only [if_pos hhigh, hescape, if_true, hdrop, hexQuad_append hsecond, ok_bind,
    if_pos hlow, pure_bind, hcombine]
  rw [if_pos hvalid]
  rfl

theorem unicodeEscape_two_high (hhigh : Utf16.isHigh (numeral 16 digits) = true)
    (hlow : Utf16.isLow (numeral 16 second) = false) :
    ∃ message, unicodeEscape (digits ++ '\\' :: 'u' :: (second ++ rest)) = .error message := by
  rw [Utf16.isHigh_iff] at hhigh
  rw [← Bool.not_eq_true, Utf16.isLow_iff] at hlow
  have hescape : "\\u".toList.isPrefixOf ('\\' :: 'u' :: (second ++ rest)) = true := rfl
  have hdrop : ('\\' :: 'u' :: (second ++ rest)).drop 2 = second ++ rest := rfl
  rw [unicodeEscape, hexQuad_append hdigits, ok_bind]
  simp only [if_pos hhigh, hescape, if_true, hdrop, hexQuad_append hsecond, ok_bind,
    if_neg hlow, throw_bind]
  exact ⟨_, rfl⟩

end Decoding

section Contents

/-- What follows a surrogate that another part than a unit follows. -/
theorem behind_no_escape {form : Form} (h : form.Legal) (hform : ∀ digits, form ≠ .unit digits)
    (forms : List Form) : "\\u".toList.isPrefixOf (behind (form :: forms)) = false := by
  rw [behind_cons, ← Bool.not_eq_true, List.isPrefixOf_iff_prefix]
  rintro ⟨rest, hrest⟩
  cases form with
  | raw c =>
      obtain ⟨-, hescape, -⟩ := isStringText_eq_true.mp h
      exact hescape (List.cons.inj hrest).1.symm
  | short letter c =>
      obtain rfl : 'u' = letter := (List.cons.inj (List.cons.inj hrest).2).1
      cases h
  | unit digits => exact hform digits rfl

/-- The first unit of a part that is no unit itself is no low surrogate. -/
theorem head_units {form : Form} (hform : ∀ digits, form ≠ .unit digits) (units : List Nat) :
    ∀ unit ∈ (form.units ++ units).head?, Utf16.isLow unit = false := by
  intro unit hunit
  cases form with
  | raw c =>
      obtain ⟨first, rest, hunits, hlow⟩ := Utf16.head_encodeChar c
      rw [Form.units, hunits] at hunit
      obtain rfl := Option.some.inj hunit
      exact hlow
  | short letter c =>
      obtain ⟨first, rest, hunits, hlow⟩ := Utf16.head_encodeChar c
      rw [Form.units, hunits] at hunit
      obtain rfl := Option.some.inj hunit
      exact hlow
  | unit digits => exact absurd rfl (hform digits)

/-- Decoding reads the units of the parts. -/
theorem decodeWith_behind : ∀ (forms : List Form), (∀ form ∈ forms, form.Legal) →
    ∀ fuel, forms.length < fuel →
      (decodeWith fuel (behind forms)).toOption = Utf16.decode (forms.flatMap Form.units)
  | [], _, fuel + 1, _ => rfl
  | .raw c :: forms, hlegal, fuel + 1, hfuel => by
      obtain ⟨hform, hforms⟩ := List.forall_mem_cons.mp hlegal
      rw [List.flatMap_cons, behind_cons]
      change (decodeWith (fuel + 1) (c :: behind forms)).toOption = _
      rw [decodeWith_raw hform, toOption_cons,
        decodeWith_behind forms hforms fuel (Nat.lt_of_succ_lt_succ hfuel)]
      exact (Utf16.decode_encodeChar c _).symm
  | .short letter c :: forms, hlegal, fuel + 1, hfuel => by
      obtain ⟨hform, hforms⟩ := List.forall_mem_cons.mp hlegal
      rw [List.flatMap_cons, behind_cons]
      change (decodeWith (fuel + 1) ('\\' :: letter :: behind forms)).toOption = _
      rw [decodeWith_short hform, toOption_cons,
        decodeWith_behind forms hforms fuel (Nat.lt_of_succ_lt_succ hfuel)]
      exact (Utf16.decode_encodeChar c _).symm
  | .unit digits :: forms, hlegal, fuel + 1, hfuel => by
      obtain ⟨hform, hforms⟩ := List.forall_mem_cons.mp hlegal
      have hfuel := Nat.lt_of_succ_lt_succ hfuel
      rw [List.flatMap_cons, behind_cons]
      change (decodeWith (fuel + 1) ('\\' :: 'u' :: (digits ++ behind forms))).toOption =
        Utf16.decode (numeral 16 digits :: forms.flatMap Form.units)
      rw [decodeWith_unit]
      cases hhigh : Utf16.isHigh (numeral 16 digits) with
      | false =>
          cases hlow : Utf16.isLow (numeral 16 digits) with
          | false =>
              rw [unicodeEscape_scalar hform _ hhigh hlow, ok_bind, toOption_cons,
                decodeWith_behind forms hforms fuel hfuel,
                Utf16.decode_cons_of_not_surrogate hhigh hlow]
          | true =>
              obtain ⟨message, hmessage⟩ := unicodeEscape_low hform (behind forms) hlow
              rw [hmessage, Utf16.decode_cons_of_low hlow]
              rfl
      | true =>
          cases forms with
          | nil =>
              obtain ⟨message, hmessage⟩ := unicodeEscape_alone hform ['"'] hhigh rfl
              change (unicodeEscape (digits ++ ['"']) >>= _).toOption = _
              rw [hmessage, Utf16.decode_cons_of_high hhigh fun _ hnone => by cases hnone]
              rfl
          | cons next forms =>
              by_cases hnext : ∀ second, next ≠ .unit second
              · -- a part that is no unit starts neither with an escape nor with a surrogate
                have hlegal := List.forall_mem_cons.mp hforms
                obtain ⟨message, hmessage⟩ := unicodeEscape_alone hform _ hhigh
                  (behind_no_escape hlegal.1 hnext forms)
                rw [hmessage, List.flatMap_cons,
                  Utf16.decode_cons_of_high hhigh (head_units hnext _)]
                rfl
              · obtain ⟨second, hsecond⟩ := not_forall_not.mp hnext
                obtain ⟨hlegal, hforms⟩ := List.forall_mem_cons.mp (hsecond ▸ hforms)
                rw [hsecond, List.flatMap_cons, behind_cons]
                change (unicodeEscape (digits ++ '\\' :: 'u' :: (second ++ behind forms)) >>=
                  _).toOption = Utf16.decode
                    (numeral 16 digits :: numeral 16 second :: forms.flatMap Form.units)
                cases hlow : Utf16.isLow (numeral 16 second) with
                | false =>
                    obtain ⟨message, hmessage⟩ :=
                      unicodeEscape_two_high hform (behind forms) hlegal hhigh hlow
                    rw [hmessage, Utf16.decode_cons_of_high hhigh fun unit hunit => by
                      obtain rfl := Option.some.inj hunit
                      exact hlow]
                    rfl
                | true =>
                    rw [unicodeEscape_pair hform _ hlegal hhigh hlow, ok_bind, toOption_cons,
                      decodeWith_behind forms hforms fuel (Nat.lt_of_succ_lt hfuel),
                      Utf16.decode_pair hhigh hlow]
termination_by forms => forms.length

end Contents

section Tokens
variable (errorLength : Mode → List Char → Nat)

/-- Outside strings no part of a string is read. -/
theorem scanNormal_token (text : List Char) : (scanNormal errorLength text).1 ∉
    [Token.stringText, .escapeSequence] := by
  have hkeywords : ∀ keyword ∈ keywords, keyword.2 ∉ [Token.stringText, .escapeSequence] := by
    decide
  have hpunctuation : ∀ c token, punctuation c = some token →
      token ∉ [Token.stringText, .escapeSequence] := by
    intro c token h
    rw [punctuation] at h
    iterate 7
      split at h
      · cases h
        decide
    cases h
  rw [scanNormal]
  split
  · next keyword hfind => exact hkeywords keyword (List.mem_of_find?_eq_some hfind)
  · split
    · next token hhead =>
        obtain ⟨c, -, hc⟩ := Option.bind_eq_some_iff.mp hhead
        exact hpunctuation c token hc
    · split
      · simp only
        decide
      · split
        · simp only
          decide
        · simp only
          decide

/-- An escape that is accepted is one letter or a unit. -/
theorem scanEscape_legal {text : List Char} {length : Nat}
    (h : scanEscape text = (.escapeSequence, length)) :
    ∃ form : Form, form.Legal ∧ '\\' :: text.take length = form.text := by
  cases text with
  | nil => cases h
  | cons c text =>
      rw [scanEscape] at h
      by_cases hunicode : c = 'u'
      · rw [if_pos hunicode] at h
        split at h
        · next hdigits =>
            obtain rfl : 5 = length := congrArg Prod.snd h
            have hfull : (text.take 4).takeWhile isHexDigit = text.take 4 := by
              refine (List.takeWhile_prefix _).eq_of_length_le ?_
              rw [hdigits]
              exact List.length_take_le 4 text
            refine ⟨.unit (text.take 4), ⟨hfull ▸ hdigits, fun d hd => ?_⟩, ?_⟩
            · rw [← hfull] at hd
              exact List.mem_takeWhile_imp hd
            · rw [hunicode]
              rfl
        · cases h
      · rw [if_neg hunicode] at h
        split at h
        · next hletter =>
            obtain rfl : 1 = length := congrArg Prod.snd h
            have hsimple : ∀ letter ∈ ['"', '\\', '/', 'b', 'f', 'n', 'r', 't'],
                (simpleEscape letter).isSome = true := List.all_eq_true.mp rfl
            obtain ⟨d, hd⟩ := Option.isSome_iff_exists.mp (hsimple c hletter)
            exact ⟨.short c d, hd, rfl⟩
        · split at h <;> cases h

theorem scanEscape_token (text : List Char) : (scanEscape text).1 ≠ .stringText := by
  cases text with
  | nil => decide
  | cons c text =>
      rw [scanEscape]
      split
      · split <;> simp
      · split
        · simp
        · split <;> simp

theorem raw_forms (text : List Char) : (text.map Form.raw).flatMap Form.text = text := by
  induction text with
  | nil => rfl
  | cons c text ih => rw [List.map_cons, List.flatMap_cons, ih]; rfl

/-- A part of a string that is accepted has a text of such forms. -/
theorem scan_forms {mode : Mode} {c : Char} {text : List Char} {token : Token} {length : Nat}
    (h : (lexer errorLength).scan mode (c :: text) = (token, length))
    (htoken : token ∈ [Token.stringText, .escapeSequence]) :
    ∃ forms : List Form, (∀ form ∈ forms, form.Legal) ∧
      c :: text.take length = forms.flatMap Form.text := by
  cases mode with
  | normal =>
      have hscan : scanNormal errorLength (c :: text) = (token, length) := h
      have hnot := scanNormal_token errorLength (c :: text)
      rw [hscan] at hnot
      exact absurd htoken hnot
  | string =>
      have hscan : scanString errorLength (c :: text) = (token, length) := h
      rw [scanString] at hscan
      split at hscan
      · cases hscan
        exact absurd htoken (by decide)
      · split at hscan
        · next hescape =>
            have hcases : token = .escapeSequence := by
              have hnot := scanEscape_token text
              rw [hscan] at hnot
              exact List.mem_singleton.mp ((List.mem_cons.mp htoken).resolve_left hnot)
            subst hcases
            obtain ⟨form, hform, htext⟩ := scanEscape_legal hscan
            refine ⟨[form], List.forall_mem_singleton.mpr hform, ?_⟩
            rw [hescape, htext, List.flatMap_singleton]
        · split at hscan
          · next htext =>
              obtain rfl : (text.takeWhile isStringText).length = length :=
                congrArg Prod.snd hscan
              have hrun : text.take (text.takeWhile isStringText).length =
                  text.takeWhile isStringText :=
                (List.prefix_iff_eq_take.mp (List.takeWhile_prefix _)).symm
              refine ⟨(c :: text.takeWhile isStringText).map .raw, fun form hmem => ?_, ?_⟩
              · obtain ⟨d, hd, rfl⟩ := List.mem_map.mp hmem
                rcases List.mem_cons.mp hd with rfl | hd
                · exact htext
                · exact List.mem_takeWhile_imp hd
              · rw [raw_forms, hrun]
          · cases hscan
            exact absurd htoken (by decide)

theorem forms_of_mem {mode : Mode} {text : List Char} {lexeme : Lexeme Token}
    (h : lexeme ∈ (lexer errorLength).tokens mode text)
    (htoken : lexeme.token ∈ [Token.stringText, .escapeSequence]) :
    ∃ forms : List Form, (∀ form ∈ forms, form.Legal) ∧
      lexeme.text = forms.flatMap Form.text := by
  fun_induction Lexer.tokens (lexer errorLength) mode text with
  | case1 => cases h
  | case2 mode c text token length hscan ih =>
      rcases List.mem_cons.mp h with rfl | h
      · exact scan_forms errorLength hscan htoken
      · exact ih h

/-- A string literal among the lexemes of a document, without an error between its quotes. -/
def StringToken (document literal : List Char) : Prop :=
  ∃ before parts after, tokenize errorLength document =
      before ++ (quote :: parts ++ quote :: after) ∧
    (lexer errorLength).modeAfter .normal before = .normal ∧
    (∀ part ∈ parts, part.token ∈ [Token.stringText, .escapeSequence]) ∧
    literal = Lexer.covered (quote :: parts ++ [quote])

variable {errorLength}

/-- A literal is made of characters, letter escapes and units. -/
theorem StringToken.forms {document literal : List Char}
    (h : StringToken errorLength document literal) :
    ∃ forms : List Form, (∀ form ∈ forms, form.Legal) ∧ literal = literalText forms := by
  obtain ⟨before, parts, after, htokens, -, hparts, rfl⟩ := h
  have hmem : ∀ part ∈ parts, part ∈ tokenize errorLength document := by
    intro part hpart
    rw [htokens]
    exact List.mem_append_right _ (List.mem_append_left _ (List.mem_cons_of_mem _ hpart))
  have hforms : ∃ forms : List Form, (∀ form ∈ forms, form.Legal) ∧
      Lexer.covered parts = forms.flatMap Form.text := by
    clear htokens
    induction parts with
    | nil => exact ⟨[], fun _ hnone => (List.not_mem_nil hnone).elim, rfl⟩
    | cons part parts ih =>
        obtain ⟨htoken, hrest⟩ := List.forall_mem_cons.mp hparts
        obtain ⟨hpart, hmore⟩ := List.forall_mem_cons.mp hmem
        obtain ⟨first, hfirst, htext⟩ := forms_of_mem errorLength hpart htoken
        obtain ⟨forms, hforms, hcovered⟩ := ih hrest hmore
        refine ⟨first ++ forms, List.forall_mem_append.mpr ⟨hfirst, hforms⟩, ?_⟩
        rw [List.flatMap_append, ← htext, ← hcovered]
        rfl
  obtain ⟨forms, hlegal, hcovered⟩ := hforms
  refine ⟨forms, hlegal, ?_⟩
  rw [literalText, ← hcovered]
  simp [Lexer.covered, quote]

end Tokens

section Literals

theorem length_le_text (forms : List Form) : forms.length ≤ (forms.flatMap Form.text).length := by
  induction forms with
  | nil => exact Nat.le_refl 0
  | cons form forms ih =>
      have hform : 0 < form.text.length := by
        cases form <;> exact Nat.succ_pos _
      rw [List.flatMap_cons, List.length_append, List.length_cons]
      omega

/-- Decoding a literal reads its units. -/
theorem decodeString_literal {forms : List Form} (h : ∀ form ∈ forms, form.Legal) :
    (∀ content, Utf16.decode (forms.flatMap Form.units) = some content →
      StringDecoder.decodeString (literalText forms) = .ok (String.ofList content)) ∧
    (Utf16.decode (forms.flatMap Form.units) = none →
      ∃ message, StringDecoder.decodeString (literalText forms) = .error (.message message)) := by
  have hfuel : forms.length < (literalText forms).length := by
    have := length_le_text forms
    rw [literalText, List.length_cons, List.length_append]
    omega
  have hread := decodeWith_behind forms h (literalText forms).length hfuel
  have hdecode : StringDecoder.decodeString (literalText forms) =
      (String.ofList <$> decodeWith (literalText forms).length (behind forms)).mapError .message :=
    StringDecoder.decodeString_eq (behind forms)
  rw [hdecode]
  cases hresult : decodeWith (literalText forms).length (behind forms) with
  | ok content =>
      rw [hresult] at hread
      constructor
      · intro content' hcontent
        rw [hcontent] at hread
        obtain rfl : content = content' := Option.some.inj hread
        rfl
      · intro hnone
        rw [hnone] at hread
        cases hread
  | error message =>
      rw [hresult] at hread
      constructor
      · intro content hcontent
        rw [hcontent] at hread
        cases hread
      · exact fun _ => ⟨message, rfl⟩

theorem units_lt {forms : List Form} (h : ∀ form ∈ forms, form.Legal) :
    ∀ unit ∈ forms.flatMap Form.units, unit < 0x10000 := by
  intro unit hmem
  obtain ⟨form, hform, hunit⟩ := List.mem_flatMap.mp hmem
  exact (h form hform).units_lt unit hunit

/-- The parts that write a character. -/
theorem Spelling.forms {c : Char} {text : List Char} (h : Spelling c text) :
    ∃ forms : List Form, (∀ form ∈ forms, form.Legal) ∧ text = forms.flatMap Form.text ∧
      forms.flatMap Form.units = Utf16.encodeChar c := by
  cases h with
  | raw h => exact ⟨[.raw c], List.forall_mem_singleton.mpr h, rfl, List.append_nil _⟩
  | @short letter h =>
      exact ⟨[.short letter c], List.forall_mem_singleton.mpr h, rfl, List.append_nil _⟩
  | @unicode digits hlength hdigits hvalue =>
      refine ⟨[.unit digits], List.forall_mem_singleton.mpr ⟨hlength, hdigits⟩, ?_, hvalue.symm⟩
      exact (List.append_nil _).symm
  | @pair high low hhigh hlow hvalue =>
      refine ⟨[.unit high, .unit low], List.forall_mem_cons.mpr
        ⟨hhigh, List.forall_mem_singleton.mpr hlow⟩, ?_, hvalue.symm⟩
      rw [List.flatMap_cons, List.flatMap_singleton]
      rfl

theorem spellings_forms {content : List Char} {texts : List (List Char)}
    (h : List.Forall₂ Spelling content texts) :
    ∃ forms : List Form, (∀ form ∈ forms, form.Legal) ∧
      texts.flatten = forms.flatMap Form.text ∧
      forms.flatMap Form.units = Utf16.encode content := by
  induction h with
  | nil => exact ⟨[], fun _ hnone => (List.not_mem_nil hnone).elim, rfl, rfl⟩
  | cons hfirst _ ih =>
      obtain ⟨first, hfirstLegal, htext, hunits⟩ := hfirst.forms
      obtain ⟨forms, hlegal, htexts, hall⟩ := ih
      refine ⟨first ++ forms, List.forall_mem_append.mpr ⟨hfirstLegal, hlegal⟩, ?_, ?_⟩
      · rw [List.flatten_cons, htext, htexts, List.flatMap_append]
      · rw [List.flatMap_append, hunits, hall]
        rfl

/-- A string token is made of legal parts. Decoding such a literal gives the text that has its
units, or is refused when no text has them. Any spelling of a text is decoded as the text. -/
theorem decodeString_standard (errorLength : Mode → List Char → Nat) :
    (∀ document literal, StringToken errorLength document literal →
      ∃ forms : List Form, (∀ form ∈ forms, form.Legal) ∧ literal = literalText forms) ∧
    (∀ forms : List Form, (∀ form ∈ forms, form.Legal) →
      (∃ content, forms.flatMap Form.units = Utf16.encode content ∧
        StringDecoder.decodeString (literalText forms) = .ok (String.ofList content)) ∨
      ((∀ content, forms.flatMap Form.units ≠ Utf16.encode content) ∧
        ∃ message, StringDecoder.decodeString (literalText forms) = .error (.message message))) ∧
    (∀ content texts, List.Forall₂ Spelling content texts →
      StringDecoder.decodeString ('"' :: (texts.flatten ++ ['"'])) =
        .ok (String.ofList content)) := by
  refine ⟨fun document literal h => h.forms, fun forms h => ?_, fun content texts h => ?_⟩
  · have hdecode := decodeString_literal h
    cases hunits : Utf16.decode (forms.flatMap Form.units) with
    | some content =>
        exact .inl ⟨content, (Utf16.decode_eq_some_iff (units_lt h)).mp hunits,
          hdecode.1 content hunits⟩
    | none =>
        refine .inr ⟨fun content hcontent => ?_, hdecode.2 hunits⟩
        rw [(Utf16.decode_eq_some_iff (units_lt h)).mpr hcontent] at hunits
        cases hunits
  · obtain ⟨forms, hlegal, htext, hunits⟩ := spellings_forms h
    rw [htext]
    refine (decodeString_literal hlegal).1 content ?_
    rw [hunits, Utf16.decode_encode]

end Literals

end Telora.Json
