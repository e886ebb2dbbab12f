import Telora.Json.Lowering
import Telora.Library.Utf8
import Telora.Value.IntegerText

/-!
# The decoder of string literals

Literals are decoded by byte offsets: a byte that is read tells an escape from other text, and
other text is cut at the offset. Cutting inside a character panics. The decoder never does that:
it reads a literal as the list of its characters is read.
-/

namespace Telora.Json

open Library

inductive DecodeFailure where
  | panic
  | message (text : String)
  deriving DecidableEq, Repr

/-- `char::to_digit` in base 16. -/
def hexDigit (c : Char) : Option Nat := if isHexDigit c then some (hexDigitValue c) else none

namespace StringDecoder

section Decoder
variable (bytes : List UInt8)

/-- The value of the next `count` digits after `value`, with the offset behind them. -/
def digitsAt : Nat → Nat → Nat → Except DecodeFailure (Nat × Nat)
  | 0, value, offset => .ok (value, offset)
  | count + 1, value, offset =>
      match bytes[offset]? with
      | none => .error (.message "Unicode escape requires four hex digits")
      | some byte =>
          match hexDigit (charFrom byte) with
          | none => .error (.message "Unicode escape requires four hex digits")
          | some digit => digitsAt count (value * 16 + digit) (offset + 1)

def hexQuad (offset : Nat) : Except DecodeFailure (Nat × Nat) := digitsAt bytes 4 0 offset

/-- The scalar value after `\u`, with the offset behind it. -/
def unicodeEscape (offset : Nat) : Except DecodeFailure (Char × Nat) := do
  let (first, offset) ← hexQuad bytes offset
  let (codepoint, offset) ←
    if 0xd800 ≤ first ∧ first ≤ 0xdbff then
      if ((bytes.drop offset).take 2).map charFrom = ['\\', 'u'] then do
        let (second, offset) ← hexQuad bytes (offset + 2)
        if 0xdc00 ≤ second ∧ second ≤ 0xdfff then
          pure (0x10000 + (first - 0xd800) * 2 ^ 10 + (second - 0xdc00), offset)
        else throw (.message "invalid low surrogate")
      else throw (.message "high surrogate requires a low surrogate")
    else if 0xdc00 ≤ first ∧ first ≤ 0xdfff then throw (.message "unexpected low surrogate")
    else pure (first, offset)
  if codepoint.isValidChar then return (Char.ofNat codepoint, offset)
  else throw (.message "invalid Unicode scalar value")

end Decoder

/-- The characters from an offset up to the last byte, the closing quote. -/
def decodeFrom (text : List Char) : Nat → Nat → Except DecodeFailure (List Char)
  | 0, _ => .error (.message "string decoder is out of fuel")
  | fuel + 1, offset =>
      let bytes := utf8 text
      if bytes = [] then .error .panic
      else if bytes.length - 1 ≤ offset then .ok []
      else
        match bytes[offset]? with
        | none => .error .panic
        | some byte =>
            if charFrom byte ≠ '\\' then
              match charAtByte offset text with
              | none => .error .panic
              | some c => (c :: ·) <$> decodeFrom text fuel (offset + c.utf8Size)
            else
              match bytes[offset + 1]? with
              | none => .error (.message "unterminated JSON escape")
              | some escaped =>
                  if charFrom escaped = 'u' then do
                    let (c, offset) ← unicodeEscape bytes (offset + 2)
                    (c :: ·) <$> decodeFrom text fuel offset
                  else
                    match simpleEscape (charFrom escaped) with
                    | some c => (c :: ·) <$> decodeFrom text fuel (offset + 2)
                    | none => .error (.message
                        ("invalid JSON escape \\" ++ String.singleton (charFrom escaped)))

/-- `decode_string` at the text of a node. -/
def decodeString (text : List Char) : Except DecodeFailure String :=
  String.ofList <$> decodeFrom text text.length 1

section Boundaries

theorem isHexDigit_ascii {c : Char} (h : isHexDigit c = true) : c.toNat < 128 := by
  have hcases : c.isDigit = true ∨ ('a' ≤ c ∧ c ≤ 'f') ∨ ('A' ≤ c ∧ c ≤ 'F') := of_decide_eq_true h
  rcases hcases with hdigit | hlower | hupper
  · have := (isDigit_iff c).mp hdigit
    omega
  · have := (charLe_iff c 'f').mp hlower.2
    exact Nat.lt_of_le_of_lt this (by decide)
  · have := (charLe_iff c 'F').mp hupper.2
    exact Nat.lt_of_le_of_lt this (by decide)

theorem simpleEscape_ascii {letter c : Char} (h : simpleEscape letter = some c) :
    letter.toNat < 128 := by
  by_contra hlarge
  have hne : ∀ d : Char, d.toNat < 128 → letter ≠ d := fun d hd heq => hlarge (heq ▸ hd)
  rw [simpleEscape, if_neg (hne _ (by decide)), if_neg (hne _ (by decide)),
    if_neg (hne _ (by decide)), if_neg (hne _ (by decide)), if_neg (hne _ (by decide)),
    if_neg (hne _ (by decide)), if_neg (hne _ (by decide)), if_neg (hne _ (by decide))] at h
  cases h

/-- The first byte of a character is an escape of one letter exactly when the character is. -/
theorem simpleEscape_leadingByte (c : Char) :
    simpleEscape (charFrom (leadingByte c)) = simpleEscape c := by
  by_cases hc : c.toNat < 128
  · rw [charFrom_leadingByte hc]
  · have hbyte := charFrom_leadingByte_of_large hc
    rw [Option.eq_none_iff_forall_not_mem.mpr fun d hd => hc (simpleEscape_ascii hd),
      Option.eq_none_iff_forall_not_mem.mpr fun d hd => hbyte (simpleEscape_ascii hd)]

theorem hexDigit_leadingByte (c : Char) : hexDigit (charFrom (leadingByte c)) = hexDigit c := by
  by_cases hc : c.toNat < 128
  · rw [charFrom_leadingByte hc]
  · have hbyte := charFrom_leadingByte_of_large hc
    rw [hexDigit, hexDigit, if_neg fun h => hc (isHexDigit_ascii h),
      if_neg fun h => hbyte (isHexDigit_ascii h)]

/-- A step at an offset of a text does what a step on the characters from there does. -/
inductive Agree {α : Type} (text : List Char) :
    Except DecodeFailure (α × Nat) → Except String (α × List Char) → Prop
  | error (message : String) : Agree text (.error (.message message)) (.error message)
  | ok (a : α) {front rest : List Char} (h : text = front ++ rest) :
      Agree text (.ok (a, byteLength front)) (.ok (a, rest))

variable {text : List Char}

theorem Agree.bind {α β : Type} {step : Except DecodeFailure (α × Nat)}
    {read : Except String (α × List Char)} (h : Agree text step read)
    {next : α × Nat → Except DecodeFailure (β × Nat)}
    {more : α × List Char → Except String (β × List Char)}
    (hnext : ∀ a front rest, text = front ++ rest →
      Agree text (next (a, byteLength front)) (more (a, rest))) :
    Agree text (step >>= next) (read >>= more) := by
  cases h with
  | error message => exact .error message
  | ok a h => exact hnext a _ _ h

theorem digitsAt_agree (count : Nat) : ∀ (value : Nat) (front rest : List Char),
    text = front ++ rest →
      Agree text (digitsAt (utf8 text) count value (byteLength front))
        (hexDigits count value rest) := by
  induction count with
  | zero => exact fun value front rest h => .ok value h
  | succ count ih =>
      intro value front rest h
      cases rest with
      | nil =>
          rw [List.append_nil] at h
          subst h
          rw [digitsAt, utf8_getElem?_end]
          exact .error _
      | cons c rest =>
          rw [digitsAt, h, utf8_getElem?]
          simp only [hexDigit_leadingByte, hexDigits]
          by_cases hc : isHexDigit c = true
          · have hfront : byteLength front + 1 = byteLength (front ++ [c]) := by
              rw [byteLength_append, byteLength_cons, utf8Size_of_ascii (isHexDigit_ascii hc)]
              rfl
            simp only [hexDigit, hc, if_true, hfront]
            rw [← h]
            exact ih _ _ rest (by rw [h, List.append_assoc]; rfl)
          · simp only [hexDigit, hc, if_false, Bool.false_eq_true]
            exact .error _

/-- The two bytes of a second escape are its two characters. -/
theorem escape_bytes_iff (text : List Char) :
    ((utf8 text).take 2).map charFrom = ['\\', 'u'] ↔ "\\u".toList.isPrefixOf text = true := by
  constructor
  · intro h
    cases text with
    | nil => cases h
    | cons c text =>
        have hhead : charFrom (leadingByte c) = '\\' := by
          cases hchar : String.utf8EncodeChar c with
          | nil => exact absurd hchar String.utf8EncodeChar_ne_nil
          | cons byte rest =>
              rw [utf8, List.flatMap_cons, hchar] at h
              rw [leadingByte, hchar]
              exact (List.cons.inj h).1
        obtain rfl := (charFrom_leadingByte_eq_iff (by decide)).mp hhead
        rw [utf8_cons_of_ascii (by decide), List.take_succ_cons, List.map_cons] at h
        have hnext := (List.cons.inj h).2
        cases text with
        | nil => cases hnext
        | cons d text =>
            have hsecond : charFrom (leadingByte d) = 'u' := by
              cases hchar : String.utf8EncodeChar d with
              | nil => exact absurd hchar String.utf8EncodeChar_ne_nil
              | cons byte rest =>
                  rw [utf8, List.flatMap_cons, hchar] at hnext
                  rw [leadingByte, hchar]
                  exact (List.cons.inj hnext).1
            obtain rfl := (charFrom_leadingByte_eq_iff (by decide)).mp hsecond
            rfl
  · intro h
    obtain ⟨rest, rfl⟩ := List.isPrefixOf_iff_prefix.mp h
    change ((utf8 ('\\' :: 'u' :: rest)).take 2).map charFrom = _
    rw [utf8_cons_of_ascii (by decide), utf8_cons_of_ascii (by decide)]
    simp only [List.take_succ_cons, List.take_zero, List.map_cons, List.map_nil]
    rw [charFrom_leadingByte (by decide), charFrom_leadingByte (by decide)]

theorem hexQuad_agree {front rest : List Char} (h : text = front ++ rest) :
    Agree text (hexQuad (utf8 text) (byteLength front)) (Json.hexQuad rest) :=
  digitsAt_agree 4 0 front rest h

/-- The last step of an escape, on either side. -/
theorem scalar_agree (codepoint : Nat) {front rest : List Char} (h : text = front ++ rest) :
    Agree text
      ((pure (codepoint, byteLength front) : Except DecodeFailure (Nat × Nat)) >>= fun read =>
        if read.1.isValidChar then pure (Char.ofNat read.1, read.2)
        else throw (.message "invalid Unicode scalar value"))
      ((pure (codepoint, rest) : Except String (Nat × List Char)) >>= fun read =>
        if read.1.isValidChar then pure (Char.ofNat read.1, read.2)
        else throw "invalid Unicode scalar value") := by
  simp only [pure_bind]
  split
  · exact .ok _ h
  · exact .error _

theorem unicodeEscape_agree {front rest : List Char} (h : text = front ++ rest) :
    Agree text (unicodeEscape (utf8 text) (byteLength front)) (Json.unicodeEscape rest) := by
  refine (hexQuad_agree h).bind fun first front rest h => ?_
  simp only
  split
  · have hbytes : (utf8 text).drop (byteLength front) = utf8 rest := by
      rw [h, utf8_drop]
    simp only [hbytes, escape_bytes_iff]
    split
    · next hescape =>
        obtain ⟨rest, rfl⟩ := List.isPrefixOf_iff_prefix.mp hescape
        have hfront : byteLength front + 2 = byteLength (front ++ ['\\', 'u']) := by
          rw [byteLength_append]
          rfl
        have htext : text = front ++ ['\\', 'u'] ++ rest := by
          rw [h, List.append_assoc]
          rfl
        rw [hfront]
        refine (hexQuad_agree htext).bind fun second front rest h => ?_
        simp only
        split
        · exact scalar_agree _ h
        · exact .error _
    · exact .error _
  · split
    · exact .error _
    · exact scalar_agree _ h

/-- One more character in front, on either side. -/
theorem cons_mapError (c : Char) {byOffset : Except DecodeFailure (List Char)}
    {byChars : Except String (List Char)} (h : byOffset = byChars.mapError .message) :
    (c :: ·) <$> byOffset = ((c :: ·) <$> byChars).mapError .message := by
  rw [h]
  cases byChars <;> rfl

/-- The rest of a text is decoded after a step, on either side. -/
theorem Agree.decode {step : Except DecodeFailure (Char × Nat)}
    {read : Except String (Char × List Char)} (h : Agree text step read) {fuel : Nat}
    (hrest : ∀ front rest : List Char, text = front ++ rest →
      decodeFrom text fuel (byteLength front) = (decodeWith fuel rest).mapError .message) :
    (step >>= fun next => (next.1 :: ·) <$> decodeFrom text fuel next.2) =
      (read >>= fun next => (next.1 :: ·) <$> decodeWith fuel next.2).mapError .message := by
  cases h with
  | error message => rfl
  | ok c h => exact cons_mapError c (hrest _ _ h)

/-- From a boundary on, characters are decoded. -/
theorem decodeFrom_eq (hne : text ≠ []) (fuel : Nat) : ∀ front rest : List Char,
    text = front ++ rest → decodeFrom text fuel (byteLength front) =
      (decodeWith fuel rest).mapError .message := by
  induction fuel with
  | zero => exact fun front rest _ => rfl
  | succ fuel ih =>
      intro front rest h
      have hlength : (utf8 text).length = byteLength front + byteLength rest := by
        rw [length_utf8, h, byteLength_append]
      have hbytes : utf8 text ≠ [] := by
        intro hnil
        refine hne (byteLength_eq_zero ?_)
        rw [← length_utf8, hnil, List.length_nil]
      have hpos : 0 < (utf8 text).length := List.length_pos_of_ne_nil hbytes
      rw [decodeFrom, decodeWith.eq_def]
      simp only [hbytes, if_false]
      by_cases hlast : byteLength rest ≤ 1
      · rw [if_pos (by omega), if_pos hlast]
        rfl
      rw [if_neg (by omega), if_neg hlast]
      cases rest with
      | nil => exact absurd (Nat.zero_le 1) hlast
      | cons c rest =>
          have hbyte : (utf8 text)[byteLength front]? = some (leadingByte c) := by
            rw [h, utf8_getElem?]
          have hchar : charAtByte (byteLength front) text = some c :=
            charAtByte_eq_some_iff.mpr ⟨front, rest, h, rfl⟩
          simp only [hbyte, ne_eq, charFrom_leadingByte_eq_iff (d := '\\') (by decide)]
          by_cases hescape : c = '\\'
          · subst hescape
            simp only [not_true_eq_false, if_false]
            have hbehind : byteLength front + 1 = byteLength (front ++ ['\\']) := by
              rw [byteLength_append]
              rfl
            have htext : text = front ++ ['\\'] ++ rest := by
              rw [h, List.append_assoc]
              rfl
            cases rest with
            | nil => exact absurd (Nat.le_refl 1) hlast
            | cons letter rest =>
                have hletter : (utf8 text)[byteLength front + 1]? = some (leadingByte letter) := by
                  rw [hbehind, htext, utf8_getElem?]
                simp only [hletter, simpleEscape_leadingByte,
                  charFrom_leadingByte_eq_iff (show 'u'.toNat < 128 by decide)]
                have hafter : ∀ letter' : Char, letter = letter' → letter'.toNat < 128 →
                    byteLength front + 2 = byteLength (front ++ ['\\', letter]) := by
                  rintro _ rfl hsmall
                  rw [byteLength_append, byteLength_cons, byteLength_cons,
                    utf8Size_of_ascii hsmall]
                  rfl
                have hsplit : text = front ++ ['\\', letter] ++ rest := by
                  rw [h, List.append_assoc]
                  rfl
                by_cases hunicode : letter = 'u'
                · rw [if_pos hunicode, if_pos hunicode, hafter _ hunicode (by decide)]
                  exact (unicodeEscape_agree hsplit).decode ih
                · rw [if_neg hunicode, if_neg hunicode]
                  cases hsimple : simpleEscape letter with
                  | none => rfl
                  | some c =>
                      rw [hafter letter rfl (simpleEscape_ascii hsimple)]
                      exact cons_mapError c (ih _ rest hsplit)
          · have hnext := ih (front ++ [c]) rest (by rw [h, List.append_assoc]; rfl)
            rw [byteLength_append] at hnext
            simp only [hescape, not_false_eq_true, if_true, hchar]
            exact cons_mapError c hnext

/-- A literal that starts with its quote is decoded without a panic. -/
theorem decodeString_eq (rest : List Char) :
    decodeString ('"' :: rest) = (Json.decodeString ('"' :: rest)).mapError .message := by
  have h := decodeFrom_eq (List.cons_ne_nil '"' rest) ('"' :: rest).length ['"'] rest rfl
  rw [decodeString, Json.decodeString]
  change String.ofList <$> decodeFrom ('"' :: rest) _ (byteLength ['"']) = _
  rw [h, List.drop_one, List.tail_cons]
  cases decodeWith ('"' :: rest).length rest <;> rfl

end Boundaries

end StringDecoder

end Telora.Json
