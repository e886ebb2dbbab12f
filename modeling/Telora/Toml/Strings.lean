import Telora.Toml.DateTimes
import Telora.Toml.Temporal

/-!
# TOML strings

How the token of a string is read: the quotes and a first line break are taken off, control
characters are refused, the escapes of a basic string are decoded in one loop with a look at
the next character, and line breaks of several lines are stored with one spelling.

A literal is a sequence of pieces: raw characters, line breaks, escapes and line-ending
backslashes, and escapes that are not allowed. The decoder gives back what the pieces denote,
or refuses what is not allowed, except where one of four things is written.
-/

namespace Telora.Toml

open Library

/-- `char::is_control` -/
def isControl (c : Char) : Bool := c.toNat < 0x20 || (0x7f ≤ c.toNat && c.toNat ≤ 0x9f)

def isForbidden (multiline : Bool) (c : Char) : Bool :=
  isControl c && c ≠ '\t' && !(multiline && c ∈ ['\n', '\r'])

def validateStringControls (value : List Char) (multiline : Bool) : Except String Unit :=
  if value.any (isForbidden multiline) then
    .error "TOML String contains a forbidden control character"
  else .ok ()

/-- The escapes of one letter. -/
def shortEscapes : List (Char × Char) :=
  [('b', '\x08'), ('t', '\t'), ('n', '\n'), ('f', '\x0c'), ('r', '\r'), ('"', '"'), ('\\', '\\')]

def shortEscape (escaped : Char) : Option Char :=
  (shortEscapes.find? (·.1 = escaped)).map (·.2)

/-- The value of so many digits, in 32 bits, and what follows them. -/
def unicodeValue : Nat → Nat → List Char → Except String (Nat × List Char)
  | 0, value, text => .ok (value, text)
  | _ + 1, _, [] => .error "invalid TOML Unicode escape"
  | digits + 1, value, c :: text =>
      match toDigit 16 c with
      | none => .error "invalid TOML Unicode escape"
      | some digit =>
          if value * 16 + digit < 2 ^ 32 then unicodeValue digits (value * 16 + digit) text
          else .error "invalid TOML Unicode escape"

def unicodeScalar (value : Nat) : Except String Char :=
  if value.isValidChar then .ok (Char.ofNat value) else .error "invalid TOML Unicode scalar"

/-- A line break behind a backslash: its first character, and a line feed behind a carriage
return. -/
def dropLineBreak : List Char → List Char
  | '\r' :: '\n' :: text => text
  | _ :: text => text
  | [] => []

/-- The characters that are left, with a step for each escape or other character. -/
def decodeCharacters (multiline : Bool) : Nat → List Char → Except String (List Char)
  | 0, _ => .error "string decoder is out of fuel"
  | _ + 1, [] => .ok []
  | fuel + 1, character :: characters =>
      if character ≠ '\\' then (character :: ·) <$> decodeCharacters multiline fuel characters
      else if multiline && characters.head?.any (· ∈ ['\n', '\r']) then
        decodeCharacters multiline fuel ((dropLineBreak characters).dropWhile isWhitespaceChar)
      else
        match characters with
        | [] => .error "unterminated TOML escape"
        | escaped :: characters =>
            if escaped ∈ ['u', 'U'] then do
              let (value, characters) ←
                unicodeValue (if escaped = 'u' then 4 else 8) 0 characters
              let scalar ← unicodeScalar value
              (scalar :: ·) <$> decodeCharacters multiline fuel characters
            else
              match shortEscape escaped with
              | some value => (value :: ·) <$> decodeCharacters multiline fuel characters
              | none => .error "unknown TOML escape"

def decodeBasicString (value : List Char) (multiline : Bool) : Except String (List Char) := do
  validateStringControls value multiline
  decodeCharacters multiline (value.length + 1) value

/-- `value.replace("\r\n", "\n")` -/
def replaceLineBreaks : List Char → List Char
  | [] => []
  | c :: rest =>
      if c = '\r' ∧ rest.head? = some '\n' then replaceLineBreaks rest
      else c :: replaceLineBreaks rest

def normalizeMultilineNewlines (value : List Char) (multiline : Bool) : List Char :=
  if multiline && value.contains '\r' then replaceLineBreaks value else value

/-- The body of several lines without a line break at its start. -/
def stripFirstLineBreak : List Char → List Char
  | '\r' :: '\n' :: rest => rest
  | '\n' :: rest => rest
  | text => text

def decodeString (text : List Char) : Except Failure (List Char) := do
  let literal := ['\''].isPrefixOf text
  let multiline := ['"', '"', '"'].isPrefixOf text || ['\'', '\'', '\''].isPrefixOf text
  let quoteWidth := if multiline then 3 else 1
  let body ← slice quoteWidth (byteLength text - quoteWidth) text
  let body := if multiline then stripFirstLineBreak body else body
  if literal then
    match validateStringControls body multiline with
    | .error message => .error (.message message)
    | .ok () => .ok (normalizeMultilineNewlines body multiline)
  else
    match decodeBasicString body multiline with
    | .error message => .error (.message message)
    | .ok value => .ok (normalizeMultilineNewlines value multiline)

/-- Characters that are written as they are. -/
def isRaw (multiline : Bool) (c : Char) : Bool :=
  c = '\t' || (0x20 ≤ c.toNat && c.toNat ≠ 0x7f && c ≠ '\\' && (c ≠ '"' || multiline))

def isBlank (c : Char) : Bool := c = ' ' || c = '\t'

def lineBreak (crlf : Bool) : List Char := if crlf then ['\r', '\n'] else ['\n']

/-- What is written behind the backslash of an escape, with its character. -/
inductive EscapeText : List Char → Char → Prop
  | short {letter c : Char} (h : (letter, c) ∈ shortEscapes) : EscapeText [letter] c
  | unicode {letter c : Char} {count : Nat} {digits : List Char}
      (hletter : (letter, count) ∈ [('u', 4), ('U', 8)]) (hlength : digits.length = count)
      (hdigits : Digits 16 digits) (hvalue : numeral 16 digits = c.toNat) :
      EscapeText (letter :: digits) c

/-- A surrogate, or a number beyond the last scalar. -/
inductive BadScalarText : List Char → Prop
  | mk {letter : Char} {count : Nat} {digits : List Char}
      (hletter : (letter, count) ∈ [('u', 4), ('U', 8)]) (hlength : digits.length = count)
      (hdigits : Digits 16 digits) (hvalue : ¬ (numeral 16 digits).isValidChar) :
      BadScalarText (letter :: digits)

/-- Blanks and line breaks behind a line-ending backslash. -/
inductive Trail : List Char → Prop
  | nil : Trail []
  | blank {c : Char} {rest : List Char} (h : isBlank c = true) (hrest : Trail rest) :
      Trail (c :: rest)
  | lineBreak (crlf : Bool) {rest : List Char} (hrest : Trail rest) :
      Trail (lineBreak crlf ++ rest)

/-- The pieces of a string on one line or on several. The last three are not allowed. -/
inductive Piece (multiline : Bool)
  | raw (c : Char) (h : isRaw multiline c = true)
  | newline (crlf : Bool) (h : multiline = true)
  | escape (text : List Char) (c : Char) (h : EscapeText text c)
  | continuation (blanks : List Char) (crlf : Bool) (trail : List Char) (h : multiline = true)
      (hblanks : ∀ c ∈ blanks, isBlank c = true) (htrail : Trail trail)
  | unknown (c : Char) (h : c ≠ 'u' ∧ c ≠ 'U' ∧ shortEscape c = none)
      (hline : multiline = true → c ≠ '\n' ∧ c ≠ '\r')
  | badScalar (text : List Char) (h : BadScalarText text)
  | loneReturn (h : multiline = true)

namespace Piece

variable {multiline : Bool}

def text : Piece multiline → List Char
  | raw c _ => [c]
  | newline crlf _ => lineBreak crlf
  | escape text _ _ => '\\' :: text
  | continuation blanks crlf trail _ _ _ => '\\' :: (blanks ++ (lineBreak crlf ++ trail))
  | unknown c _ _ => ['\\', c]
  | badScalar text _ => '\\' :: text
  | loneReturn _ => ['\\', '\r']

/-- What a piece stands for; a line break is a line feed. -/
def value : Piece multiline → List Char
  | raw c _ => [c]
  | newline _ _ => ['\n']
  | escape _ c _ => [c]
  | _ => []

def allowed : Piece multiline → Bool
  | unknown _ _ _ => false
  | badScalar _ _ => false
  | loneReturn _ => false
  | _ => true

/-- The pieces that the decoder does not refuse. -/
def decodes : Piece multiline → Bool
  | raw c _ => !isControl c || c = '\t'
  | continuation blanks _ _ _ _ _ => blanks = []
  | unknown _ _ _ => false
  | badScalar _ _ => false
  | _ => true

end Piece

section Pieces

variable {multiline : Bool}

def pieceText (pieces : List (Piece multiline)) : List Char := pieces.flatMap Piece.text

def pieceValue (pieces : List (Piece multiline)) : List Char := pieces.flatMap Piece.value

/-- A line break, with blanks in front of it. -/
def startsLineEnd (text : List Char) : Bool :=
  let rest := text.dropWhile isBlank
  ['\n'].isPrefixOf rest || ['\r', '\n'].isPrefixOf rest

/-- The pieces are the ones a reader sees: a line-ending backslash takes all blanks and line
breaks behind it, a backslash before blanks ends no line, and a lone carriage return is one. -/
def Legal : Bool → List (Piece multiline) → Prop
  | _, [] => True
  | continued, .raw c _ :: rest => ¬(continued = true ∧ isBlank c = true) ∧ Legal false rest
  | continued, .newline _ _ :: rest => continued = false ∧ Legal false rest
  | _, .escape _ _ _ :: rest => Legal false rest
  | _, .continuation _ _ _ _ _ _ :: rest => Legal true rest
  | _, .unknown c _ _ :: rest =>
      ¬(multiline = true ∧ isBlank c = true ∧ startsLineEnd (pieceText rest) = true) ∧
        Legal false rest
  | _, .badScalar _ _ :: rest => Legal false rest
  | _, .loneReturn _ :: rest => (pieceText rest).head? ≠ some '\n' ∧ Legal false rest

/-- A line feed comes next, apart from line-ending backslashes. -/
def startsLineFeed : List (Piece multiline) → Bool
  | .newline crlf _ :: _ => !crlf
  | .escape _ c _ :: _ => c = '\n'
  | .continuation _ _ _ _ _ _ :: rest => startsLineFeed rest
  | _ => false

/-- Nothing is refused or lost: no control character U+0080 to U+009F as it is, no blanks
between a backslash and the end of its line, no other white space right behind a line-ending
backslash, and over several lines no escaped carriage return before a line feed. -/
def Kept : Bool → List (Piece multiline) → Prop
  | _, [] => True
  | continued, .raw c _ :: rest =>
      ¬(isControl c = true ∧ c ≠ '\t') ∧ ¬(continued = true ∧ isWhitespaceChar c = true) ∧
        Kept false rest
  | _, .newline _ _ :: rest => Kept false rest
  | _, .escape _ c _ :: rest =>
      ¬(multiline = true ∧ c = '\r' ∧ startsLineFeed rest = true) ∧ Kept false rest
  | _, .continuation blanks _ _ _ _ _ :: rest => blanks = [] ∧ Kept true rest
  | _, .unknown _ _ _ :: _ => False
  | _, .badScalar _ _ :: _ => False
  | _, .loneReturn _ :: _ => False

end Pieces

/-- A basic string as it is written, with a line break behind the quotes or without. -/
structure BasicString where
  multiline : Bool
  leading : Option Bool
  pieces : List (Piece multiline)
  leading_multiline : leading ≠ none → multiline = true
  legal : Legal false pieces
  first : leading = none → ∀ crlf h, pieces.head? ≠ some (.newline crlf h)

namespace BasicString

def quotes (multiline : Bool) : List Char := if multiline then ['"', '"', '"'] else ['"']

def text (string : BasicString) : List Char :=
  quotes string.multiline ++
    ((string.leading.elim [] lineBreak ++ pieceText string.pieces) ++ quotes string.multiline)

/-- What the literal denotes, when all of it is allowed. -/
def value (string : BasicString) : Option (List Char) :=
  if string.pieces.all Piece.allowed then some (pieceValue string.pieces) else none

/-- What is expected of the result: the string that is denoted, or an error. -/
def ReadBack (string : BasicString) (result : Except Failure (List Char)) : Prop :=
  match string.value with
  | some value => result = .ok value
  | none => ∃ message, result = .error (.message message)

/-- The condition under which a literal is read back: nothing is lost, or what is not allowed
is refused, which a backslash before a lone carriage return is not by itself. -/
def Sound (string : BasicString) : Prop :=
  if string.pieces.all Piece.allowed then Kept false string.pieces
  else ∃ piece ∈ string.pieces, piece.decodes = false

end BasicString

end Telora.Toml
