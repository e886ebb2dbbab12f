import Telora.Library.TextLines

/-!
# Documents

A document is a text that is edited by byte ranges and addressed by lines and characters in
one of three encodings. Operations of the rope panic outside of the text and off the
boundaries of characters.
-/

namespace Telora.Documents

open Library

inductive PositionEncoding
  | utf8
  | utf16
  | utf32
  deriving DecidableEq

structure TextPosition where
  line : UInt32
  character : UInt32
  deriving DecidableEq

structure TextRange where
  start : UInt32
  stop : UInt32
  deriving DecidableEq

inductive TextEdit
  | replace (range : TextRange) (replacement : List Char)
  | full (text : List Char)

inductive DocumentError
  | invalidOffset (offset : Nat)
  | invalidPosition (position : TextPosition)
  | invalidRange (range : TextRange)
  | textTooLarge
  deriving DecidableEq

inductive Failure
  | panic
  | error (error : DocumentError)
  deriving DecidableEq

/-- The lines of a rope; a line feed at the end starts no further one. -/
def lineLen (text : List Char) : Nat :=
  text.count '\n' + if text.getLast?.any (· ≠ '\n') then 1 else 0

def byteOfLine (line : Nat) (text : List Char) : Except Failure Nat :=
  match splitAtLine line text with
  | some (front, _) => .ok (byteLength front)
  | none => if line = lineLen text then .ok (byteLength text) else .error .panic

def isCharBoundary (offset : Nat) (text : List Char) : Bool := (splitAtByte offset text).isSome

/-- The line of an offset that is on a boundary. -/
def lineOfByte (offset : Nat) (text : List Char) : Except Failure Nat :=
  match splitAtByte offset text with
  | some (front, _) => .ok (front.count '\n')
  | none => .error .panic

/-- Whether a byte of the text is the one of a character of one byte. -/
def byteIs (offset : Nat) (c : Char) (text : List Char) : Except Failure Bool :=
  if offset < byteLength text then .ok (charAtByte offset text = some c) else .error .panic

def byteSlice (start stop : Nat) (text : List Char) : Except Failure (List Char) :=
  match sliceBytes start stop text with
  | some middle => .ok middle
  | none => .error .panic

/-- The text with what is between two offsets replaced. -/
def replaceBytes (start stop : Nat) (replacement text : List Char) :
    Except Failure (List Char) :=
  match splitAtByte stop text with
  | none => .error .panic
  | some (front, back) =>
      match splitAtByte start front with
      | none => .error .panic
      | some (before, _) => .ok (before ++ (replacement ++ back))

def utf16Units (c : Char) : Nat := if c.toNat < 0x10000 then 1 else 2

def utf16Len (text : List Char) : Nat := (text.map utf16Units).sum

/-- The byte of a code unit. For the second unit of a character it is the start or the end of
the character, as the rope rounds. -/
def byteOfUtf16CodeUnit (up : Bool) : Nat → List Char → Nat
  | _, [] => 0
  | unit, c :: rest =>
      if unit = 0 then 0
      else if unit < utf16Units c then if up then c.utf8Size else 0
      else c.utf8Size + byteOfUtf16CodeUnit up (unit - utf16Units c) rest

def utf16CodeUnitOfByte (byte : Nat) (text : List Char) : Except Failure Nat :=
  match splitAtByte byte text with
  | some (front, _) => .ok (utf16Len front)
  | none => .error .panic

def tryU32 (number : Nat) : Except Failure UInt32 :=
  if number < 2 ^ 32 then .ok (.ofNat number) else .error (.error .textTooLarge)

/-- `try_into().unwrap_or(u32::MAX)` -/
def u32OrMax (number : Nat) : UInt32 := if number < 2 ^ 32 then .ofNat number else 0xffffffff

def logicalLineCount (text : List Char) : Nat :=
  if text = [] then 1
  else if text.getLast? = some '\n' then lineLen text + 1
  else lineLen text

/-- `end > start && self.rope.byte(end - 1) == c` -/
def endsWithByte (start stop : Nat) (c : Char) (text : List Char) : Except Failure Bool :=
  if start < stop then byteIs (stop - 1) c text else .ok false

/-- The start of the next line, or the end of the text. -/
def lineStop (text : List Char) (line : Nat) : Except Failure Nat :=
  if line + 1 < logicalLineCount text then byteOfLine (line + 1) text else .ok (byteLength text)

def lineContentRange (text : List Char) (line : Nat) : Except Failure (Nat × Nat) :=
  if logicalLineCount text ≤ line then .error (.error (.invalidPosition ⟨u32OrMax line, 0⟩))
  else do
    let start ← byteOfLine line text
    let stop ← lineStop text line
    let lineFeed ← endsWithByte start stop '\n' text
    if !lineFeed then .ok (start, stop)
    else do
      let stop := stop - 1
      let carriageReturn ← endsWithByte start stop '\r' text
      if carriageReturn then .ok (start, stop - 1) else .ok (start, stop)

/-- The loop over the characters of a line, with those counted so far. -/
def utf32ToByteFrom (target : Nat) : Nat → Nat → List Char → Option Nat
  | scalars, bytes, [] => if scalars = target then some bytes else none
  | scalars, bytes, c :: rest =>
      if scalars = target then some bytes
      else utf32ToByteFrom target (scalars + 1) (bytes + c.utf8Size) rest

def utf32ToByte (text : List Char) (target : Nat) : Option Nat := utf32ToByteFrom target 0 0 text

/-- The byte of a character of a line, if the encoding has one there. -/
def relativeOffset (up : Bool) (encoding : PositionEncoding) (line : List Char)
    (character : Nat) : Except Failure (Option Nat) :=
  match encoding with
  | .utf8 =>
      if byteLength line < character ∨ !isCharBoundary character line then .ok none
      else .ok (some character)
  | .utf16 =>
      if utf16Len line < character then .ok none
      else do
        let byte := byteOfUtf16CodeUnit up character line
        let unit ← utf16CodeUnitOfByte byte line
        if unit ≠ character then .ok none else .ok (some byte)
  | .utf32 => .ok (utf32ToByte line character)

def offset (up : Bool) (text : List Char) (position : TextPosition)
    (encoding : PositionEncoding) : Except Failure UInt32 := do
  let (lineStart, lineEnd) ← lineContentRange text position.line.toNat
  let lineText ← byteSlice lineStart lineEnd text
  match ← relativeOffset up encoding lineText position.character.toNat with
  | none => .error (.error (.invalidPosition position))
  | some relative => tryU32 (lineStart + relative)

/-- The length of a text in the units of an encoding. -/
def encodedLength : PositionEncoding → List Char → Nat
  | .utf8, text => byteLength text
  | .utf16, text => utf16Len text
  | .utf32, text => text.length

def position (text : List Char) (offset : UInt32) (encoding : PositionEncoding) :
    Except Failure TextPosition :=
  if byteLength text < offset.toNat ∨ !isCharBoundary offset.toNat text then
    .error (.error (.invalidOffset offset.toNat))
  else do
    let line ← lineOfByte offset.toNat text
    let (lineStart, lineEnd) ← lineContentRange text line
    if lineEnd < offset.toNat then .error (.error (.invalidOffset offset.toNat))
    else do
      let front ← byteSlice lineStart offset.toNat text
      let line ← tryU32 line
      let character ← tryU32 (encodedLength encoding front)
      .ok ⟨line, character⟩

def validateRange (text : List Char) (range : TextRange) : Except Failure (Nat × Nat) :=
  let start := range.start.toNat
  let stop := range.stop.toNat
  if stop < start ∨ byteLength text < stop ∨ !isCharBoundary start text ∨
      !isCharBoundary stop text then
    .error (.error (.invalidRange ⟨u32OrMax start, u32OrMax stop⟩))
  else .ok (start, stop)

/-- One edit of the text that the edits before it left. -/
def applyEdit (text : List Char) : TextEdit → Except Failure (List Char)
  | .replace range replacement => do
      let (start, stop) ← validateRange text range
      replaceBytes start stop replacement text
  | .full text => .ok text

def apply : List Char → List TextEdit → Except Failure (List Char)
  | text, [] => .ok text
  | text, edit :: edits => do
      let next ← applyEdit text edit
      apply next edits

end Telora.Documents
