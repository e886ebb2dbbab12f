import Telora.Library.Utf8
import Telora.Library.Calendar
import Telora.Value.IntegerText

/-!
# TOML dates and times

How the text of an atom is read as a date, a time or both: fields are cut out at fixed byte
offsets, checked, and the text is stored with one spelling of the separator and of the zero
offset. A cut off the boundaries of characters panics.
-/

namespace Telora.Toml

open Library

def isAtomChar (c : Char) : Bool := c.isAlphanum || c ∈ ['_', '+', ':', '-']

/-- `[A-Za-z0-9_+:-]+(\.[A-Za-z0-9_+:-]+)*` -/
inductive AtomToken : List Char → Prop
  | part {text : List Char} (hne : text ≠ []) (h : ∀ c ∈ text, isAtomChar c = true) :
      AtomToken text
  | dotted {text rest : List Char} (hne : text ≠ []) (h : ∀ c ∈ text, isAtomChar c = true)
      (hrest : AtomToken rest) : AtomToken (text ++ '.' :: rest)

/-- An atom is one token, or two that the lexer merges over a single space. -/
inductive Atom : List Char → Prop
  | token {text : List Char} (h : AtomToken text) : Atom text
  | merged {date time : List Char} (hdate : AtomToken date) (htime : AtomToken time) :
      Atom (date ++ ' ' :: time)

inductive Failure
  | panic
  | message (text : String)
  deriving DecidableEq

inductive TemporalTag
  | localDate
  | localTime
  | localDateTime
  | offsetDateTime
  deriving DecidableEq

/-- `&text[start..stop]` -/
def slice (start stop : Nat) (text : List Char) : Except Failure (List Char) :=
  match sliceBytes start stop text with
  | some middle => .ok middle
  | none => .error .panic

/-- The two sides of `&text[..offset]` and `&text[offset..]`. -/
def cut (offset : Nat) (text : List Char) : Except Failure (List Char × List Char) :=
  match splitAtByte offset text with
  | some sides => .ok sides
  | none => .error .panic

/-- `text.as_bytes()[offset]`, compared with characters of one byte only. -/
def byteAt (offset : Nat) (text : List Char) : Except Failure (Option Char) :=
  if offset < byteLength text then .ok (charAtByte offset text) else .error .panic

def decimal (value : List Char) : Except Failure Nat :=
  if !value.all Char.isDigit then
    .error (.message "invalid decimal digits in TOML temporal value")
  else if value = [] ∨ 2 ^ 32 ≤ numeral 10 value then
    .error (.message "invalid TOML temporal value")
  else .ok (numeral 10 value)

def daysOfMonth (year month : Nat) : Except Failure Nat :=
  let leap := year % 4 = 0 ∧ (year % 100 ≠ 0 ∨ year % 400 = 0)
  if month ∈ [1, 3, 5, 7, 8, 10, 12] then .ok 31
  else if month ∈ [4, 6, 9, 11] then .ok 30
  else if month = 2 ∧ leap then .ok 29
  else if month = 2 then .ok 28
  else .error (.message "invalid TOML month")

def validateDate (date : List Char) : Except Failure Unit :=
  if byteLength date ≠ 10 then .error (.message "invalid TOML date")
  else do
    let year ← decimal (← slice 0 4 date)
    let month ← decimal (← slice 5 7 date)
    let day ← decimal (← slice 8 10 date)
    let days ← daysOfMonth year month
    if day = 0 ∨ days < day then .error (.message "invalid TOML day") else .ok ()

/-- What follows the seconds: nothing, or a point and digits. -/
def validFraction : List Char → Bool
  | [] => true
  | c :: digits => c = '.' && digits ≠ [] && digits.all Char.isDigit

def parseTime (time : List Char) : Except Failure (List Char) :=
  if byteLength time < 8 ∨ charAtByte 2 time ≠ some ':' ∨ charAtByte 5 time ≠ some ':' then
    .error (.message "invalid TOML time")
  else do
    let hour ← decimal (← slice 0 2 time)
    let minute ← decimal (← slice 3 5 time)
    let second ← decimal (← slice 6 8 time)
    if 23 < hour ∨ 59 < minute ∨ 59 < second then
      .error (.message "TOML time component is outside its valid range")
    else do
      let (_, fraction) ← cut 8 time
      if validFraction fraction then .ok time
      else .error (.message "invalid TOML fractional second")

def isZulu (c : Char) : Bool := c = 'Z' || c = 'z'

def isOffsetSign (c : Char) : Bool := c = '+' || c = '-'

def splitOffset (time : List Char) : Except Failure (List Char × Option (List Char)) :=
  if time.getLast?.any isZulu then .ok (time.dropLast, some ['Z'])
  else if 8 < byteLength time then do
    let (front, back) ← cut 8 time
    let offset := back.dropWhile (!isOffsetSign ·)
    if offset = [] then .ok (time, none)
    else .ok (front ++ back.takeWhile (!isOffsetSign ·), some offset)
  else .ok (time, none)

def canonicalOffset (offset : List Char) : Except Failure (List Char) :=
  if offset = ['Z'] ∨ offset = ['z'] then .ok ['Z']
  else if byteLength offset ≠ 6 ∨ charAtByte 3 offset ≠ some ':' then
    .error (.message "invalid TOML date-time offset")
  else do
    let hour ← decimal (← slice 1 3 offset)
    let minute ← decimal (← slice 4 6 offset)
    let sign ← byteAt 0 offset
    if 23 < hour ∨ 59 < minute ∨ !sign.any isOffsetSign then
      .error (.message "TOML date-time offset is outside its valid range")
    else if hour = 0 ∧ minute = 0 then .ok ['Z']
    else .ok offset

def parseDateTime (text : List Char) : Except Failure (TemporalTag × List Char) := do
  let date ← slice 0 10 text
  validateDate date
  if byteLength text = 10 then .ok (.localDate, date)
  else do
    let separator ← byteAt 10 text
    if !separator.any (· ∈ ['T', 't', ' ']) then
      .error (.message "invalid TOML date-time separator")
    else do
      let (_, remainder) ← cut 11 text
      let (time, offset) ← splitOffset remainder
      let time ← parseTime time
      match offset with
      | some offset => do
          let offset ← canonicalOffset offset
          .ok (.offsetDateTime, date ++ 'T' :: (time ++ offset))
      | none => .ok (.localDateTime, date ++ 'T' :: time)

/-- Nothing for a text that does not look like a date or a time. -/
def parseTemporal (text : List Char) : Option (Except Failure (TemporalTag × List Char)) :=
  if 10 ≤ byteLength text ∧ charAtByte 4 text = some '-' ∧ charAtByte 7 text = some '-' then
    some (parseDateTime text)
  else if 8 ≤ byteLength text ∧ charAtByte 2 text = some ':' ∧ charAtByte 5 text = some ':' then
    some (do
      let time ← parseTime text
      .ok (.localTime, time))
  else none

end Telora.Toml
