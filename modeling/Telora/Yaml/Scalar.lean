import Telora.Library.Text
import Telora.Value.IntegerText
import Telora.Value.Value

/-!
# YAML scalars and keys

How the text of a line is cut at a comment and at the colon of a key, and what a plain
or quoted text stands for.
-/

namespace Telora.Yaml

open Library

/-- Two apostrophes stand for one. -/
def unquoteSingle : List Char → List Char
  | '\'' :: '\'' :: rest => '\'' :: unquoteSingle rest
  | c :: rest => c :: unquoteSingle rest
  | [] => []

def simpleEscape (c : Char) : Option Char :=
  if c = '0' then some '\x00'
  else if c = 'a' then some '\x07'
  else if c = 'b' then some '\x08'
  else if c = 't' ∨ c = '\t' then some '\t'
  else if c = 'n' then some '\n'
  else if c = 'v' then some '\x0b'
  else if c = 'f' then some '\x0c'
  else if c = 'r' then some '\r'
  else if c = 'e' then some '\x1b'
  else if c = '"' then some '"'
  else if c = '/' then some '/'
  else if c = '\\' then some '\\'
  else none

/-- How many hexadecimal digits follow an escape. -/
def escapeDigits (c : Char) : Option Nat :=
  if c = 'x' then some 2 else if c = 'u' then some 4 else if c = 'U' then some 8 else none

/-- Read hexadecimal digits into 32 bits. -/
def hexDigits : Nat → Nat → List Char → Option (Nat × List Char)
  | 0, value, text => some (value, text)
  | _ + 1, _, [] => none
  | count + 1, value, c :: rest =>
      if 2 ^ 32 ≤ value * 16 then none
      else (toDigit 16 c).bind fun digit => hexDigits count (value * 16 + digit) rest

/-- Decode the inside of double quotes; every escape takes at least one character. -/
def decodeDouble : Nat → List Char → Option (List Char)
  | _, [] => some []
  | 0, _ => none
  | fuel + 1, c :: rest =>
      if c ≠ '\\' then (c :: ·) <$> decodeDouble fuel rest
      else match rest with
        | [] => none
        | c :: rest =>
            match simpleEscape c, escapeDigits c with
            | some escaped, _ => (escaped :: ·) <$> decodeDouble fuel rest
            | none, some digits => do
                let (value, rest) ← hexDigits digits 0 rest
                if value.isValidChar then (Char.ofNat value :: ·) <$> decodeDouble fuel rest
                else none
            | none, none => none

/-- The content of a quoted text. -/
def decodeQuoted (text : List Char) : Option (List Char) :=
  if byteLength text < 2 then none
  else if text.head? = some '\'' ∧ text.getLast? = some '\'' then
    some (unquoteSingle text.tail.dropLast)
  else if text.head? = some '"' ∧ text.getLast? = some '"' then
    decodeDouble text.length text.tail.dropLast
  else none

def isQuote (c : Char) : Bool := c = '\'' || c = '"'

def nullTexts : List String := ["~", "null", "Null", "NULL"]

def trueTexts : List String := ["true", "True", "TRUE"]

def falseTexts : List String := ["false", "False", "FALSE"]

def infinityTexts : List String := [".inf", ".Inf", ".INF"]

def negativeInfinityTexts : List String := ["-.inf", "-.Inf", "-.INF"]

def nanTexts : List String := [".nan", ".NaN", ".NAN"]

def looksInteger (text : List Char) : Bool :=
  let unsigned := text.dropWhile fun c => c = '+' || c = '-'
  !unsigned.isEmpty &&
    (unsigned.all (fun c => c.isDigit || c = '_') || "0x".toList.isPrefixOf unsigned ||
      "0o".toList.isPrefixOf unsigned)

/-- Remove a text from the front. -/
def stripStart (front text : List Char) : Option (List Char) :=
  if front.isPrefixOf text then some (text.drop front.length) else none

def parseYamlInt (text : List Char) : Except String Int :=
  let normalized := text.filter (· ≠ '_')
  let (negative, unsigned) := match stripStart ['-'] normalized with
    | some unsigned => (true, unsigned)
    | none => (false, normalized)
  let unsigned := (stripStart ['+'] unsigned).getD unsigned
  let (radix, digits) := match stripStart "0x".toList unsigned with
    | some digits => (16, digits)
    | none => match stripStart "0o".toList unsigned with
      | some digits => (8, digits)
      | none => (10, unsigned)
  match fromStrRadix radix digits with
  | none => .error "invalid YAML integer"
  | some magnitude =>
      let value := if negative then -magnitude else magnitude
      if -2 ^ 63 ≤ value ∧ value < 2 ^ 63 then .ok value
      else .error "YAML integer is outside the i64 range"

def looksFloat (text : List Char) : Bool :=
  text.any (· ∈ ['.', 'e', 'E']) && text.any Char.isDigit

/-- The value of the text of a scalar. -/
def parseScalar (text : List Char) : Except String Value :=
  match decodeQuoted text with
  | some content => .ok (.string (String.ofList content))
  | none =>
      if text.head?.any isQuote then .error "invalid quoted YAML String"
      else
        let name := String.ofList text
        if name = "" ∨ name ∈ nullTexts then .ok (.atom (.builtin .none))
        else if name ∈ trueTexts then .ok (.atom (.builtin .true))
        else if name ∈ falseTexts then .ok (.atom (.builtin .false))
        else if name ∈ infinityTexts then .ok (.float (F64.infinite false))
        else if name ∈ negativeInfinityTexts then .ok (.float (F64.infinite true))
        else if name ∈ nanTexts then .ok (.float F64.nan)
        else if looksInteger text then .int <$> parseYamlInt text
        else if looksFloat text then
          match F64.parse (text.filter (· ≠ '_')) with
          | some value => .ok (.float value)
          | none => .error "invalid YAML Float"
        else .ok (.string name)

/-- Whether the core schema reads a plain text as something else than a string. -/
def coreNonString (text : List Char) : Bool :=
  let name := String.ofList text
  name ∈ nullTexts ++ trueTexts ++ falseTexts ++ infinityTexts ++ negativeInfinityTexts ++
    nanTexts || looksInteger text || (F64.parse text).isSome

def parseKey (text : List Char) : Except String String :=
  let text := trim text
  if text = [] then .error "empty YAML mapping key"
  else if text.head?.any (· ∈ ['[', '\x7b', '?']) then .error "YAML mapping keys must be Strings"
  else match decodeQuoted text with
    | some content => .ok (String.ofList content)
    | none =>
        if text.head?.any isQuote ∨ coreNonString text then
          .error "YAML mapping keys must be Strings"
        else .ok (String.ofList text)

/-- The text before a comment; `previous` is the character before. -/
def stripCommentFrom (quote previous : Option Char) : List Char → List Char
  | [] => []
  | c :: rest =>
      match quote with
      | some active => c :: stripCommentFrom (if c = active then none else quote) (some c) rest
      | none =>
          if isQuote c then c :: stripCommentFrom (some c) (some c) rest
          else if c = '#' ∧ previous.all isWhitespaceChar then []
          else c :: stripCommentFrom none (some c) rest

def stripComment (text : List Char) : List Char := stripCommentFrom none none text

/-- Cut a line at the colon of a key, outside of quotes and brackets. -/
def splitMappingFrom (quote : Option Char) (depth : Nat) (escaped : Bool) :
    List Char → Option (List Char × List Char)
  | [] => none
  | c :: rest =>
      let keep (found : Option (List Char × List Char)) := found.map fun (key, rest) =>
        (c :: key, rest)
      if escaped then keep (splitMappingFrom quote depth false rest)
      else if quote = some '"' ∧ c = '\\' then keep (splitMappingFrom quote depth true rest)
      else match quote with
        | some active =>
            keep (splitMappingFrom (if c = active then none else quote) depth false rest)
        | none =>
            if isQuote c then keep (splitMappingFrom (some c) depth false rest)
            else if c = '[' ∨ c = '\x7b' then keep (splitMappingFrom none (depth + 1) false rest)
            else if c = ']' ∨ c = '\x7d' then keep (splitMappingFrom none (depth - 1) false rest)
            else if c = ':' ∧ depth = 0 ∧ rest.head?.all isWhitespaceChar then some ([], rest)
            else keep (splitMappingFrom none depth false rest)

def splitMapping (text : List Char) : Option (List Char × List Char) :=
  splitMappingFrom none 0 false text

def validAnchorName (name : List Char) : Bool :=
  !name.isEmpty && name.all fun c => c.isAlphanum || c = '_' || c = '-'

end Telora.Yaml
