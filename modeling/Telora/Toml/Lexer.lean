import Telora.Library.Spans
import Telora.Toml.Temporal

/-!
# TOML tokens

The lexer of TOML text. Its mode is the depth of square brackets, inside of which a line end is
white space. A date and a time with one space between them are merged into one atom, and the last
line is ended. What an invalid character takes with it is left to the generated automaton, which
is given as a parameter.
-/

namespace Telora.Toml.Lexing

open Library

inductive Token where
  | eof | lBrace | rBrace | lBracket | rBracket | comma | equals | dot | string | atom | newline
  | whitespace | comment | error
  deriving DecidableEq, Repr

def quoteRun (quote : Char) (text : List Char) : Nat := (text.takeWhile (· = quote)).length

/-- What is covered with some more characters in front. -/
def covering (count : Nat) (found : Nat × Bool) : Nat × Bool := (found.1 + count, found.2)

/-- What a string covers behind its opening quotes, and whether it is closed. A skipped byte of a
longer character is followed by bytes that are no quote, no backslash and no line end. -/
def stringEnd (quote : Char) (escaped multiline : Bool) : List Char → Nat × Bool
  | [] => (0, false)
  | c :: rest =>
      if multiline ∧ 3 ≤ quoteRun quote (c :: rest) then
        (min (quoteRun quote (c :: rest)) 5, true)
      else if ¬multiline ∧ c = quote then (1, true)
      else if ¬multiline ∧ (c = '\n' ∨ c = '\r') then (0, false)
      else if escaped ∧ c = '\\' then
        if rest = [] then (1, false)
        else covering 2 (stringEnd quote escaped multiline (rest.drop 1))
      else covering 1 (stringEnd quote escaped multiline rest)
termination_by text => text.length
decreasing_by
  · rw [List.length_drop, List.length_cons]
    omega
  · exact Nat.lt_succ_self _

/-- The callback behind an opening quote. -/
def scanString (quote : Char) (escaped : Bool) (remainder : List Char) : Nat × Bool :=
  if 2 ≤ quoteRun quote remainder then
    covering 2 (stringEnd quote escaped true (remainder.drop 2))
  else stringEnd quote escaped false remainder

/-- What an atom covers behind a character of its own: `[…]*(\.[…]+)*`. -/
def atomTail : List Char → Nat
  | [] => 0
  | c :: rest =>
      if isAtomChar c then atomTail rest + 1
      else if c = '.' then
        match rest with
        | [] => 0
        | d :: rest => if isAtomChar d then atomTail rest + 2 else 0
      else 0

def isBlank (c : Char) : Bool := c = ' ' ∨ c = '\t'

def isLineEnd (c : Char) : Bool := c = '\r' ∨ c = '\n'

def punctuation (c : Char) : Option Token :=
  if c = '{' then some .lBrace
  else if c = '}' then some .rBrace
  else if c = '[' then some .lBracket
  else if c = ']' then some .rBracket
  else if c = ',' then some .comma
  else if c = '=' then some .equals
  else if c = '.' then some .dot
  else none

/-- The token of a string that is closed or not. -/
def stringToken (found : Nat × Bool) : Token × Nat :=
  (if found.2 then .string else .error, found.1)

variable (errorLength : List Char → Nat)

/-- The token at the start of a text. -/
def scanToken : List Char → Token × Nat
  | [] => (.error, 0)
  | c :: rest =>
      match punctuation c with
      | some token => (token, 0)
      | none =>
          if c = '"' then stringToken (scanString '"' true rest)
          else if c = '\'' then stringToken (scanString '\'' false rest)
          else if isAtomChar c then (.atom, atomTail rest)
          else if c = '\n' then (.newline, 0)
          else if c = '\r' ∧ rest.head? = some '\n' then (.newline, 1)
          else if isBlank c then (.whitespace, (rest.takeWhile isBlank).length)
          else if c = '#' then (.comment, (rest.takeWhile (!isLineEnd ·)).length)
          else (.error, errorLength (c :: rest))

/-- A line end inside brackets is white space. -/
def bracketed (depth : Nat) (token : Token) : Token :=
  if token = .newline ∧ 0 < depth then .whitespace else token

def nextDepth (depth : Nat) (token : Token) : Nat :=
  match token with
  | .lBracket => depth + 1
  | .rBracket => depth - 1
  | _ => depth

def lexer : Lexer Nat Token where
  scan depth text := (bracketed depth (scanToken errorLength text).1, (scanToken errorLength text).2)
  next := nextDepth

def looksLikeDate (value : List Char) : Bool :=
  (utf8 value).length = 10 ∧ (utf8 value)[4]? = some 0x2d ∧ (utf8 value)[7]? = some 0x2d

def looksLikeTime (value : List Char) : Bool :=
  8 ≤ (utf8 value).length ∧ (utf8 value)[2]? = some 0x3a ∧ (utf8 value)[5]? = some 0x3a

def isDateTime (date space time : Lexeme Token) : Bool :=
  date.token = .atom ∧ space.token = .whitespace ∧ time.token = .atom ∧ space.text = [' '] ∧
    looksLikeDate date.text ∧ looksLikeTime time.text

/-- A date, one space and a time are one atom. -/
def mergeDates : List (Lexeme Token) → List (Lexeme Token)
  | date :: space :: time :: rest =>
      if isDateTime date space time then
        ⟨.atom, date.text ++ (space.text ++ time.text)⟩ :: mergeDates rest
      else date :: mergeDates (space :: time :: rest)
  | lexemes => lexemes

/-- The last line is ended. -/
def endLine (lexemes : List (Lexeme Token)) : List (Lexeme Token) :=
  if lexemes.getLast?.map (·.token) = some .newline then lexemes else lexemes ++ [⟨.newline, []⟩]

def tokenDiagnostic (token : Token) : Option String :=
  if token = .error then some "invalid TOML token" else none

def tokenize (text : List Char) : Lexed Token :=
  let lexemes := (lexer errorLength).tokens 0 text
  let merged := endLine (mergeDates lexemes)
  ⟨merged.map (·.token), Lexer.spansFrom 0 merged, Lexer.messagesFrom tokenDiagnostic 0 lexemes⟩

inductive ScanMode where
  | normal
  | basic
  | literal
  | multilineBasic
  | multilineLiteral
  | comment
  deriving DecidableEq, Repr

/-- One round of the scan at a character: the mode and the depth behind it, and how many
characters behind it are skipped. -/
def scanAt (mode : ScanMode) (depth : Nat) (c : Char) (rest : List Char) : ScanMode × Nat × Nat :=
  match mode with
  | .normal =>
      if c = '#' then (.comment, depth, 0)
      else if c = '[' then (.normal, depth + 1, 0)
      else if c = ']' then (.normal, depth - 1, 0)
      else if c = '"' then
        if 3 ≤ quoteRun '"' (c :: rest) then (.multilineBasic, depth, 2) else (.basic, depth, 0)
      else if c = '\'' then
        if 3 ≤ quoteRun '\'' (c :: rest) then (.multilineLiteral, depth, 2)
        else (.literal, depth, 0)
      else (.normal, depth, 0)
  | .comment => if c = '\n' then (.normal, depth, 0) else (.comment, depth, 0)
  | .basic =>
      if c = '\\' then (.basic, depth, if rest = [] then 0 else 1)
      else if c = '"' then (.normal, depth, 0)
      else (.basic, depth, 0)
  | .literal => if c = '\'' then (.normal, depth, 0) else (.literal, depth, 0)
  | .multilineBasic =>
      if 3 ≤ quoteRun '"' (c :: rest) then (.normal, depth, min (quoteRun '"' (c :: rest)) 5 - 1)
      else if c = '\\' then (.multilineBasic, depth, if rest = [] then 0 else 1)
      else (.multilineBasic, depth, 0)
  | .multilineLiteral =>
      if 3 ≤ quoteRun '\'' (c :: rest) then (.normal, depth, min (quoteRun '\'' (c :: rest)) 5 - 1)
      else (.multilineLiteral, depth, 0)

/-- A line end outside strings and brackets. -/
def isStable (mode : ScanMode) (depth : Nat) (c : Char) : Bool :=
  (mode = .normal ∨ mode = .comment) ∧ depth = 0 ∧ c = '\n'

/-- The loop of the scan from `index` on, with the last stable index so far. -/
def boundaryFrom (index stable : Nat) (mode : ScanMode) (depth : Nat) : List Char → Nat
  | [] => stable
  | c :: rest =>
      let (next, deeper, skip) := scanAt mode depth c rest
      boundaryFrom (index + c.utf8Size + byteLength (rest.take skip))
        (if isStable mode depth c then index + c.utf8Size else stable) next deeper
        (rest.drop skip)
termination_by text => text.length
decreasing_by
  rw [List.length_drop, List.length_cons]
  omega

def stableStatementBoundary (source : List Char) : Nat := boundaryFrom 0 0 .normal 0 source

/-- The reports so far, with the text that is not committed and where it starts. -/
structure FragmentState where
  reported : Lexed Token
  pending : List Char
  pendingStart : Nat

def appendSegment (state : FragmentState) (segment : List Char) : Lexed Token :=
  state.reported.extend state.pendingStart (tokenize errorLength segment)

/-- One more fragment; nothing is left of a run that panics. -/
def fragmentStep (state : FragmentState) (fragment : List Char) : Option FragmentState :=
  let pending := state.pending ++ fragment
  let boundary := stableStatementBoundary pending
  if boundary = 0 then some { state with pending }
  else
    (splitAtByte boundary pending).map fun sides =>
      { reported := appendSegment errorLength state sides.1
        pending := sides.2
        pendingStart := state.pendingStart + boundary }

/-- What is pending after the last fragment is a segment of its own. -/
def finishFragments (sourceLength : Nat) (state : FragmentState) : Lexed Token :=
  if state.pending ≠ [] then appendSegment errorLength state state.pending
  else if state.reported.tokens.getLast? ≠ some .newline then
    { state.reported with
      tokens := state.reported.tokens ++ [.newline]
      spans := state.reported.spans ++ [⟨sourceLength, sourceLength⟩] }
  else state.reported

def tokenizeFragments (fragments : List (List Char)) (sourceLength : Nat) : Option (Lexed Token) :=
  (fragments.foldlM (fragmentStep errorLength) ⟨⟨[], [], []⟩, [], 0⟩).map
    (finishFragments errorLength sourceLength)

end Telora.Toml.Lexing
