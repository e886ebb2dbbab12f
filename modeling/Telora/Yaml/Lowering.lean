import Telora.Yaml.Node

/-!
# Reading YAML blocks

The lines of a document and the three functions that read them: a block is a sequence, a
mapping or a value on one line, told apart by its first line and bounded by indentation.
The lines that are left stand for the position in all lines.
-/

namespace Telora.Yaml

open Library

structure Line where
  start : Nat
  stop : Nat
  indent : Nat
  content : List Char
  deriving DecidableEq, Repr

namespace Line

def ofText (start : Nat) (text : List Char) : Line :=
  let indent := (text.takeWhile (· = ' ')).length
  ⟨start, start + byteLength text, indent, text.drop indent⟩

/-- An empty line, or one with a comment alone. -/
def isTrivia (line : Line) : Bool :=
  let content := trim line.content
  content.isEmpty || content.head? = some '#'

def isBlank (line : Line) : Bool := (trim line.content).isEmpty

end Line

/-- Cut the complete lines off a text that comes after `pending`. -/
def completeLines (start : Nat) (pending : List Char) :
    List Char → List Line × Nat × List Char
  | [] => ([], start, pending)
  | c :: rest =>
      if c = '\n' then
        let (lines, state) := completeLines (start + byteLength pending + 1) [] rest
        (.ofText start (pending.rdropWhile (· = '\r')) :: lines, state)
      else completeLines start (pending ++ [c]) rest

def fragmentLines (start : Nat) (pending : List Char) : List (List Char) → List Line
  | [] => if pending = [] then [] else [.ofText start (pending.rdropWhile (· = '\r'))]
  | fragment :: rest =>
      let (lines, start, pending) := completeLines start pending fragment
      lines ++ fragmentLines start pending rest

/-- The lines of a document. -/
def documentLines (fragments : List (List Char)) : List Line :=
  let lines := fragmentLines 0 [] fragments
  if byteLength fragments.flatten = 0 then lines ++ [⟨0, 0, 0, []⟩] else lines

/-- Lines joined by spaces, but for blank and more indented ones. -/
def foldLines : List (List Char × Bool) → List Char
  | [] => []
  | [(line, _)] => line
  | (line, more) :: (next, nextMore) :: rest =>
      let joint := if line.isEmpty || next.isEmpty || more || nextMore then '\n' else ' '
      line ++ joint :: foldLines ((next, nextMore) :: rest)

/-- The lines of a block scalar, whether each is more indented, the lines behind them, and
where they end. -/
def blockPieces (contentIndent parentIndent stop : Nat) :
    List Line → List (List Char × Bool) × List Line × Nat
  | [] => ([], [], stop)
  | line :: rest =>
      if !line.isBlank && line.indent < contentIndent then ([], line :: rest, stop)
      else
        let piece : List Char × Bool :=
          if line.indent ≤ parentIndent && line.isBlank then ([], false)
          else
            let extra := line.indent - contentIndent
            (List.replicate extra ' ' ++ line.content, 0 < extra)
        let (pieces, state) := blockPieces contentIndent parentIndent line.stop rest
        (piece :: pieces, state)

/-- The line breaks at the end of a block scalar. -/
def chompEnd (chomping : Option Char) (hasPieces : Bool) (value : List Char) : List Char :=
  match chomping with
  | some '-' => value.rdropWhile (· = '\n')
  | some '+' => value ++ ['\n']
  | _ =>
      let value := value.rdropWhile (· = '\n')
      if hasPieces then value ++ ['\n'] else value

/-- The lines that are left, the anchors so far, and the work of the aliases so far. -/
structure Reader where
  remaining : List Line
  anchors : List (String × YamlNode)
  aliasExpansionWork : Nat

namespace Reader

def skipTrivia (reader : Reader) : Reader :=
  { reader with remaining := reader.remaining.dropWhile Line.isTrivia }

end Reader

section Reading

variable (source sourceLength : Nat)

def location (start stop : Nat) : Loc := ⟨source, start, stop⟩

def lineError {α : Type} (line : Line) (message : String) : Except Diagnostic α :=
  .error (.error message (location source line.start line.stop))

def eofError {α : Type} (message : String) : Except Diagnostic α :=
  .error (.error message (location source sourceLength sourceLength))

def noneValue : Value := .atom (.builtin .none)

def parseBlockScalar (line : Line) (header : List Char) (parentIndent : Nat) (reader : Reader) :
    Except Diagnostic (YamlNode × Reader) :=
  let indicators := trim header.tail
  let isIndicator := fun c => c = '+' || c = '-' || ('1' ≤ c && c ≤ '9')
  if 2 < byteLength indicators || !indicators.all isIndicator then
    lineError source line "invalid YAML block scalar header"
  else
    let chomping := indicators.find? fun c => c = '+' || c = '-'
    let explicit := (indicators.findSome? (toDigit 10)).map (parentIndent + ·)
    let inferred := (reader.remaining.find? fun candidate =>
      !candidate.isBlank && parentIndent < candidate.indent).map (·.indent)
    let contentIndent := (explicit.or inferred).getD (parentIndent + 1)
    let (pieces, remaining, stop) :=
      blockPieces contentIndent parentIndent line.stop reader.remaining
    let value :=
      if header.head? = some '|' then List.intercalate ['\n'] (pieces.map (·.1))
      else foldLines pieces
    .ok (.scalar (.string (String.ofList (chompEnd chomping (!pieces.isEmpty) value)))
      (location source line.start stop), { reader with remaining })

/-- An alias expands the value of its anchor, at the location of the alias. -/
def parseAlias (line : Line) (name : List Char) (text : List Char) (offset : Nat)
    (reader : Reader) : Except Diagnostic (YamlNode × Reader) :=
  if !validAnchorName name then lineError source line "invalid YAML alias"
  else
    match reader.anchors.lookup (String.ofList name) with
    | none =>
        lineError source line ("unknown or cyclic YAML alias " ++ (String.ofList name).quote)
    | some anchored =>
        let work := reader.aliasExpansionWork + anchored.nodeCount
        if maxAliasExpansions < work then
          lineError source line "YAML alias expansion limit exceeded"
        else if maxAliasDepth < anchored.nodeDepth then
          lineError source line "YAML alias depth limit exceeded"
        else .ok (anchored.setNodeLocation (location source offset (offset + byteLength text)),
          { reader with aliasExpansionWork := work })

/-- A value on one line; every anchor in front of it takes at least one character. -/
def parseInlineWith : Nat → Line → List Char → Nat → Reader →
    Except Diagnostic (YamlNode × Reader)
  | 0, line, _, _, _ => lineError source line "reader is out of fuel"
  | fuel + 1, line, text, offset, reader =>
      let text := trim (stripComment text)
      if text.head? = some '!' then lineError source line "custom YAML tags are not supported"
      else if text.head? = some '*' then parseAlias source line text.tail text offset reader
      else if text.head? = some '&' then
        let anchor := text.tail
        let name := anchor.takeWhile fun c => !isWhitespaceChar c
        let rest := trim (anchor.drop name.length)
        if !validAnchorName name || rest.isEmpty then
          lineError source line "YAML anchor must name a value"
        else do
          let (node, reader) ←
            parseInlineWith fuel line rest (offset + byteLength name + 1) reader
          let name := String.ofList name
          if (reader.anchors.lookup name).isSome then
            lineError source line ("duplicate YAML anchor " ++ name.quote)
          else return (node, { reader with anchors := (name, node) :: reader.anchors })
      else if text.head? = some '[' ∨ text.head? = some '\x7b' then do
        let (node, work) ← parseFlow source offset reader.anchors
          (maxAliasExpansions - reader.aliasExpansionWork) text
        return (node, { reader with aliasExpansionWork := reader.aliasExpansionWork + work })
      else
        let location := location source offset (offset + byteLength text)
        match parseScalar text with
        | .ok value => .ok (.scalar value location, reader)
        | .error message => .error (.error message location)

def parseInlineValue (line : Line) (text : List Char) (offset : Nat) (reader : Reader) :
    Except Diagnostic (YamlNode × Reader) :=
  parseInlineWith source (text.length + 1) line text offset reader

/-- The text behind the dash of an item. -/
def itemText (content : List Char) : Option (List Char) :=
  match stripStart ['-'] content with
  | some rest => if rest = [] ∨ rest.head? = some ' ' then some rest else none
  | none => none

/-- The next entry of a mapping: the one that is pending, or the next line if it holds one. -/
def nextEntry (indent : Nat) (pending : Option (Line × List Char)) (reader : Reader) :
    Option (Line × List Char × Reader) :=
  match pending with
  | some (line, content) => some (line, content, reader)
  | none =>
      match reader.remaining with
      | [] => none
      | line :: rest =>
          if line.indent ≠ indent || (splitMapping line.content).isNone then none
          else some (line, line.content, { reader with remaining := rest })

/-- The key of an entry, its location and the text behind its colon. -/
def parseEntryKey (seen : List (String × Loc)) (line : Line) (content : List Char) :
    Except Diagnostic (String × Loc × List Char) :=
  match splitMapping content with
  | none => lineError source line "expected YAML mapping entry"
  | some (text, rest) =>
      let offset := line.start + line.indent
      let location := location source offset (offset + byteLength text)
      match parseKey text with
      | .error message => .error (.error message location)
      | .ok key =>
          if key = "<<" then lineError source line "YAML merge keys are not supported"
          else match seen.lookup key with
            | some previous =>
                .error ((Diagnostic.error ("duplicate YAML key " ++ key.quote)
                  location).withSecondary "first defined here" previous)
            | none => .ok (key, location, trimStart rest)

mutual

/-- A block at an indentation; the fuel bounds the lines that are left. -/
def parseBlock : Nat → Nat → Reader → Except Diagnostic (YamlNode × Reader)
  | 0, _, _ => eofError source sourceLength "reader is out of fuel"
  | fuel + 1, indent, reader =>
      let reader := reader.skipTrivia
      match reader.remaining with
      | [] => eofError source sourceLength "expected YAML value"
      | line :: rest =>
          if line.indent ≠ indent then lineError source line "inconsistent YAML indentation"
          else if line.content = ['-'] ∨ ['-', ' '].isPrefixOf line.content then
            parseSequence fuel indent (line.start + indent) reader
          else if (splitMapping line.content).isSome then
            parseMapping fuel indent (line.start + indent) none reader
          else
            parseInlineValue source line line.content (line.start + indent)
              { reader with remaining := rest }

/-- A sequence at an indentation, from its start. -/
def parseSequence : Nat → Nat → Nat → Reader → Except Diagnostic (YamlNode × Reader)
  | 0, _, _, _ => eofError source sourceLength "reader is out of fuel"
  | fuel + 1, indent, start, reader => do
      let (values, reader) ← parseItems fuel indent reader
      let stop := (values.getLast?.map YamlNode.nodeEnd).getD start
      return (.sequence values (location source start stop), reader)

def parseItems : Nat → Nat → Reader → Except Diagnostic (List YamlNode × Reader)
  | 0, _, _ => eofError source sourceLength "reader is out of fuel"
  | fuel + 1, indent, reader =>
      let reader := reader.skipTrivia
      match reader.remaining with
      | [] => .ok ([], reader)
      | line :: rest =>
          if line.indent ≠ indent then .ok ([], reader)
          else match itemText line.content with
            | none => .ok ([], reader)
            | some text => do
                let (value, reader) ← parseItem fuel indent line (trimStart text)
                  { reader with remaining := rest }
                let (values, reader) ← parseItems fuel indent reader
                return (value :: values, reader)

/-- The value of an item: below the dash, or on its line. -/
def parseItem : Nat → Nat → Line → List Char → Reader →
    Except Diagnostic (YamlNode × Reader)
  | 0, _, _, _, _ => eofError source sourceLength "reader is out of fuel"
  | fuel + 1, indent, line, text, reader =>
      if text = [] then
        let reader := reader.skipTrivia
        match reader.remaining with
        | [] => lineError source line "YAML sequence item has no value"
        | next :: _ =>
            if next.indent ≤ indent then lineError source line "YAML sequence item has no value"
            else parseBlock fuel next.indent reader
      else if (splitMapping text).isSome then
        parseMapping fuel (indent + 2) (line.start + line.indent + 2) (some (line, text)) reader
      else parseInlineValue source line text (line.start + indent + 2) reader

/-- A mapping at an indentation, from its start. -/
def parseMapping : Nat → Nat → Nat → Option (Line × List Char) → Reader →
    Except Diagnostic (YamlNode × Reader)
  | 0, _, _, _, _ => eofError source sourceLength "reader is out of fuel"
  | fuel + 1, indent, start, pending, reader => do
      let (entries, reader) ← parseEntries fuel indent [] pending reader
      let stop := (entries.getLast?.map (·.2.2.nodeEnd)).getD start
      return (.mapping entries (location source start stop), reader)

def parseEntries : Nat → Nat → List (String × Loc) → Option (Line × List Char) → Reader →
    Except Diagnostic (List (String × Loc × YamlNode) × Reader)
  | 0, _, _, _, _ => eofError source sourceLength "reader is out of fuel"
  | fuel + 1, indent, seen, pending, reader =>
      match nextEntry indent pending reader.skipTrivia with
      | none => .ok ([], reader.skipTrivia)
      | some (line, content, reader) => do
          let (key, keyLocation, rest) ← parseEntryKey source seen line content
          let (value, reader) ← parseEntryValue fuel indent line keyLocation rest reader
          let (entries, reader) ←
            parseEntries fuel indent ((key, keyLocation) :: seen) none reader
          return ((key, keyLocation, value) :: entries, reader)

/-- The value of an entry: below its key, a block scalar, or on its line. -/
def parseEntryValue : Nat → Nat → Line → Loc → List Char → Reader →
    Except Diagnostic (YamlNode × Reader)
  | 0, _, _, _, _, _ => eofError source sourceLength "reader is out of fuel"
  | fuel + 1, indent, line, keyLocation, rest, reader =>
      if rest = [] then
        let reader := reader.skipTrivia
        match reader.remaining with
        | [] => .ok (.scalar noneValue keyLocation, reader)
        | next :: _ =>
            if next.indent ≤ indent then .ok (.scalar noneValue keyLocation, reader)
            else parseBlock fuel next.indent reader
      else if rest.head? = some '|' ∨ rest.head? = some '>' then
        parseBlockScalar source line rest indent reader
      else parseInlineValue source line rest (line.stop - byteLength rest) reader

end

/-- The reader at the first line, behind a document marker. -/
def rootReader (lines : List Line) : Reader :=
  let reader := Reader.skipTrivia ⟨lines, [], 0⟩
  if reader.remaining.head?.map (fun line => trim line.content) = some ['-', '-', '-'] then
    Reader.skipTrivia { reader with remaining := reader.remaining.tail }
  else reader

/-- The root of a document; the fuel is enough for all its lines. -/
def parseRoot (reader : Reader) : Except Diagnostic (YamlNode × Reader) :=
  match reader.remaining with
  | [] => .ok (.scalar noneValue (location source 0 0), reader)
  | line :: _ =>
      parseBlock source sourceLength (8 * reader.remaining.length + 6) line.indent reader

/-- The root of the lines of a document, which holds all of them. -/
def lowerLines (lines : List Line) : Except Diagnostic YamlNode :=
  match lines.find? fun line => line.content.head? = some '\t' with
  | some line => lineError source line "tabs cannot be used for YAML indentation"
  | none => do
      let (node, reader) ← parseRoot source sourceLength (rootReader lines)
      match reader.skipTrivia.remaining with
      | [] => return node
      | line :: _ => lineError source line "YAML module must contain exactly one document"

end Reading

/-- The value of a document, cut into fragments as its rope is. -/
def lower (source : Nat) (fragments : List (List Char)) : Except Diagnostic Value := do
  let sourceLength := byteLength fragments.flatten
  let node ← lowerLines source sourceLength (documentLines fragments)
  match node.materialize with
  | .ok value => return value
  | .error message => .error (.error message (location source 0 sourceLength))

end Telora.Yaml
