import Telora.Yaml.Lowering

/-!
# Outlines

What is written in a document, before any alias is replaced: the reader of lines runs over the
document and keeps of each key and of each value where it is taken to stand, which text it is
and what of the source the reader did not count. An alias stays in the outline, with the outline
of its anchor.
-/

namespace Telora.Yaml

open Library

/-- A text of the document: where it is taken to stand, the text in front of it that is not
counted, the text itself and the white space behind it that is taken to belong to it. -/
structure Mark where
  location : Loc
  skipped : List Char
  text : List Char
  padding : List Char

structure WrittenKey where
  name : String
  mark : Mark

/-- A value as it is written. Values in flow style and on one line have a text; a block scalar
starts behind its key, and a block with its first line. -/
inductive Written where
  | absent (location : Loc)
  | scalar (value : Value) (mark : Mark)
  | folded (value : Value) (location : Loc) (skipped : List Char)
  | flowSequence (values : List Written) (mark : Mark)
  | flowMapping (entries : List (WrittenKey × Written)) (mark : Mark)
  | sequence (values : List Written) (location : Loc)
  | mapping (entries : List (WrittenKey × Written)) (location : Loc) (skipped : List Char)
  | reference (target : Written) (inFlow : Bool) (mark : Mark)

namespace Written

mutual

/-- The node of an outline: an alias has the location of its anchor in flow style, and its own
in block style. -/
def expand : Written → YamlNode
  | absent location => .scalar noneValue location
  | scalar value mark => .scalar value mark.location
  | folded value location _ => .scalar value location
  | flowSequence values mark => .sequence (expandValues values) mark.location
  | flowMapping entries mark => .mapping (expandEntries entries) mark.location
  | sequence values location => .sequence (expandValues values) location
  | mapping entries location _ => .mapping (expandEntries entries) location
  | reference target inFlow mark =>
      if inFlow then target.expand else target.expand.setNodeLocation mark.location

def expandValues : List Written → List YamlNode
  | [] => []
  | value :: rest => value.expand :: expandValues rest

def expandEntries : List (WrittenKey × Written) → List (String × Loc × YamlNode)
  | [] => []
  | (key, value) :: rest => (key.name, key.mark.location, value.expand) :: expandEntries rest

end

end Written

def expandAnchors (anchors : List (String × Written)) : List (String × YamlNode) :=
  anchors.map fun anchor => (anchor.1, anchor.2.expand)

section Flow

variable (source offset : Nat) (skipped : List Char) (anchors : List (String × Written))
  (aliasLimit : Nat)

/-- The mark of the text between two states of the reader. -/
def flowMark (reader next : FlowReader) : Mark :=
  let text := reader.text.take (reader.text.length - next.text.length)
  ⟨flowLoc source offset reader.pos next.pos, skipped, trim text,
    text.rtakeWhile isWhitespaceChar⟩

def outlineFlowScalar (reader : FlowReader) : Option (Written × FlowReader) :=
  match flowScalar source offset (expandAnchors anchors) aliasLimit reader with
  | .error _ => none
  | .ok (node, next) =>
      let mark := flowMark source offset skipped reader next
      match stripStart ['*'] mark.text, node with
      | some name, _ => (anchors.lookup (String.ofList name)).map fun target =>
          (.reference target true mark, next)
      | none, .scalar value _ => some (.scalar value mark, next)
      | none, _ => none

def outlineFlowKey (seen : List (String × Loc)) (reader : FlowReader) :
    Option (WrittenKey × FlowReader) :=
  match flowKey source offset seen reader with
  | .error _ => none
  | .ok (name, _, next) =>
      let text := FlowReader.scalarLength [':'] none reader.text
      some (⟨name, flowMark source offset skipped reader (reader.advance text)⟩, next)

mutual

def outlineFlow : Nat → FlowReader → Option (Written × FlowReader)
  | 0, _ => none
  | fuel + 1, reader =>
      let reader := reader.ws
      match reader.text.head? with
      | some '[' => (outlineFlowItems fuel (reader.advance ['['])).map fun (values, next) =>
          (.flowSequence values (flowMark source offset skipped reader next), next)
      | some '\x7b' =>
          (outlineFlowEntries fuel [] (reader.advance ['\x7b'])).map fun (entries, next) =>
            (.flowMapping entries (flowMark source offset skipped reader next), next)
      | _ => outlineFlowScalar source offset skipped anchors aliasLimit reader

def outlineFlowItems : Nat → FlowReader → Option (List Written × FlowReader)
  | 0, _ => none
  | fuel + 1, reader =>
      match reader.ws.take ']' with
      | some next => some ([], next)
      | none => do
          let (value, next) ← outlineFlow fuel reader.ws
          match next.ws.take ']' with
          | some next => some ([value], next)
          | none => do
              let next ← (flowExpect source offset next.ws ',').toOption
              let (values, next) ← outlineFlowItems fuel next
              some (value :: values, next)

def outlineFlowEntries : Nat → List (String × Loc) → FlowReader →
    Option (List (WrittenKey × Written) × FlowReader)
  | 0, _, _ => none
  | fuel + 1, seen, reader =>
      match reader.ws.take '\x7d' with
      | some next => some ([], next)
      | none => do
          let (key, next) ← outlineFlowKey source offset skipped seen reader.ws
          let (value, next) ← outlineFlow fuel next
          match next.ws.take '\x7d' with
          | some next => some ([(key, value)], next)
          | none => do
              let next ← (flowExpect source offset next.ws ',').toOption
              let (entries, next) ←
                outlineFlowEntries fuel ((key.name, key.mark.location) :: seen) next
              some ((key, value) :: entries, next)

end

end Flow

/-- The lines that are left, the outlines of the anchors, and the work of the aliases. -/
structure Outliner where
  remaining : List Line
  anchors : List (String × Written)
  work : Nat

namespace Outliner

def reader (state : Outliner) : Reader :=
  ⟨state.remaining, expandAnchors state.anchors, state.work⟩

def skipTrivia (state : Outliner) : Outliner :=
  { state with remaining := state.remaining.dropWhile Line.isTrivia }

end Outliner

section Lines

variable (source : Nat)

/-- The outline of a value on one line, with what was not counted in front of it. -/
def outlineInline : Nat → Line → List Char → Nat → List Char → Outliner →
    Option (Written × Outliner)
  | 0, _, _, _, _, _ => none
  | fuel + 1, line, text, offset, skipped, state =>
      let skipped := skipped ++ (stripComment text).takeWhile isWhitespaceChar
      let text := trim (stripComment text)
      let mark : Mark := ⟨location source offset (offset + byteLength text), skipped, text, []⟩
      if text.head? = some '*' then
        (state.anchors.lookup (String.ofList text.tail)).map fun target =>
          let work := state.work + target.expand.nodeCount
          (.reference target false mark, { state with work })
      else if text.head? = some '&' then
        let anchor := text.tail
        let name := anchor.takeWhile fun c => !isWhitespaceChar c
        let gap := (anchor.drop name.length).takeWhile isWhitespaceChar
        (outlineInline fuel line (trim (anchor.drop name.length)) (offset + byteLength name + 1)
          (skipped ++ gap) state).map fun (value, state) =>
            (value, { state with anchors := (String.ofList name, value) :: state.anchors })
      else if text.head? = some '[' ∨ text.head? = some '\x7b' then
        (outlineFlow source offset skipped state.anchors (maxAliasExpansions - state.work)
          (2 * text.length + 2) ⟨text, 0, 0⟩).map fun (value, flow) =>
            (value, { state with work := state.work + flow.aliasWork })
      else (parseScalar text).toOption.map fun value => (.scalar value mark, state)

def outlineInlineValue (line : Line) (text : List Char) (offset : Nat) (skipped : List Char)
    (state : Outliner) : Option (Written × Outliner) :=
  outlineInline source (text.length + 1) line text offset skipped state

/-- A key, with what is in front of it on the line of an item, and the text behind it. -/
def outlineKey (seen : List (String × Loc)) (line : Line) (lead content : List Char) :
    Option (WrittenKey × List Char) :=
  match parseEntryKey source seen line content, splitMapping content with
  | .ok (name, location, rest), some (raw, _) =>
      some (⟨name, ⟨location, lead ++ raw.takeWhile isWhitespaceChar, trim raw,
        (trimStart raw).rtakeWhile isWhitespaceChar⟩⟩, rest)
  | _, _ => none

/-- A block scalar: the line in front of its header is not counted. -/
def outlineBlockScalar (line : Line) (header : List Char) (indent : Nat) (state : Outliner) :
    Option (Written × Outliner) :=
  match parseBlockScalar source line header indent state.reader with
  | .ok (.scalar value location, reader) =>
      let front := line.content.take (line.content.length - header.length)
      some (.folded value location (List.replicate line.indent ' ' ++ front),
        { state with remaining := reader.remaining })
  | _ => none

mutual

def outlineBlock : Nat → Nat → Outliner → Option (Written × Outliner)
  | 0, _, _ => none
  | fuel + 1, indent, state =>
      match state.skipTrivia.remaining with
      | [] => none
      | line :: rest =>
          if line.indent ≠ indent then none
          else if line.content = ['-'] ∨ ['-', ' '].isPrefixOf line.content then
            outlineSequence fuel indent (line.start + indent) state.skipTrivia
          else if (splitMapping line.content).isSome then
            outlineMapping fuel indent (line.start + indent)
              (line.content.takeWhile isWhitespaceChar) none state.skipTrivia
          else
            outlineInlineValue source line line.content (line.start + indent) []
              { state.skipTrivia with remaining := rest }

def outlineSequence : Nat → Nat → Nat → Outliner → Option (Written × Outliner)
  | 0, _, _, _ => none
  | fuel + 1, indent, start, state =>
      (outlineItems fuel indent state).map fun (values, state) =>
        let stop := (values.getLast?.map fun value => value.expand.nodeEnd).getD start
        (.sequence values (location source start stop), state)

def outlineItems : Nat → Nat → Outliner → Option (List Written × Outliner)
  | 0, _, _ => none
  | fuel + 1, indent, state =>
      match state.skipTrivia.remaining with
      | [] => some ([], state.skipTrivia)
      | line :: rest =>
          if line.indent ≠ indent then some ([], state.skipTrivia)
          else match itemText line.content with
            | none => some ([], state.skipTrivia)
            | some text => do
                let (value, state) ← outlineItem fuel indent line text
                  { state.skipTrivia with remaining := rest }
                let (values, state) ← outlineItems fuel indent state
                some (value :: values, state)

/-- The white space behind the dash of an item is counted as one space. -/
def outlineItem : Nat → Nat → Line → List Char → Outliner → Option (Written × Outliner)
  | 0, _, _, _, _ => none
  | fuel + 1, indent, line, behind, state =>
      let text := trimStart behind
      let gap := behind.takeWhile isWhitespaceChar
      if text = [] then
        match state.skipTrivia.remaining with
        | [] => none
        | next :: _ =>
            if next.indent ≤ indent then none else outlineBlock fuel next.indent state.skipTrivia
      else if (splitMapping text).isSome then
        outlineMapping fuel (indent + 2) (line.start + line.indent + 2) gap.tail
          (some (line, '-' :: gap, text)) state
      else outlineInlineValue source line text (line.start + indent + 2) gap.tail state

def outlineMapping : Nat → Nat → Nat → List Char → Option (Line × List Char × List Char) →
    Outliner → Option (Written × Outliner)
  | 0, _, _, _, _, _ => none
  | fuel + 1, indent, start, skipped, pending, state =>
      (outlineEntries fuel indent [] pending state).map fun (entries, state) =>
        let stop := (entries.getLast?.map fun entry => entry.2.expand.nodeEnd).getD start
        (.mapping entries (location source start stop) skipped, state)

def outlineEntries : Nat → Nat → List (String × Loc) → Option (Line × List Char × List Char) →
    Outliner → Option (List (WrittenKey × Written) × Outliner)
  | 0, _, _, _, _ => none
  | fuel + 1, indent, seen, pending, state =>
      let lead := (pending.map (·.2.1)).getD []
      match nextEntry indent (pending.map fun entry => (entry.1, entry.2.2))
          state.skipTrivia.reader with
      | none => some ([], state.skipTrivia)
      | some (line, content, reader) => do
          let (key, rest) ← outlineKey source seen line lead content
          let (value, state) ← outlineEntryValue fuel indent line key.mark.location rest
            { state.skipTrivia with remaining := reader.remaining }
          let (entries, state) ←
            outlineEntries fuel indent ((key.name, key.mark.location) :: seen) none state
          some ((key, value) :: entries, state)

def outlineEntryValue : Nat → Nat → Line → Loc → List Char → Outliner →
    Option (Written × Outliner)
  | 0, _, _, _, _, _ => none
  | fuel + 1, indent, line, keyLocation, rest, state =>
      if rest = [] then
        match state.skipTrivia.remaining with
        | [] => some (.absent keyLocation, state.skipTrivia)
        | next :: _ =>
            if next.indent ≤ indent then some (.absent keyLocation, state.skipTrivia)
            else outlineBlock fuel next.indent state.skipTrivia
      else if rest.head? = some '|' ∨ rest.head? = some '>' then
        outlineBlockScalar source line rest indent state
      else outlineInlineValue source line rest (line.stop - byteLength rest) [] state

end

/-- The outline of the root of a document. -/
def outlineRoot (state : Outliner) : Option (Written × Outliner) :=
  match state.remaining with
  | [] => some (.absent (location source 0 0), state)
  | line :: _ => outlineBlock source (8 * state.remaining.length + 6) line.indent state

/-- The outline of the lines of a document. -/
def outlineLines (lines : List Line) : Option Written :=
  (outlineRoot source ⟨(rootReader lines).remaining, [], 0⟩).map (·.1)

end Lines

/-- The outline of a document. -/
def outline (source : Nat) (fragments : List (List Char)) : Option Written :=
  outlineLines source (documentLines fragments)

end Telora.Yaml
