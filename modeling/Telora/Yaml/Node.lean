import Telora.Yaml.Scalar

/-!
# YAML nodes and flow values

The tree that the lines of a document are read to, with the location of each node, and
the reader of a flow value on one line.
-/

namespace Telora.Yaml

open Library

structure Diagnostic where
  message : String
  location : Loc
  secondary : Option (String × Loc)
  deriving DecidableEq, Repr

namespace Diagnostic

def error (message : String) (location : Loc) : Diagnostic := ⟨message, location, none⟩

def withSecondary (diagnostic : Diagnostic) (message : String) (location : Loc) : Diagnostic :=
  { diagnostic with secondary := some (message, location) }

end Diagnostic

def maxAliasExpansions : Nat := 10000

def maxAliasDepth : Nat := 64

inductive YamlNode where
  | scalar (value : Value) (location : Loc)
  | sequence (values : List YamlNode) (location : Loc)
  | mapping (entries : List (String × Loc × YamlNode)) (location : Loc)

namespace YamlNode

def location : YamlNode → Loc
  | scalar _ location => location
  | sequence _ location => location
  | mapping _ location => location

def nodeEnd (node : YamlNode) : Nat := node.location.stop

def setNodeLocation (node : YamlNode) (location : Loc) : YamlNode :=
  match node with
  | scalar value _ => scalar value location
  | sequence values _ => sequence values location
  | mapping entries _ => mapping entries location

mutual

def nodeDepth : YamlNode → Nat
  | scalar _ _ => 1
  | sequence values _ => 1 + valuesDepth values
  | mapping entries _ => 1 + entriesDepth entries

def valuesDepth : List YamlNode → Nat
  | [] => 0
  | value :: rest => max value.nodeDepth (valuesDepth rest)

def entriesDepth : List (String × Loc × YamlNode) → Nat
  | [] => 0
  | (_, _, value) :: rest => max value.nodeDepth (entriesDepth rest)

end

mutual

def nodeCount : YamlNode → Nat
  | scalar _ _ => 1
  | sequence values _ => 1 + valuesCount values
  | mapping entries _ => 1 + entriesCount entries

def valuesCount : List YamlNode → Nat
  | [] => 0
  | value :: rest => value.nodeCount + valuesCount rest

def entriesCount : List (String × Loc × YamlNode) → Nat
  | [] => 0
  | (_, _, value) :: rest => value.nodeCount + entriesCount rest

end

/-- A dict of fields in the order of their keys, unless a key is twice in it. -/
def makeDict (fields : List (String × Value)) : Except String Value :=
  let fields := fields.mergeSort fun left right => left.1 ≤ right.1
  if (fields.map (·.1)).Nodup then .ok (.dict (fields.map (·.1)) (fields.map (·.2)))
  else .error "Dict contains a duplicate field"

mutual

/-- The value of a node. -/
def materialize : YamlNode → Except String Value
  | scalar value _ => .ok value
  | sequence values _ => .array <$> materializeValues values
  | mapping entries _ => do makeDict (← materializeEntries entries)

def materializeValues : List YamlNode → Except String (List Value)
  | [] => .ok []
  | value :: rest => do
      let value ← value.materialize
      (value :: ·) <$> materializeValues rest

def materializeEntries : List (String × Loc × YamlNode) → Except String (List (String × Value))
  | [] => .ok []
  | (key, _, value) :: rest => do
      let value ← value.materialize
      ((key, value) :: ·) <$> materializeEntries rest

end

end YamlNode

/-- The rest of a flow text, the bytes before it, and the work of its aliases. -/
structure FlowReader where
  text : List Char
  pos : Nat
  aliasWork : Nat

namespace FlowReader

/-- Pass a text at the front. -/
def advance (reader : FlowReader) (passed : List Char) : FlowReader :=
  { reader with text := reader.text.drop passed.length, pos := reader.pos + byteLength passed }

def ws (reader : FlowReader) : FlowReader :=
  reader.advance (reader.text.takeWhile isWhitespaceChar)

/-- The reader behind an expected character. -/
def take (reader : FlowReader) (expected : Char) : Option FlowReader :=
  if reader.text.head? = some expected then some (reader.advance [expected]) else none

/-- The text up to a stop outside of quotes. -/
def scalarLength (stops : List Char) (quote : Option Char) : List Char → List Char
  | [] => []
  | c :: rest =>
      match quote with
      | some active =>
          if c = active then c :: scalarLength stops none rest
          else if active = '"' ∧ c = '\\' then
            match rest with
            | [] => [c]
            | escaped :: rest => c :: escaped :: scalarLength stops quote rest
          else c :: scalarLength stops quote rest
      | none =>
          if isQuote c then c :: scalarLength stops (some c) rest
          else if c ∈ stops then []
          else c :: scalarLength stops none rest

end FlowReader

section Flow

variable (source offset : Nat) (anchors : List (String × YamlNode)) (aliasLimit : Nat)

def flowLoc (start stop : Nat) : Loc := ⟨source, offset + start, offset + stop⟩

def flowError {α : Type} (reader : FlowReader) (message : String) : Except Diagnostic α :=
  .error (.error message (flowLoc source offset reader.pos reader.pos))

def flowExpect (reader : FlowReader) (expected : Char) : Except Diagnostic FlowReader :=
  match reader.ws.take expected with
  | some reader => .ok reader
  | none =>
      flowError source offset reader.ws
        ("expected '" ++ expected.toString ++ "' in YAML flow value")

def flowScalarText (reader : FlowReader) (stops : List Char) :
    Except Diagnostic (List Char × FlowReader) :=
  match FlowReader.scalarLength stops none reader.text with
  | [] => flowError source offset reader "expected YAML flow scalar"
  | text => .ok (text, reader.advance text)

/-- A scalar or an alias in a flow value. -/
def flowScalar (reader : FlowReader) : Except Diagnostic (YamlNode × FlowReader) := do
  let start := reader.pos
  let (raw, reader) ← flowScalarText source offset reader [',', ']', '\x7d']
  let raw := trim raw
  match stripStart ['*'] raw with
  | some name =>
      match anchors.lookup (String.ofList name) with
      | none =>
          flowError source offset reader ("unknown YAML alias " ++ (String.ofList name).quote)
      | some anchored =>
          let reader := { reader with aliasWork := reader.aliasWork + anchored.nodeCount }
          if aliasLimit < reader.aliasWork then
            flowError source offset reader "YAML alias expansion limit exceeded"
          else .ok (anchored, reader)
  | none =>
      match parseScalar raw with
      | .ok value => .ok (.scalar value (flowLoc source offset start reader.pos), reader)
      | .error message => flowError source offset reader message

/-- The key of an entry in a flow mapping, and its location. -/
def flowKey (seen : List (String × Loc)) (reader : FlowReader) :
    Except Diagnostic (String × Loc × FlowReader) := do
  let start := reader.pos
  let (text, reader) ← flowScalarText source offset reader [':']
  match parseKey (trim text) with
  | .error message => flowError source offset reader message
  | .ok key =>
      let location := flowLoc source offset start reader.pos
      match seen.lookup key with
      | some previous =>
          .error ((Diagnostic.error ("duplicate YAML key " ++ key.quote) location).withSecondary
            "first defined here" previous)
      | none =>
          if key = "<<" then flowError source offset reader "YAML merge keys are not supported"
          else .ok (key, location, ← flowExpect source offset reader ':')

mutual

/-- A flow value; the fuel bounds the characters that are left. -/
def flowValue : Nat → FlowReader → Except Diagnostic (YamlNode × FlowReader)
  | 0, reader => flowError source offset reader "reader is out of fuel"
  | fuel + 1, reader => do
      let reader := reader.ws
      let start := reader.pos
      match reader.text.head? with
      | some '[' =>
          let (values, reader) ← flowItems fuel (reader.advance ['['])
          return (.sequence values (flowLoc source offset start reader.pos), reader)
      | some '\x7b' =>
          let (entries, reader) ← flowEntries fuel [] (reader.advance ['\x7b'])
          return (.mapping entries (flowLoc source offset start reader.pos), reader)
      | _ => flowScalar source offset anchors aliasLimit reader

def flowItems : Nat → FlowReader → Except Diagnostic (List YamlNode × FlowReader)
  | 0, reader => flowError source offset reader "reader is out of fuel"
  | fuel + 1, reader => do
      let reader := reader.ws
      match reader.take ']' with
      | some reader => return ([], reader)
      | none =>
          let (value, reader) ← flowValue fuel reader
          let reader := reader.ws
          match reader.take ']' with
          | some reader => return ([value], reader)
          | none =>
              let reader ← flowExpect source offset reader ','
              let (values, reader) ← flowItems fuel reader
              return (value :: values, reader)

def flowEntries : Nat → List (String × Loc) → FlowReader →
    Except Diagnostic (List (String × Loc × YamlNode) × FlowReader)
  | 0, _, reader => flowError source offset reader "reader is out of fuel"
  | fuel + 1, seen, reader => do
      let reader := reader.ws
      match reader.take '\x7d' with
      | some reader => return ([], reader)
      | none =>
          let (key, location, reader) ← flowKey source offset seen reader
          let (value, reader) ← flowValue fuel reader
          let reader := reader.ws
          match reader.take '\x7d' with
          | some reader => return ([(key, location, value)], reader)
          | none =>
              let reader ← flowExpect source offset reader ','
              let (entries, reader) ← flowEntries fuel ((key, location) :: seen) reader
              return ((key, location, value) :: entries, reader)

end

/-- The value of a flow text, and the work of its aliases. -/
def parseFlow (text : List Char) : Except Diagnostic (YamlNode × Nat) := do
  let (value, reader) ← flowValue source offset anchors aliasLimit (2 * text.length + 2)
    ⟨text, 0, 0⟩
  let reader := reader.ws
  if reader.text ≠ [] then flowError source offset reader "unexpected YAML flow content"
  else return (value, reader.aliasWork)

end Flow

end Telora.Yaml
