import Telora.Json.Grammar
import Telora.Library.Text
import Telora.Library.Entries
import Telora.Value.FloatText
import Telora.Value.Value

/-!
# Values of JSON documents

The value that is read off a concrete tree: escapes are decoded, a number with a point
or an exponent is a float and any other an integer of 64 bits, and the members of an
object are kept in the order of their keys. The value of a tree depends on the syntax
tree it represents only.
-/

namespace Telora.Json

open Library

def hexDigitValue (c : Char) : Nat :=
  if c.isDigit then c.toNat - '0'.toNat
  else if 'a' ≤ c then c.toNat - 'a'.toNat + 10
  else c.toNat - 'A'.toNat + 10

/-- The number that the next `count` hexadecimal digits spell after `value`. -/
def hexDigits : Nat → Nat → List Char → Except String (Nat × List Char)
  | 0, value, text => .ok (value, text)
  | _ + 1, _, [] => .error "Unicode escape requires four hex digits"
  | count + 1, value, c :: text =>
      if isHexDigit c then hexDigits count (value * 16 + hexDigitValue c) text
      else .error "Unicode escape requires four hex digits"

def hexQuad (text : List Char) : Except String (Nat × List Char) := hexDigits 4 0 text

/-- The scalar value after `\u`, of one unit or of a surrogate pair. -/
def unicodeEscape (text : List Char) : Except String (Char × List Char) := do
  let (first, text) ← hexQuad text
  let (codepoint, text) ←
    if 0xd800 ≤ first ∧ first ≤ 0xdbff then
      if "\\u".toList.isPrefixOf text then do
        let (second, text) ← hexQuad (text.drop 2)
        if 0xdc00 ≤ second ∧ second ≤ 0xdfff then
          pure (0x10000 + (first - 0xd800) * 2 ^ 10 + (second - 0xdc00), text)
        else throw "invalid low surrogate"
      else throw "high surrogate requires a low surrogate"
    else if 0xdc00 ≤ first ∧ first ≤ 0xdfff then throw "unexpected low surrogate"
    else pure (first, text)
  if codepoint.isValidChar then return (Char.ofNat codepoint, text)
  else throw "invalid Unicode scalar value"

/-- The character of an escape of one letter. -/
def simpleEscape (c : Char) : Option Char :=
  if c = '"' then some '"'
  else if c = '\\' then some '\\'
  else if c = '/' then some '/'
  else if c = 'b' then some '\x08'
  else if c = 'f' then some '\x0c'
  else if c = 'n' then some '\n'
  else if c = 'r' then some '\r'
  else if c = 't' then some '\t'
  else none

/-- Decode up to the last byte, the closing quote. -/
def decodeWith : Nat → List Char → Except String (List Char)
  | 0, _ => .error "string decoder is out of fuel"
  | fuel + 1, text =>
      if byteLength text ≤ 1 then .ok []
      else
        match text with
        | [] => .ok []
        | c :: text =>
            if c ≠ '\\' then (c :: ·) <$> decodeWith fuel text
            else
              match text with
              | [] => .error "unterminated JSON escape"
              | c :: text =>
                  if c = 'u' then do
                    let (c, text) ← unicodeEscape text
                    (c :: ·) <$> decodeWith fuel text
                  else
                    match simpleEscape c with
                    | some c => (c :: ·) <$> decodeWith fuel text
                    | none =>
                        -- the first byte of the character, as a character of its own
                        let byte := Char.ofNat ((String.utf8EncodeChar c).headD 0).toNat
                        .error ("invalid JSON escape \\" ++ String.singleton byte)

/-- The content of a string literal with its quotes. -/
def decodeString (text : List Char) : Except String String :=
  String.ofList <$> decodeWith text.length (text.drop 1)

/-- An integer of 64 bits, when `parse::<i64>` accepts the text. -/
def parseI64 (text : List Char) : Option Int :=
  let (negative, digits) := splitSign text
  if digits ≠ [] ∧ digits.all Char.isDigit then
    let magnitude : Int := Nat.ofDigitChars 10 digits 0
    let value := if negative then -magnitude else magnitude
    if -2 ^ 63 ≤ value ∧ value < 2 ^ 63 then some value else none
  else none

def number (text : List Char) : Except String Value :=
  if text.any (· ∈ ['.', 'e', 'E']) then
    match F64.parse text with
    | none => .error "invalid Float value"
    | some value =>
        if value.isFinite then .ok (.float value) else .error "JSON Float must be finite"
  else
    match parseI64 text with
    | none => .error "JSON integer is outside the i64 range"
    | some value => .ok (.int value)

def noneValue : Value := .atom (.builtin .none)

def trueValue : Value := .atom (.builtin .true)

def falseValue : Value := .atom (.builtin .false)

def dictValue (fields : List (String × Value)) : Value :=
  .dict (fields.map (·.1)) (fields.map (·.2))

namespace Cst

def isString : Cst → Bool
  | .token _ => false
  | .rule kind _ => kind = .stringLiteral

def isValue : Cst → Bool
  | .token lexeme => lexeme.token ∈ [Token.number, .true, .false, .null]
  | .rule kind _ => kind ∈ [Rule.value, .literal, .array, .object, .stringLiteral]

end Cst

/-- The key of a member: its first string literal. -/
def memberKey (children : List Cst) : Except String String :=
  match children.find? Cst.isString with
  | some node => decodeString node.text
  | none => .error "JSON object key must be a string"

/-- A key that no member before it has. -/
def newKey (fields : List (String × Value)) (key : String) : Except String Unit :=
  if fields.any (·.1 == key) then .error s!"duplicate JSON object key {repr key}" else .ok ()

mutual

def lowerValue : Cst → Except String Value
  | .token lexeme =>
      match lexeme.token with
      | .null => .ok noneValue
      | .true => .ok trueValue
      | .false => .ok falseValue
      | .number => number lexeme.text
      | _ => .error "expected a JSON value"
  | .rule rule children =>
      match rule with
      | .stringLiteral => .string <$> decodeString (childrenText children)
      | .literal | .value => lowerFirst "empty JSON value" children
      | .array => .array <$> lowerItems children
      | .object => dictValue <$> lowerMembers [] children
      | _ => .error "expected a JSON value"

/-- The first child that is a value. -/
def lowerFirst (message : String) : List Cst → Except String Value
  | [] => .error message
  | child :: rest => if child.isValue then lowerValue child else lowerFirst message rest

/-- Every child that is a value. -/
def lowerItems : List Cst → Except String (List Value)
  | [] => .ok []
  | child :: rest =>
      if child.isValue then do
        let value ← lowerValue child
        (value :: ·) <$> lowerItems rest
      else lowerItems rest

/-- Every child that is a member, after the fields of the members before. -/
def lowerMembers (fields : List (String × Value)) :
    List Cst → Except String (List (String × Value))
  | [] => .ok fields
  | .token _ :: rest => lowerMembers fields rest
  | .rule rule children :: rest =>
      if rule = .member then do
        let key ← memberKey children
        newKey fields key
        let value ← lowerMemberValue true children
        lowerMembers (insertEntry key value fields) rest
      else lowerMembers fields rest

/-- The first child that is a value, except the key, which is still `ahead` or not. -/
def lowerMemberValue (ahead : Bool) : List Cst → Except String Value
  | [] => .error "JSON member has no value"
  | child :: rest =>
      if ahead && child.isString then lowerMemberValue false rest
      else if child.isValue then lowerValue child
      else lowerMemberValue ahead rest

end

/-- The value of a document. -/
def lower : Cst → Except String Value
  | .token _ => .error "expected a JSON value"
  | .rule _ children => lowerFirst "expected a JSON value" children

variable (errorLength : Mode → List Char → Nat) (parser : Parser)

/-- The value of a document, or the message of its first diagnostic. -/
def parseJson (fragments : List (List Char)) : Except String Value :=
  let lexemes := tokenizeFragments errorLength fragments
  let (cst, syntaxDiagnostics) := parser.parse lexemes
  match diagnostics lexemes ++ syntaxDiagnostics with
  | message :: _ => .error message
  | [] => lower cst

mutual

def Syntax.value : Syntax → Except String Value
  | .null => .ok noneValue
  | .true => .ok trueValue
  | .false => .ok falseValue
  | .number text => number text
  | .string pieces => .string <$> decodeString (Lexer.covered (stringWord pieces))
  | .array items => .array <$> itemsValues items
  | .object members => dictValue <$> membersFields [] members

def itemsValues : List Syntax → Except String (List Value)
  | [] => .ok []
  | item :: rest => do
      let value ← item.value
      (value :: ·) <$> itemsValues rest

def membersFields (fields : List (String × Value)) :
    List (List Piece × Syntax) → Except String (List (String × Value))
  | [] => .ok fields
  | (key, value) :: rest => do
      let key ← decodeString (Lexer.covered (stringWord key))
      newKey fields key
      let value ← value.value
      membersFields (insertEntry key value fields) rest

end

section Represents

def Cst.isMember : Cst → Bool
  | .token _ => false
  | .rule kind _ => kind = .member

/-- A property of rules and of tokens that are no whitespace. -/
def Solid (p : Cst → Bool) : Prop := ∀ node, node.isTrivia = true → p node = false

theorem solid_isValue : Solid Cst.isValue := by
  intro node h
  cases node with
  | token lexeme =>
      have hspace : lexeme.token = .whitespace := of_decide_eq_true h
      simp [Cst.isValue, hspace]
  | rule kind children => cases h

theorem solid_isString : Solid Cst.isString := by
  intro node h
  cases node with
  | token lexeme => rfl
  | rule kind children => cases h

theorem solid_isMember : Solid Cst.isMember := by
  intro node h
  cases node with
  | token lexeme => rfl
  | rule kind children => cases h

/-- Whitespace is not selected. -/
theorem Solid.filter {p : Cst → Bool} (h : Solid p) (children : List Cst) :
    (solid children).filter p = children.filter p := by
  rw [solid, List.filter_filter]
  refine List.filter_congr fun node _ => ?_
  cases htrivia : node.isTrivia with
  | true => rw [h node htrivia, Bool.false_and]
  | false => rw [Bool.not_false, Bool.and_true]

/-- Neither are separators. -/
theorem filter_separate {p : Cst → Bool} {separator : Cst} (h : p separator = false)
    (nodes : List (List Cst)) : (separate separator nodes).filter p = nodes.flatten.filter p := by
  cases nodes with
  | nil => rfl
  | cons first rest =>
      rw [separate, List.filter_append, List.flatten_cons, List.filter_append]
      congr 1
      induction rest with
      | nil => rfl
      | cons next rest ih =>
          rw [List.flatMap_cons, List.filter_append, List.flatten_cons, List.filter_append, ih,
            List.filter_cons_of_neg (by simp [h])]

/-- The nodes that are selected between two brackets. -/
theorem filter_bracketed {p : Cst → Bool} (hp : Solid p) {children : List Cst}
    {opening closing : Lexeme Token} {nodes : List (List Cst)}
    (hchildren : solid children =
      .token opening :: separate (.token comma) nodes ++ [.token closing])
    (hopening : p (.token opening) = false) (hcomma : p (.token comma) = false)
    (hclosing : p (.token closing) = false) : children.filter p = nodes.flatten.filter p :=
  calc children.filter p
      = (solid children).filter p := (hp.filter children).symm
    _ = (separate (.token comma) nodes).filter p := by
        rw [hchildren, List.cons_append, List.filter_cons_of_neg (by simp [hopening]),
          List.filter_append, List.filter_cons_of_neg (by simp [hclosing]), List.filter_nil,
          List.append_nil]
    _ = nodes.flatten.filter p := filter_separate hcomma nodes

theorem Solid.find? {p : Cst → Bool} (h : Solid p) (children : List Cst) :
    children.find? p = (solid children).find? p := by
  rw [← List.head?_filter, ← List.head?_filter, h.filter]

theorem lowerFirst_eq (message : String) (children : List Cst) :
    lowerFirst message children =
      ((children.find? Cst.isValue).map lowerValue).getD (.error message) := by
  induction children with
  | nil => rfl
  | cons child rest ih =>
      rw [lowerFirst, List.find?_cons]
      cases child.isValue <;> simp [ih]

theorem lowerItems_filter (children : List Cst) :
    lowerItems children = lowerItems (children.filter Cst.isValue) := by
  induction children with
  | nil => rfl
  | cons child rest ih =>
      cases hvalue : child.isValue with
      | true => rw [List.filter_cons_of_pos hvalue, lowerItems, lowerItems, ih]
      | false =>
          rw [List.filter_cons_of_neg (by simp [hvalue]), lowerItems, hvalue]
          exact ih

theorem lowerMembers_filter (fields : List (String × Value)) (children : List Cst) :
    lowerMembers fields children = lowerMembers fields (children.filter Cst.isMember) := by
  induction children generalizing fields with
  | nil => rfl
  | cons child rest ih =>
      cases child with
      | token lexeme => rw [lowerMembers, List.filter_cons_of_neg (by simp [Cst.isMember]), ih]
      | rule kind children =>
          by_cases hkind : kind = .member
          · rw [List.filter_cons_of_pos (by simp [Cst.isMember, hkind])]
            simp only [lowerMembers, ih]
          · rw [List.filter_cons_of_neg (by simp [Cst.isMember, hkind]), lowerMembers,
              if_neg hkind, ih]

theorem lowerMemberValue_solid (ahead : Bool) (children : List Cst) :
    lowerMemberValue ahead children = lowerMemberValue ahead (solid children) := by
  induction children generalizing ahead with
  | nil => rfl
  | cons child rest ih =>
      cases htrivia : child.isTrivia with
      | true =>
          rw [lowerMemberValue, solid_isValue child htrivia, solid_isString child htrivia, solid,
            List.filter_cons_of_neg (by simp [htrivia]), ← solid, Bool.and_false]
          exact ih ahead
      | false =>
          rw [solid, List.filter_cons_of_pos (by simp [htrivia]), ← solid, lowerMemberValue,
            lowerMemberValue, ih, ih]

theorem childrenText_tokens (lexemes : List (Lexeme Token)) :
    childrenText (lexemes.map .token) = Lexer.covered lexemes := by
  induction lexemes with
  | nil => rfl
  | cons lexeme rest ih => rw [List.map_cons, childrenText, ih]; rfl

theorem lowerFirst_node {message : String} {children : List Cst} {node : Cst}
    (hchildren : solid children = [node]) (hvalue : node.isValue = true) :
    lowerFirst message children = lowerValue node := by
  rw [lowerFirst_eq, solid_isValue.find?, hchildren, List.find?_cons_of_pos hvalue]
  rfl

theorem memberKey_node {children : List Cst} {key : List Piece} {rest : List Cst}
    (hchildren : solid children = stringNode key :: rest) :
    memberKey children = decodeString (Lexer.covered (stringWord key)) := by
  have hfind : children.find? Cst.isString = some (stringNode key) := by
    rw [solid_isString.find?, hchildren]
    rfl
  rw [memberKey, hfind]
  exact congrArg decodeString (childrenText_tokens _)

theorem lowerMemberValue_member {key : List Piece} {colon : Lexeme Token} {node : Cst}
    (hcolon : colon.token = .colon) (hvalue : node.isValue = true) :
    lowerMemberValue true [stringNode key, .token colon, node] = lowerValue node := by
  have hseparator : (Cst.token colon).isValue = false := by simp [Cst.isValue, hcolon]
  change lowerMemberValue false [.token colon, node] = lowerValue node
  simp only [lowerMemberValue, hseparator, hvalue, Bool.false_and, Bool.false_eq_true, if_false,
    if_true]

mutual

/-- A representation is a value, that of the syntax tree. -/
theorem Represents.lowered {node : Cst} {tree : Syntax} :
    Represents node tree → node.isValue = true ∧ lowerValue node = tree.value
  | .wrapped hrule hchildren hnode => by
      obtain ⟨hvalue, hlowered⟩ := hnode.lowered
      rcases hrule with rfl | rfl
      · exact ⟨rfl, (lowerFirst_node hchildren hvalue).trans hlowered⟩
      · exact ⟨rfl, (lowerFirst_node hchildren hvalue).trans hlowered⟩
  | .null => ⟨rfl, rfl⟩
  | .true => ⟨rfl, rfl⟩
  | .false => ⟨rfl, rfl⟩
  | .number => ⟨rfl, rfl⟩
  | .string => by
      refine ⟨rfl, ?_⟩
      change (Value.string <$> decodeString (childrenText _)) = _
      rw [childrenText_tokens]
      rfl
  | .array hchildren hopening hclosing hitems => by
      refine ⟨rfl, congrArg (Value.array <$> ·) ?_⟩
      rw [lowerItems_filter, filter_bracketed solid_isValue hchildren
        (by simp [Cst.isValue, hopening]) rfl (by simp [Cst.isValue, hclosing])]
      exact hitems.lowered
  | .object hchildren hopening hclosing hmembers => by
      refine ⟨rfl, congrArg (dictValue <$> ·) ?_⟩
      rw [lowerMembers_filter, filter_bracketed solid_isMember hchildren rfl rfl rfl]
      exact hmembers.lowered []

theorem RepresentsItems.lowered {nodes : List (List Cst)} {items : List Syntax} :
    RepresentsItems nodes items →
      lowerItems (nodes.flatten.filter Cst.isValue) = itemsValues items
  | .nil => rfl
  | .cons hnode hrest => by
      obtain ⟨hvalue, hlowered⟩ := hnode.lowered
      rw [List.flatten_cons, List.singleton_append, List.filter_cons_of_pos hvalue, lowerItems,
        if_pos hvalue, hlowered, hrest.lowered]
      rfl

theorem RepresentsMembers.lowered {nodes : List (List Cst)}
    {members : List (List Piece × Syntax)} (fields : List (String × Value)) :
    RepresentsMembers nodes members →
      lowerMembers fields (nodes.flatten.filter Cst.isMember) = membersFields fields members
  | .nil => rfl
  | .cons hchildren hcolon hnode hrest => by
      obtain ⟨hvalue, hlowered⟩ := hnode.lowered
      rw [List.flatten_cons, List.singleton_append, List.filter_cons_of_pos rfl, lowerMembers,
        if_pos rfl, memberKey_node hchildren, lowerMemberValue_solid, hchildren,
        lowerMemberValue_member hcolon hvalue, hlowered, membersFields]
      simp only [fun fields => hrest.lowered fields]

end

variable (errorLength : Mode → List Char → Nat) (parser : Parser)

/-- A text without lexical errors that spells a syntax tree has its value. -/
theorem parseJson_spells {fragments : List (List Char)} {tree : Syntax}
    (hvalid : diagnostics (tokenize errorLength fragments.flatten) = [])
    (h : Spells tree.words (tokenize errorLength fragments.flatten)) :
    parseJson errorLength parser fragments = tree.value := by
  have hgood : ∀ lexeme ∈ tokenize errorLength fragments.flatten, lexeme.token ≠ .error := by
    intro lexeme hmem herror
    have hnone := List.filterMap_eq_nil_iff.mp hvalid lexeme hmem
    rw [herror] at hnone
    cases hnone
  obtain ⟨children, node, hparse, hsolid, hnode⟩ := parser.parse_spells _ tree h
  obtain ⟨hvalue, hlowered⟩ := hnode.lowered
  rw [parseJson, tokenizeFragments_eq errorLength fragments hgood]
  simp only [hparse, hvalid, List.append_nil]
  exact (lowerFirst_node hsolid hvalue).trans hlowered

end Represents

end Telora.Json
