import Telora.Json.Lexer

/-!
# The grammar of JSON documents

The syntax trees of the grammar, the lexemes that spell them, and the concrete trees
that represent them. The parser itself is generated from the grammar: a `Parser` is any
function that returns, without a diagnostic, a concrete tree for every spelling of a
syntax tree. Descending through the grammar is one.
-/

namespace Telora.Json

open Library

/-- A part of a string literal between its quotes. -/
structure Piece where
  lexeme : Lexeme Token
  inString : lexeme.token ∈ [Token.stringText, .escapeSequence, .unknownEscapeSequence,
    .malformedUnicodeEscape, .unterminatedEscapeSequence]

/-- The syntax trees of the grammar. -/
inductive Syntax where
  | null
  | true
  | false
  | number (text : List Char)
  | string (pieces : List Piece)
  | array (items : List Syntax)
  | object (members : List (List Piece × Syntax))

inductive Rule where
  | document | value | object | member | array | literal | stringLiteral | error
  deriving DecidableEq, Repr

/-- A node of the concrete tree: a token, or a rule with the nodes it covers. -/
inductive Cst where
  | token (lexeme : Lexeme Token)
  | rule (rule : Rule) (children : List Cst)

mutual

/-- The source that a node covers. -/
def Cst.text : Cst → List Char
  | .token lexeme => lexeme.text
  | .rule _ children => childrenText children

def childrenText : List Cst → List Char
  | [] => []
  | child :: rest => child.text ++ childrenText rest

end

/-- Lexemes that no space separates. -/
abbrev Word := List (Lexeme Token)

def quote : Lexeme Token := ⟨.doubleQuote, ['"']⟩

def lBracket : Lexeme Token := ⟨.lBracket, ['[']⟩

def rBracket : Lexeme Token := ⟨.rBracket, [']']⟩

def lBrace : Lexeme Token := ⟨.lBrace, ['{']⟩

def rBrace : Lexeme Token := ⟨.rBrace, ['}']⟩

def comma : Lexeme Token := ⟨.comma, [',']⟩

def colon : Lexeme Token := ⟨.colon, [':']⟩

/-- A string literal. -/
def stringWord (pieces : List Piece) : Word := quote :: pieces.map (·.lexeme) ++ [quote]

/-- Lists with a separator in front of all but the first. -/
def separate {α : Type} (separator : α) : List (List α) → List α
  | [] => []
  | first :: rest => first ++ rest.flatMap (separator :: ·)

mutual

/-- The words of a syntax tree. -/
def Syntax.words : Syntax → List Word
  | .null => [[⟨.null, "null".toList⟩]]
  | .true => [[⟨.true, "true".toList⟩]]
  | .false => [[⟨.false, "false".toList⟩]]
  | .number text => [[⟨.number, text⟩]]
  | .string pieces => [stringWord pieces]
  | .array items =>
      [lBracket] :: separate [comma] (itemsWords items) ++ [[rBracket]]
  | .object members =>
      [lBrace] :: separate [comma] (membersWords members) ++ [[rBrace]]

def itemsWords : List Syntax → List (List Word)
  | [] => []
  | item :: rest => item.words :: itemsWords rest

def membersWords : List (List Piece × Syntax) → List (List Word)
  | [] => []
  | (key, value) :: rest =>
      (stringWord key :: [colon] :: value.words) :: membersWords rest

end

/-- Lexemes that spell words, with whitespace between them. -/
inductive Spells : List Word → List (Lexeme Token) → Prop
  | nil : Spells [] []
  | space {lexeme words lexemes} : lexeme.token = .whitespace → Spells words lexemes →
      Spells words (lexeme :: lexemes)
  | word {word words lexemes} : Spells words lexemes → Spells (word :: words) (word ++ lexemes)

theorem Spells.append {words words' : List Word} {lexemes lexemes' : List (Lexeme Token)}
    (h : Spells words lexemes) (h' : Spells words' lexemes') :
    Spells (words ++ words') (lexemes ++ lexemes') := by
  induction h with
  | nil => exact h'
  | space hspace _ ih => exact .space hspace ih
  | word _ ih =>
      rw [List.append_assoc]
      exact .word ih

theorem Spells.single (word : Word) : Spells [word] word := by
  have h := @Spells.word word [] [] .nil
  rwa [List.append_nil] at h

/-- Whether a node is whitespace. -/
def Cst.isTrivia : Cst → Bool
  | .token lexeme => lexeme.token = .whitespace
  | .rule _ _ => false

/-- The nodes that are not whitespace. -/
def solid (children : List Cst) : List Cst := children.filter (!·.isTrivia)

/-- The node of a string literal. -/
def stringNode (pieces : List Piece) : Cst := .rule .stringLiteral ((stringWord pieces).map .token)

mutual

/-- A concrete tree of a syntax tree, with whitespace anywhere but in string literals. -/
inductive Represents : Cst → Syntax → Prop
  | wrapped {rule children node tree} : rule = .value ∨ rule = .literal →
      solid children = [node] → Represents node tree → Represents (.rule rule children) tree
  | null {text} : Represents (.token ⟨.null, text⟩) .null
  | true {text} : Represents (.token ⟨.true, text⟩) .true
  | false {text} : Represents (.token ⟨.false, text⟩) .false
  | number {text} : Represents (.token ⟨.number, text⟩) (.number text)
  | string {pieces} : Represents (stringNode pieces) (.string pieces)
  | array {children opening closing nodes items} :
      solid children = .token opening :: separate (.token comma) nodes ++ [.token closing] →
      opening.token = .lBracket → closing.token = .rBracket →
      RepresentsItems nodes items → Represents (.rule .array children) (.array items)
  | object {children opening closing nodes members} :
      solid children = .token opening :: separate (.token comma) nodes ++ [.token closing] →
      opening.token = .lBrace → closing.token = .rBrace →
      RepresentsMembers nodes members → Represents (.rule .object children) (.object members)

/-- The nodes of array items. -/
inductive RepresentsItems : List (List Cst) → List Syntax → Prop
  | nil : RepresentsItems [] []
  | cons {node nodes item items} : Represents node item → RepresentsItems nodes items →
      RepresentsItems ([node] :: nodes) (item :: items)

/-- The nodes of object members. -/
inductive RepresentsMembers : List (List Cst) → List (List Piece × Syntax) → Prop
  | nil : RepresentsMembers [] []
  | cons {children colon node nodes key value members} :
      solid children = [stringNode key, .token colon, node] → colon.token = .colon →
      Represents node value → RepresentsMembers nodes members →
      RepresentsMembers ([.rule .member children] :: nodes) ((key, value) :: members)

end

/-- The generated parser: it reads every spelling of a syntax tree. -/
structure Parser where
  parse : List (Lexeme Token) → Cst × List String
  parse_spells : ∀ lexemes tree, Spells tree.words lexemes →
    ∃ children node, parse lexemes = (.rule .document children, []) ∧
      solid children = [node] ∧ Represents node tree

section Descent

/-- The pieces of a string up to its closing quote. -/
def descendString : List (Lexeme Token) → Option (List Cst × List (Lexeme Token))
  | [] => none
  | lexeme :: rest =>
      if lexeme.token = .doubleQuote then some ([.token lexeme], rest)
      else (descendString rest).map fun (nodes, rest) => (.token lexeme :: nodes, rest)

mutual

def descendValue : Nat → List (Lexeme Token) → Option (Cst × List (Lexeme Token))
  | 0, _ => none
  | _, [] => none
  | fuel + 1, lexeme :: rest =>
      match lexeme.token with
      | .null | .true | .false | .number => some (.rule .literal [.token lexeme], rest)
      | .doubleQuote => do
          let (nodes, rest) ← descendString rest
          return (.rule .literal [.rule .stringLiteral (.token lexeme :: nodes)], rest)
      | .lBracket => do
          let (nodes, rest) ← descendItems fuel (rest.head?.any (·.token = .rBracket)) rest
          return (.rule .array (.token lexeme :: nodes), rest)
      | .lBrace => do
          let (nodes, rest) ← descendMembers fuel (rest.head?.any (·.token = .rBrace)) rest
          return (.rule .object (.token lexeme :: nodes), rest)
      | _ => none

/-- The items of an array and its closing bracket; `closing` when no item follows. -/
def descendItems : Nat → Bool → List (Lexeme Token) → Option (List Cst × List (Lexeme Token))
  | 0, _, _ => none
  | fuel + 1, closing, lexemes =>
      if closing then
        match lexemes with
        | [] => none
        | lexeme :: rest => some ([.token lexeme], rest)
      else do
        let (node, rest) ← descendValue fuel lexemes
        match rest with
        | [] => none
        | lexeme :: rest =>
            match lexeme.token with
            | .rBracket => return ([node, .token lexeme], rest)
            | .comma => do
                let (nodes, rest) ← descendItems fuel false rest
                return (node :: .token lexeme :: nodes, rest)
            | _ => none

/-- The members of an object and its closing brace. -/
def descendMembers : Nat → Bool → List (Lexeme Token) → Option (List Cst × List (Lexeme Token))
  | 0, _, _ => none
  | fuel + 1, closing, lexemes =>
      match lexemes with
      | [] => none
      | opening :: rest =>
          if closing then some ([.token opening], rest)
          else do
            let (key, rest) ← if opening.token = .doubleQuote then descendString rest else none
            match rest with
            | [] => none
            | colon :: rest => do
                let (node, rest) ← if colon.token = .colon then descendValue fuel rest else none
                let member : Cst :=
                  .rule .member [.rule .stringLiteral (.token opening :: key), .token colon, node]
                match rest with
                | [] => none
                | lexeme :: rest =>
                    match lexeme.token with
                    | .rBrace => return ([member, .token lexeme], rest)
                    | .comma => do
                        let (nodes, rest) ← descendMembers fuel false rest
                        return (member :: .token lexeme :: nodes, rest)
                    | _ => none

end

theorem descendString_pieces (pieces : List Piece) (rest : List (Lexeme Token)) :
    descendString (pieces.map (·.lexeme) ++ quote :: rest) =
      some ((pieces.map (·.lexeme) ++ [quote]).map .token, rest) := by
  induction pieces with
  | nil => rfl
  | cons piece pieces ih =>
      have hpiece : piece.lexeme.token ≠ .doubleQuote := by
        intro hquote
        have hin := piece.inString
        rw [hquote] at hin
        revert hin
        decide
      rw [List.map_cons, List.cons_append, descendString, if_neg hpiece, ih]
      rfl

theorem separate_cons_cons {α : Type} (separator : α) (first second : List α)
    (rest : List (List α)) : separate separator (first :: second :: rest) =
      first ++ separator :: separate separator (second :: rest) := rfl

/-- The first lexeme of a tree closes nothing. -/
theorem words_head (tree : Syntax) : ∃ lexeme rest, tree.words.flatten = lexeme :: rest ∧
    lexeme.token ≠ .rBracket ∧ lexeme.token ≠ .rBrace := by
  cases tree <;> exact ⟨_, _, rfl, (by intro h; cases h), (by intro h; cases h)⟩

theorem solid_of_all {children : List Cst} (h : ∀ child ∈ children, child.isTrivia = false) :
    solid children = children := by
  refine List.filter_eq_self.mpr fun child hmem => ?_
  rw [h child hmem]
  rfl

theorem solid_member (key : List Piece) {node : Cst} (h : node.isTrivia = false) :
    solid [stringNode key, .token colon, node] = [stringNode key, .token colon, node] :=
  solid_of_all (List.forall_mem_cons.mpr ⟨rfl, List.forall_mem_cons.mpr ⟨rfl,
    List.forall_mem_singleton.mpr h⟩⟩)

mutual

/-- A descent reads a tree with the fuel of its lexemes. -/
theorem descendValue_words (tree : Syntax) (rest : List (Lexeme Token)) (fuel : Nat)
    (hfuel : tree.words.flatten.length ≤ fuel) :
    ∃ node, descendValue fuel (tree.words.flatten ++ rest) = some (node, rest) ∧
      node.isTrivia = false ∧ Represents node tree := by
  obtain ⟨fuel, rfl⟩ : ∃ less, fuel = less + 1 := by
    obtain ⟨lexeme, more, hwords, -⟩ := words_head tree
    rw [hwords, List.length_cons] at hfuel
    exact ⟨fuel - 1, by omega⟩
  match tree with
  | .null => exact ⟨_, rfl, rfl, .wrapped (.inr rfl) rfl .null⟩
  | .true => exact ⟨_, rfl, rfl, .wrapped (.inr rfl) rfl .true⟩
  | .false => exact ⟨_, rfl, rfl, .wrapped (.inr rfl) rfl .false⟩
  | .number text => exact ⟨_, rfl, rfl, .wrapped (.inr rfl) rfl .number⟩
  | .string pieces =>
      refine ⟨.rule .literal [stringNode pieces], ?_, rfl, .wrapped (.inr rfl) rfl .string⟩
      have hstring := descendString_pieces pieces rest
      simp only [Syntax.words, stringWord, List.flatten_cons, List.flatten_nil, List.append_nil,
        List.cons_append, List.append_assoc, List.nil_append, descendValue, quote] at hstring ⊢
      rw [hstring]
      rfl
  | .array items =>
      have hlength : (separate [comma] (itemsWords items)).flatten.length + 2 ≤ fuel + 1 := by
        simpa [Syntax.words] using hfuel
      obtain ⟨nodes, hnodes, hsolid, hitems⟩ := descendItems_words items rest fuel (by omega)
      have hclosing : ((separate [comma] (itemsWords items)).flatten ++
          rBracket :: rest).head?.any (·.token = .rBracket) = items.isEmpty := by
        cases items with
        | nil => rfl
        | cons item items =>
            obtain ⟨lexeme, more, hwords, hbracket, -⟩ := words_head item
            simp [itemsWords, separate, hwords, hbracket]
      have htext : (Syntax.array items).words.flatten ++ rest =
          lBracket :: ((separate [comma] (itemsWords items)).flatten ++ rBracket :: rest) := by
        simp [Syntax.words]
      refine ⟨.rule .array (.token lBracket ::
        (separate (.token comma) nodes ++ [.token rBracket])), ?_, rfl,
        .array (solid_of_all ?_) rfl rfl hitems⟩
      · rw [htext]
        simp only [lBracket, descendValue, hclosing, hnodes]
        rfl
      · simpa [Cst.isTrivia, lBracket, rBracket, or_imp, forall_and] using hsolid
  | .object members =>
      have hlength : (separate [comma] (membersWords members)).flatten.length + 2 ≤ fuel + 1 := by
        simpa [Syntax.words] using hfuel
      obtain ⟨nodes, hnodes, hsolid, hmembers⟩ :=
        descendMembers_words members rest fuel (by omega)
      have hclosing : ((separate [comma] (membersWords members)).flatten ++
          rBrace :: rest).head?.any (·.token = .rBrace) = members.isEmpty := by
        cases members with
        | nil => rfl
        | cons member members => rfl
      have htext : (Syntax.object members).words.flatten ++ rest =
          lBrace :: ((separate [comma] (membersWords members)).flatten ++ rBrace :: rest) := by
        simp [Syntax.words]
      refine ⟨.rule .object (.token lBrace ::
        (separate (.token comma) nodes ++ [.token rBrace])), ?_, rfl,
        .object (solid_of_all ?_) rfl rfl hmembers⟩
      · rw [htext]
        simp only [lBrace, descendValue, hclosing, hnodes]
        rfl
      · simpa [Cst.isTrivia, lBrace, rBrace, or_imp, forall_and] using hsolid

theorem descendItems_words (items : List Syntax) (rest : List (Lexeme Token)) (fuel : Nat)
    (hfuel : (separate [comma] (itemsWords items)).flatten.length + 1 ≤ fuel) :
    ∃ nodes, descendItems fuel items.isEmpty
        ((separate [comma] (itemsWords items)).flatten ++ rBracket :: rest) =
          some (separate (.token comma) nodes ++ [.token rBracket], rest) ∧
      (∀ node ∈ separate (.token comma) nodes, node.isTrivia = false) ∧
      RepresentsItems nodes items := by
  obtain ⟨fuel, rfl⟩ : ∃ less, fuel = less + 1 := ⟨fuel - 1, by omega⟩
  match items with
  | [] => exact ⟨[], rfl, by simp [separate], .nil⟩
  | item :: items =>
      have hitem := descendValue_words item
      have hmore := descendItems_words items rest fuel
      cases items with
      | nil =>
          obtain ⟨node, hnode, hsolid, hrepresents⟩ :=
            hitem (rBracket :: rest) fuel (by simpa [itemsWords, separate] using hfuel)
          refine ⟨[[node]], ?_, by simpa [separate] using hsolid, .cons hrepresents .nil⟩
          simp only [itemsWords, separate, List.flatMap_nil, List.append_nil, List.isEmpty_cons,
            descendItems, hnode]
          rfl
      | cons next items =>
          rw [itemsWords, itemsWords, separate_cons_cons] at hfuel ⊢
          simp only [List.flatten_append, List.flatten_cons, List.length_append, List.length_cons,
            List.length_nil] at hfuel
          obtain ⟨node, hnode, hsolid, hrepresents⟩ :=
            hitem (comma :: ((separate [comma] (next.words :: itemsWords items)).flatten ++
              rBracket :: rest)) fuel (by omega)
          obtain ⟨nodes, hnodes, hsolids, hitems⟩ := hmore (by rw [itemsWords]; omega)
          cases hitems with
          | cons hfirst hitems =>
              refine ⟨_, ?_, ?_, .cons hrepresents (.cons hfirst hitems)⟩
              · have htext : (item.words ++ [comma] :: separate [comma]
                    (next.words :: itemsWords items)).flatten ++ rBracket :: rest =
                    item.words.flatten ++ comma :: ((separate [comma]
                      (next.words :: itemsWords items)).flatten ++ rBracket :: rest) := by simp
                simp only [htext, List.isEmpty_cons, descendItems, hnode, separate_cons_cons]
                rw [itemsWords] at hnodes
                simp only [comma, List.isEmpty_cons] at hnodes ⊢
                rw [Option.bind_eq_bind, Option.bind_some]
                simp only [hnodes]
                rfl
              · exact List.forall_mem_cons.mpr ⟨hsolid, List.forall_mem_cons.mpr ⟨rfl, hsolids⟩⟩

theorem descendMembers_words (members : List (List Piece × Syntax)) (rest : List (Lexeme Token))
    (fuel : Nat) (hfuel : (separate [comma] (membersWords members)).flatten.length + 1 ≤ fuel) :
    ∃ nodes, descendMembers fuel members.isEmpty
        ((separate [comma] (membersWords members)).flatten ++ rBrace :: rest) =
          some (separate (.token comma) nodes ++ [.token rBrace], rest) ∧
      (∀ node ∈ separate (.token comma) nodes, node.isTrivia = false) ∧
      RepresentsMembers nodes members := by
  obtain ⟨fuel, rfl⟩ : ∃ less, fuel = less + 1 := ⟨fuel - 1, by omega⟩
  match members with
  | [] => exact ⟨[], rfl, by simp [separate], .nil⟩
  | (key, value) :: members =>
      have hvalue := descendValue_words value
      have hmore := descendMembers_words members rest fuel
      have hkey := descendString_pieces key
      cases members with
      | nil =>
          simp only [membersWords, separate, List.flatMap_nil, List.append_nil, List.flatten_cons,
            List.length_append, List.length_cons] at hfuel
          obtain ⟨node, hnode, hsolid, hrepresents⟩ := hvalue (rBrace :: rest) fuel (by omega)
          refine ⟨[[.rule .member [stringNode key, .token colon, node]]], ?_, ?_,
            .cons (solid_member key hsolid) rfl hrepresents .nil⟩
          · have htext : (separate [comma] (membersWords [(key, value)])).flatten ++
                rBrace :: rest = quote :: (key.map (·.lexeme) ++
                  quote :: colon :: (value.words.flatten ++ rBrace :: rest)) := by
              simp [membersWords, separate, stringWord]
            simp only [htext, List.isEmpty_cons, descendMembers, hkey]
            simp only [quote, colon, rBrace] at hnode ⊢
            simp [hnode, stringNode, stringWord, separate, quote]
          · simp [separate, Cst.isTrivia]
      | cons next members =>
          obtain ⟨nextKey, nextValue⟩ := next
          have hsplit : separate [comma] (membersWords ((key, value) :: (nextKey, nextValue) :: members)) =
              stringWord key :: [colon] :: (value.words ++
                [comma] :: separate [comma] (membersWords ((nextKey, nextValue) :: members))) := rfl
          rw [hsplit] at hfuel ⊢
          simp only [List.flatten_append, List.flatten_cons, List.length_append, List.length_cons,
            List.length_nil] at hfuel
          obtain ⟨node, hnode, hsolid, hrepresents⟩ :=
            hvalue (comma :: ((separate [comma] (membersWords ((nextKey, nextValue) :: members))).flatten ++
              rBrace :: rest)) fuel (by omega)
          obtain ⟨nodes, hnodes, hsolids, hmembers⟩ := hmore (by omega)
          cases hmembers with
          | cons hmember hcolon hfirst hmembers =>
              refine ⟨_, ?_, ?_, .cons (solid_member key hsolid) rfl hrepresents
                (.cons hmember hcolon hfirst hmembers)⟩
              · have htext : (stringWord key :: [colon] :: (value.words ++
                    [comma] :: separate [comma] (membersWords ((nextKey, nextValue) :: members)))).flatten ++
                      rBrace :: rest = quote :: (key.map (·.lexeme) ++ quote :: colon ::
                        (value.words.flatten ++ comma ::
                          ((separate [comma] (membersWords ((nextKey, nextValue) :: members))).flatten ++
                            rBrace :: rest))) := by
                  simp [stringWord]
                simp only [htext, List.isEmpty_cons, descendMembers, hkey, separate_cons_cons]
                simp only [quote, colon, comma, List.isEmpty_cons] at hnode hnodes ⊢
                simp [hnode, hnodes, stringNode, stringWord, quote]
              · exact List.forall_mem_cons.mpr ⟨rfl, List.forall_mem_cons.mpr ⟨rfl, hsolids⟩⟩

end

/-- Read a document, without its whitespace. -/
def descend (lexemes : List (Lexeme Token)) : Cst × List String :=
  let words := lexemes.filter (·.token ≠ .whitespace)
  match descendValue words.length words with
  | some (node, []) => (.rule .document [node], [])
  | _ => (.rule .error (lexemes.map .token), ["invalid syntax"])

theorem stringWord_solid (pieces : List Piece) :
    ∀ lexeme ∈ stringWord pieces, lexeme.token ≠ .whitespace := by
  intro lexeme hmem hspace
  simp only [stringWord, List.cons_append, List.mem_cons, List.mem_append, List.mem_map,
    List.not_mem_nil, or_false] at hmem
  rcases hmem with rfl | ⟨piece, -, rfl⟩ | rfl
  · cases hspace
  · have hin := piece.inString
    rw [hspace] at hin
    revert hin
    decide
  · cases hspace

theorem separate_solid {words : List (List Word)}
    (h : ∀ group ∈ words, ∀ word ∈ group, ∀ lexeme ∈ word, lexeme.token ≠ .whitespace) :
    ∀ word ∈ separate [comma] words, ∀ lexeme ∈ word, lexeme.token ≠ .whitespace := by
  have hcomma : ∀ lexeme ∈ [comma], lexeme.token ≠ .whitespace := by decide
  cases words with
  | nil => simp [separate]
  | cons first rest =>
      obtain ⟨hfirst, hrest⟩ := List.forall_mem_cons.mp h
      intro word hmem
      rcases List.mem_append.mp hmem with hmem | hmem
      · exact hfirst word hmem
      · obtain ⟨group, hgroup, hword⟩ := List.mem_flatMap.mp hmem
        rcases List.mem_cons.mp hword with rfl | hword
        · exact hcomma
        · exact hrest group hgroup word hword

mutual

/-- No word of a tree is whitespace. -/
theorem words_solid : ∀ (tree : Syntax), ∀ word ∈ tree.words, ∀ lexeme ∈ word,
    lexeme.token ≠ .whitespace
  | .null => by decide
  | .true => by decide
  | .false => by decide
  | .number text => by simp [Syntax.words]
  | .string pieces => List.forall_mem_singleton.mpr (stringWord_solid pieces)
  | .array items => by
      refine List.forall_mem_cons.mpr ⟨by decide, List.forall_mem_append.mpr ⟨?_, by decide⟩⟩
      exact separate_solid (itemsWords_solid items)
  | .object members => by
      refine List.forall_mem_cons.mpr ⟨by decide, List.forall_mem_append.mpr ⟨?_, by decide⟩⟩
      exact separate_solid (membersWords_solid members)

theorem itemsWords_solid : ∀ (items : List Syntax), ∀ group ∈ itemsWords items, ∀ word ∈ group,
    ∀ lexeme ∈ word, lexeme.token ≠ .whitespace
  | [] => by simp [itemsWords]
  | item :: rest => List.forall_mem_cons.mpr ⟨words_solid item, itemsWords_solid rest⟩

theorem membersWords_solid : ∀ (members : List (List Piece × Syntax)),
    ∀ group ∈ membersWords members, ∀ word ∈ group, ∀ lexeme ∈ word, lexeme.token ≠ .whitespace
  | [] => by simp [membersWords]
  | (key, value) :: rest => List.forall_mem_cons.mpr
      ⟨List.forall_mem_cons.mpr ⟨stringWord_solid key,
        List.forall_mem_cons.mpr ⟨by decide, words_solid value⟩⟩, membersWords_solid rest⟩

end

theorem Spells.filter {words : List Word} {lexemes : List (Lexeme Token)} (h : Spells words lexemes)
    (hsolid : ∀ word ∈ words, ∀ lexeme ∈ word, lexeme.token ≠ .whitespace) :
    lexemes.filter (·.token ≠ .whitespace) = words.flatten := by
  induction h with
  | nil => rfl
  | space hspace _ ih =>
      rw [List.filter_cons_of_neg (by simp [hspace])]
      exact ih hsolid
  | word _ ih =>
      obtain ⟨hword, hrest⟩ := List.forall_mem_cons.mp hsolid
      rw [List.filter_append, ih hrest, List.flatten_cons, List.filter_eq_self.mpr]
      exact fun lexeme hmem => decide_eq_true (hword lexeme hmem)

/-- Descending through the grammar is a parser of it. -/
def descent : Parser where
  parse := descend
  parse_spells := by
    intro lexemes tree h
    obtain ⟨node, hnode, hsolid, hrepresents⟩ :=
      descendValue_words tree [] tree.words.flatten.length (le_refl _)
    refine ⟨[node], node, ?_, solid_of_all (List.forall_mem_singleton.mpr hsolid), hrepresents⟩
    rw [descend, h.filter (words_solid tree)]
    rw [List.append_nil] at hnode
    simp only [hnode]

end Descent

end Telora.Json
