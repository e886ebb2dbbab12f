import Mathlib.Data.List.Basic

/-!
# Lexing in fragments

A lexer scans one token after another, in a mode that the tokens change. A text that
arrives in fragments is scanned from the start of what is pending; of each fragment the
tokens that no continuation can change are kept. Keeping tokens with enough of the text
behind them gives the tokens of the whole text.
-/

namespace Telora.Library

/-- A token with the text it covers. -/
structure Lexeme (Token : Type) where
  token : Token
  text : List Char
  deriving DecidableEq, Repr

/-- A lexer gives the token at the start of a text and the number of characters it has
after its first one. -/
structure Lexer (Mode Token : Type) where
  scan : Mode → List Char → Token × Nat
  next : Mode → Token → Mode

namespace Lexer

variable {Mode Token : Type} (lexer : Lexer Mode Token)

/-- The lexemes of a text. -/
def tokens (mode : Mode) : List Char → List (Lexeme Token)
  | [] => []
  | c :: text =>
      let (token, length) := lexer.scan mode (c :: text)
      ⟨token, c :: text.take length⟩ :: tokens (lexer.next mode token) (text.drop length)
termination_by text => text.length
decreasing_by
  simp only [List.length_drop, List.length_cons]
  omega

/-- The mode after some lexemes. -/
def modeAfter (mode : Mode) (lexemes : List (Lexeme Token)) : Mode :=
  lexemes.foldl (fun mode lexeme => lexer.next mode lexeme.token) mode

/-- The text that some lexemes cover. -/
def covered (lexemes : List (Lexeme Token)) : List Char := lexemes.flatMap (·.text)

/-- Lex what is pending with each fragment, and keep the stable part of it. -/
def fragmentTokens (start : Mode) (stable : List Token → Nat) :
    List Char → List (List Char) → List (Lexeme Token)
  | pending, [] => lexer.tokens start pending
  | pending, fragment :: rest =>
      let lexemes := lexer.tokens start (pending ++ fragment)
      let committed := lexemes.take (stable (lexemes.map (·.token)))
      committed ++ fragmentTokens start stable
        ((pending ++ fragment).drop (covered committed).length) rest

@[simp] theorem tokens_nil (mode : Mode) : lexer.tokens mode [] = [] := by
  rw [tokens]

theorem tokens_cons (mode : Mode) (c : Char) (text : List Char) :
    lexer.tokens mode (c :: text) =
      ⟨(lexer.scan mode (c :: text)).1, c :: text.take (lexer.scan mode (c :: text)).2⟩ ::
        lexer.tokens (lexer.next mode (lexer.scan mode (c :: text)).1)
          (text.drop (lexer.scan mode (c :: text)).2) := by
  rw [tokens]

/-- The first lexeme of a text that starts with it. -/
theorem tokens_append {mode : Mode} {token : Token} {c : Char} {text rest : List Char}
    (h : lexer.scan mode (c :: text ++ rest) = (token, text.length)) :
    lexer.tokens mode (c :: text ++ rest) =
      ⟨token, c :: text⟩ :: lexer.tokens (lexer.next mode token) rest := by
  rw [List.cons_append] at h ⊢
  rw [tokens_cons, h]
  simp only [List.take_left, List.drop_left]

/-- No lexeme is empty. -/
theorem text_ne_nil {mode : Mode} {text : List Char} {lexeme : Lexeme Token}
    (h : lexeme ∈ lexer.tokens mode text) : lexeme.text ≠ [] := by
  fun_induction tokens lexer mode text with
  | case1 => cases h
  | case2 mode c text token length hscan ih =>
      rcases List.mem_cons.mp h with rfl | h
      · exact List.cons_ne_nil _ _
      · exact ih h

/-- The lexemes cover the text. -/
theorem covered_tokens (mode : Mode) (text : List Char) :
    covered (lexer.tokens mode text) = text := by
  fun_induction tokens lexer mode text with
  | case1 => rfl
  | case2 mode c text token length hscan ih =>
      calc covered (⟨token, c :: text.take length⟩ :: lexer.tokens (lexer.next mode token) (text.drop length))
          = c :: text.take length ++
              covered (lexer.tokens (lexer.next mode token) (text.drop length)) := rfl
        _ = c :: text := by rw [ih, List.cons_append, List.take_append_drop]

theorem length_tokens_le (mode : Mode) (text : List Char) :
    (lexer.tokens mode text).length ≤ text.length := by
  fun_induction tokens lexer mode text with
  | case1 => exact Nat.le_refl _
  | case2 mode c text token length hscan ih =>
      simp only [List.length_cons, List.length_drop] at ih ⊢
      omega

section Fragments

variable (good : Token → Prop) (lookahead : Nat)

/-- A good token with enough text behind it is the same before the text continues. -/
def StableScan : Prop :=
  ∀ mode text more, good (lexer.scan mode (text ++ more)).1 →
    (lexer.scan mode text).2 + 1 + lookahead ≤ text.length →
    lexer.scan mode text = lexer.scan mode (text ++ more)

variable {lexer good lookahead}

/-- The first tokens of a text with `lookahead` tokens behind them stay when it continues. -/
theorem StableScan.take (h : lexer.StableScan good lookahead) (hpos : 0 < lookahead)
    (more : List Char) (count : Nat) :
    ∀ mode text, (∀ lexeme ∈ lexer.tokens mode (text ++ more), good lexeme.token) →
      (count = 0 ∨ count + lookahead ≤ (lexer.tokens mode text).length) →
      lexer.tokens mode (text ++ more) = (lexer.tokens mode text).take count ++
        lexer.tokens (lexer.modeAfter mode ((lexer.tokens mode text).take count))
          (text.drop (covered ((lexer.tokens mode text).take count)).length ++ more) := by
  induction count with
  | zero => intro mode text _ _; rfl
  | succ count ih =>
      intro mode text hgood hcount
      have hlength := hcount.resolve_left (Nat.succ_ne_zero count)
      cases text with
      | nil =>
          rw [tokens_nil, List.length_nil] at hlength
          omega
      | cons c text =>
          rw [tokens_cons, List.length_cons] at hlength
          have hbehind := lexer.length_tokens_le
            (lexer.next mode (lexer.scan mode (c :: text)).1)
            (text.drop (lexer.scan mode (c :: text)).2)
          rw [List.length_drop] at hbehind
          have hwithin : (lexer.scan mode (c :: text)).2 ≤ text.length := by omega
          have hscan : lexer.scan mode (c :: text) = lexer.scan mode (c :: (text ++ more)) := by
            have hfirst := lexer.tokens_cons mode c (text ++ more)
            rw [← List.cons_append] at hfirst
            have hgoodFirst := hgood ⟨_, _⟩ (hfirst ▸ List.mem_cons_self)
            exact h mode (c :: text) more hgoodFirst (by rw [List.length_cons]; omega)
          have hwhole : lexer.tokens mode (c :: text ++ more) =
              ⟨(lexer.scan mode (c :: text)).1, c :: text.take (lexer.scan mode (c :: text)).2⟩ ::
                lexer.tokens (lexer.next mode (lexer.scan mode (c :: text)).1)
                  (text.drop (lexer.scan mode (c :: text)).2 ++ more) := by
            rw [List.cons_append, tokens_cons, ← hscan, List.take_append_of_le_length hwithin,
              List.drop_append_of_le_length hwithin]
          rw [hwhole] at hgood ⊢
          rw [ih _ _ (fun lexeme hmem => hgood lexeme (List.mem_cons_of_mem _ hmem))
            (.inr (by omega)), tokens_cons]
          have hdrop : ∀ (taken : List (Lexeme Token)), (c :: text).drop
              (covered (⟨(lexer.scan mode (c :: text)).1,
                c :: text.take (lexer.scan mode (c :: text)).2⟩ :: taken)).length =
              (text.drop (lexer.scan mode (c :: text)).2).drop (covered taken).length := by
            intro taken
            have hcovered : (covered (⟨(lexer.scan mode (c :: text)).1,
                c :: text.take (lexer.scan mode (c :: text)).2⟩ :: taken)).length =
                (lexer.scan mode (c :: text)).2 + (covered taken).length + 1 := by
              simp only [covered, List.flatMap_cons, List.length_append, List.length_cons,
                List.length_take, Nat.min_eq_left hwithin]
              omega
            rw [hcovered, List.drop_succ_cons, List.drop_drop]
          rw [List.take_succ_cons, hdrop]
          rfl

/-- Keeping stable tokens, after which the lexer is in its first mode again, gives the
tokens of the whole text. -/
theorem StableScan.fragmentTokens (h : lexer.StableScan good lookahead) (hpos : 0 < lookahead)
    {start : Mode} {stable : List Token → Nat}
    (hstable : ∀ lexemes : List (Lexeme Token), stable (lexemes.map (·.token)) = 0 ∨
      stable (lexemes.map (·.token)) + lookahead ≤ lexemes.length)
    (hmode : ∀ lexemes : List (Lexeme Token),
      lexer.modeAfter start (lexemes.take (stable (lexemes.map (·.token)))) = start)
    (fragments : List (List Char)) (pending : List Char)
    (hgood : ∀ lexeme ∈ lexer.tokens start (pending ++ fragments.flatten), good lexeme.token) :
    lexer.fragmentTokens start stable pending fragments =
      lexer.tokens start (pending ++ fragments.flatten) := by
  induction fragments generalizing pending with
  | nil => rw [List.flatten_nil, List.append_nil]; rfl
  | cons fragment rest ih =>
      rw [List.flatten_cons, ← List.append_assoc] at hgood ⊢
      have htake := h.take hpos rest.flatten _ start (pending ++ fragment) hgood (hstable _)
      rw [hmode] at htake
      rw [htake] at hgood ⊢
      rw [Lexer.fragmentTokens, ih]
      exact fun lexeme hmem => hgood lexeme (List.mem_append_right _ hmem)

end Fragments

end Lexer

end Telora.Library
