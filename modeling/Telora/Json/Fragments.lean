import Telora.Json.Lexer
import Telora.Library.Spans

/-!
# JSON text in fragments

The lexer with the spans and the diagnostics it reports, over a whole text and over the fragments
of a document. From every fragment the stable tokens are committed; what is behind them stays
pending, and spans are shifted to where the pending text starts.
-/

namespace Telora.Json.Fragments

open Library

/-- The report of some lexemes. -/
def describe (lexemes : List (Lexeme Token)) : Lexed Token :=
  ⟨lexemes.map (·.token), Lexer.spansFrom 0 lexemes, Lexer.messagesFrom tokenDiagnostic 0 lexemes⟩

section Lexing
variable (errorLength : Mode → List Char → Nat)

def tokenize (text : List Char) : Lexed Token := describe (Json.tokenize errorLength text)

/-- The reports so far, with the text that is not committed and where it starts. -/
structure State where
  reported : Lexed Token
  pending : List Char
  pendingStart : Nat

/-- One more fragment; nothing is left of a run that panics. -/
def step (state : State) (fragment : List Char) : Option State :=
  let pending := state.pending ++ fragment
  let found := tokenize errorLength pending
  let commit := stableNormalPrefix found.tokens
  if commit = 0 then some { state with pending }
  else
    (found.spans[commit - 1]?).bind fun last =>
      (splitAtByte last.stop pending).map fun sides =>
        { reported := state.reported.extend state.pendingStart
            ⟨found.tokens.take commit, found.spans.take commit,
              found.diagnostics.filter (·.label.stop ≤ last.stop)⟩
          pending := sides.2
          pendingStart := state.pendingStart + last.stop }

/-- What is pending after the last fragment is reported whole. -/
def finish (state : State) : Lexed Token :=
  if state.pending = [] then state.reported
  else state.reported.extend state.pendingStart (tokenize errorLength state.pending)

def tokenizeFragments (fragments : List (List Char)) : Option (Lexed Token) :=
  (fragments.foldlM (step errorLength) ⟨⟨[], [], []⟩, [], 0⟩).map (finish errorLength)

end Lexing

section Reports

/-- Reports of pending text are those of its lexemes from where it starts. -/
theorem extend_describe (reported : Lexed Token) (offset : Nat) (lexemes : List (Lexeme Token)) :
    reported.extend offset (describe lexemes) =
      ⟨reported.tokens ++ lexemes.map (·.token),
        reported.spans ++ Lexer.spansFrom offset lexemes,
        reported.diagnostics ++ Lexer.messagesFrom tokenDiagnostic offset lexemes⟩ := by
  rw [Lexed.extend, describe, Lexer.spansFrom_shift, Lexer.messagesFrom_shift, Nat.add_zero]

theorem extend_nil (reported : Lexed Token) (offset : Nat) :
    reported.extend offset (describe []) = reported := by
  rw [extend_describe]
  simp [Lexer.spansFrom, Lexer.messagesFrom]

theorem extend_append (reported : Lexed Token) (offset : Nat)
    (lexemes rest : List (Lexeme Token)) :
    (reported.extend offset (describe lexemes)).extend
        (offset + byteLength (Lexer.covered lexemes)) (describe rest) =
      reported.extend offset (describe (lexemes ++ rest)) := by
  rw [extend_describe, extend_describe, extend_describe, List.map_append, Lexer.spansFrom_append,
    Lexer.messagesFrom_append]
  simp only [List.append_assoc]

end Reports

section Run
variable (errorLength : Mode → List Char → Nat)

/-- A step commits the stable lexemes of what is pending. -/
theorem step_eq (state : State) (fragment : List Char) :
    let lexemes := Json.tokenize errorLength (state.pending ++ fragment)
    let committed := lexemes.take (stableNormalPrefix (lexemes.map (·.token)))
    step errorLength state fragment = some
      { reported := state.reported.extend state.pendingStart (describe committed)
        pending := (state.pending ++ fragment).drop (Lexer.covered committed).length
        pendingStart := state.pendingStart + byteLength (Lexer.covered committed) } := by
  intro lexemes committed
  have hcovered : Lexer.covered lexemes = state.pending ++ fragment :=
    (lexer errorLength).covered_tokens .normal _
  rw [step]
  change (if stableNormalPrefix (lexemes.map (·.token)) = 0 then _ else _) = _
  split
  · next hzero =>
      have hnone : committed = [] := by
        change lexemes.take (stableNormalPrefix (lexemes.map (·.token))) = []
        rw [hzero, List.take_zero]
      rw [hnone, extend_nil]
      rfl
  · next hpos =>
      have hcount : stableNormalPrefix (lexemes.map (·.token)) ≤ lexemes.length := by
        have := stableNormalPrefix_le lexemes
        omega
      have hlength : committed.length = stableNormalPrefix (lexemes.map (·.token)) :=
        List.length_take_of_le hcount
      have hsplit : lexemes = committed ++ lexemes.drop committed.length := by
        rw [hlength]
        exact (List.take_append_drop _ _).symm
      generalize lexemes.drop committed.length = rest at hsplit
      have hne : committed ≠ [] := by
        rintro hnil
        rw [hnil] at hlength
        exact hpos hlength.symm
      have hrest : ∀ lexeme ∈ rest, lexeme.text ≠ [] := fun lexeme hmem =>
        (lexer errorLength).text_ne_nil (hsplit ▸ List.mem_append_right committed hmem :
          lexeme ∈ lexemes)
      have htext : state.pending ++ fragment = Lexer.covered committed ++ Lexer.covered rest := by
        rw [← hcovered, hsplit]
        exact List.flatMap_append
      obtain ⟨last, hlast, hstop⟩ := Lexer.spansFrom_last hne rest
      have htokens : (lexemes.map (·.token)).take (stableNormalPrefix (lexemes.map (·.token))) =
          committed.map (·.token) := by
        rw [← hlength, hsplit, List.map_append]
        exact List.take_left' (List.length_map _)
      have hspans : (Lexer.spansFrom 0 lexemes).take (stableNormalPrefix (lexemes.map (·.token))) =
          Lexer.spansFrom 0 committed := by
        rw [← hlength, hsplit, Lexer.spansFrom_take]
      have hdiagnostics : (Lexer.messagesFrom tokenDiagnostic 0 lexemes).filter (·.label.stop ≤ last.stop) =
          Lexer.messagesFrom tokenDiagnostic 0 committed := by
        rw [hstop, hsplit, Lexer.messagesFrom_filter hrest]
      have hsides : splitAtByte last.stop (state.pending ++ fragment) =
          some (Lexer.covered committed, Lexer.covered rest) := by
        rw [hstop, htext, splitAtByte_append]
      have hat : (Lexer.spansFrom 0 lexemes)[stableNormalPrefix (lexemes.map (·.token)) - 1]? =
          some last := by
        rw [← hlength, hsplit]
        exact hlast
      have hdrop : (state.pending ++ fragment).drop (Lexer.covered committed).length =
          Lexer.covered rest := by
        rw [htext]
        exact List.drop_left
      change ((Lexer.spansFrom 0 lexemes)[stableNormalPrefix (lexemes.map (·.token)) - 1]?).bind _ = _
      rw [hat, Option.bind_some, hsides, Option.map_some]
      change some (State.mk (state.reported.extend state.pendingStart
        ⟨(lexemes.map (·.token)).take (stableNormalPrefix (lexemes.map (·.token))),
          (Lexer.spansFrom 0 lexemes).take (stableNormalPrefix (lexemes.map (·.token))),
          (Lexer.messagesFrom tokenDiagnostic 0 lexemes).filter (·.label.stop ≤ last.stop)⟩) _ _) = _
      rw [htokens, hspans, hdiagnostics, hdrop, hstop]
      rfl

/-- The run reports the lexemes of the fragments, from where the pending text starts. -/
theorem run_eq (fragments : List (List Char)) : ∀ state : State,
    (fragments.foldlM (step errorLength) state).map (finish errorLength) =
      some (state.reported.extend state.pendingStart (describe
        ((lexer errorLength).fragmentTokens .normal stableNormalPrefix state.pending
          fragments))) := by
  induction fragments with
  | nil =>
      intro state
      rw [List.foldlM_nil]
      change some (finish errorLength state) = _
      rw [finish, Lexer.fragmentTokens]
      split
      · next hempty => rw [hempty, Lexer.tokens_nil, extend_nil]
      · rfl
  | cons fragment fragments ih =>
      intro state
      rw [List.foldlM_cons, step_eq]
      change ((fragments.foldlM (step errorLength) _)).map (finish errorLength) = _
      rw [ih, extend_append, Lexer.fragmentTokens]
      rfl

/-- The fragments of a text are lexed as the whole text: no token, span or diagnostic depends on
where the text is cut. -/
theorem tokenizeFragments_exact (h : ErrorsSettled errorLength) (fragments : List (List Char)) :
    tokenizeFragments errorLength fragments = some (tokenize errorLength fragments.flatten) := by
  have hrun := run_eq errorLength fragments ⟨⟨[], [], []⟩, [], 0⟩
  have hlexemes := tokenizeFragments_settled errorLength h fragments
  rw [Json.tokenizeFragments] at hlexemes
  rw [tokenizeFragments, hrun, hlexemes, extend_describe]
  rfl

/-- How many characters two texts begin with alike. -/
def commonLength : List Char → List Char → Nat
  | c :: left, d :: right => if c = d then commonLength left right + 1 else 0
  | _, _ => 0

/-- An error covers the part of a keyword that was read, and of a string one character. -/
def partLength : Mode → List Char → Nat
  | .normal, text =>
      let lengths := keywords.map fun keyword => commonLength keyword.1 (text.take 5)
      lengths.foldl max 0 - 1
  | .string, _ => 0

theorem errorsSettled_partLength : ErrorsSettled partLength := by
  intro mode text more hlength
  have hstart : (text ++ more).take 5 = text.take 5 := List.take_append_of_le_length (by omega)
  cases mode with
  | normal => simp only [partLength, hstart]
  | string => rfl

/-- A keyword, an escape and a stray character, each cut in two. -/
theorem tokenizeFragments_exact_cut :
    tokenizeFragments partLength
        ["[1,2,3,4,5,tr".toList, "ue,\"\\u00".toList, "e9\",$".toList, "]".toList] =
      some (tokenize partLength
        ["[1,2,3,4,5,tr".toList, "ue,\"\\u00".toList, "e9\",$".toList, "]".toList].flatten) :=
  tokenizeFragments_exact partLength errorsSettled_partLength _

end Run

end Telora.Json.Fragments
