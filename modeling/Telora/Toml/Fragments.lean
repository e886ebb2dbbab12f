import Telora.Toml.Segments

/-!
# TOML text in fragments

The pending text is lexed up to its last stable boundary with every fragment. Until an error is
reported, what is committed is the report of the text before the boundary, and the whole text is
lexed from there as if it began there.
-/

namespace Telora.Toml.Lexing

open Library

section Dates

theorem isDateTime_of_space {date space time : Lexeme Token} (h : space.token = .newline) :
    isDateTime date space time = false := by
  simp [isDateTime, h]

theorem isDateTime_of_date {date space time : Lexeme Token} (h : date.token = .newline) :
    isDateTime date space time = false := by
  simp [isDateTime, h]

theorem mergeDates_cons {date space time : Lexeme Token} {rest : List (Lexeme Token)}
    (h : isDateTime date space time = false) :
    mergeDates (date :: space :: time :: rest) = date :: mergeDates (space :: time :: rest) := by
  rw [mergeDates, if_neg (by rw [h]; exact Bool.false_ne_true)]

/-- A line end is no part of a date. -/
theorem mergeDates_newline {line : Lexeme Token} (h : line.token = .newline)
    (rest : List (Lexeme Token)) : mergeDates (line :: rest) = line :: mergeDates rest := by
  match rest with
  | [] => rfl
  | [_] => rfl
  | _ :: _ :: _ => exact mergeDates_cons (isDateTime_of_date h)

/-- The dates of ended lines are those of the lines before and behind. -/
theorem mergeDates_append {lexemes : List (Lexeme Token)} (h : Ended lexemes)
    (rest : List (Lexeme Token)) :
    mergeDates (lexemes ++ rest) = mergeDates lexemes ++ mergeDates rest ∧
      Ended (mergeDates lexemes) := by
  induction hsize : lexemes.length using Nat.strong_induction_on generalizing lexemes with
  | _ n ih =>
  match lexemes, h with
  | [line], h =>
      have hline : line.token = .newline := Option.some.inj h
      exact ⟨mergeDates_newline hline rest, h⟩
  | [first, line], h =>
      have hline : line.token = .newline := Option.some.inj h
      refine ⟨?_, h⟩
      have hbehind := mergeDates_newline hline rest
      cases rest with
      | nil => rfl
      | cons next rest =>
          change mergeDates (first :: line :: next :: rest) = _
          rw [mergeDates_cons (isDateTime_of_space hline), hbehind]
          rfl
  | date :: space :: time :: lexemes, h =>
      have hshorter : lexemes.length + 2 < n := by
        rw [← hsize]
        exact Nat.lt_succ_self _
      rw [Ended, List.getLast?_cons_cons] at h
      change mergeDates (date :: space :: time :: (lexemes ++ rest)) = _ ∧ _
      rw [mergeDates, mergeDates]
      split
      · next hdate =>
          cases lexemes with
          | nil =>
              rw [List.getLast?_cons_cons] at h
              have htime : time.token = .newline := Option.some.inj h
              simp [isDateTime, htime] at hdate
          | cons next lexemes =>
              rw [List.getLast?_cons_cons, List.getLast?_cons_cons] at h
              have hlength : (next :: lexemes).length < n := by omega
              obtain ⟨hsplit, hended⟩ := ih _ hlength h rfl
              exact ⟨congrArg (List.cons _) hsplit, hended.cons _⟩
      · obtain ⟨hsplit, hended⟩ := ih (lexemes.length + 2) hshorter h rfl
        exact ⟨congrArg (List.cons date) hsplit, hended.cons date⟩

theorem covered_mergeDates (lexemes : List (Lexeme Token)) :
    Lexer.covered (mergeDates lexemes) = Lexer.covered lexemes := by
  induction hsize : lexemes.length using Nat.strong_induction_on generalizing lexemes with
  | _ n ih =>
  match lexemes with
  | [] => rfl
  | [_] => rfl
  | [_, _] => rfl
  | date :: space :: time :: rest =>
      have hrest : rest.length < n := by
        rw [← hsize]
        simp only [List.length_cons]
        omega
      have htail : (space :: time :: rest).length < n := by
        rw [← hsize]
        exact Nat.lt_succ_self _
      rw [mergeDates]
      split
      · change _ ++ Lexer.covered (mergeDates rest) = date.text ++ (space.text ++ (time.text ++ _))
        rw [ih _ hrest rest rfl, List.append_assoc, List.append_assoc]
        rfl
      · exact congrArg (date.text ++ ·) (ih _ htail _ rfl)

end Dates

section Reports

/-- The report of some lines. -/
def describe (lexemes : List (Lexeme Token)) : Lexed Token :=
  ⟨(mergeDates lexemes).map (·.token), Lexer.spansFrom 0 (mergeDates lexemes),
    Lexer.messagesFrom tokenDiagnostic 0 lexemes⟩

/-- The report of a text, whose last line is ended. -/
def describeText (lexemes : List (Lexeme Token)) : Lexed Token :=
  let merged := endLine (mergeDates lexemes)
  ⟨merged.map (·.token), Lexer.spansFrom 0 merged, Lexer.messagesFrom tokenDiagnostic 0 lexemes⟩

theorem describeText_of_ended {lexemes : List (Lexeme Token)} (h : Ended lexemes) :
    describeText lexemes = describe lexemes := by
  have hmerged : endLine (mergeDates lexemes) = mergeDates lexemes :=
    if_pos (mergeDates_append h []).2
  rw [describeText, hmerged]
  rfl

theorem endLine_append {lexemes rest : List (Lexeme Token)} (h : rest ≠ []) :
    endLine (lexemes ++ rest) = lexemes ++ endLine rest := by
  rw [endLine, endLine, List.getLast?_append_of_ne_nil lexemes h]
  split
  · rfl
  · exact List.append_assoc _ _ _

theorem mergeDates_ne_nil {lexemes : List (Lexeme Token)} (h : lexemes ≠ []) :
    mergeDates lexemes ≠ [] := by
  match lexemes, h with
  | [], h => exact absurd rfl h
  | [_], h => exact h
  | [_, _], h => exact h
  | _ :: _ :: _ :: _, _ =>
      rw [mergeDates]
      split <;> exact List.cons_ne_nil _ _

/-- The report of lines with a text behind them. -/
theorem extend_describeText {lexemes rest : List (Lexeme Token)}
    (h : lexemes = [] ∨ Ended lexemes) (hrest : rest ≠ []) :
    (describe lexemes).extend (byteLength (Lexer.covered lexemes)) (describeText rest) =
      describeText (lexemes ++ rest) := by
  have hsplit : mergeDates (lexemes ++ rest) = mergeDates lexemes ++ mergeDates rest := by
    rcases h with rfl | hended
    · rfl
    · exact (mergeDates_append hended rest).1
  rw [describeText, describeText, hsplit, endLine_append (mergeDates_ne_nil hrest)]
  simp only [Lexed.extend, describe, Lexer.spansFrom_shift, Lexer.messagesFrom_shift,
    List.map_append, Lexer.spansFrom_append, Lexer.messagesFrom_append, covered_mergeDates,
    Nat.add_zero, Nat.zero_add]

theorem diagnostics_eq_nil_iff (lexemes : List (Lexeme Token)) :
    (describeText lexemes).diagnostics = [] ↔ ¬Fails lexemes := by
  change Lexer.messagesFrom tokenDiagnostic 0 lexemes = [] ↔ _
  rw [Lexer.messagesFrom_eq_nil_iff, Fails, not_exists]
  refine forall_congr' fun lexeme => ?_
  rw [not_and]
  refine imp_congr_right fun _ => ?_
  rw [tokenDiagnostic]
  split
  · next herror => simp [herror]
  · next herror => simp [herror]

end Reports

section Run
variable (errorLength : List Char → Nat)

theorem tokenize_eq (text : List Char) :
    tokenize errorLength text = describeText ((lexer errorLength).tokens 0 text) := rfl

/-- What is committed before a place in the text: the report of the lines up to there, from which
on the text is lexed anew, or an error that stays. -/
def Committed (consumed : List Char) (reported : Lexed Token) : Prop :=
  reported = describe ((lexer errorLength).tokens 0 consumed) ∧
      ((lexer errorLength).tokens 0 consumed = [] ∨
        Ended ((lexer errorLength).tokens 0 consumed)) ∧
      (∀ more, (lexer errorLength).tokens 0 (consumed ++ more) =
        (lexer errorLength).tokens 0 consumed ++ (lexer errorLength).tokens 0 more) ∨
    reported.diagnostics ≠ [] ∧
      ∀ more, Fails ((lexer errorLength).tokens 0 (consumed ++ more))

theorem tokens_ne_nil {text : List Char} (h : text ≠ []) :
    (lexer errorLength).tokens 0 text ≠ [] := by
  cases text with
  | nil => exact absurd rfl h
  | cons c rest =>
      rw [Lexer.tokens_cons]
      exact List.cons_ne_nil _ _

theorem Committed.extend {consumed segment : List Char} {reported : Lexed Token}
    (h : Committed errorLength consumed reported) (hsegment : settles .normal 0 segment = true) :
    Committed errorLength (consumed ++ segment)
      (reported.extend (byteLength consumed) (tokenize errorLength segment)) := by
  have hin : InStep 0 segment := .inl hsegment
  rcases h with ⟨rfl, hended, hanew⟩ | ⟨hdiagnostics, hfails⟩
  · have hreport : (describe ((lexer errorLength).tokens 0 consumed)).extend
        (byteLength consumed) (tokenize errorLength segment) =
          describeText ((lexer errorLength).tokens 0 (consumed ++ segment)) := by
      rw [hanew, ← extend_describeText hended (tokens_ne_nil errorLength hin.ne_nil),
        Lexer.covered_tokens]
      rfl
    rw [hreport]
    by_cases hfailed : Fails ((lexer errorLength).tokens 0 segment)
    · refine .inr ⟨?_, fun more => ?_⟩
      · rw [Ne, diagnostics_eq_nil_iff, not_not, hanew]
        obtain ⟨lexeme, hmem, herror⟩ := hfailed
        exact ⟨lexeme, List.mem_append_right _ hmem, herror⟩
      · obtain ⟨lexeme, hmem, herror⟩ :=
          ((tokens_of_inStep errorLength more hin).resolve_right fun h => h.1 hfailed).2
        rw [List.append_assoc, hanew]
        exact ⟨lexeme, List.mem_append_right _ hmem, herror⟩
    · have hclean : ∀ more, _ := fun more =>
        (tokens_of_inStep errorLength more hin).resolve_left fun h => hfailed h.1
      have hline : Ended ((lexer errorLength).tokens 0 (consumed ++ segment)) := by
        rw [hanew, Ended, List.getLast?_append_of_ne_nil _ (tokens_ne_nil errorLength hin.ne_nil)]
        exact (hclean []).2.1
      refine .inl ⟨describeText_of_ended hline, .inr hline, fun more => ?_⟩
      rw [List.append_assoc, hanew, (hclean more).2.2, hanew, List.append_assoc]
  · refine .inr ⟨?_, fun more => ?_⟩
    · exact fun hnil => hdiagnostics (List.append_eq_nil_iff.mp hnil).1
    · rw [List.append_assoc]
      exact hfails (segment ++ more)

/-- A state of the run behind the fragments of a text. -/
structure Tracks (text : List Char) (state : FragmentState) : Prop where
  committed : ∃ consumed, text = consumed ++ state.pending ∧
    state.pendingStart = byteLength consumed ∧ Committed errorLength consumed state.reported

/-- One more fragment. -/
theorem Tracks.step {text : List Char} {state : FragmentState}
    (h : Tracks errorLength text state) (fragment : List Char) :
    ∃ next, fragmentStep errorLength state fragment = some next ∧
      Tracks errorLength (text ++ fragment) next := by
  obtain ⟨consumed, rfl, hstart, hcommitted⟩ := h.committed
  rw [fragmentStep]
  by_cases hzero : stableStatementBoundary (state.pending ++ fragment) = 0
  · refine ⟨_, if_pos hzero, ⟨consumed, ?_, hstart, hcommitted⟩⟩
    exact List.append_assoc _ _ _
  · obtain ⟨front, back, hsplit, hsettles, hboundary⟩ :=
      (stableStatementBoundary_cases (state.pending ++ fragment)).resolve_left hzero
    refine ⟨⟨appendSegment errorLength state front, back,
      state.pendingStart + byteLength front⟩, ?_, ⟨consumed ++ front, ?_, ?_, ?_⟩⟩
    · rw [if_neg hzero, hboundary, hsplit, splitAtByte_append]
      rfl
    · rw [List.append_assoc, hsplit, List.append_assoc]
    · rw [hstart, byteLength_append]
    · rw [appendSegment, hstart]
      exact hcommitted.extend errorLength hsettles

theorem Tracks.run (fragments : List (List Char)) : ∀ {text : List Char} {state : FragmentState},
    Tracks errorLength text state →
      ∃ last, fragments.foldlM (fragmentStep errorLength) state = some last ∧
        Tracks errorLength (text ++ fragments.flatten) last := by
  induction fragments with
  | nil =>
      intro text state h
      refine ⟨state, rfl, ?_⟩
      rwa [List.flatten_nil, List.append_nil]
  | cons fragment fragments ih =>
      intro text state h
      obtain ⟨next, hnext, hafter⟩ := h.step errorLength fragment
      obtain ⟨last, hlast, hend⟩ := ih hafter
      refine ⟨last, ?_, ?_⟩
      · rw [List.foldlM_cons, hnext]
        exact hlast
      · rwa [List.flatten_cons, ← List.append_assoc]

/-- What is reported at the end is the report of the text, or both have errors. -/
theorem Tracks.finish {text : List Char} {state : FragmentState}
    (h : Tracks errorLength text state) :
    finishFragments errorLength (byteLength text) state = tokenize errorLength text ∨
      (finishFragments errorLength (byteLength text) state).diagnostics ≠ [] ∧
        (tokenize errorLength text).diagnostics ≠ [] := by
  obtain ⟨consumed, rfl, hstart, ⟨hreported, hended, hanew⟩ | ⟨hdiagnostics, hfails⟩⟩ :=
    h.committed
  · refine .inl ?_
    rw [finishFragments]
    by_cases hpending : state.pending = []
    · rw [if_neg (not_not.mpr hpending), hpending, List.append_nil, tokenize_eq, hreported]
      rcases hended with hnone | hline
      · have hempty : consumed = [] := by
          by_contra hne
          exact tokens_ne_nil errorLength hne hnone
        rw [hempty, Lexer.tokens_nil]
        rfl
      · rw [describeText_of_ended hline, if_neg]
        rw [not_not, describe, List.getLast?_map]
        exact (mergeDates_append hline []).2
    · rw [if_pos hpending, appendSegment, hreported, hstart, tokenize_eq, tokenize_eq, hanew,
        ← extend_describeText hended (tokens_ne_nil errorLength hpending), Lexer.covered_tokens]
  · refine .inr ⟨?_, ?_⟩
    · rw [finishFragments]
      split
      · exact fun hnil => hdiagnostics (List.append_eq_nil_iff.mp hnil).1
      · split <;> exact hdiagnostics
    · rw [tokenize_eq, Ne, diagnostics_eq_nil_iff, not_not]
      exact hfails state.pending

/-- However a text is cut, its fragments have an error exactly where the whole text has one, and
have its tokens and spans where it has none. -/
theorem tokenizeFragments_faithful (fragments : List (List Char)) :
    ∃ cut, tokenizeFragments errorLength fragments (byteLength fragments.flatten) = some cut ∧
      (cut.diagnostics = [] ↔ (tokenize errorLength fragments.flatten).diagnostics = []) ∧
      ((tokenize errorLength fragments.flatten).diagnostics = [] →
        cut.tokens = (tokenize errorLength fragments.flatten).tokens ∧
          cut.spans = (tokenize errorLength fragments.flatten).spans) := by
  have hstart : Tracks errorLength [] ⟨⟨[], [], []⟩, [], 0⟩ := by
    refine ⟨[], rfl, rfl, .inl ⟨?_, .inl (Lexer.tokens_nil _ _), fun more => ?_⟩⟩
    · rw [Lexer.tokens_nil]
      rfl
    · rw [Lexer.tokens_nil]
      rfl
  obtain ⟨last, hlast, hend⟩ := hstart.run errorLength fragments
  rw [List.nil_append] at hend
  refine ⟨_, by rw [tokenizeFragments, hlast, Option.map_some], ?_⟩
  rcases hend.finish errorLength with hsame | ⟨hcut, hwhole⟩
  · rw [hsame]
    exact ⟨Iff.rfl, fun _ => ⟨rfl, rfl⟩⟩
  · exact ⟨iff_of_false hcut hwhole, fun hnone => absurd hnone hwhole⟩

end Run

end Telora.Toml.Lexing
