import Telora.Library.Lexing
import Telora.Library.Utf8

/-!
# Spans of lexemes

The byte spans of lexemes that stand one behind the other, and the messages that some of them
cause. Text that is lexed on its own is reported with its spans shifted to where it starts.
-/

namespace Telora.Library

structure Span where
  start : Nat
  stop : Nat
  deriving DecidableEq, Repr

def Span.shift (offset : Nat) (span : Span) : Span := ⟨offset + span.start, offset + span.stop⟩

structure LabeledMessage where
  message : String
  label : Span
  deriving DecidableEq, Repr

def LabeledMessage.shift (offset : Nat) (diagnostic : LabeledMessage) : LabeledMessage :=
  { diagnostic with label := diagnostic.label.shift offset }

/-- What a lexer reports: tokens, their spans, and diagnostics. -/
structure Lexed (Token : Type) where
  tokens : List Token
  spans : List Span
  diagnostics : List LabeledMessage
  deriving DecidableEq, Repr

variable {Token : Type}

/-- A report with that of the text from an offset on behind it. -/
def Lexed.extend (reported : Lexed Token) (offset : Nat) (found : Lexed Token) : Lexed Token :=
  ⟨reported.tokens ++ found.tokens, reported.spans ++ found.spans.map (·.shift offset),
    reported.diagnostics ++ found.diagnostics.map (·.shift offset)⟩

namespace Lexer

def spansFrom (start : Nat) : List (Lexeme Token) → List Span
  | [] => []
  | lexeme :: rest =>
      ⟨start, start + byteLength lexeme.text⟩ :: spansFrom (start + byteLength lexeme.text) rest

theorem byteLength_covered_cons (lexeme : Lexeme Token) (rest : List (Lexeme Token)) :
    byteLength (covered (lexeme :: rest)) = byteLength lexeme.text + byteLength (covered rest) :=
  byteLength_append _ _

theorem covered_append (lexemes rest : List (Lexeme Token)) :
    covered (lexemes ++ rest) = covered lexemes ++ covered rest :=
  List.flatMap_append

theorem spansFrom_append (start : Nat) (lexemes rest : List (Lexeme Token)) :
    spansFrom start (lexemes ++ rest) =
      spansFrom start lexemes ++ spansFrom (start + byteLength (covered lexemes)) rest := by
  induction lexemes generalizing start with
  | nil => rfl
  | cons lexeme lexemes ih =>
      rw [List.cons_append, spansFrom, ih, byteLength_covered_cons, Nat.add_assoc]
      rfl

theorem spansFrom_shift (offset : Nat) (lexemes : List (Lexeme Token)) : ∀ start,
    (spansFrom start lexemes).map (·.shift offset) = spansFrom (offset + start) lexemes := by
  induction lexemes with
  | nil => exact fun start => rfl
  | cons lexeme lexemes ih =>
      intro start
      rw [spansFrom, List.map_cons, ih, spansFrom, Span.shift, Nat.add_assoc]

theorem length_spansFrom (lexemes : List (Lexeme Token)) : ∀ start,
    (spansFrom start lexemes).length = lexemes.length := by
  induction lexemes with
  | nil => exact fun _ => rfl
  | cons lexeme lexemes ih => exact fun start => congrArg Nat.succ (ih _)

theorem spansFrom_take (lexemes rest : List (Lexeme Token)) :
    (spansFrom 0 (lexemes ++ rest)).take lexemes.length = spansFrom 0 lexemes := by
  rw [spansFrom_append]
  exact List.take_left' (length_spansFrom lexemes 0)

/-- The last span of some lexemes ends where their text does. -/
theorem spansFrom_last {lexemes : List (Lexeme Token)} (hne : lexemes ≠ [])
    (rest : List (Lexeme Token)) :
    ∃ span, (spansFrom 0 (lexemes ++ rest))[lexemes.length - 1]? = some span ∧
      span.stop = byteLength (covered lexemes) := by
  rcases List.eq_nil_or_concat' lexemes with rfl | ⟨init, lexeme, rfl⟩
  · exact absurd rfl hne
  refine ⟨⟨byteLength (covered init), byteLength (covered init) + byteLength lexeme.text⟩, ?_, ?_⟩
  · rw [List.append_assoc, spansFrom_append, List.length_append, List.length_singleton,
      Nat.add_sub_cancel, ← length_spansFrom init 0,
      List.getElem?_append_right (Nat.le_refl _), Nat.sub_self, Nat.zero_add]
    rfl
  · rw [covered_append, byteLength_append, byteLength_covered_cons]
    rfl

section Messages
variable (message : Token → Option String)

/-- The messages of some tokens, at their spans. -/
def messagesFrom (start : Nat) : List (Lexeme Token) → List LabeledMessage
  | [] => []
  | lexeme :: rest =>
      (message lexeme.token).toList.map (⟨·, start, start + byteLength lexeme.text⟩) ++
        messagesFrom (start + byteLength lexeme.text) rest

theorem messagesFrom_append (start : Nat) (lexemes rest : List (Lexeme Token)) :
    messagesFrom message start (lexemes ++ rest) = messagesFrom message start lexemes ++
      messagesFrom message (start + byteLength (covered lexemes)) rest := by
  induction lexemes generalizing start with
  | nil => rfl
  | cons lexeme lexemes ih =>
      rw [List.cons_append, messagesFrom, ih, byteLength_covered_cons, ← Nat.add_assoc,
        messagesFrom, List.append_assoc]

theorem messagesFrom_shift (offset : Nat) (lexemes : List (Lexeme Token)) : ∀ start,
    (messagesFrom message start lexemes).map (·.shift offset) =
      messagesFrom message (offset + start) lexemes := by
  induction lexemes with
  | nil => exact fun start => rfl
  | cons lexeme lexemes ih =>
      intro start
      rw [messagesFrom, List.map_append, ih, messagesFrom, List.map_map, Nat.add_assoc]
      rfl

theorem messagesFrom_eq_nil_iff (lexemes : List (Lexeme Token)) : ∀ start,
    messagesFrom message start lexemes = [] ↔
      ∀ lexeme ∈ lexemes, message lexeme.token = none := by
  induction lexemes with
  | nil => exact fun _ => ⟨fun _ _ h => (List.not_mem_nil h).elim, fun _ => rfl⟩
  | cons lexeme lexemes ih =>
      intro start
      rw [messagesFrom, List.append_eq_nil_iff, ih, List.map_eq_nil_iff,
        Option.toList_eq_nil_iff, List.forall_mem_cons]

variable {message}

theorem stop_le_of_mem {lexemes : List (Lexeme Token)} {diagnostic : LabeledMessage} :
    ∀ {start}, diagnostic ∈ messagesFrom message start lexemes →
      diagnostic.label.stop ≤ start + byteLength (covered lexemes) := by
  induction lexemes with
  | nil => exact fun h => (List.not_mem_nil h).elim
  | cons lexeme lexemes ih =>
      intro start h
      rw [byteLength_covered_cons]
      rcases List.mem_append.mp h with h | h
      · obtain ⟨text, -, rfl⟩ := List.mem_map.mp h
        change start + byteLength lexeme.text ≤ _
        omega
      · have := ih h
        omega

theorem stop_gt_of_mem {lexemes : List (Lexeme Token)} {diagnostic : LabeledMessage}
    (hne : ∀ lexeme ∈ lexemes, lexeme.text ≠ []) :
    ∀ {start}, diagnostic ∈ messagesFrom message start lexemes →
      start < diagnostic.label.stop := by
  induction lexemes with
  | nil => exact fun h => (List.not_mem_nil h).elim
  | cons lexeme lexemes ih =>
      intro start h
      obtain ⟨hfirst, hrest⟩ := List.forall_mem_cons.mp hne
      rcases List.mem_append.mp h with h | h
      · obtain ⟨text, -, rfl⟩ := List.mem_map.mp h
        have hpos : byteLength lexeme.text ≠ 0 := fun hzero => hfirst (byteLength_eq_zero hzero)
        change start < start + byteLength lexeme.text
        omega
      · have := ih hrest h
        omega

/-- The messages up to the end of some lexemes are theirs. -/
theorem messagesFrom_filter {lexemes rest : List (Lexeme Token)}
    (hne : ∀ lexeme ∈ rest, lexeme.text ≠ []) :
    (messagesFrom message 0 (lexemes ++ rest)).filter
      (·.label.stop ≤ byteLength (covered lexemes)) = messagesFrom message 0 lexemes := by
  rw [messagesFrom_append, List.filter_append]
  have hfront : (messagesFrom message 0 lexemes).filter
      (·.label.stop ≤ byteLength (covered lexemes)) = messagesFrom message 0 lexemes := by
    refine List.filter_eq_self.mpr fun diagnostic h => decide_eq_true ?_
    have := stop_le_of_mem h
    omega
  have hback : (messagesFrom message (0 + byteLength (covered lexemes)) rest).filter
      (·.label.stop ≤ byteLength (covered lexemes)) = [] := by
    refine List.filter_eq_nil_iff.mpr fun diagnostic h hle => ?_
    have := stop_gt_of_mem hne h
    have := of_decide_eq_true hle
    omega
  rw [hfront, hback, List.append_nil]

end Messages

end Lexer

end Telora.Library
