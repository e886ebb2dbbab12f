import Mathlib.Data.List.Basic
import Mathlib.Tactic.Common

/-!
# Display templates

A template is a text with fields in braces; a brace of the text is doubled. The parser
reads one character after another with one of lookahead, and it accepts exactly the
sources that a list of texts and named fields is written as.
-/

namespace Telora.Fmt

inductive TemplatePart where
  | text (text : List Char)
  | field (name : List Char)
  deriving DecidableEq, Repr

/-- The text so far becomes a part, unless it is empty. -/
def flush (parts : List TemplatePart) (text : List Char) : List TemplatePart :=
  if text.isEmpty then parts else parts ++ [.text text]

/-- What `is_ascii_alphanumeric` and the underscore allow. -/
def isFieldChar (c : Char) : Bool := c = '_' || c.isAlphanum

/-- The name of a field: not empty, of letters, digits and underscores, no digit in front. -/
def isFieldName (name : List Char) : Bool :=
  !name.isEmpty && name.all isFieldChar && !name.head?.any (·.isDigit)

mutual

/-- The loop of the parser, outside a field. -/
def parseText (parts : List TemplatePart) (text : List Char) :
    List Char → Except String (List TemplatePart)
  | [] => .ok (flush parts text)
  | '{' :: '{' :: rest => parseText parts (text ++ ['{']) rest
  | '}' :: '}' :: rest => parseText parts (text ++ ['}']) rest
  | '{' :: rest => parseField (flush parts text) [] rest
  | '}' :: _ => .error "unmatched '\x7d' in Display template"
  | ch :: rest => parseText parts (text ++ [ch]) rest

/-- The loop inside a field. The text of an error quotes the name as Lean does, which differs from
the source's debug format for characters that are not printable ASCII. -/
def parseField (parts : List TemplatePart) (field : List Char) :
    List Char → Except String (List TemplatePart)
  | [] => .error "unclosed Display template field"
  | '}' :: rest =>
      if isFieldName field then parseText (parts ++ [.field field]) [] rest
      else .error ("invalid Display template field " ++ (String.ofList field).quote)
  | '{' :: _ => .error "nested '\x7b' in Display template field"
  | ch :: rest => parseField parts (field ++ [ch]) rest

end

def parseTemplate (source : List Char) : Except String (List TemplatePart) :=
  parseText [] [] source

/-- A character of a text, doubled when it is a brace. -/
def doubled (c : Char) : List Char := if c = '{' ∨ c = '}' then [c, c] else [c]

/-- How a part is written. -/
def TemplatePart.written : TemplatePart → List Char
  | .text content => content.flatMap doubled
  | .field name => '{' :: name ++ ['}']

def written (parts : List TemplatePart) : List Char := parts.flatMap TemplatePart.written

/-- A text in front of parts, joined with the text they start with. -/
def prepend (text : List Char) : List TemplatePart → List TemplatePart
  | .text more :: rest => .text (text ++ more) :: rest
  | parts => if text.isEmpty then parts else .text text :: parts

/-- Adjacent texts as one; an empty text is no part. -/
def merged : List TemplatePart → List TemplatePart
  | [] => []
  | .text text :: rest => prepend text (merged rest)
  | .field name :: rest => .field name :: merged rest

/-- The fields of a template have names. -/
def Named (parts : List TemplatePart) : Prop :=
  ∀ name, .field name ∈ parts → isFieldName name = true

section Writing

theorem isFieldChar_not_brace {c : Char} (h : isFieldChar c = true) : c ≠ '{' ∧ c ≠ '}' := by
  constructor <;> rintro rfl <;> revert h <;> decide

theorem isFieldName_chars {name : List Char} (h : isFieldName name = true) :
    ∀ c ∈ name, c ≠ '{' ∧ c ≠ '}' := by
  intro c hc
  simp only [isFieldName, Bool.and_eq_true, List.all_eq_true] at h
  exact isFieldChar_not_brace (h.1.2 c hc)

@[simp] theorem prepend_nil (parts : List TemplatePart) : prepend [] parts = parts := by
  cases parts with
  | nil => rfl
  | cons part rest => cases part <;> rfl

theorem prepend_prepend (text more : List Char) (parts : List TemplatePart) :
    prepend text (prepend more parts) = prepend (text ++ more) parts := by
  cases more with
  | nil => simp
  | cons c more =>
      cases parts with
      | nil => simp [prepend]
      | cons part rest => cases part <;> simp [prepend]

theorem flush_append_field (parts rest : List TemplatePart) (text name : List Char) :
    flush parts text ++ .field name :: rest = parts ++ prepend text (.field name :: rest) := by
  cases text with
  | nil => simp [flush]
  | cons c text => simp [flush, prepend]

theorem flush_eq (parts : List TemplatePart) (text : List Char) :
    flush parts text = parts ++ prepend text [] := by
  cases text with
  | nil => simp [flush]
  | cons c text => simp [flush, prepend]

theorem written_cons (part : TemplatePart) (parts : List TemplatePart) :
    written (part :: parts) = part.written ++ written parts :=
  List.flatMap_cons

/-- A written text is read back in front of what follows it. -/
theorem parseText_doubled (parts : List TemplatePart) (text more : List Char) (rest : List Char) :
    parseText parts text (more.flatMap doubled ++ rest) = parseText parts (text ++ more) rest := by
  induction more generalizing text with
  | nil => simp
  | cons c more ih =>
      rw [List.flatMap_cons, List.append_assoc]
      have hrest := ih (text ++ [c])
      rw [List.append_assoc, List.singleton_append] at hrest
      by_cases hopen : c = '{'
      · subst hopen
        simpa [doubled, parseText] using hrest
      · by_cases hclose : c = '}'
        · subst hclose
          simpa [doubled, parseText] using hrest
        · have hstep : parseText parts text (c :: (more.flatMap doubled ++ rest)) =
              parseText parts (text ++ [c]) (more.flatMap doubled ++ rest) := by
            rw [parseText] <;> simp_all
          simpa [doubled, hopen, hclose, hstep] using hrest

/-- A written field is read back up to its closing brace. -/
theorem parseField_name (parts : List TemplatePart) (field name rest : List Char)
    (hname : ∀ c ∈ name, c ≠ '{' ∧ c ≠ '}') :
    parseField parts field (name ++ '}' :: rest) =
      if isFieldName (field ++ name) then parseText (parts ++ [.field (field ++ name)]) [] rest
      else .error ("invalid Display template field " ++ (String.ofList (field ++ name)).quote) := by
  induction name generalizing field with
  | nil => simp [parseField]
  | cons c name ih =>
      obtain ⟨hopen, hclose⟩ := hname c List.mem_cons_self
      have hrest := ih (field ++ [c]) fun d hd => hname d (List.mem_cons_of_mem _ hd)
      rw [List.append_assoc, List.singleton_append] at hrest
      rw [List.cons_append, parseField, hrest]
      · exact hclose
      · exact hopen

/-- Written parts are read back with their texts joined. -/
theorem parseText_written {rest : List TemplatePart} (hnamed : Named rest)
    (parts : List TemplatePart) (text : List Char) :
    parseText parts text (written rest) = .ok (parts ++ prepend text (merged rest)) := by
  induction rest generalizing parts text with
  | nil => simp [written, parseText, merged, flush_eq]
  | cons part rest ih =>
      have hrest := ih fun name hmem => hnamed name (List.mem_cons_of_mem _ hmem)
      rw [written_cons]
      cases part with
      | text more =>
          rw [TemplatePart.written, parseText_doubled, hrest, merged, prepend_prepend]
      | field name =>
          have hname := hnamed name List.mem_cons_self
          have hopen : parseText parts text ('{' :: (name ++ '}' :: written rest)) =
              parseField (flush parts text) [] (name ++ '}' :: written rest) := by
            cases name with
            | nil => cases hname
            | cons c name =>
                have hc := (isFieldName_chars hname c List.mem_cons_self).1
                rw [List.cons_append, parseText]
                exact fun _ heq => hc (List.cons.inj heq).1
          have hfield := parseField_name (flush parts text) [] name (written rest)
            (isFieldName_chars hname)
          rw [List.nil_append, if_pos hname, hrest, prepend_nil, List.append_assoc] at hfield
          simp only [TemplatePart.written, List.cons_append, List.append_assoc, List.nil_append]
          rw [hopen, hfield, List.singleton_append, flush_append_field, merged]

/-- What the loop accepts outside a field is written. -/
def TextWritten (parts : List TemplatePart) (text source : List Char) : Prop :=
  ∀ out, parseText parts text source = .ok out →
    ∃ rest, Named rest ∧ written rest = source ∧ out = parts ++ prepend text (merged rest)

/-- What the loop accepts inside a field is the rest of a name and written parts. -/
def FieldWritten (parts : List TemplatePart) (field source : List Char) : Prop :=
  ∀ out, parseField parts field source = .ok out →
    ∃ name rest, isFieldName (field ++ name) = true ∧ Named rest ∧
      source = name ++ '}' :: written rest ∧
      out = parts ++ .field (field ++ name) :: merged rest

theorem named_text {rest : List TemplatePart} (h : Named rest) (text : List Char) :
    Named (.text text :: rest) := by
  intro name hmem
  rcases List.mem_cons.mp hmem with hpart | hmem
  · cases hpart
  · exact h name hmem

/-- A character of a text in front of what is written. -/
theorem TextWritten.cons {parts : List TemplatePart} {text source : List Char} {c : Char}
    (h : TextWritten parts (text ++ [c]) source)
    (heq : ∀ out, parseText parts text (doubled c ++ source) = .ok out →
      parseText parts (text ++ [c]) source = .ok out) :
    TextWritten parts text (doubled c ++ source) := by
  intro out hout
  obtain ⟨rest, hnamed, rfl, rfl⟩ := h out (heq out hout)
  refine ⟨.text [c] :: rest, named_text hnamed [c], ?_, ?_⟩
  · simp [written, TemplatePart.written]
  · rw [merged, prepend_prepend]

theorem textWritten (parts : List TemplatePart) (text source : List Char) :
    TextWritten parts text source := by
  refine parseText.induct TextWritten FieldWritten ?_ ?_ ?_ ?_ ?_ ?_ ?_ ?_ ?_ ?_ ?_ parts text
    source
  · -- the end of the source
    intro parts text out hout
    rw [parseText] at hout
    obtain rfl := Except.ok.inj hout
    exact ⟨[], fun _ hmem => (by cases hmem), rfl, flush_eq parts text⟩
  · intro parts text rest ih
    exact ih.cons fun out hout => by rwa [doubled, if_pos (.inl rfl), List.cons_append,
      List.cons_append, List.nil_append, parseText] at hout
  · intro parts text rest ih
    exact ih.cons fun out hout => by rwa [doubled, if_pos (.inr rfl), List.cons_append,
      List.cons_append, List.nil_append, parseText] at hout
  · -- a field opens
    intro parts text rest hnext ih out hout
    have hstep : parseText parts text ('{' :: rest) = parseField (flush parts text) [] rest := by
      rw [parseText]
      exact hnext
    rw [hstep] at hout
    obtain ⟨name, tail, hname, hnamed, rfl, rfl⟩ := ih out hout
    rw [List.nil_append] at hname ⊢
    refine ⟨.field name :: tail, ?_, ?_, ?_⟩
    · intro other hmem
      rcases List.mem_cons.mp hmem with hpart | hmem
      · rw [TemplatePart.field.inj hpart]
        exact hname
      · exact hnamed other hmem
    · simp [written, TemplatePart.written]
    · rw [flush_append_field, merged]
  · intro parts text tail hnext out hout
    have hstep : parseText parts text ('}' :: tail) =
        .error "unmatched '\x7d' in Display template" := by
      rw [parseText]
      exact hnext
    rw [hstep] at hout
    cases hout
  · -- any other character
    intro parts text ch rest hopens hcloses hopen hclose ih
    have hplain : doubled ch = [ch] := if_neg (not_or.mpr ⟨hopen, hclose⟩)
    have hstep : parseText parts text (ch :: rest) = parseText parts (text ++ [ch]) rest := by
      rw [parseText] <;> assumption
    have hcons := ih.cons fun out hout => by
      rwa [hplain, List.singleton_append, hstep] at hout
    rwa [hplain, List.singleton_append] at hcons
  · intro parts field out hout
    rw [parseField] at hout
    cases hout
  · -- a field closes
    intro parts field rest hname ih out hout
    rw [parseField, if_pos hname] at hout
    obtain ⟨tail, hnamed, rfl, rfl⟩ := ih out hout
    refine ⟨[], tail, by rwa [List.append_nil], hnamed, rfl, ?_⟩
    rw [prepend_nil, List.append_nil, List.append_assoc, List.singleton_append]
  · intro parts field rest hname out hout
    rw [parseField, if_neg hname] at hout
    cases hout
  · intro parts field tail out hout
    rw [parseField] at hout
    cases hout
  · -- a character of the name
    intro parts field ch rest hclose hopen ih out hout
    have hstep : parseField parts field (ch :: rest) = parseField parts (field ++ [ch]) rest := by
      rw [parseField] <;> assumption
    rw [hstep] at hout
    obtain ⟨name, tail, hname, hnamed, rfl, rfl⟩ := ih out hout
    rw [List.append_assoc, List.singleton_append] at hname ⊢
    exact ⟨ch :: name, tail, hname, hnamed, rfl, rfl⟩

/-- The parser reads back what is written, and accepts nothing else. -/
theorem parseTemplate_eq_ok (source : List Char) (out : List TemplatePart) :
    parseTemplate source = .ok out ↔
      ∃ parts, Named parts ∧ written parts = source ∧ out = merged parts := by
  constructor
  · intro hout
    obtain ⟨parts, hnamed, hsource, heq⟩ := textWritten [] [] source out hout
    rw [List.nil_append, prepend_nil] at heq
    exact ⟨parts, hnamed, hsource, heq⟩
  · rintro ⟨parts, hnamed, rfl, rfl⟩
    rw [parseTemplate, parseText_written hnamed, List.nil_append, prepend_nil]

end Writing

example : parseTemplate "\x7b\x7b\x7ba\x7d\x7d\x7d".toList =
      .ok [.text ['{'], .field ['a'], .text ['}']] ∧
    parseTemplate "a\x7db".toList = .error "unmatched '\x7d' in Display template" := by
  decide

end Telora.Fmt
