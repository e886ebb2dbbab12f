import Telora.Yaml.CoreSchema

/-!
# Keys and values

A key is refused where its text would be read as something else than a string. The refusal and
the reading test a text separately: they agree exactly where no integer is malformed, no float
has an underscore, and no text is a name that only the parser of floats knows.
-/

namespace Telora.Yaml

open Library

section Floats

/-- A name of an infinity or of no number, in any case and with an optional sign. -/
def SpecialName (text : List Char) : Prop :=
  String.ofList ((splitSign text).2.map Char.toLower) ∈ ["inf", "infinity", "nan"]

/-- The characters that a float may have. -/
def isFloatChar (c : Char) : Bool := c.isAlphanum || c = '.' || c = '+' || c = '-'

theorem isFloatChar_of_isDigit {c : Char} (h : c.isDigit = true) : isFloatChar c = true := by
  simp [isFloatChar, Char.isAlphanum, h]

theorem isFloatChar_of_toLower {c : Char} (h : c.toLower.isAlpha = true) :
    isFloatChar c = true := by
  by_cases hupper : c.isUpper = true
  · have halpha : c.isAlpha = true := by
      delta Char.isAlpha
      rw [hupper, Bool.true_or]
    simp [isFloatChar, Char.isAlphanum, halpha]
  · have hlower : c.toLower = c := by
      delta Char.toLower
      refine dif_neg fun h => hupper ?_
      delta Char.isUpper
      exact decide_eq_true h
    rw [hlower] at h
    simp [isFloatChar, Char.isAlphanum, h]

theorem mem_splitSign {text : List Char} {c : Char} (h : c ∈ text) :
    c = '-' ∨ c = '+' ∨ c ∈ (splitSign text).2 := by
  cases text with
  | nil => cases h
  | cons d text =>
      rw [splitSign]
      split
      · next hd => rcases List.mem_cons.mp h with rfl | h
                   · exact .inl hd
                   · exact .inr (.inr h)
      · split
        · next hd => rcases List.mem_cons.mp h with rfl | h
                     · exact .inr (.inl hd)
                     · exact .inr (.inr h)
        · exact .inr (.inr h)

theorem parseExponent_isSome {text : List Char} (h : (F64.parseExponent text).isSome = true) :
    text = [] ∨ ∃ marker rest, text = marker :: rest ∧ (marker = 'e' ∨ marker = 'E') ∧
      ∀ c ∈ rest, isFloatChar c = true := by
  cases text with
  | nil => exact .inl rfl
  | cons marker rest =>
      rw [F64.parseExponent] at h
      split at h
      · next hmarker =>
          refine .inr ⟨marker, rest, rfl, hmarker, fun c hc => ?_⟩
          rcases mem_splitSign hc with rfl | rfl | hc
          · rfl
          · rfl
          · generalize splitSign rest = parts at h hc
            obtain ⟨negative, digits⟩ := parts
            by_cases hdigits : digits ≠ [] ∧ digits.all Char.isDigit = true
            · exact isFloatChar_of_isDigit (List.all_eq_true.mp hdigits.2 c hc)
            · simp only [if_neg hdigits, Option.isSome_none, Bool.false_eq_true] at h
      · cases h

theorem looksFloat_of_mem {text : List Char} {mark digit : Char} (hmark : mark ∈ text)
    (h : mark ∈ ['.', 'e', 'E']) (hmem : digit ∈ text) (hdigit : digit.isDigit = true) :
    looksFloat text = true := by
  rw [looksFloat, Bool.and_eq_true, List.any_eq_true, List.any_eq_true]
  exact ⟨⟨mark, hmark, decide_eq_true h⟩, digit, hmem, hdigit⟩

theorem isFloatChar_of_marker {c : Char} (h : c = 'e' ∨ c = 'E') : isFloatChar c = true := by
  rcases h with rfl | rfl <;> rfl

/-- A decimal is made of digits alone, or has a digit and a point or a marker. -/
theorem parseDecimal_isSome {text : List Char} (h : (F64.parseDecimal text).isSome = true) :
    (∀ c ∈ text, isFloatChar c = true) ∧
      (text ≠ [] ∧ (∀ c ∈ text, c.isDigit = true) ∨ looksFloat text = true) := by
  have hsplit : text.takeWhile Char.isDigit ++ text.dropWhile Char.isDigit = text :=
    List.takeWhile_append_dropWhile
  have hwhole : ∀ c ∈ text.takeWhile Char.isDigit, c.isDigit = true := fun c hc =>
    List.mem_takeWhile_imp hc
  rw [F64.parseDecimal] at h
  generalize text.takeWhile Char.isDigit = whole at h hsplit hwhole
  generalize text.dropWhile Char.isDigit = rest at h hsplit
  subst hsplit
  have hchars : ∀ c ∈ whole, isFloatChar c = true := fun c hc =>
    isFloatChar_of_isDigit (hwhole c hc)
  cases rest with
  | nil =>
      rw [List.append_nil]
      refine ⟨hchars, .inl ⟨fun hnil => ?_, hwhole⟩⟩
      simp [hnil] at h
  | cons c tail =>
      by_cases hpoint : c = '.'
      · subst hpoint
        have htail : tail.takeWhile Char.isDigit ++ tail.dropWhile Char.isDigit = tail :=
          List.takeWhile_append_dropWhile
        have hfraction : ∀ c ∈ tail.takeWhile Char.isDigit, c.isDigit = true := fun c hc =>
          List.mem_takeWhile_imp hc
        simp only at h
        generalize tail.takeWhile Char.isDigit = fraction at h htail hfraction
        generalize tail.dropWhile Char.isDigit = exponent at h htail
        subst htail
        by_cases hnone : whole = [] ∧ fraction = []
        · simp [hnone] at h
        rw [if_neg hnone, Option.isSome_map] at h
        have hexponent : ∀ c ∈ exponent, isFloatChar c = true := by
          rcases parseExponent_isSome h with rfl | ⟨marker, rest, rfl, hmarker, hrest⟩
          · exact fun _ h => (List.not_mem_nil h).elim
          · exact List.forall_mem_cons.mpr ⟨isFloatChar_of_marker hmarker, hrest⟩
        constructor
        · intro d hd
          simp only [List.mem_append, List.mem_cons] at hd
          rcases hd with hd | rfl | hd | hd
          · exact hchars d hd
          · rfl
          · exact isFloatChar_of_isDigit (hfraction d hd)
          · exact hexponent d hd
        · right
          have hmark : '.' ∈ whole ++ '.' :: (fraction ++ exponent) :=
            List.mem_append_right _ List.mem_cons_self
          by_cases hempty : whole = []
          · obtain ⟨digit, hmem⟩ := List.exists_mem_of_ne_nil fraction fun h => hnone ⟨hempty, h⟩
            refine looksFloat_of_mem hmark (by decide) ?_ (hfraction digit hmem)
            exact List.mem_append_right _ (List.mem_cons_of_mem _ (List.mem_append_left _ hmem))
          · obtain ⟨digit, hmem⟩ := List.exists_mem_of_ne_nil whole hempty
            exact looksFloat_of_mem hmark (by decide) (List.mem_append_left _ hmem)
              (hwhole digit hmem)
      · have hother : ∀ tail', c :: tail ≠ '.' :: tail' := fun tail' heq =>
          hpoint (List.cons.inj heq).1
        by_cases hempty : whole = []
        · simp [hempty] at h
        simp only at h
        rw [if_neg (fun h => hempty h.1), Option.isSome_map] at h
        rcases parseExponent_isSome h with hnil | ⟨marker, rest, heq, hmarker, hrest⟩
        · cases hnil
        obtain ⟨rfl, rfl⟩ := List.cons.inj heq
        obtain ⟨digit, hmem⟩ := List.exists_mem_of_ne_nil whole hempty
        have htail : ∀ d ∈ c :: tail, isFloatChar d = true :=
          List.forall_mem_cons.mpr ⟨isFloatChar_of_marker hmarker, hrest⟩
        constructor
        · exact fun d hd => (List.mem_append.mp hd).elim (hchars d) (htail d)
        · refine .inr (looksFloat_of_mem (List.mem_append_right _ List.mem_cons_self) ?_
            (List.mem_append_left _ hmem) (hwhole digit hmem))
          exact List.mem_cons_of_mem _ (by simpa using hmarker)

theorem mem_of_mem_splitSign {text : List Char} {c : Char} (h : c ∈ (splitSign text).2) :
    c ∈ text := by
  cases text with
  | nil => cases h
  | cons d text =>
      rw [splitSign] at h
      split at h
      · exact List.mem_cons_of_mem d h
      · split at h
        · exact List.mem_cons_of_mem d h
        · exact h

theorem looksFloat_of_unsigned {text : List Char} (h : looksFloat (splitSign text).2 = true) :
    looksFloat text = true := by
  rw [looksFloat, Bool.and_eq_true, List.any_eq_true, List.any_eq_true] at h
  obtain ⟨⟨mark, hmark, hkind⟩, digit, hmem, hdigit⟩ := h
  exact looksFloat_of_mem (mem_of_mem_splitSign hmark) (of_decide_eq_true hkind)
    (mem_of_mem_splitSign hmem) hdigit

theorem looksInteger_of_digits {text : List Char} (hne : (splitSign text).2 ≠ [])
    (h : ∀ c ∈ (splitSign text).2, c.isDigit = true) : looksInteger text = true := by
  have hdrop : text.dropWhile (fun c => c = '+' || c = '-') = (splitSign text).2 := by
    have hdigits : ∀ digits : List Char, (∀ c ∈ digits, c.isDigit = true) →
        digits.dropWhile (fun c => c = '+' || c = '-') = digits := by
      intro digits hdigits
      cases digits with
      | nil => rfl
      | cons c digits =>
          have hc := ne_sign_of_isDigit (hdigits c List.mem_cons_self)
          exact List.dropWhile_cons_of_neg (by simp [hc])
    cases text with
    | nil => rfl
    | cons d text =>
        rw [splitSign] at h ⊢
        split at h
        · next hd =>
            rw [if_pos hd, List.dropWhile_cons_of_pos (by simp [hd])]
            exact hdigits text h
        · next hminus =>
            rw [if_neg hminus]
            split at h
            · next hd =>
                rw [if_pos hd, List.dropWhile_cons_of_pos (by simp [hd])]
                exact hdigits text h
            · next hplus =>
                rw [if_neg hplus]
                exact hdigits _ h
  have hall : (splitSign text).2.all (fun c => c.isDigit || c = '_') = true :=
    List.all_eq_true.mpr fun c hc => by simp [h c hc]
  have hsome : (splitSign text).2.isEmpty = false := by
    rw [List.isEmpty_eq_false_iff]
    exact hne
  simp only [looksInteger, hdrop, hall, hsome, Bool.not_false, Bool.true_or, Bool.and_self]

/-- A text that the parser of floats accepts. -/
theorem parse_isSome {text : List Char} (h : (F64.parse text).isSome = true) :
    (∀ c ∈ text, isFloatChar c = true) ∧
      (SpecialName text ∨ looksInteger text = true ∨ looksFloat text = true) := by
  have hsigned : (∀ c ∈ (splitSign text).2, isFloatChar c = true) →
      ∀ c ∈ text, isFloatChar c = true := by
    intro hunsigned c hc
    rcases mem_splitSign hc with rfl | rfl | hc
    · rfl
    · rfl
    · exact hunsigned c hc
  by_cases hname : SpecialName text
  · refine ⟨hsigned fun c hc => isFloatChar_of_toLower ?_, .inl hname⟩
    have hlower : c.toLower ∈ (String.ofList ((splitSign text).2.map Char.toLower)).toList := by
      rw [String.toList_ofList]
      exact List.mem_map_of_mem hc
    have hletters : ∀ name ∈ ["inf", "infinity", "nan"], name.toList.all Char.isAlpha = true := by
      intro name hmem
      simp only [List.mem_cons, List.not_mem_nil, or_false] at hmem
      rcases hmem with rfl | rfl | rfl <;> rfl
    exact List.all_eq_true.mp (hletters _ hname) _ hlower
  · rw [F64.parse] at h
    have hdecimal : (F64.parseDecimal (splitSign text).2).isSome = true := by
      simp only [SpecialName, List.mem_cons, List.not_mem_nil, or_false, not_or] at hname
      generalize splitSign text = parts at h hname
      obtain ⟨negative, unsigned⟩ := parts
      simp only at hname
      simp only [hname.1, hname.2.1, hname.2.2, or_self, if_false, Option.isSome_map] at h
      exact h
    obtain ⟨hchars, hdigits | hfloat⟩ := parseDecimal_isSome hdecimal
    · exact ⟨hsigned hchars, .inr (.inl (looksInteger_of_digits hdigits.1 hdigits.2))⟩
    · exact ⟨hsigned hchars, .inr (.inr (looksFloat_of_unsigned hfloat))⟩

end Floats

section Classifiers

/-- A text that is no quoted one, without white space around it. -/
structure Plain (text : List Char) : Prop where
  starts : StartsSolid text
  ends : EndsSolid text
  unquoted : text.head?.any isQuote = false

/-- The text of a value that is null, a boolean or a number. -/
def ReadsNonString (text : List Char) : Prop :=
  ∃ value, parseScalar text = .ok value ∧ ∀ string, value ≠ .string string

/-- A key is refused where its text is no string as a value, and is the text otherwise. -/
structure ClassifiedAlike (text : List Char) : Prop where
  refused : ReadsNonString text → parseKey text = .error "YAML mapping keys must be Strings"
  accepted : ¬ReadsNonString text → parseKey text = .ok (String.ofList text)

theorem classifiedAlike_iff_key {text : List Char} {refused : Prop} [Decidable refused]
    (h : parseKey text = if refused then .error "YAML mapping keys must be Strings"
      else .ok (String.ofList text)) : ClassifiedAlike text ↔ (ReadsNonString text ↔ refused) := by
  by_cases hrefused : refused
  · rw [if_pos hrefused] at h
    refine ⟨fun halike => iff_of_true ?_ hrefused, fun hiff => ⟨fun _ => h, fun hnot => ?_⟩⟩
    · by_contra hnot
      have := halike.accepted hnot
      rw [h] at this
      cases this
    · exact absurd (hiff.mpr hrefused) hnot
  · rw [if_neg hrefused] at h
    refine ⟨fun halike => iff_of_false (fun hread => ?_) hrefused,
      fun hiff => ⟨fun hread => absurd (hiff.mp hread) hrefused, fun _ => h⟩⟩
    have := halike.refused hread
    rw [h] at this
    cases this

/-- A text that the two classifiers agree on. -/
structure Unambiguous (text : List Char) : Prop where
  start : ∀ c ∈ text.head?, c ∉ ['[', '\x7b', '?']
  name : ¬SpecialName text
  integer : looksInteger text = true → ∃ value, parseYamlInt text = .ok value
  underscore : '_' ∈ text → looksInteger text = false → looksFloat text = true →
    F64.parse (text.filter (· ≠ '_')) = none

section Plain

variable {text : List Char}

theorem Plain.decodeQuoted (h : Plain text) : decodeQuoted text = none := by
  have hhead : ∀ c, isQuote c = true → text.head? ≠ some c := by
    intro c hc hsome
    have := h.unquoted
    rw [hsome, Option.any_some, hc] at this
    cases this
  rw [Yaml.decodeQuoted]
  split
  · rfl
  · rw [if_neg fun h => hhead '\'' rfl h.1, if_neg fun h => hhead '"' rfl h.1]

/-- The key of a plain text that starts with no bracket and no question mark. -/
theorem Plain.parseKey (h : Plain text) (hstart : ∀ c ∈ text.head?, c ∉ ['[', '\x7b', '?']) :
    parseKey text = if coreNonString text then .error "YAML mapping keys must be Strings"
      else .ok (String.ofList text) := by
  have htrim : trim text = text := trim_of_solid h.starts h.ends
  have hbracket : ¬text.head?.any (· ∈ ['[', '\x7b', '?']) = true := by
    rw [Option.any_eq_true]
    rintro ⟨c, hc, hmem⟩
    exact hstart c hc (of_decide_eq_true hmem)
  rw [Yaml.parseKey]
  simp only [htrim, h.starts.ne_nil, if_false, hbracket, h.decodeQuoted, h.unquoted,
    Bool.false_eq_true, false_or]

/-- The value of a plain text that is no word of the schema. -/
theorem Plain.parseScalar (h : Plain text) (hword : String.ofList text ∉ knownWords) :
    parseScalar text =
      if looksInteger text then .int <$> parseYamlInt text
      else if looksFloat text then
        match F64.parse (text.filter (· ≠ '_')) with
        | some value => .ok (.float value)
        | none => .error "invalid YAML Float"
      else .ok (.string (String.ofList text)) := by
  have hempty : String.ofList text ≠ "" := by
    intro hnil
    rw [← String.toList_inj, String.toList_ofList] at hnil
    exact h.starts.ne_nil hnil
  simp only [knownWords, List.mem_append, not_or] at hword
  rw [Yaml.parseScalar]
  cases F64.parse (text.filter (· ≠ '_')) <;>
    simp only [h.decodeQuoted, h.unquoted, Bool.false_eq_true, if_false, hempty, hword, or_self]

/-- A word of the schema is read as no string. -/
theorem Plain.readsNonString_of_known (h : Plain text) (hword : String.ofList text ∈ knownWords) :
    ReadsNonString text := by
  rw [ReadsNonString, Yaml.parseScalar]
  simp only [h.decodeQuoted, h.unquoted, Bool.false_eq_true, if_false]
  iterate 6
    split
    · exact ⟨_, rfl, fun _ heq => by cases heq⟩
  simp only [knownWords, List.mem_append] at hword
  simp_all

theorem coreNonString_iff : coreNonString text = true ↔ String.ofList text ∈ knownWords ∨
    looksInteger text = true ∨ (F64.parse text).isSome = true := by
  rw [coreNonString, Bool.or_eq_true, Bool.or_eq_true, decide_eq_true_eq, or_assoc]
  rfl

/-- A word of the schema is no special name, and has no underscore. -/
theorem word_isNoName {name : String} (h : name ∈ knownWords) :
    ¬SpecialName name.toList ∧ '_' ∉ name.toList := by
  simp only [knownWords, nullTexts, trueTexts, falseTexts, infinityTexts, negativeInfinityTexts,
    nanTexts, List.cons_append, List.nil_append, List.mem_cons, List.not_mem_nil, or_false] at h
  unfold SpecialName
  rcases h with rfl | rfl | rfl | rfl | rfl | rfl | rfl | rfl | rfl | rfl | rfl | rfl | rfl | rfl |
    rfl | rfl | rfl | rfl | rfl <;> decide

theorem Unambiguous.of_known (hstart : ∀ c ∈ text.head?, c ∉ ['[', '\x7b', '?'])
    (hword : String.ofList text ∈ knownWords) : Unambiguous text := by
  have hlooks := (plain_of_word (List.mem_append_left plusInfinityTexts hword)).1
  have hname := word_isNoName hword
  rw [String.toList_ofList] at hlooks hname
  refine ⟨hstart, hname.1, fun h => ?_, fun h => absurd h hname.2⟩
  rw [hlooks] at h
  cases h

theorem SpecialName.parse_isSome (h : SpecialName text) : (F64.parse text).isSome = true := by
  rw [F64.parse]
  simp only [SpecialName, List.mem_cons, List.not_mem_nil, or_false] at h
  generalize splitSign text = parts at h
  obtain ⟨negative, unsigned⟩ := parts
  simp only at h ⊢
  by_cases hinf : String.ofList (unsigned.map Char.toLower) = "inf" ∨
      String.ofList (unsigned.map Char.toLower) = "infinity"
  · rw [if_pos hinf]
    rfl
  · have hnan : String.ofList (unsigned.map Char.toLower) = "nan" := by
      rcases h with h | h | h
      · exact absurd (.inl h) hinf
      · exact absurd (.inr h) hinf
      · exact h
    rw [if_neg hinf, if_pos hnan]
    rfl

/-- A special name has no digit and no underscore. -/
theorem SpecialName.letters (h : SpecialName text) :
    ∀ c ∈ text, c.isDigit = false ∧ c ≠ '_' := by
  have hletters : ∀ name ∈ ["inf", "infinity", "nan"], name.toList.all Char.isAlpha = true := by
    intro name hmem
    simp only [List.mem_cons, List.not_mem_nil, or_false] at hmem
    rcases hmem with rfl | rfl | rfl <;> rfl
  intro c hc
  rcases mem_splitSign hc with rfl | rfl | hc
  · decide
  · decide
  have hmem : c.toLower ∈ (String.ofList ((splitSign text).2.map Char.toLower)).toList := by
    rw [String.toList_ofList]
    exact List.mem_map_of_mem hc
  have hlower := List.all_eq_true.mp (hletters _ h) _ hmem
  constructor
  · by_contra hdigit
    rw [Bool.not_eq_false] at hdigit
    rw [F64.toLower_of_isDigit hdigit] at hlower
    delta Char.isAlpha Char.isUpper Char.isLower at hlower
    delta Char.isDigit at hdigit
    simp only [Bool.or_eq_true, Bool.and_eq_true, decide_eq_true_eq, ge_iff_le, UInt32.le_iff_toNat_le] at hlower hdigit
    have : 'A'.val.toNat = 65 := rfl
    have : 'a'.val.toNat = 97 := rfl
    have : '9'.val.toNat = 57 := rfl
    omega
  · rintro rfl
    cases hlower

theorem looksInteger_eq_false {c : Char} {rest : List Char}
    (hrest : text.dropWhile (fun c => c = '+' || c = '-') = c :: rest)
    (hdigit : c.isDigit = false) (hc : c ≠ '_') : looksInteger text = false := by
  have hzero : c ≠ '0' := by
    rintro rfl
    cases hdigit
  simp [looksInteger, hrest, hdigit, hc, hzero.symm, List.isPrefixOf]

theorem SpecialName.looksLikeNothing (h : SpecialName text) :
    looksInteger text = false ∧ looksFloat text = false := by
  constructor
  · cases hrest : text.dropWhile (fun c => c = '+' || c = '-') with
    | nil => simp [looksInteger, hrest]
    | cons c rest =>
        have hc : c ∈ text := (List.dropWhile_sublist _).subset (hrest ▸ List.mem_cons_self)
        exact looksInteger_eq_false hrest (h.letters c hc).1 (h.letters c hc).2
  · rw [looksFloat, Bool.and_eq_false_iff]
    refine .inr (List.any_eq_false.mpr fun c hc => ?_)
    rw [(h.letters c hc).1]
    exact Bool.false_ne_true

theorem word_start {name : String} (h : name ∈ knownWords) :
    ∀ c ∈ name.toList.head?, c ∉ ['[', '\x7b', '?'] := by
  simp only [knownWords, nullTexts, trueTexts, falseTexts, infinityTexts, negativeInfinityTexts,
    nanTexts, List.cons_append, List.nil_append, List.mem_cons, List.not_mem_nil, or_false] at h
  intro c hc
  rcases h with rfl | rfl | rfl | rfl | rfl | rfl | rfl | rfl | rfl | rfl | rfl | rfl | rfl | rfl |
    rfl | rfl | rfl | rfl | rfl <;> (obtain rfl := Option.some.inj hc; decide)

/-- No number starts with a bracket or a question mark. -/
theorem not_readsNonString_of_start (hplain : Plain text) {c : Char} (hc : text.head? = some c)
    (hstart : c ∈ ['[', '\x7b', '?']) : ¬ReadsNonString text := by
  obtain ⟨rest, rfl⟩ := List.head?_eq_some_iff.mp hc
  have hchar : isFloatChar c = false ∧ c.isDigit = false ∧ c ≠ '_' ∧ c ≠ '+' ∧ c ≠ '-' := by
    simp only [List.mem_cons, List.not_mem_nil, or_false] at hstart
    rcases hstart with rfl | rfl | rfl <;> decide
  have hword : String.ofList (c :: rest) ∉ knownWords := by
    intro hword
    have := word_start hword
    rw [String.toList_ofList] at this
    exact this c hc hstart
  have hinteger : looksInteger (c :: rest) = false :=
    looksInteger_eq_false (List.dropWhile_cons_of_neg (by simp [hchar])) hchar.2.1 hchar.2.2.1
  have hfloat : F64.parse ((c :: rest).filter (· ≠ '_')) = none := by
    by_contra hne
    have hsome := Option.isSome_iff_ne_none.mpr hne
    have hmem : c ∈ (c :: rest).filter (· ≠ '_') :=
      List.mem_filter.mpr ⟨List.mem_cons_self, by simp [hchar]⟩
    have := (parse_isSome hsome).1 c hmem
    rw [hchar.1] at this
    cases this
  rintro ⟨value, hvalue, hkind⟩
  rw [hplain.parseScalar hword, hinteger, hfloat] at hvalue
  simp only [Bool.false_eq_true, if_false] at hvalue
  split at hvalue
  · cases hvalue
  · cases hvalue
    exact hkind _ rfl

end Plain

/-- The two classifiers agree exactly on the unambiguous texts. -/
theorem classifiedAlike_iff (text : List Char) (hplain : Plain text) :
    ClassifiedAlike text ↔ Unambiguous text := by
  by_cases hstart : ∀ c ∈ text.head?, c ∉ ['[', '\x7b', '?']
  · rw [classifiedAlike_iff_key (hplain.parseKey hstart), coreNonString_iff]
    by_cases hword : String.ofList text ∈ knownWords
    · exact iff_of_true (iff_of_true (hplain.readsNonString_of_known hword) (.inl hword))
        (.of_known hstart hword)
    rw [ReadsNonString, hplain.parseScalar hword]
    by_cases hinteger : looksInteger text = true
    · rw [if_pos hinteger]
      have hname : ¬SpecialName text := fun hname => by
        rw [hname.looksLikeNothing.1] at hinteger
        cases hinteger
      constructor
      · intro h
        obtain ⟨value, hvalue, -⟩ := h.mpr (.inr (.inl hinteger))
        refine ⟨hstart, hname, fun _ => ?_, fun _ hnot => ?_⟩
        · cases hread : parseYamlInt text with
          | ok number => exact ⟨number, rfl⟩
          | error message => rw [hread] at hvalue; cases hvalue
        · rw [hinteger] at hnot
          cases hnot
      · intro h
        obtain ⟨number, hread⟩ := h.integer hinteger
        refine iff_of_true ⟨.int number, ?_, fun _ heq => by cases heq⟩ (.inr (.inl hinteger))
        rw [hread]
        rfl
    rw [if_neg hinteger]
    have hneither : ¬(String.ofList text ∈ knownWords ∨ looksInteger text = true) :=
      not_or.mpr ⟨hword, hinteger⟩
    rw [← or_assoc, or_iff_right hneither]
    by_cases hfloat : looksFloat text = true
    · rw [if_pos hfloat]
      have hname : ¬SpecialName text := fun hname => by
        rw [hname.looksLikeNothing.2] at hfloat
        cases hfloat
      have hreads : (∃ value, (match F64.parse (text.filter (· ≠ '_')) with
          | some value => (.ok (.float value) : Except String Value)
          | none => .error "invalid YAML Float") = .ok value ∧
            ∀ string, value ≠ .string string) ↔
          (F64.parse (text.filter (· ≠ '_'))).isSome = true := by
        cases F64.parse (text.filter (· ≠ '_')) with
        | none => simp
        | some value => simp
      rw [hreads]
      by_cases hunderscore : '_' ∈ text
      · have hnone : ¬(F64.parse text).isSome = true := fun hsome => by
          have := (parse_isSome hsome).1 '_' hunderscore
          cases this
        rw [iff_false_right hnone, Option.not_isSome_iff_eq_none]
        refine ⟨fun h => ⟨hstart, hname, fun h => absurd h hinteger, fun _ _ _ => h⟩, fun h => ?_⟩
        exact h.underscore hunderscore (Bool.not_eq_true _ ▸ hinteger) hfloat
      · rw [filter_underscore hunderscore]
        exact iff_of_true Iff.rfl
          ⟨hstart, hname, fun h => absurd h hinteger, fun h => absurd h hunderscore⟩
    · rw [if_neg hfloat]
      have hreads : ¬∃ value, (.ok (.string (String.ofList text)) : Except String Value) =
          .ok value ∧ ∀ string, value ≠ .string string := by
        rintro ⟨value, hvalue, hkind⟩
        cases hvalue
        exact hkind _ rfl
      rw [iff_false_left hreads]
      constructor
      · intro hnone
        refine ⟨hstart, fun hname => hnone hname.parse_isSome, fun h => absurd h hinteger,
          fun _ _ h => absurd h hfloat⟩
      · intro h hsome
        rcases (parse_isSome hsome).2 with hname | hlooks | hlooks
        · exact h.name hname
        · exact hinteger hlooks
        · exact hfloat hlooks
  · push Not at hstart
    obtain ⟨c, hc, hmem⟩ := hstart
    have hread := not_readsNonString_of_start hplain hc hmem
    have hkey : parseKey text = .error "YAML mapping keys must be Strings" := by
      have htrim : trim text = text := trim_of_solid hplain.starts hplain.ends
      have hbracket : text.head?.any (· ∈ ['[', '\x7b', '?']) = true := by
        rw [hc, Option.any_some]
        exact decide_eq_true hmem
      rw [parseKey]
      simp only [htrim, hplain.starts.ne_nil, if_false, hbracket, if_true]
    refine iff_of_false (fun h => ?_) fun h => h.start c hc hmem
    have haccepted := h.accepted hread
    rw [hkey] at haccepted
    cases haccepted

/-- A number with a point is read as a number, and refused as a key. -/
theorem classifiedAlike_iff_number :
    Plain "1.5".toList ∧ (ClassifiedAlike "1.5".toList ↔ Unambiguous "1.5".toList) :=
  have hplain : Plain "1.5".toList :=
    ⟨⟨'1', ".5".toList, rfl, rfl⟩, ⟨"1.".toList, '5', rfl, rfl⟩, rfl⟩
  ⟨hplain, classifiedAlike_iff _ hplain⟩

/-- A name that the schema reads as a string is refused as a key. -/
theorem not_classifiedAlike_inf : ¬ClassifiedAlike "inf".toList := by
  intro h
  have hread : ¬ReadsNonString "inf".toList := by
    rintro ⟨value, hvalue, hkind⟩
    have hstring : parseScalar "inf".toList = .ok (.string "inf") := by rfl
    rw [hstring] at hvalue
    cases hvalue
    exact hkind _ rfl
  have hkey : parseKey "inf".toList = .error "YAML mapping keys must be Strings" := by rfl
  have haccepted := h.accepted hread
  rw [hkey] at haccepted
  cases haccepted

end Classifiers

end Telora.Yaml
