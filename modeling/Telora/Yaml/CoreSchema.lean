import Telora.Yaml.Scalar

/-!
# The core schema

The forms in which the core schema writes null, booleans, integers and floats, and when
the value that is read off a plain scalar is the one of its form. The integers and floats
of the schema are read exactly; the tests for what looks like a number let more texts
through, words among them.
-/

namespace Telora.Yaml

open Library

def NullText (text : List Char) : Prop := text = [] ∨ String.ofList text ∈ nullTexts

def TrueText (text : List Char) : Prop := String.ofList text ∈ trueTexts

def FalseText (text : List Char) : Prop := String.ofList text ∈ falseTexts

/-- `[-+]? [0-9]+`, `0o [0-7]+` and `0x [0-9a-fA-F]+`, with the number. -/
inductive CoreInt : List Char → Int → Prop
  | decimal (sign : Sign) {digits : List Char} (h : Digits 10 digits) :
      CoreInt (sign.text ++ digits) (sign.apply (numeral 10 digits))
  | octal {digits : List Char} (h : Digits 8 digits) :
      CoreInt ('0' :: 'o' :: digits) (numeral 8 digits)
  | hex {digits : List Char} (h : Digits 16 digits) :
      CoreInt ('0' :: 'x' :: digits) (numeral 16 digits)

/-- The infinities with a plus. -/
def plusInfinityTexts : List String := ["+.inf", "+.Inf", "+.INF"]

/-- Decimals `[-+]? (\. [0-9]+ | [0-9]+ (\. [0-9]*)?) ([eE] [-+]? [0-9]+)?`, infinities
with an optional sign, and the words for no number. -/
inductive CoreFloat : List Char → F64 → Prop
  | decimal {decimal : DecimalText} (h : decimal.WellFormed) : CoreFloat decimal.text decimal.value
  | infinity {text : List Char}
      (h : String.ofList text ∈ infinityTexts ∨ String.ofList text ∈ plusInfinityTexts) :
      CoreFloat text (F64.infinite false)
  | negativeInfinity {text : List Char} (h : String.ofList text ∈ negativeInfinityTexts) :
      CoreFloat text (F64.infinite true)
  | nan {text : List Char} (h : String.ofList text ∈ nanTexts) : CoreFloat text F64.nan

/-- A result that the core schema gives a plain scalar: the value of its form, an error for
an integer that does not fit, and the text itself where no form matches. -/
inductive ByCoreSchema (text : List Char) : Except String Value → Prop
  | null (h : NullText text) : ByCoreSchema text (.ok (.atom (.builtin .none)))
  | true (h : TrueText text) : ByCoreSchema text (.ok (.atom (.builtin .true)))
  | false (h : FalseText text) : ByCoreSchema text (.ok (.atom (.builtin .false)))
  | int {value : Int} (h : CoreInt text value) (hrange : -2 ^ 63 ≤ value ∧ value < 2 ^ 63) :
      ByCoreSchema text (.ok (.int value))
  | outside {value : Int} {message : String} (h : CoreInt text value)
      (hrange : ¬(-2 ^ 63 ≤ value ∧ value < 2 ^ 63)) : ByCoreSchema text (.error message)
  | float {value : F64} (h : CoreFloat text value) (hint : ∀ value, ¬ CoreInt text value) :
      ByCoreSchema text (.ok (.float value))
  | string (hnull : ¬ NullText text) (htrue : ¬ TrueText text) (hfalse : ¬ FalseText text)
      (hint : ∀ value, ¬ CoreInt text value) (hfloat : ∀ value, ¬ CoreFloat text value) :
      ByCoreSchema text (.ok (.string (String.ofList text)))

section Integers

theorem stripStart_cons_of_ne {c d : Char} (h : c ≠ d) (text : List Char) :
    stripStart [c] (d :: text) = none := by
  rw [stripStart, if_neg]
  simp [h]

theorem filter_underscore {text : List Char} (h : '_' ∉ text) :
    text.filter (· ≠ '_') = text := by
  rw [List.filter_eq_self]
  exact fun c hmem => decide_eq_true fun hc => h (hc ▸ hmem)

/-- The last step of reading an integer, once its sign and radix are taken off. -/
def boundedInt (negative : Bool) (radix : Nat) (digits : List Char) : Except String Int :=
  match fromStrRadix radix digits with
  | none => .error "invalid YAML integer"
  | some magnitude =>
      let value := if negative then -magnitude else magnitude
      if -2 ^ 63 ≤ value ∧ value < 2 ^ 63 then .ok value
      else .error "YAML integer is outside the i64 range"

/-- Digits are read as their number when it fits into 64 bits, and refused otherwise. -/
theorem boundedInt_digits {radix : Nat} (hradix : radix ≤ 16) {digits : List Char}
    (h : Digits radix digits) (sign : Sign) :
    (-2 ^ 63 ≤ sign.apply (numeral radix digits) ∧ sign.apply (numeral radix digits) < 2 ^ 63 ∧
      boundedInt sign.negative radix digits = .ok (sign.apply (numeral radix digits))) ∨
    (¬(-2 ^ 63 ≤ sign.apply (numeral radix digits) ∧
      sign.apply (numeral radix digits) < 2 ^ 63) ∧
      ∃ message, boundedInt sign.negative radix digits = .error message) := by
  rw [boundedInt, fromStrRadix_digits hradix h]
  by_cases hfits : numeral radix digits < 2 ^ 127
  · rw [if_pos hfits]
    by_cases hrange : -2 ^ 63 ≤ sign.apply (numeral radix digits) ∧
        sign.apply (numeral radix digits) < 2 ^ 63
    · exact .inl ⟨hrange.1, hrange.2, if_pos hrange⟩
    · exact .inr ⟨hrange, _, if_neg hrange⟩
  · rw [if_neg hfits]
    refine .inr ⟨?_, _, rfl⟩
    rw [Sign.apply]
    split <;> omega

theorem parseYamlInt_decimal (sign : Sign) {digits : List Char} (h : Digits 10 digits) :
    parseYamlInt (sign.text ++ digits) = boundedInt sign.negative 10 digits := by
  have hclean : (sign.text ++ digits).filter (· ≠ '_') = sign.text ++ digits := by
    refine filter_underscore fun hmem => ?_
    rcases List.mem_append.mp hmem with hmem | hmem
    · exact sign.underscore_notin hmem
    · exact h.not_mem (by decide) hmem
  cases digits with
  | nil => exact absurd rfl h.ne_nil
  | cons c digits =>
      have hhead := ne_sign_of_isDigit (h.isDigit c List.mem_cons_self)
      have hminus := stripStart_cons_of_ne (Ne.symm hhead.1) digits
      have hplus := stripStart_cons_of_ne (Ne.symm hhead.2) digits
      have hradix : ∀ mark, 10 ≤ digitValue mark → stripStart ['0', mark] (c :: digits) = none := by
        intro mark hmark
        rw [stripStart, if_neg]
        rw [List.isPrefixOf_iff_prefix]
        rintro ⟨rest, hrest⟩
        exact h.not_mem hmark (hrest ▸ by simp)
      have hx : stripStart "0x".toList (c :: digits) = none := hradix 'x' (by decide)
      have ho : stripStart "0o".toList (c :: digits) = none := hradix 'o' (by decide)
      have hminusSign : stripStart ['-'] ('-' :: c :: digits) = some (c :: digits) := rfl
      have hminusPlus : stripStart ['-'] ('+' :: c :: digits) = none := rfl
      have hplusSign : stripStart ['+'] ('+' :: c :: digits) = some (c :: digits) := rfl
      rw [parseYamlInt, hclean]
      rcases sign with _ | _ | _
      · simp only [Sign.text, List.nil_append, hminus, hplus, hx, ho, Option.getD_none]
        rfl
      · simp only [Sign.text, List.singleton_append, hminusPlus, hplusSign, hx, ho,
          Option.getD_some]
        rfl
      · simp only [Sign.text, List.singleton_append, hminusSign, hplus, hx, ho, Option.getD_none]
        rfl

theorem parseYamlInt_hex {digits : List Char} (h : Digits 16 digits) :
    parseYamlInt ('0' :: 'x' :: digits) = boundedInt false 16 digits := by
  have hclean : ('0' :: 'x' :: digits).filter (· ≠ '_') = '0' :: 'x' :: digits := by
    refine filter_underscore fun hmem => ?_
    have := @Digits.not_mem _ _ h '_' (by decide)
    simp_all
  rw [parseYamlInt, hclean]
  rfl

theorem parseYamlInt_octal {digits : List Char} (h : Digits 8 digits) :
    parseYamlInt ('0' :: 'o' :: digits) = boundedInt false 8 digits := by
  have hclean : ('0' :: 'o' :: digits).filter (· ≠ '_') = '0' :: 'o' :: digits := by
    refine filter_underscore fun hmem => ?_
    have := @Digits.not_mem _ _ h '_' (by decide)
    simp_all
  rw [parseYamlInt, hclean]
  rfl

end Integers

section Lookalikes

variable {text : List Char}

theorem dropWhile_sign (sign : Sign) {rest : List Char}
    (h : ∀ c ∈ rest.head?, c ≠ '-' ∧ c ≠ '+') :
    (sign.text ++ rest).dropWhile (fun c => c = '+' || c = '-') = rest := by
  have hrest : rest.dropWhile (fun c => decide (c = '+') || decide (c = '-')) = rest := by
    cases rest with
    | nil => rfl
    | cons c rest =>
        obtain ⟨hminus, hplus⟩ := h c rfl
        exact List.dropWhile_cons_of_neg (by simp [hminus, hplus])
  rcases sign with _ | _ | _ <;> exact hrest

theorem looksInteger_of_coreInt {value : Int} (h : CoreInt text value) :
    looksInteger text = true := by
  cases h with
  | decimal sign h =>
      have hall : ∀ digits : List Char, (∀ c ∈ digits, c.isDigit = true) →
          digits.all (fun c => c.isDigit || decide (c = '_')) = true := fun digits hdigits =>
        List.all_eq_true.mpr fun c hmem => by rw [hdigits c hmem]; rfl
      rw [looksInteger, dropWhile_sign sign (h.head (by decide)), hall _ h.isDigit]
      simp [h.ne_nil]
  | octal h => simp [looksInteger]
  | hex h => simp [looksInteger]

/-- An integer of the schema is read as its number, when that fits. -/
theorem parseYamlInt_of_coreInt {value : Int} (h : CoreInt text value) :
    (-2 ^ 63 ≤ value ∧ value < 2 ^ 63 ∧ parseYamlInt text = .ok value) ∨
      (¬(-2 ^ 63 ≤ value ∧ value < 2 ^ 63) ∧ ∃ message, parseYamlInt text = .error message) := by
  cases h with
  | decimal sign h =>
      rw [parseYamlInt_decimal sign h]
      exact boundedInt_digits (by decide) h sign
  | octal h =>
      rw [parseYamlInt_octal h]
      exact boundedInt_digits (by decide) h none
  | hex h =>
      rw [parseYamlInt_hex h]
      exact boundedInt_digits (by decide) h none

/-- A written decimal looks like a float, unless it is an integer. -/
theorem looksFloat_of_decimal {decimal : DecimalText} (h : decimal.WellFormed) :
    (∃ value, CoreInt decimal.text value) ∨ looksFloat decimal.text = true := by
  obtain ⟨sign, whole, fraction, exponent⟩ := decimal
  have hdigit : (whole ++ (fraction.getD [])).any Char.isDigit = true := by
    rw [List.any_eq_true]
    rcases h.ne_nil with hne | hne
    · obtain ⟨c, hmem⟩ := List.exists_mem_of_ne_nil whole hne
      exact ⟨c, List.mem_append_left _ hmem, h.whole c hmem⟩
    · obtain ⟨c, hmem⟩ := List.exists_mem_of_ne_nil _ hne
      exact ⟨c, List.mem_append_right _ hmem, h.fraction c hmem⟩
  rw [List.any_append, Bool.or_eq_true] at hdigit
  cases fraction with
  | some fraction =>
      right
      rw [looksFloat, Bool.and_eq_true]
      constructor
      · simp [DecimalText.text, DecimalText.unsigned, DecimalText.fractionText]
      · rw [Option.getD_some] at hdigit
        rcases hdigit with hdigit | hdigit <;>
          simp [DecimalText.text, DecimalText.unsigned, DecimalText.fractionText, hdigit]
  | none =>
      have hwhole : whole.any Char.isDigit = true := hdigit.resolve_right (by simp)
      cases exponent with
      | some exponent =>
          right
          have hmark := (h.exponent exponent rfl).marker
          rw [looksFloat, Bool.and_eq_true]
          constructor
          · rcases hmark with hmark | hmark <;>
              simp [DecimalText.text, DecimalText.unsigned, DecimalText.exponentText,
                ExponentText.text, hmark]
          · simp [DecimalText.text, DecimalText.unsigned, hwhole]
      | none =>
          left
          have hne : whole ≠ [] := h.ne_nil.resolve_right fun hne => hne rfl
          have hdigits : Digits 10 whole :=
            ⟨hne, fun c hmem => digitValue_of_isDigit (h.whole c hmem)⟩
          refine ⟨sign.apply (numeral 10 whole), ?_⟩
          change CoreInt (sign.text ++ (whole ++ [])) _
          rw [List.append_nil]
          exact .decimal sign hdigits

theorem underscore_notin_decimal {decimal : DecimalText} (h : decimal.WellFormed) :
    '_' ∉ decimal.text := by
  have hdigits : ∀ digits : List Char, (∀ c ∈ digits, c.isDigit = true) → '_' ∉ digits :=
    fun digits hdigits hmem => absurd (hdigits '_' hmem) (by decide)
  intro hmem
  simp only [DecimalText.text, DecimalText.unsigned, List.mem_append] at hmem
  rcases hmem with hmem | hmem | hmem | hmem
  · exact decimal.sign.underscore_notin hmem
  · exact hdigits _ h.whole hmem
  · have hfraction := h.fraction
    rw [DecimalText.fractionDigits] at hfraction
    rw [DecimalText.fractionText] at hmem
    cases hparts : decimal.fraction with
    | none => rw [hparts] at hmem; cases hmem
    | some fraction =>
        rw [hparts] at hmem hfraction
        rcases List.mem_cons.mp hmem with hpoint | hmem
        · exact absurd hpoint (by decide)
        · exact hdigits _ hfraction hmem
  · rw [DecimalText.exponentText] at hmem
    cases hparts : decimal.exponent with
    | none => rw [hparts] at hmem; cases hmem
    | some exponent =>
        have hwell := h.exponent exponent hparts
        rw [hparts] at hmem
        rcases List.mem_cons.mp hmem with hmark | hmem
        · rcases hwell.marker with hmarker | hmarker <;>
            exact absurd (hmark.trans hmarker) (by decide)
        · rcases List.mem_append.mp hmem with hmem | hmem
          · exact exponent.sign.underscore_notin hmem
          · exact hdigits _ hwell.digits hmem

/-- The words of the schema look like no number. -/
theorem plain_of_word {name : String} (h : name ∈ nullTexts ++ trueTexts ++ falseTexts ++
    infinityTexts ++ negativeInfinityTexts ++ nanTexts ++ plusInfinityTexts) :
    looksInteger name.toList = false ∧ looksFloat name.toList = false := by
  simp only [nullTexts, trueTexts, falseTexts, infinityTexts, negativeInfinityTexts, nanTexts,
    plusInfinityTexts, List.cons_append, List.nil_append, List.mem_cons, List.not_mem_nil,
    or_false] at h
  rcases h with rfl | rfl | rfl | rfl | rfl | rfl | rfl | rfl | rfl | rfl | rfl | rfl | rfl | rfl |
    rfl | rfl | rfl | rfl | rfl | rfl | rfl | rfl <;> decide

end Lookalikes

/-- What looks like a number is one, and no infinity is written with a plus. -/
structure NumbersOnly (text : List Char) : Prop where
  integer : looksInteger text = true → ∃ value, CoreInt text value
  float : looksFloat text = true → (∃ value, CoreInt text value) ∨ ∃ value, CoreFloat text value
  infinity : String.ofList text ∉ plusInfinityTexts

section Plain

variable {text : List Char}

/-- The words that the schema gives a meaning and that are read as such. -/
def knownWords : List String :=
  nullTexts ++ trueTexts ++ falseTexts ++ infinityTexts ++ negativeInfinityTexts ++ nanTexts

theorem not_plus_of_known {name : String} (h : name ∈ knownWords) : name ∉ plusInfinityTexts := by
  simp only [knownWords, nullTexts, trueTexts, falseTexts, infinityTexts, negativeInfinityTexts,
    nanTexts, List.cons_append, List.nil_append, List.mem_cons, List.not_mem_nil, or_false] at h
  rcases h with rfl | rfl | rfl | rfl | rfl | rfl | rfl | rfl | rfl | rfl | rfl | rfl | rfl | rfl |
    rfl | rfl | rfl | rfl | rfl <;> decide

theorem NumbersOnly.of_known (h : String.ofList text ∈ knownWords) : NumbersOnly text := by
  obtain ⟨hinteger, hfloat⟩ := plain_of_word (List.mem_append_left plusInfinityTexts h)
  rw [String.toList_ofList] at hinteger hfloat
  exact ⟨fun h => absurd h (by rw [hinteger]; exact Bool.false_ne_true),
    fun h => absurd h (by rw [hfloat]; exact Bool.false_ne_true), not_plus_of_known h⟩

theorem NumbersOnly.of_nil : NumbersOnly [] :=
  ⟨fun h => absurd h (by decide), fun h => absurd h (by decide), by decide⟩

theorem not_coreInt_of_known (h : String.ofList text ∈ knownWords) (value : Int) :
    ¬ CoreInt text value := by
  intro hint
  have hinteger := (plain_of_word (List.mem_append_left plusInfinityTexts h)).1
  rw [String.toList_ofList, looksInteger_of_coreInt hint] at hinteger
  cases hinteger

/-- A plain scalar is read as the core schema reads it, exactly when what looks like a
number in it is one and it is no infinity with a plus. -/
theorem byCoreSchema_parseScalar_iff (text : List Char) (hplain : text.head?.any isQuote = false) :
    ByCoreSchema text (parseScalar text) ↔ NumbersOnly text := by
  have hquoted : decodeQuoted text = none := by
    have hsingle : text.head? ≠ some '\'' := by
      intro hhead
      rw [hhead] at hplain
      cases hplain
    have hdouble : text.head? ≠ some '"' := by
      intro hhead
      rw [hhead] at hplain
      cases hplain
    rw [decodeQuoted]
    split
    · rfl
    · rw [if_neg fun h => hsingle h.1, if_neg fun h => hdouble h.1]
  have hbare : ¬ text.head?.any isQuote = true := by rw [hplain]; exact Bool.false_ne_true
  have hknown : ∀ {names : List String}, String.ofList text ∈ names →
      (∀ name ∈ names, name ∈ knownWords) → NumbersOnly text ∧ ∀ value, ¬ CoreInt text value :=
    fun hname hnames =>
      ⟨.of_known (hnames _ hname), not_coreInt_of_known (hnames _ hname)⟩
  have hnullWords : ∀ name ∈ nullTexts, name ∈ knownWords := fun _ h => by simp [knownWords, h]
  have htrueWords : ∀ name ∈ trueTexts, name ∈ knownWords := fun _ h => by simp [knownWords, h]
  have hfalseWords : ∀ name ∈ falseTexts, name ∈ knownWords := fun _ h => by simp [knownWords, h]
  have hinfWords : ∀ name ∈ infinityTexts, name ∈ knownWords := fun _ h => by simp [knownWords, h]
  have hnegWords : ∀ name ∈ negativeInfinityTexts, name ∈ knownWords := fun _ h => by
    simp [knownWords, h]
  have hnanWords : ∀ name ∈ nanTexts, name ∈ knownWords := fun _ h => by simp [knownWords, h]
  have hempty : String.ofList text = "" ↔ text = [] := by
    rw [← String.toList_inj, String.toList_ofList]
    rfl
  simp only [parseScalar, hquoted, if_neg hbare]
  by_cases hnull : String.ofList text = "" ∨ String.ofList text ∈ nullTexts
  · rw [if_pos hnull]
    refine iff_of_true (.null (hnull.imp hempty.mp id)) ?_
    rcases hnull with hnil | hname
    · rw [hempty.mp hnil]
      exact .of_nil
    · exact (hknown hname hnullWords).1
  rw [if_neg hnull]
  by_cases htrue : String.ofList text ∈ trueTexts
  · rw [if_pos htrue]
    exact iff_of_true (.true htrue) (hknown htrue htrueWords).1
  rw [if_neg htrue]
  by_cases hfalse : String.ofList text ∈ falseTexts
  · rw [if_pos hfalse]
    exact iff_of_true (.false hfalse) (hknown hfalse hfalseWords).1
  rw [if_neg hfalse]
  by_cases hinf : String.ofList text ∈ infinityTexts
  · rw [if_pos hinf]
    exact iff_of_true (.float (.infinity (.inl hinf)) (hknown hinf hinfWords).2)
      (hknown hinf hinfWords).1
  rw [if_neg hinf]
  by_cases hneg : String.ofList text ∈ negativeInfinityTexts
  · rw [if_pos hneg]
    exact iff_of_true (.float (.negativeInfinity hneg) (hknown hneg hnegWords).2)
      (hknown hneg hnegWords).1
  rw [if_neg hneg]
  by_cases hnan : String.ofList text ∈ nanTexts
  · rw [if_pos hnan]
    exact iff_of_true (.float (.nan hnan) (hknown hnan hnanWords).2) (hknown hnan hnanWords).1
  rw [if_neg hnan]
  by_cases hinteger : looksInteger text = true
  · rw [if_pos hinteger]
    constructor
    · intro h
      have hint : ∃ value, CoreInt text value := by
        cases hread : parseYamlInt text with
        | ok value =>
            rw [hread] at h
            cases h with
            | int hint => exact ⟨_, hint⟩
        | error message =>
            rw [hread] at h
            cases h with
            | outside hint => exact ⟨_, hint⟩
      refine ⟨fun _ => hint, fun _ => .inl hint, fun hplus => ?_⟩
      have hword := (plain_of_word (List.mem_append_right _ hplus)).1
      rw [String.toList_ofList, hinteger] at hword
      cases hword
    · intro h
      obtain ⟨value, hint⟩ := h.integer hinteger
      rcases parseYamlInt_of_coreInt hint with ⟨hlow, hhigh, hread⟩ | ⟨hrange, message, hread⟩
      · rw [hread]
        exact .int hint ⟨hlow, hhigh⟩
      · rw [hread]
        exact .outside hint hrange
  rw [if_neg hinteger]
  have hnotInt : ∀ value, ¬ CoreInt text value := fun value hint =>
    hinteger (looksInteger_of_coreInt hint)
  have hplusFloat : String.ofList text ∈ plusInfinityTexts → looksFloat text = false := by
    intro hplus
    have hword := (plain_of_word (List.mem_append_right _ hplus)).2
    rwa [String.toList_ofList] at hword
  by_cases hfloat : looksFloat text = true
  · rw [if_pos hfloat]
    constructor
    · intro h
      have hform : (∃ value, CoreInt text value) ∨ ∃ value, CoreFloat text value := by
        cases hread : F64.parse (text.filter (· ≠ '_')) with
        | some value =>
            rw [hread] at h
            cases h with
            | float hform => exact .inr ⟨_, hform⟩
        | none =>
            rw [hread] at h
            cases h with
            | outside hint => exact .inl ⟨_, hint⟩
      refine ⟨fun h => absurd h hinteger, fun _ => hform, fun hplus => ?_⟩
      rw [hplusFloat hplus] at hfloat
      cases hfloat
    · intro h
      obtain ⟨value, hint⟩ | ⟨value, hform⟩ := h.float hfloat
      · exact absurd hint (hnotInt value)
      · cases hform with
        | decimal hwell =>
            rw [filter_underscore (underscore_notin_decimal hwell), DecimalText.parse_text hwell]
            exact .float (.decimal hwell) hnotInt
        | infinity hword =>
            rcases hword with hword | hword
            · exact absurd hword hinf
            · exact absurd hword h.infinity
        | negativeInfinity hword => exact absurd hword hneg
        | nan hword => exact absurd hword hnan
  · rw [if_neg hfloat]
    constructor
    · intro h
      cases h with
      | string _ _ _ _ hnotFloat =>
          exact ⟨fun h => absurd h hinteger, fun h => absurd h hfloat,
            fun hplus => hnotFloat _ (.infinity (.inr hplus))⟩
    · intro h
      refine .string (fun hform => hnull (hform.imp hempty.mpr id)) htrue hfalse hnotInt ?_
      intro value hform
      cases hform with
      | decimal hwell =>
          rcases looksFloat_of_decimal hwell with ⟨value, hint⟩ | hlooks
          · exact hnotInt value hint
          · exact hfloat hlooks
      | infinity hword =>
          rcases hword with hword | hword
          · exact hinf hword
          · exact h.infinity hword
      | negativeInfinity hword => exact hneg hword
      | nan hword => exact hnan hword

/-- A number is read. -/
theorem byCoreSchema_parseScalar_iff_twelve :
    "12".toList.head?.any isQuote = false ∧
      (ByCoreSchema "12".toList (parseScalar "12".toList) ↔ NumbersOnly "12".toList) :=
  ⟨by decide, byCoreSchema_parseScalar_iff "12".toList (by decide)⟩

/-- A version string is refused. -/
theorem not_byCoreSchema_version : ¬ ByCoreSchema "v1.2".toList (parseScalar "v1.2".toList) := by
  have hread : parseScalar "v1.2".toList = .error "invalid YAML Float" := by rfl
  rw [hread]
  intro h
  cases h with
  | outside hint => exact absurd (looksInteger_of_coreInt hint) (by decide)

end Plain

end Telora.Yaml
