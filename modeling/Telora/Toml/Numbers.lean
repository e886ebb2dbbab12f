import Telora.Toml.NumberReading

/-!
# Numbers as the grammar has them

A text is read as a number exactly when it is a number of the grammar, or an integer with a
sign too many: the underscores are put back into the forms without them.
-/

namespace Telora.Toml

open Library

section Lift

variable {radix : Nat} {text : List Char}

theorem isDigitIn_eq_false (hradix : radix ≤ 16) {c : Char} (h : radix ≤ digitValue c) :
    isDigitIn radix c = false := by
  rw [← Bool.not_eq_true, isDigitIn_iff hradix]
  exact Nat.not_lt.mpr h

theorem digitValue_of_isSign {c : Char} (h : isSign c = true) : digitValue c = 16 := by
  rcases isSign_iff.mp h with rfl | rfl <;> rfl

/-- A first character that is no digit is the first one with underscores too. -/
theorem exists_cons_of_not_digit {c : Char} {rest : List Char}
    (hc : isDigitIn radix c = false) (h : underscoresBetween radix none text = true)
    (hplain : plain text = c :: rest) :
    ∃ text', text = c :: text' ∧ plain text' = rest ∧
      underscoresBetween radix none text' = true := by
  obtain ⟨text', rfl, hplain', hbetween⟩ := exists_cons_of_plain h hplain
  exact ⟨text', rfl, hplain', underscoresBetween_of_not_digit hc hbetween⟩

theorem exists_signs_of_plain (hradix : radix ≤ 16) {signs rest : List Char}
    (hsigns : ∀ c ∈ signs, isSign c = true) (h : underscoresBetween radix none text = true)
    (hplain : plain text = signs ++ rest) :
    ∃ text', text = signs ++ text' ∧ plain text' = rest ∧
      underscoresBetween radix none text' = true := by
  induction signs generalizing text with
  | nil => exact ⟨text, rfl, hplain, h⟩
  | cons c signs ih =>
      have hc := digitValue_of_isSign (hsigns c List.mem_cons_self)
      obtain ⟨text, rfl, hplain, h⟩ := exists_cons_of_not_digit
        (isDigitIn_eq_false hradix (hradix.trans hc.ge)) h hplain
      obtain ⟨text', rfl, hplain', h'⟩ :=
        ih (fun d hmem => hsigns d (List.mem_cons_of_mem _ hmem)) h hplain
      exact ⟨text', rfl, hplain', h'⟩

/-- Digits to the end are a group. -/
theorem grouped_of_plain (hradix : radix ≤ 16) {digits : List Char} (hdigits : Digits radix digits)
    (h : underscoresBetween radix none text = true) (hplain : plain text = digits) :
    Grouped radix text := by
  obtain ⟨group, rest, rfl, hgroup, -, hrest, hbetween⟩ :=
    exists_group_of_plain hradix hdigits h (hplain.trans (List.append_nil _).symm)
      fun c hc => by cases hc
  rw [eq_nil_of_plain hbetween hrest, List.append_nil]
  exact hgroup

/-- A text without digits has no underscores. -/
theorem eq_of_plain_not_digit {chars : List Char} (hchars : ∀ c ∈ chars, isDigitIn radix c = false)
    (h : underscoresBetween radix none text = true) (hplain : plain text = chars) :
    text = chars := by
  induction chars generalizing text with
  | nil => exact eq_nil_of_plain h hplain
  | cons c chars ih =>
      obtain ⟨text', rfl, hplain', h'⟩ :=
        exists_cons_of_not_digit (hchars c List.mem_cons_self) h hplain
      rw [ih (fun d hmem => hchars d (List.mem_cons_of_mem _ hmem)) h' hplain']

theorem plain_of_signs {signs : List Char} (h : ∀ c ∈ signs, isSign c = true) :
    plain signs = signs := by
  rw [plain, List.filter_eq_self]
  intro c hmem
  refine decide_eq_true ?_
  rintro rfl
  exact absurd (h '_' hmem) (by decide)

/-- The radix in which the neighbours of underscores are digits. -/
def numericRadix (text : List Char) : Nat :=
  let unsigned := trimSigns text
  if startsWith "0x".toList unsigned then 16
  else if startsWith "0o".toList unsigned then 8
  else if startsWith "0b".toList unsigned then 2
  else 10

theorem validate_iff : validateNumericUnderscores text = .ok () ↔
    underscoresBetween (numericRadix text) none text = true := by
  change (if underscoresBetween (numericRadix text) none text = true then _ else _) = _ ↔ _
  split
  · next h => exact iff_of_true rfl h
  · next h => exact iff_of_false (fun h => by cases h) h

theorem numericRadix_of_mark {mark : Char} {rest : List Char} (h : (mark, radix) ∈ radixMarks)
    (htrim : trimSigns text = '0' :: mark :: rest) : numericRadix text = radix := by
  simp only [radixMarks, List.mem_cons, Prod.mk.injEq, List.not_mem_nil, or_false] at h
  rw [numericRadix, htrim]
  rcases h with ⟨rfl, rfl⟩ | ⟨rfl, rfl⟩ | ⟨rfl, rfl⟩ <;> rfl

theorem numericRadix_of_not_prefixed (h : radixPrefixed (trimSigns text) = false) :
    numericRadix text = 10 := by
  rw [radixPrefixed, Bool.or_eq_false_iff, Bool.or_eq_false_iff] at h
  obtain ⟨⟨hhex, hoctal⟩, hbinary⟩ := h
  simp only [numericRadix, hhex, hoctal, hbinary, Bool.false_eq_true, if_false]

/-- A radix mark is seen without the underscores too. -/
theorem radixPrefixed_plain (h : radixPrefixed (trimSigns text) = true) :
    radixPrefixed (trimSigns (plain text)) = true := by
  obtain ⟨mark, radix, rest, hmark, htrim⟩ := radixPrefixed_iff.mp h
  obtain ⟨signs, htext, hsigns⟩ := exists_signs text
  have hnot := (mark_radix hmark).2.2.2.2
  have hplain : plain text = signs ++ '0' :: mark :: plain rest := by
    rw [htext, htrim, plain_append, plain_of_signs hsigns, plain_cons (by decide),
      plain_cons hnot]
  rw [hplain, trimSigns_append hsigns fun c hc => by
    obtain rfl := Option.some.inj hc
    rfl]
  exact radixPrefixed_iff.mpr ⟨mark, radix, _, hmark, rfl⟩

/-- No underscore stands between a zero and its radix mark. -/
theorem exists_mark_of_plain {mark : Char} {rest : List Char} (hmark : (mark, radix) ∈ radixMarks)
    (h : underscoresBetween (numericRadix text) none text = true)
    (hplain : plain text = '0' :: mark :: rest) :
    ∃ rest', text = '0' :: mark :: rest' ∧ plain rest' = rest := by
  obtain ⟨text', rfl, hplain', hbetween⟩ := exists_cons_of_plain h hplain
  cases text' with
  | nil => cases hplain'
  | cons d text' =>
      by_cases hd : d = '_'
      · exfalso
        subst hd
        have hradix : numericRadix ('0' :: '_' :: text') = 10 := by
          refine numericRadix_of_not_prefixed ?_
          rw [← Bool.not_eq_true, radixPrefixed_iff]
          rintro ⟨other, radix, rest, hother, htrim⟩
          change '0' :: '_' :: text' = _ at htrim
          rw [List.cons.injEq, List.cons.injEq] at htrim
          exact (mark_radix hother).2.2.2.2 htrim.2.1.symm
        rw [hradix] at hbetween
        obtain ⟨-, hnext, -⟩ := (underscoresBetween_underscore _ _).mp hbetween
        cases text' with
        | nil => cases hnext
        | cons e text' =>
            rw [List.head?_cons, Option.any_some] at hnext
            have he := (isDigitIn_iff (by decide) e).mp hnext
            rw [plain_underscore, plain_cons (ne_underscore (by decide) he), List.cons.injEq]
              at hplain'
            rw [hplain'.1] at he
            exact absurd he (Nat.not_lt.mpr (mark_radix hmark).2.1)
      · rw [plain_cons hd, List.cons.injEq] at hplain'
        obtain ⟨rfl, hplain'⟩ := hplain'
        exact ⟨text', rfl, hplain'⟩

/-- A text that has no radix mark without its underscores is checked as a decimal. -/
theorem between_ten (h : underscoresBetween (numericRadix text) none text = true)
    (hplain : radixPrefixed (trimSigns (plain text)) = false) :
    underscoresBetween 10 none text = true := by
  have hnot : radixPrefixed (trimSigns text) = false := by
    rw [← Bool.not_eq_true]
    intro hprefix
    rw [radixPrefixed_plain hprefix] at hplain
    cases hplain
  rwa [numericRadix_of_not_prefixed hnot] at h

/-- Signs and digits without underscores come from signs and a group. -/
theorem exists_decimal_of_plain (h : underscoresBetween (numericRadix text) none text = true)
    {signs digits : List Char} (hsigns : ∀ c ∈ signs, isSign c = true) (hdigits : Digits 10 digits)
    (hplain : plain text = signs ++ digits) :
    ∃ group, text = signs ++ group ∧ Grouped 10 group ∧ plain group = digits := by
  have hnot : radixPrefixed (trimSigns (plain text)) = false := by
    rw [hplain, trimSigns_append hsigns fun c hc =>
      not_isSign_of_isDigit (hdigits.isDigit c (List.mem_of_mem_head? hc))]
    exact not_prefixed_of_digits hdigits
  obtain ⟨group, rfl, hgroup, hbetween⟩ :=
    exists_signs_of_plain (by decide) hsigns (between_ten h hnot) hplain
  exact ⟨group, rfl, grouped_of_plain (by decide) hdigits hbetween hgroup, hgroup⟩

theorem isSign_doubled {signs : List Char} {negative : Bool}
    (h : (signs, negative) ∈ doubledSigns) : ∀ c ∈ signs, isSign c = true := by
  simp only [doubledSigns, List.mem_cons, Prod.mk.injEq, List.not_mem_nil, or_false] at h
  rcases h with ⟨rfl, rfl⟩ | ⟨rfl, rfl⟩ | ⟨rfl, rfl⟩ | ⟨rfl, rfl⟩ | ⟨rfl, rfl⟩ | ⟨rfl, rfl⟩ <;>
    simp [isSign]

/-- The integers that are read without underscores come from the grammar, or from an integer
with a sign too many. -/
theorem tomlInt_of_readInt {signed : Int}
    (hvalid : underscoresBetween (numericRadix text) none text = true)
    (h : ReadInt (plain text) signed) : TomlInt text signed ∨ ExtraSign text signed := by
  generalize hplain : plain text = normalized at h
  cases h with
  | decimal sign hdigits hzero =>
      obtain ⟨group, rfl, hgroup, rfl⟩ :=
        exists_decimal_of_plain hvalid (isSign_text sign) hdigits hplain
      exact .inl (.decimal sign hgroup ((NoLeadingZero.plain hgroup (by decide)).mp hzero))
  | doubled hsigns hdigits hzero =>
      obtain ⟨group, rfl, hgroup, rfl⟩ :=
        exists_decimal_of_plain hvalid (isSign_doubled hsigns) hdigits hplain
      exact .inr (.decimal hsigns hgroup fun h =>
        (NoLeadingZero.plain hgroup (by decide)).mp (hzero h))
  | @radix mark radix hmark sign digits hdigits =>
      obtain ⟨hradix, -, hnotDigit, -, hnotUnderscore⟩ := mark_radix hmark
      obtain ⟨rest, rfl, hrest⟩ := exists_mark_of_plain hmark hvalid hplain
      rw [numericRadix_of_mark hmark rfl, underscoresBetween_cons (by decide),
        underscoresBetween_cons hnotUnderscore] at hvalid
      have hstart := underscoresBetween_of_not_digit (isDigitIn_eq_false hradix hnotDigit) hvalid
      obtain ⟨group, rfl, hgroup, hbetween⟩ :=
        exists_signs_of_plain hradix (isSign_text sign) hstart hrest
      have hgrouped := grouped_of_plain hradix hdigits hbetween hgroup
      subst hgroup
      cases sign with
      | none => exact .inl (.radix hmark hgrouped)
      | some negative => exact .inr (.radix hmark hgrouped)

/-- The decimals that are read without underscores come from the grammar. -/
theorem tomlDecimal_of_plain {decimal : DecimalText}
    (hbetween : underscoresBetween 10 none text = true) (hdecimal : PlainDecimal decimal)
    (hzero : NoLeadingZero decimal.whole)
    (hfloat : decimal.fraction ≠ none ∨ decimal.exponent ≠ none)
    (hplain : plain text = decimal.text) :
    ∃ written, TomlDecimal written ∧ text = written.text ∧ plainDecimal written = decimal := by
  obtain ⟨sign, whole, fraction, exponent⟩ := decimal
  obtain ⟨text, rfl, hplain, hbetween⟩ :=
    exists_signs_of_plain (by decide) (isSign_text sign) hbetween hplain
  obtain ⟨wholeGroup, text, rfl, hwhole, rfl, hplain, hbetween⟩ := exists_group_of_plain (by decide)
    hdecimal.whole hbetween hplain fun c hc => by
      have hdigit := hdecimal.rest_head c hc
      rw [← Bool.not_eq_true, isDigitIn_iff (by decide)]
      intro hvalue
      rw [isDigit_of_digitValue hvalue] at hdigit
      cases hdigit
  have hlead := (NoLeadingZero.plain hwhole (by decide)).mp hzero
  -- the fraction
  obtain ⟨fractionGroup, text, rfl, hfraction, hfractionPlain, hplain, hbetween⟩ :
      ∃ fractionGroup rest, text = Option.elim fractionGroup [] ('.' :: ·) ++ rest ∧
        (∀ group ∈ fractionGroup, Grouped 10 group) ∧ fractionGroup.map plain = fraction ∧
        plain rest = Option.elim exponent [] (·.text) ∧ underscoresBetween 10 none rest = true := by
    cases fraction with
    | none => exact ⟨none, text, rfl, fun _ h => (by cases h), rfl, hplain, hbetween⟩
    | some digits =>
        obtain ⟨text, rfl, hplain, hbetween⟩ :=
          exists_cons_of_not_digit (isDigitIn_eq_false (by decide) (by decide)) hbetween hplain
        obtain ⟨group, rest, rfl, hgroup, hdigits, hplain, hbetween⟩ :=
          exists_group_of_plain (by decide) (hdecimal.fraction digits rfl) hbetween hplain
            fun c hc => by
              rcases hdecimal.wellFormed.exponentText_head c hc with rfl | rfl <;> decide
        refine ⟨some group, rest, rfl, fun other h => ?_, congrArg some hdigits, hplain, hbetween⟩
        obtain rfl := Option.some.inj h
        exact hgroup
  -- the exponent
  obtain ⟨exponentGroup, rfl, hexponent, hexponentPlain⟩ : ∃ exponentGroup : Option ExponentText,
      text = exponentGroup.elim [] (·.text) ∧
        (∀ part ∈ exponentGroup, (part.marker = 'e' ∨ part.marker = 'E') ∧
          Grouped 10 part.digits) ∧ exponentGroup.map plainExponent = exponent := by
    cases exponent with
    | none => exact ⟨none, eq_nil_of_plain hbetween hplain, fun _ h => (by cases h), rfl⟩
    | some exponent =>
        have hwell := hdecimal.exponent exponent rfl
        have hmark : isDigitIn 10 exponent.marker = false := by
          rcases hwell.marker with hmarker | hmarker <;> rw [hmarker] <;> decide
        obtain ⟨text, rfl, hplain, hbetween⟩ := exists_cons_of_not_digit hmark hbetween hplain
        obtain ⟨text, rfl, hplain, hbetween⟩ :=
          exists_signs_of_plain (by decide) (isSign_text exponent.sign) hbetween hplain
        have hdigits : Digits 10 exponent.digits :=
          ⟨hwell.ne_nil, fun c hmem => digitValue_of_isDigit (hwell.digits c hmem)⟩
        refine ⟨some ⟨exponent.marker, exponent.sign, text⟩, rfl, fun part h => ?_, ?_⟩
        · obtain rfl := Option.some.inj h
          exact ⟨hwell.marker, grouped_of_plain (by decide) hdigits hbetween hplain⟩
        · exact congrArg some (by rw [plainExponent, hplain])
  subst hfractionPlain hexponentPlain
  refine ⟨⟨sign, wholeGroup, fractionGroup, exponentGroup⟩, ?_, rfl, rfl⟩
  refine ⟨hwhole, hlead, hfraction, fun part h => (hexponent part h).1,
    fun part h => (hexponent part h).2, hfloat.imp (fun h hnone => h ?_) fun h hnone => h ?_⟩
  · rw [show fractionGroup = none from hnone]
    rfl
  · rw [show exponentGroup = none from hnone]
    rfl

end Lift

section Words

theorem ofList_eq_iff {text : List Char} {name : String} :
    String.ofList text = name ↔ text = name.toList :=
  ⟨fun h => by rw [← h, String.toList_ofList], fun h => by rw [h, String.ofList_toList]⟩

theorem specialFloat_infinity (sign : Sign) :
    specialFloat (sign.text ++ "inf".toList) = some (F64.infinite sign.negative) := by
  rcases sign with _ | _ | _ <;> rfl

theorem specialFloat_nan (sign : Sign) :
    specialFloat (sign.text ++ "nan".toList) =
      some (if sign.negative then F64.nan.neg else F64.nan) := by
  rcases sign with _ | _ | _ <;> rfl

/-- Only the words are special. -/
theorem specialFloat_cases {text : List Char} {value : F64} (h : specialFloat text = some value) :
    ∃ sign : Sign, text = sign.text ++ "inf".toList ∨ text = sign.text ++ "nan".toList := by
  simp only [specialFloat, ofList_eq_iff] at h
  by_cases hinf : text = "inf".toList ∨ text = "+inf".toList
  · rcases hinf with rfl | rfl
    · exact ⟨none, .inl rfl⟩
    · exact ⟨some false, .inl rfl⟩
  rw [if_neg hinf] at h
  by_cases hminusInf : text = "-inf".toList
  · exact ⟨some true, .inl hminusInf⟩
  rw [if_neg hminusInf] at h
  by_cases hnan : text = "nan".toList ∨ text = "+nan".toList
  · rcases hnan with rfl | rfl
    · exact ⟨none, .inr rfl⟩
    · exact ⟨some false, .inr rfl⟩
  rw [if_neg hnan] at h
  by_cases hminusNan : text = "-nan".toList
  · exact ⟨some true, .inr hminusNan⟩
  rw [if_neg hminusNan] at h
  cases h

theorem trimSigns_infinity (sign : Sign) : trimSigns (sign.text ++ "inf".toList) = "inf".toList :=
  trimSigns_append (isSign_text sign) fun c hc => by
    obtain rfl := Option.some.inj hc
    rfl

theorem trimSigns_nan (sign : Sign) : trimSigns (sign.text ++ "nan".toList) = "nan".toList :=
  trimSigns_append (isSign_text sign) fun c hc => by
    obtain rfl := Option.some.inj hc
    rfl

theorem specialFloat_of_digit {text rest : List Char} {c : Char}
    (htrim : trimSigns text = c :: rest) (hc : c.isDigit = true) : specialFloat text = none := by
  rw [Option.eq_none_iff_forall_ne_some]
  intro value h
  obtain ⟨sign, rfl | rfl⟩ := specialFloat_cases h
  · rw [trimSigns_infinity] at htrim
    obtain ⟨rfl, -⟩ := List.cons.inj htrim
    cases hc
  · rw [trimSigns_nan] at htrim
    obtain ⟨rfl, -⟩ := List.cons.inj htrim
    cases hc

/-- A word without digits has none behind a sign. -/
theorem not_digit_of_word {word : List Char} (h : word.any (isDigitIn 10) = false) (sign : Sign) :
    ∀ c ∈ sign.text ++ word, isDigitIn 10 c = false := by
  intro c hmem
  rcases List.mem_append.mp hmem with hmem | hmem
  · exact isDigitIn_eq_false (by decide)
      ((by decide : 10 ≤ 16).trans (digitValue_of_isSign (isSign_text sign c hmem)).ge)
  · rw [← Bool.not_eq_true]
    exact List.any_eq_false.mp h c hmem

/-- A word that is special without underscores is the text itself. -/
theorem tomlFloat_of_specialFloat {text : List Char} {value : F64}
    (hvalid : underscoresBetween (numericRadix text) none text = true)
    (h : specialFloat (plain text) = some value) : TomlFloat text value := by
  obtain ⟨sign, hplain | hplain⟩ := specialFloat_cases h
  · have hbetween := between_ten hvalid (by rw [hplain, trimSigns_infinity]; rfl)
    have htext := eq_of_plain_not_digit (not_digit_of_word rfl sign) hbetween hplain
    rw [hplain, specialFloat_infinity] at h
    rw [htext, ← Option.some.inj h]
    exact .infinity sign
  · have hbetween := between_ten hvalid (by rw [hplain, trimSigns_nan]; rfl)
    have htext := eq_of_plain_not_digit (not_digit_of_word rfl sign) hbetween hplain
    rw [hplain, specialFloat_nan] at h
    rw [htext, ← Option.some.inj h]
    exact .nan sign

end Words

section Accepted

variable {text : List Char}

def isFloatMark (c : Char) : Bool := c ∈ ['.', 'e', 'E']

/-- The steps behind the underscores. -/
theorem parseNumber_of_valid (hvalid : underscoresBetween (numericRadix text) none text = true)
    (hspecial : specialFloat (plain text) = none) :
    parseNumber text =
      if radixPrefixed (trimSigns (plain text)) ∧ text.head?.any isSign then
        .error "TOML radix integers cannot have a sign"
      else if !radixPrefixed (trimSigns (plain text)) ∧ (plain text).any isFloatMark then
        parseFloat (plain text)
      else parseInteger (plain text) := by
  have hdropped : specialFloat (text.filter (· ≠ '_')) = none := hspecial
  simp only [parseNumber, validate_iff.mpr hvalid, hdropped]
  rfl

theorem head_of_plain (h : underscoresBetween (numericRadix text) none text = true)
    (hhead : text.head?.any isSign = false) : (plain text).head?.any isSign = false := by
  cases hplain : plain text with
  | nil => rfl
  | cons c rest =>
      obtain ⟨text', rfl, -, -⟩ := exists_cons_of_plain h hplain
      exact hhead

theorem not_floatMark_of_isDigit {c : Char} (h : c.isDigit = true) : isFloatMark c = false := by
  obtain ⟨hexponent, hpoint⟩ := not_mark_of_isDigit h
  rw [← Bool.not_eq_true, isExponentMark_iff] at hexponent
  rw [isFloatMark, decide_eq_false_iff_not]
  intro hmem
  simp only [List.mem_cons, List.not_mem_nil, or_false] at hmem
  rcases hmem with rfl | hmark
  · cases hpoint
  · exact hexponent hmark

theorem not_floatMark_of_isSign {c : Char} (h : isSign c = true) : isFloatMark c = false := by
  rcases isSign_iff.mp h with rfl | rfl <;> rfl

theorem any_floatMark_of_decimal {signs digits : List Char} (hsigns : ∀ c ∈ signs, isSign c = true)
    (hdigits : Digits 10 digits) : (signs ++ digits).any isFloatMark = false := by
  rw [List.any_eq_false]
  intro c hmem
  rcases List.mem_append.mp hmem with hmem | hmem
  · rw [not_floatMark_of_isSign (hsigns c hmem)]
    exact Bool.false_ne_true
  · rw [not_floatMark_of_isDigit (hdigits.isDigit c hmem)]
    exact Bool.false_ne_true

/-- What is accepted is a number of the grammar, or an integer with a sign too many. -/
theorem parseNumber_ok {value : Value} (h : parseNumber text = .ok value) :
    (∃ signed, value = .int signed ∧ (-2 ^ 63 ≤ signed ∧ signed < 2 ^ 63) ∧
      (TomlInt text signed ∨ ExtraSign text signed)) ∨
    ∃ float, value = .float float ∧ TomlFloat text float := by
  cases hcheck : validateNumericUnderscores text with
  | error message => rw [parseNumber, hcheck] at h; cases h
  | ok _ =>
  have hvalid := validate_iff.mp hcheck
  cases hspecial : specialFloat (plain text) with
  | some float =>
      have hdropped : specialFloat (text.filter (· ≠ '_')) = some float := hspecial
      simp only [parseNumber, hcheck, hdropped] at h
      cases h
      exact .inr ⟨float, rfl, tomlFloat_of_specialFloat hvalid hspecial⟩
  | none =>
  rw [parseNumber_of_valid hvalid hspecial] at h
  by_cases hsigned : radixPrefixed (trimSigns (plain text)) = true ∧ text.head?.any isSign = true
  · rw [if_pos hsigned] at h
    cases h
  rw [if_neg hsigned] at h
  by_cases hmark : (!radixPrefixed (trimSigns (plain text))) = true ∧
      (plain text).any isFloatMark = true
  · rw [if_pos hmark] at h
    obtain ⟨decimal, hplain, hzero, htext, rfl⟩ := parseFloat_ok h
    have hfloat : decimal.fraction ≠ none ∨ decimal.exponent ≠ none := by
      by_contra hnone
      rw [not_or, not_not, not_not] at hnone
      have hany := hmark.2
      rw [htext, DecimalText.text, DecimalText.unsigned, DecimalText.fractionText, hnone.1,
        DecimalText.exponentText, hnone.2, Option.elim_none, Option.elim_none, List.append_nil,
        List.append_nil, any_floatMark_of_decimal (isSign_text _) hplain.whole] at hany
      cases hany
    have hbetween := between_ten hvalid (by simpa using hmark.1)
    obtain ⟨written, hwritten, rfl, rfl⟩ := tomlDecimal_of_plain hbetween hplain hzero hfloat htext
    exact .inr ⟨_, rfl, .decimal hwritten⟩
  · rw [if_neg hmark] at h
    obtain ⟨signed, rfl, hrange, hread⟩ := parseInteger_ok (fun hprefixed => by
      refine head_of_plain hvalid ?_
      rw [← Bool.not_eq_true]
      exact fun hhead => hsigned ⟨hprefixed, hhead⟩) h
    exact .inl ⟨signed, rfl, hrange, tomlInt_of_readInt hvalid hread⟩

theorem underscoresBetween_signs {radix : Nat} {signs rest : List Char}
    (hsigns : ∀ c ∈ signs, isSign c = true) (h : underscoresBetween radix none rest = true)
    (previous : Option Char) : underscoresBetween radix previous (signs ++ rest) = true := by
  induction signs generalizing previous with
  | nil => exact underscoresBetween_of_none h previous
  | cons c signs ih =>
      have hc : c ≠ '_' := by
        rintro rfl
        exact absurd (hsigns '_' List.mem_cons_self) (by decide)
      rw [List.cons_append, underscoresBetween_cons hc]
      exact ih (fun d hmem => hsigns d (List.mem_cons_of_mem _ hmem)) _

/-- A group has no radix mark, and what follows it is none. -/
theorem Grouped.not_prefixed {group rest : List Char} (h : Grouped 10 group)
    (hrest : ∀ c ∈ rest.head?, isFloatMark c = true) : radixPrefixed (group ++ rest) = false := by
  rw [← Bool.not_eq_true, radixPrefixed_iff]
  rintro ⟨mark, radix, more, hmark, htext⟩
  obtain ⟨-, hnotDigit, -, -, hnotUnderscore⟩ := mark_radix hmark
  cases h with
  | last h =>
      cases rest with
      | nil => cases htext
      | cons d rest =>
          have hd := hrest d rfl
          obtain ⟨rfl, -⟩ := List.cons.inj (List.cons.inj htext).2
          simp only [radixMarks, List.mem_cons, Prod.mk.injEq, List.not_mem_nil, or_false] at hmark
          rcases hmark with ⟨rfl, rfl⟩ | ⟨rfl, rfl⟩ | ⟨rfl, rfl⟩ <;> cases hd
  | digit h hgroup =>
      obtain ⟨d, group, rfl, hd⟩ := hgroup.head
      obtain ⟨rfl, -⟩ := List.cons.inj (List.cons.inj htext).2
      exact absurd hd (Nat.not_lt.mpr hnotDigit)
  | underscore h hgroup =>
      obtain ⟨hd, -⟩ := List.cons.inj (List.cons.inj htext).2
      exact hnotUnderscore hd.symm

theorem Grouped.trimSigns_append {signs group rest : List Char}
    (hsigns : ∀ c ∈ signs, isSign c = true) (h : Grouped 10 group) :
    trimSigns (signs ++ (group ++ rest)) = group ++ rest := by
  refine Toml.trimSigns_append hsigns fun c hc => ?_
  obtain ⟨d, more, rfl, hd⟩ := h.head
  obtain rfl := Option.some.inj hc
  exact not_isSign_of_isDigit (isDigit_of_digitValue hd)

/-- Signs and a group pass the check of underscores, whatever passes behind them. -/
theorem Grouped.valid {signs group rest : List Char} (hsigns : ∀ c ∈ signs, isSign c = true)
    (h : Grouped 10 group) (hmark : ∀ c ∈ rest.head?, isFloatMark c = true)
    (hrest : Toml.underscoresBetween 10 none rest = true) :
    Toml.underscoresBetween (numericRadix (signs ++ (group ++ rest))) none
      (signs ++ (group ++ rest)) = true := by
  rw [numericRadix_of_not_prefixed (by rw [h.trimSigns_append hsigns]; exact h.not_prefixed hmark)]
  exact underscoresBetween_signs hsigns (h.underscoresBetween (by decide) hrest none) none

theorem plain_append_of_signs {signs rest : List Char} (hsigns : ∀ c ∈ signs, isSign c = true) :
    plain (signs ++ rest) = signs ++ plain rest := by
  rw [plain_append, plain_of_signs hsigns]

/-- Signs and a group go to the integers. -/
theorem parseNumber_decimal {signs group : List Char} (hsigns : ∀ c ∈ signs, isSign c = true)
    (h : Grouped 10 group) :
    parseNumber (signs ++ group) = parseInteger (signs ++ plain group) := by
  have hdigits := h.digits_plain (by decide)
  have hvalid := @Grouped.valid signs group [] hsigns h (fun c hc => by cases hc) rfl
  rw [List.append_nil] at hvalid
  have htrim : trimSigns (signs ++ plain group) = plain group :=
    Toml.trimSigns_append hsigns fun c hc =>
      not_isSign_of_isDigit (hdigits.isDigit c (List.mem_of_mem_head? hc))
  have hspecial : specialFloat (plain (signs ++ group)) = none := by
    rw [plain_append_of_signs hsigns]
    cases hplain : plain group with
    | nil => exact absurd hplain hdigits.ne_nil
    | cons c rest =>
        rw [hplain] at htrim
        exact specialFloat_of_digit htrim (hdigits.isDigit c (hplain ▸ List.mem_cons_self))
  rw [parseNumber_of_valid hvalid hspecial, plain_append_of_signs hsigns, htrim,
    not_prefixed_of_digits hdigits, any_floatMark_of_decimal hsigns hdigits]
  rfl

/-- What has a radix mark goes to the integers. -/
theorem parseNumber_radix {mark : Char} {radix : Nat} (hmark : (mark, radix) ∈ radixMarks)
    (sign : Sign) {group : List Char} (h : Grouped radix group) :
    parseNumber ('0' :: mark :: (sign.text ++ group)) =
      parseInteger ('0' :: mark :: (sign.text ++ plain group)) := by
  obtain ⟨hradix, -, hnotDigit, -, hnotUnderscore⟩ := mark_radix hmark
  have hgroup := @Grouped.underscoresBetween radix group h hradix [] rfl none
  rw [List.append_nil] at hgroup
  have hvalid : underscoresBetween (numericRadix ('0' :: mark :: (sign.text ++ group))) none
      ('0' :: mark :: (sign.text ++ group)) = true := by
    rw [numericRadix_of_mark hmark rfl, underscoresBetween_cons (by decide),
      underscoresBetween_cons hnotUnderscore]
    exact underscoresBetween_signs (isSign_text sign) hgroup _
  have hplain : plain ('0' :: mark :: (sign.text ++ group)) =
      '0' :: mark :: (sign.text ++ plain group) := by
    rw [plain_cons (by decide), plain_cons hnotUnderscore, plain_append_of_signs (isSign_text sign)]
  have hspecial : specialFloat (plain ('0' :: mark :: (sign.text ++ group))) = none :=
    specialFloat_of_digit (by rw [hplain]; rfl) rfl
  have hprefixed : radixPrefixed (trimSigns ('0' :: mark :: (sign.text ++ plain group))) = true :=
    radixPrefixed_iff.mpr ⟨mark, radix, _, hmark, rfl⟩
  rw [parseNumber_of_valid hvalid hspecial, hplain, hprefixed]
  rfl

theorem parseNumber_of_int {signed : Int} (h : TomlInt text signed ∨ ExtraSign text signed)
    (hrange : -2 ^ 63 ≤ signed ∧ signed < 2 ^ 63) : parseNumber text = .ok (.int signed) := by
  rcases h with h | h
  · cases h with
    | decimal sign h hzero =>
        rw [parseNumber_decimal (isSign_text sign) h]
        exact parseInteger_readInt (.decimal sign (h.digits_plain (by decide))
          ((NoLeadingZero.plain h (by decide)).mpr hzero)) hrange
    | radix hmark h =>
        have hread := parseNumber_radix hmark none h
        refine hread.trans (parseInteger_readInt ?_ hrange)
        exact .radix hmark none (h.digits_plain (mark_radix hmark).1)
  · cases h with
    | decimal hsigns h hzero =>
        rw [parseNumber_decimal (isSign_doubled hsigns) h]
        exact parseInteger_readInt (.doubled hsigns (h.digits_plain (by decide)) fun hfirst =>
          (NoLeadingZero.plain h (by decide)).mpr (hzero hfirst)) hrange
    | radix hmark h =>
        rw [parseNumber_radix hmark _ h]
        exact parseInteger_readInt
          (.radix hmark _ (h.digits_plain (mark_radix hmark).1)) hrange

theorem isFloatMark_of_marker {c : Char} (h : c = 'e' ∨ c = 'E') : isFloatMark c = true := by
  rcases h with rfl | rfl <;> rfl

theorem ne_underscore_of_floatMark {c : Char} (h : isFloatMark c = true) : c ≠ '_' := by
  rintro rfl
  cases h

variable {decimal : DecimalText}

theorem TomlDecimal.exponentText_between (h : TomlDecimal decimal) :
    underscoresBetween 10 none decimal.exponentText = true ∧
      (∀ c ∈ decimal.exponentText.head?, isFloatMark c = true) ∧
      plain decimal.exponentText = (plainDecimal decimal).exponentText := by
  simp only [DecimalText.exponentText, plainDecimal]
  cases hexponent : decimal.exponent with
  | none => exact ⟨rfl, fun c hc => (by cases hc), rfl⟩
  | some exponent =>
      have hmark := isFloatMark_of_marker (h.marker exponent hexponent)
      have hgroup := @Grouped.underscoresBetween 10 _ (h.exponent exponent hexponent) (by decide) []
        rfl none
      rw [List.append_nil] at hgroup
      simp only [Option.elim_some, Option.map_some, ExponentText.text, plainExponent]
      refine ⟨?_, fun c hc => ?_, ?_⟩
      · rw [underscoresBetween_cons (ne_underscore_of_floatMark hmark)]
        exact underscoresBetween_signs (isSign_text _) hgroup _
      · obtain rfl := Option.some.inj hc
        exact hmark
      · rw [plain_cons (ne_underscore_of_floatMark hmark),
          plain_append_of_signs (isSign_text exponent.sign)]

/-- What follows the digits before the point. -/
theorem TomlDecimal.rest_between (h : TomlDecimal decimal) :
    underscoresBetween 10 none (decimal.fractionText ++ decimal.exponentText) = true ∧
      (∀ c ∈ (decimal.fractionText ++ decimal.exponentText).head?, isFloatMark c = true) ∧
      plain (decimal.fractionText ++ decimal.exponentText) =
        (plainDecimal decimal).fractionText ++ (plainDecimal decimal).exponentText := by
  obtain ⟨hbetween, hmark, hplain⟩ := h.exponentText_between
  rw [plain_append, hplain]
  simp only [DecimalText.fractionText, plainDecimal]
  cases hfraction : decimal.fraction with
  | none => exact ⟨hbetween, hmark, rfl⟩
  | some fraction =>
      have hgroup := h.fraction fraction hfraction
      simp only [Option.elim_some, Option.map_some]
      refine ⟨?_, fun c hc => ?_, ?_⟩
      · rw [List.cons_append, underscoresBetween_cons (by decide)]
        exact hgroup.underscoresBetween (by decide) hbetween _
      · obtain rfl := Option.some.inj hc
        rfl
      · rw [plain_cons (by decide)]

theorem TomlDecimal.plainDecimal (h : TomlDecimal decimal) :
    PlainDecimal (plainDecimal decimal) where
  whole := h.whole.digits_plain (by decide)
  fraction := by
    intro fraction hmem
    obtain ⟨group, hgroup, rfl⟩ := Option.mem_map.mp hmem
    exact (h.fraction group hgroup).digits_plain (by decide)
  exponent := by
    intro exponent hmem
    obtain ⟨part, hpart, rfl⟩ := Option.mem_map.mp hmem
    have hdigits := (h.exponent part hpart).digits_plain (by decide)
    exact ⟨h.marker part hpart, hdigits.ne_nil, hdigits.isDigit⟩

theorem TomlDecimal.plain_text (h : TomlDecimal decimal) :
    plain decimal.text = (Toml.plainDecimal decimal).text := by
  rw [DecimalText.text, plain_append_of_signs (isSign_text decimal.sign), DecimalText.unsigned,
    plain_append, h.rest_between.2.2]
  rfl

theorem TomlDecimal.any_floatMark (h : TomlDecimal decimal) :
    (plain decimal.text).any isFloatMark = true := by
  obtain ⟨-, hmark, hplain⟩ := h.rest_between
  have hne : decimal.fractionText ++ decimal.exponentText ≠ [] := by
    rw [DecimalText.fractionText, DecimalText.exponentText]
    rcases h.float with hfloat | hfloat
    · obtain ⟨fraction, hfraction⟩ := Option.ne_none_iff_exists'.mp hfloat
      rw [hfraction]
      exact List.cons_ne_nil _ _
    · obtain ⟨exponent, hexponent⟩ := Option.ne_none_iff_exists'.mp hfloat
      rw [hexponent]
      exact List.append_ne_nil_of_right_ne_nil _ (List.cons_ne_nil _ _)
  rw [DecimalText.text, DecimalText.unsigned, plain_append, plain_append, List.any_append,
    List.any_append]
  cases hrest : decimal.fractionText ++ decimal.exponentText with
  | nil => exact absurd hrest hne
  | cons c rest =>
      have hc := hmark c (by rw [hrest]; rfl)
      rw [plain_cons (ne_underscore_of_floatMark hc), List.any_cons, hc, Bool.true_or,
        Bool.or_true, Bool.or_true]

/-- Digits are a group without underscores. -/
theorem grouped_of_digits {radix : Nat} {digits : List Char} (h : Digits radix digits) :
    Grouped radix digits := by
  induction digits with
  | nil => exact absurd rfl h.ne_nil
  | cons c digits ih =>
      have hc := h.digit c List.mem_cons_self
      by_cases hnil : digits = []
      · rw [hnil]
        exact .last hc
      · exact .digit hc (ih ⟨hnil, fun d hmem => h.digit d (List.mem_cons_of_mem _ hmem)⟩)

theorem TomlDecimal.not_prefixed (h : TomlDecimal decimal) :
    radixPrefixed (Toml.plainDecimal decimal).unsigned = false := by
  obtain ⟨-, hmark, hplain⟩ := h.rest_between
  rw [DecimalText.unsigned, ← hplain]
  refine (grouped_of_digits h.plainDecimal.whole).not_prefixed fun c hc => ?_
  cases hrest : decimal.fractionText ++ decimal.exponentText with
  | nil => rw [hrest] at hc; cases hc
  | cons d rest =>
      have hd := hmark d (by rw [hrest]; rfl)
      rw [hrest, plain_cons (ne_underscore_of_floatMark hd)] at hc
      obtain rfl := Option.some.inj hc
      exact hd

theorem parseNumber_of_float {float : F64} (h : TomlFloat text float) :
    parseNumber text = .ok (.float float) := by
  cases h with
  | infinity sign => rcases sign with _ | _ | _ <;> rfl
  | nan sign => rcases sign with _ | _ | _ <;> rfl
  | @decimal decimal h =>
      obtain ⟨hbetween, hmark, -⟩ := h.rest_between
      have hvalid := @Grouped.valid decimal.sign.text _ _ (isSign_text _) h.whole hmark hbetween
      have htrim := h.plainDecimal.trimSigns_text
      obtain ⟨c, rest, hunsigned, hc⟩ := h.plainDecimal.unsigned_head
      have hspecial : specialFloat (plain decimal.text) = none := by
        rw [h.plain_text]
        exact specialFloat_of_digit (htrim.trans hunsigned) hc
      have hprefixed : radixPrefixed (trimSigns (plain decimal.text)) = false := by
        rw [h.plain_text, htrim]
        exact h.not_prefixed
      have hread := @parseNumber_of_valid decimal.text hvalid hspecial
      rw [hprefixed, h.any_floatMark, h.plain_text] at hread
      refine hread.trans ?_
      exact h.plainDecimal.parseFloat_text ((NoLeadingZero.plain h.whole (by decide)).mpr h.zero)

end Accepted

section Grammar

variable {text : List Char}

/-- At most one sign stands in front of a number of the grammar. -/
theorem not_two_signs {sign : Sign} {c d e : Char} {rest more : List Char}
    (hc : isSign c = false) (hd : isSign d = true) (he : isSign e = true) :
    sign.text ++ c :: rest ≠ d :: e :: more := by
  intro h
  rcases sign with _ | _ | _
  · obtain ⟨rfl, -⟩ := List.cons.inj h
    rw [hc] at hd
    cases hd
  all_goals
    obtain ⟨-, h⟩ := List.cons.inj h
    obtain ⟨rfl, -⟩ := List.cons.inj h
    rw [hc] at he
    cases he

theorem two_signs_of_doubled {signs : List Char} {negative : Bool}
    (h : (signs, negative) ∈ doubledSigns) :
    ∃ d e more, signs = d :: e :: more ∧ isSign d = true ∧ isSign e = true := by
  simp only [doubledSigns, List.mem_cons, Prod.mk.injEq, List.not_mem_nil, or_false] at h
  rcases h with ⟨rfl, rfl⟩ | ⟨rfl, rfl⟩ | ⟨rfl, rfl⟩ | ⟨rfl, rfl⟩ | ⟨rfl, rfl⟩ | ⟨rfl, rfl⟩ <;>
    exact ⟨_, _, _, rfl, rfl, rfl⟩

/-- How an integer with a sign too many begins. -/
theorem ExtraSign.front {value : Int} (h : ExtraSign text value) :
    (∃ d e more, text = d :: e :: more ∧ isSign d = true ∧ isSign e = true) ∨
      ∃ mark radix d more, (mark, radix) ∈ radixMarks ∧ text = '0' :: mark :: d :: more ∧
        isSign d = true := by
  cases h with
  | decimal hsigns h hzero =>
      obtain ⟨d, e, more, rfl, hd, he⟩ := two_signs_of_doubled hsigns
      exact .inl ⟨d, e, _, rfl, hd, he⟩
  | @radix mark radix hmark negative group h =>
      cases negative
      · exact .inr ⟨mark, radix, '+', group, hmark, rfl, rfl⟩
      · exact .inr ⟨mark, radix, '-', group, hmark, rfl, rfl⟩

theorem Grouped.sign_head {group : List Char} (h : Grouped 10 group) :
    ∃ c rest, group = c :: rest ∧ isSign c = false := by
  obtain ⟨c, rest, rfl, hc⟩ := h.head
  exact ⟨c, rest, rfl, not_isSign_of_isDigit (isDigit_of_digitValue hc)⟩

/-- How an integer of the grammar begins. -/
theorem TomlInt.front {value : Int} (h : TomlInt text value) :
    (∃ (sign : Sign) (c : Char) (rest : List Char), text = sign.text ++ c :: rest ∧
      isSign c = false ∧ radixPrefixed (trimSigns text) = false) ∨
      ∃ mark radix group, (mark, radix) ∈ radixMarks ∧ text = '0' :: mark :: group ∧
        Grouped radix group := by
  cases h with
  | @decimal sign group h hzero =>
      have htrim := @Grouped.trimSigns_append sign.text group [] (isSign_text sign) h
      have hprefixed := @Grouped.not_prefixed group [] h fun c hc => by cases hc
      rw [List.append_nil] at htrim hprefixed
      obtain ⟨c, rest, rfl, hc⟩ := h.sign_head
      exact .inl ⟨sign, c, rest, rfl, hc, by rw [htrim]; exact hprefixed⟩
  | radix hmark h => exact .inr ⟨_, _, _, hmark, rfl, h⟩

/-- A sign too many is not of the grammar. -/
theorem ExtraSign.not_front {value : Int} (h : ExtraSign text value) :
    ¬ ∃ (sign : Sign) (c : Char) (rest : List Char), text = sign.text ++ c :: rest ∧
      isSign c = false ∧ radixPrefixed (trimSigns text) = false := by
  rintro ⟨sign, c, rest, rfl, hc, hprefixed⟩
  rcases h.front with ⟨d, e, more, htext, hd, he⟩ | ⟨mark, radix, d, more, hmark, htext, hd⟩
  · exact not_two_signs hc hd he htext
  · have hmarked : radixPrefixed (trimSigns ('0' :: mark :: d :: more)) = true :=
      radixPrefixed_iff.mpr ⟨mark, radix, d :: more, hmark, rfl⟩
    rw [htext, hmarked] at hprefixed
    cases hprefixed

theorem ExtraSign.not_tomlInt {value other : Int} (h : ExtraSign text value) :
    ¬ TomlInt text other := by
  intro hint
  rcases hint.front with hfront | ⟨mark, radix, group, hmark, rfl, hgroup⟩
  · exact h.not_front hfront
  rcases h.front with ⟨d, e, more, htext, hd, -⟩ | ⟨mark', _, d, more, -, htext, hd⟩
  · obtain ⟨rfl, -⟩ := List.cons.inj htext
    cases hd
  · obtain ⟨-, rfl⟩ := List.cons.inj (List.cons.inj htext).2
    obtain ⟨c, rest, hcons, hc⟩ := hgroup.head
    obtain ⟨rfl, -⟩ := List.cons.inj hcons
    rw [digitValue_of_isSign hd] at hc
    exact absurd hc (Nat.not_lt.mpr (mark_radix hmark).1)

/-- A text is read as the grammar says, except for the integers that have a sign too many
and fit into 64 bits. -/
theorem byGrammar_parseNumber_iff (text : List Char) :
    ByGrammar text (parseNumber text) ↔
      ¬ ∃ value, ExtraSign text value ∧ (-2 ^ 63 ≤ value ∧ value < 2 ^ 63) := by
  constructor
  · rintro hgrammar ⟨value, hextra, hrange⟩
    rw [parseNumber_of_int (.inr hextra) hrange] at hgrammar
    cases hgrammar with
    | int h _ => exact hextra.not_tomlInt h
  · intro hnone
    cases hresult : parseNumber text with
    | error message =>
        refine .rejected (fun value h hrange => ?_) fun value h => ?_
        · rw [parseNumber_of_int (.inl h) hrange] at hresult
          cases hresult
        · rw [parseNumber_of_float h] at hresult
          cases hresult
    | ok value =>
        rcases parseNumber_ok hresult with ⟨signed, rfl, hrange, h | h⟩ | ⟨float, rfl, h⟩
        · exact .int h hrange
        · exact absurd ⟨signed, h, hrange⟩ hnone
        · exact .float h

/-- Two signs are accepted. -/
theorem not_byGrammar_plus_minus : ¬ ByGrammar "+-5".toList (parseNumber "+-5".toList) := by
  have hextra : ExtraSign "+-5".toList (-5) :=
    @ExtraSign.decimal ['+', '-'] true (by decide) ['5'] (.last (by decide))
      fun h => absurd h (by decide)
  rw [parseNumber_of_int (.inr hextra) (by decide)]
  intro hgrammar
  cases hgrammar with
  | int h _ => exact hextra.not_tomlInt h

end Grammar

end Telora.Toml
