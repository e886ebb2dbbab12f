import Telora.Toml.Number
import Mathlib.Data.List.TakeWhile

/-!
# Reading numbers without underscores

Which texts without underscores are read as a float or as an integer, and as which.
-/

namespace Telora.Toml

open Library

section Signs

theorem isSign_iff {c : Char} : isSign c = true ↔ c = '+' ∨ c = '-' := by simp [isSign]

theorem not_isSign_of_isDigit {c : Char} (h : c.isDigit = true) : isSign c = false := by
  rw [← Bool.not_eq_true, isSign_iff]
  exact not_or.mpr ⟨(ne_sign_of_isDigit h).2, (ne_sign_of_isDigit h).1⟩

theorem isSign_text (sign : Sign) : ∀ c ∈ sign.text, isSign c = true := by
  rcases sign with _ | _ | _ <;> simp [Sign.text, isSign]

/-- A run of signs ends at the first other character. -/
theorem trimSigns_append {signs rest : List Char} (h : ∀ c ∈ signs, isSign c = true)
    (hrest : ∀ c ∈ rest.head?, isSign c = false) : trimSigns (signs ++ rest) = rest := by
  rw [trimSigns, List.dropWhile_append_of_pos h]
  cases rest with
  | nil => rfl
  | cons c rest => exact List.dropWhile_cons_of_neg (by rw [hrest c rfl]; exact Bool.false_ne_true)

/-- A run of signs is one written sign, or has two signs at its start. -/
theorem signs_cases {signs : List Char} (h : ∀ c ∈ signs, isSign c = true) :
    (∃ sign : Sign, signs = sign.text) ∨
      ∃ c d rest, signs = c :: d :: rest ∧ isSign c = true ∧ isSign d = true := by
  cases signs with
  | nil => exact .inl ⟨none, rfl⟩
  | cons c rest =>
      have hc := h c List.mem_cons_self
      cases rest with
      | nil =>
          rcases isSign_iff.mp hc with rfl | rfl
          · exact .inl ⟨some false, rfl⟩
          · exact .inl ⟨some true, rfl⟩
      | cons d rest =>
          exact .inr ⟨c, d, rest, rfl, hc, h d (List.mem_cons_of_mem _ List.mem_cons_self)⟩

theorem exists_signs (text : List Char) :
    ∃ signs, text = signs ++ trimSigns text ∧ ∀ c ∈ signs, isSign c = true :=
  ⟨text.takeWhile isSign, (List.takeWhile_append_dropWhile).symm,
    fun _ hmem => List.mem_takeWhile_imp hmem⟩

theorem splitSign_of_sign {c : Char} (h : isSign c = true) (rest : List Char) :
    splitSign (c :: rest) = (decide (c = '-'), rest) := by
  rcases isSign_iff.mp h with rfl | rfl <;> rfl

/-- No float has two signs at its start. -/
theorem parse_of_two_signs {c d : Char} (hc : isSign c = true) (hd : isSign d = true)
    (rest : List Char) : F64.parse (c :: d :: rest) = none := by
  have hdigit : d.isDigit = false := by
    rcases isSign_iff.mp hd with rfl | rfl <;> rfl
  have hlower : d.toLower = d := by
    rcases isSign_iff.mp hd with rfl | rfl <;> rfl
  have hname : ∀ name : String, name.toList.head? ≠ some '+' → name.toList.head? ≠ some '-' →
      String.ofList ((d :: rest).map Char.toLower) ≠ name := by
    rintro name hplus hminus rfl
    rw [String.toList_ofList, List.map_cons, hlower, List.head?_cons] at hplus hminus
    rcases isSign_iff.mp hd with rfl | rfl
    · exact hplus rfl
    · exact hminus rfl
  have hinf := hname "inf" (by decide) (by decide)
  have hinfinity := hname "infinity" (by decide) (by decide)
  have hnan := hname "nan" (by decide) (by decide)
  have hdecimal : F64.parseDecimal (d :: rest) = none := by
    rw [F64.parseDecimal, List.takeWhile_cons_of_neg (by rw [hdigit]; exact Bool.false_ne_true),
      List.dropWhile_cons_of_neg (by rw [hdigit]; exact Bool.false_ne_true)]
    rcases isSign_iff.mp hd with rfl | rfl <;> rfl
  simp only [F64.parse, splitSign_of_sign hc, hinf, hinfinity, hnan, or_self, if_false, hdecimal,
    Option.map_none]

theorem parseExponent_of_two_signs {marker c d : Char} (hc : isSign c = true)
    (hd : isSign d = true) (rest : List Char) :
    F64.parseExponent (marker :: c :: d :: rest) = none := by
  have hdigit : d.isDigit = false := by
    rcases isSign_iff.mp hd with rfl | rfl <;> rfl
  rw [F64.parseExponent]
  split
  · simp [splitSign_of_sign hc, hdigit]
  · rfl

end Signs

section Floats

/-- A decimal with digits in every part that is written. -/
structure PlainDecimal (decimal : DecimalText) : Prop where
  whole : Digits 10 decimal.whole
  fraction : ∀ fraction ∈ decimal.fraction, Digits 10 fraction
  exponent : ∀ exponent ∈ decimal.exponent, exponent.WellFormed

variable {decimal : DecimalText}

theorem PlainDecimal.wellFormed (h : PlainDecimal decimal) : decimal.WellFormed where
  whole := h.whole.isDigit
  fraction := by
    intro c hmem
    rw [DecimalText.fractionDigits] at hmem
    cases hparts : decimal.fraction with
    | none => rw [hparts] at hmem; cases hmem
    | some fraction =>
        rw [hparts] at hmem
        exact (h.fraction fraction hparts).isDigit c hmem
  ne_nil := .inl h.whole.ne_nil
  exponent := h.exponent

theorem digitsOnly_iff {text : List Char} : digitsOnly text = true ↔ Digits 10 text := by
  rw [digitsOnly, Bool.and_eq_true, decide_eq_true_iff, List.all_eq_true]
  constructor
  · rintro ⟨hne, hdigits⟩
    exact ⟨hne, fun c hmem => digitValue_of_isDigit (hdigits c hmem)⟩
  · intro h
    exact ⟨h.ne_nil, h.isDigit⟩

theorem splitOnce_of_mark {mark : Char → Bool} {before after : List Char} {c : Char}
    (hbefore : ∀ d ∈ before, mark d = false) (hc : mark c = true) :
    splitOnce mark (before ++ c :: after) = some (before, after) := by
  have hnot : ∀ d ∈ before, (!mark d) = true := fun d hmem => by rw [hbefore d hmem]; rfl
  rw [splitOnce, List.dropWhile_append_of_pos hnot, List.takeWhile_append_of_pos hnot,
    List.dropWhile_cons_of_neg (by rw [hc]; decide),
    List.takeWhile_cons_of_neg (by rw [hc]; decide), List.append_nil]

theorem splitOnce_of_not_mark {mark : Char → Bool} {text : List Char}
    (h : ∀ d ∈ text, mark d = false) : splitOnce mark text = none := by
  have hnot : ∀ d ∈ text, (!mark d) = true := fun d hmem => by rw [h d hmem]; rfl
  rw [splitOnce, List.dropWhile_eq_nil_iff.mpr hnot]

/-- The text is without the mark, or it is cut at the first one. -/
theorem splitOnce_cases (mark : Char → Bool) (text : List Char) :
    (splitOnce mark text = none ∧ ∀ d ∈ text, mark d = false) ∨
      ∃ before c after, splitOnce mark text = some (before, after) ∧
        text = before ++ c :: after ∧ mark c = true ∧ ∀ d ∈ before, mark d = false := by
  have hsplit := @List.takeWhile_append_dropWhile _ (fun d => !mark d) text
  have hbefore : ∀ d ∈ text.takeWhile (fun d => !mark d), mark d = false := fun d hmem => by
    have hnot := List.mem_takeWhile_imp hmem
    rwa [Bool.not_eq_true'] at hnot
  cases hafter : text.dropWhile (fun d => !mark d) with
  | nil =>
      rw [hafter, List.append_nil] at hsplit
      rw [hsplit] at hbefore
      exact .inl ⟨splitOnce_of_not_mark hbefore, hbefore⟩
  | cons c after =>
      have hc : mark c = true := by
        have hhead := List.head?_dropWhile_not (fun d => !mark d) text
        rw [hafter] at hhead
        simpa using hhead
      rw [hafter] at hsplit
      refine .inr ⟨_, c, after, ?_, hsplit.symm, hc, hbefore⟩
      rw [splitOnce, hafter]

theorem isExponentMark_iff {c : Char} : isExponentMark c = true ↔ c = 'e' ∨ c = 'E' := by
  simp [isExponentMark]

theorem not_mark_of_isDigit {c : Char} (h : c.isDigit = true) :
    isExponentMark c = false ∧ decide (c = '.') = false := by
  constructor
  · rw [← Bool.not_eq_true, isExponentMark_iff]
    rintro (rfl | rfl) <;> cases h
  · refine decide_eq_false ?_
    rintro rfl
    cases h

/-- The mantissa of a decimal as it is written. -/
def mantissaText (decimal : DecimalText) : List Char := decimal.whole ++ decimal.fractionText

theorem PlainDecimal.not_mark (h : PlainDecimal decimal) :
    ∀ c ∈ mantissaText decimal, isExponentMark c = false := by
  intro c hmem
  rcases List.mem_append.mp hmem with hmem | hmem
  · exact (not_mark_of_isDigit (h.whole.isDigit c hmem)).1
  · rw [DecimalText.fractionText] at hmem
    cases hparts : decimal.fraction with
    | none => rw [hparts] at hmem; cases hmem
    | some fraction =>
        rw [hparts] at hmem
        rcases List.mem_cons.mp hmem with rfl | hmem
        · rfl
        · exact (not_mark_of_isDigit ((h.fraction fraction hparts).isDigit c hmem)).1

theorem mantissaDigits_iff {mantissa : List Char} : mantissaDigits mantissa = true ↔
    ∃ whole fraction, mantissa = whole ++ (Option.elim fraction [] ('.' :: ·)) ∧
      Digits 10 whole ∧ ∀ digits ∈ fraction, Digits 10 digits := by
  constructor
  · intro h
    rw [mantissaDigits] at h
    rcases splitOnce_cases (fun c => decide (c = '.')) mantissa with
      ⟨hsplit, -⟩ | ⟨whole, c, fraction, hsplit, rfl, hc, -⟩
    · rw [hsplit] at h
      exact ⟨mantissa, none, (List.append_nil _).symm, digitsOnly_iff.mp h,
        fun _ hmem => by cases hmem⟩
    · rw [hsplit, Bool.and_eq_true] at h
      obtain rfl := of_decide_eq_true hc
      refine ⟨whole, some fraction, rfl, digitsOnly_iff.mp h.1, fun digits hmem => ?_⟩
      obtain rfl := Option.some.inj hmem
      exact digitsOnly_iff.mp h.2
  · rintro ⟨whole, fraction, rfl, hwhole, hfraction⟩
    have hnot : ∀ c ∈ whole, decide (c = '.') = false := fun c hmem =>
      (not_mark_of_isDigit (hwhole.isDigit c hmem)).2
    rw [mantissaDigits]
    cases fraction with
    | none =>
        rw [Option.elim_none, List.append_nil, splitOnce_of_not_mark hnot]
        exact digitsOnly_iff.mpr hwhole
    | some fraction =>
        rw [Option.elim_some, splitOnce_of_mark hnot (decide_eq_true rfl), Bool.and_eq_true]
        exact ⟨digitsOnly_iff.mpr hwhole, digitsOnly_iff.mpr (hfraction fraction rfl)⟩

theorem PlainDecimal.exponentText_cases (h : PlainDecimal decimal) :
    (decimal.exponent = none ∧ decimal.exponentText = []) ∨
      ∃ exponent, decimal.exponent = some exponent ∧ exponent.WellFormed ∧
        decimal.exponentText = exponent.text := by
  cases hexponent : decimal.exponent with
  | none => exact .inl ⟨rfl, by rw [DecimalText.exponentText, hexponent]; rfl⟩
  | some exponent =>
      exact .inr ⟨exponent, rfl, h.exponent exponent hexponent,
        by rw [DecimalText.exponentText, hexponent]; rfl⟩

theorem PlainDecimal.unsigned_eq :
    decimal.unsigned = mantissaText decimal ++ decimal.exponentText :=
  (List.append_assoc _ _ _).symm

/-- Behind the digits before the point comes no further digit. -/
theorem PlainDecimal.rest_head (h : PlainDecimal decimal) :
    ∀ c ∈ (decimal.fractionText ++ decimal.exponentText).head?, c.isDigit = false := by
  intro c hc
  rw [DecimalText.fractionText] at hc
  cases hparts : decimal.fraction with
  | some fraction =>
      rw [hparts] at hc
      obtain rfl := Option.some.inj hc
      rfl
  | none =>
      rw [hparts, Option.elim_none, List.nil_append] at hc
      rcases h.wellFormed.exponentText_head c hc with rfl | rfl <;> rfl

theorem PlainDecimal.unsigned_head (h : PlainDecimal decimal) :
    ∃ c rest, decimal.unsigned = c :: rest ∧ c.isDigit = true := by
  rw [DecimalText.unsigned]
  cases hwhole : decimal.whole with
  | nil => exact absurd hwhole h.whole.ne_nil
  | cons c whole => exact ⟨c, _, rfl, h.whole.isDigit c (hwhole ▸ List.mem_cons_self)⟩

theorem PlainDecimal.trimSigns_text (h : PlainDecimal decimal) :
    trimSigns decimal.text = decimal.unsigned := by
  refine trimSigns_append (isSign_text decimal.sign) fun c hc => ?_
  obtain ⟨d, rest, hunsigned, hd⟩ := h.unsigned_head
  rw [hunsigned] at hc
  obtain rfl := Option.some.inj hc
  exact not_isSign_of_isDigit hd

theorem invalidLeadingZero_of_cons {value rest : List Char} {c : Char}
    (h : trimSigns value = c :: rest) :
    invalidLeadingZero value = (decide (c = '0') && rest.head?.any Char.isDigit) := by
  rw [invalidLeadingZero, h]
  cases rest with
  | nil => split <;> simp_all
  | cons d rest => split <;> simp_all

theorem PlainDecimal.invalidLeadingZero_iff (h : PlainDecimal decimal) :
    invalidLeadingZero decimal.text = false ↔ NoLeadingZero decimal.whole := by
  have htrim := h.trimSigns_text
  have hrest := h.rest_head
  rw [DecimalText.unsigned] at htrim
  cases hwhole : decimal.whole with
  | nil => exact absurd hwhole h.whole.ne_nil
  | cons c whole =>
      rw [hwhole, List.cons_append] at htrim
      rw [invalidLeadingZero_of_cons htrim]
      by_cases hc : c = '0'
      · subst hc
        rw [decide_eq_true rfl, Bool.true_and]
        cases whole with
        | nil =>
            refine iff_of_true ?_ fun rest hrest => (List.cons.inj hrest).2.symm
            rw [List.nil_append]
            cases hhead : (decimal.fractionText ++ decimal.exponentText).head? with
            | none => rfl
            | some e => rw [Option.any_some, hrest e hhead]
        | cons d whole =>
            have hd : d.isDigit = true := h.whole.isDigit d (by rw [hwhole]; simp)
            rw [List.cons_append, List.head?_cons, Option.any_some, hd]
            exact iff_of_false (by decide) fun hzero => absurd (hzero _ rfl) (List.cons_ne_nil _ _)
      · rw [decide_eq_false hc, Bool.false_and]
        exact iff_of_true rfl fun rest hrest => absurd (List.cons.inj hrest).1 hc

theorem countP_mark {digits : List Char} (h : ∀ c ∈ digits, isExponentMark c = false) :
    digits.countP isExponentMark = 0 :=
  List.countP_eq_zero.mpr fun c hmem => by rw [h c hmem]; exact Bool.false_ne_true

theorem not_mark_exponent {exponent : ExponentText} (h : exponent.WellFormed) :
    ∀ c ∈ exponent.sign.text ++ exponent.digits, isExponentMark c = false := by
  intro c hmem
  rcases List.mem_append.mp hmem with hmem | hmem
  · rcases isSign_iff.mp (isSign_text _ c hmem) with rfl | rfl <;> rfl
  · exact (not_mark_of_isDigit (h.digits c hmem)).1

theorem trimSigns_exponent {exponent : ExponentText} (h : exponent.WellFormed) :
    trimSigns (exponent.sign.text ++ exponent.digits) = exponent.digits :=
  trimSigns_append (isSign_text exponent.sign) fun c hc =>
    not_isSign_of_isDigit (h.digits c (List.mem_of_mem_head? hc))

/-- A decimal passes the checks. -/
theorem PlainDecimal.validateFloatSyntax (h : PlainDecimal decimal) :
    validateFloatSyntax decimal.text = .ok () := by
  have hmantissa : mantissaDigits (mantissaText decimal) = true :=
    mantissaDigits_iff.mpr ⟨decimal.whole, decimal.fraction, rfl, h.whole, h.fraction⟩
  have hcount : (mantissaText decimal).countP isExponentMark = 0 := countP_mark h.not_mark
  rw [Toml.validateFloatSyntax, h.trimSigns_text, PlainDecimal.unsigned_eq, splitExponent]
  rcases h.exponentText_cases with ⟨-, htext⟩ | ⟨exponent, -, hwell, htext⟩
  · rw [htext, List.append_nil, splitOnce_of_not_mark h.not_mark]
    simp [hmantissa, hcount]
  · have hmark := isExponentMark_iff.mpr hwell.marker
    have hdigits : digitsOnly exponent.digits = true := digitsOnly_iff.mpr
      ⟨hwell.ne_nil, fun c hmem => digitValue_of_isDigit (hwell.digits c hmem)⟩
    have hone : (mantissaText decimal ++ exponent.marker ::
        (exponent.sign.text ++ exponent.digits)).countP isExponentMark = 1 := by
      rw [List.countP_append, hcount, List.countP_cons_of_pos hmark,
        countP_mark (not_mark_exponent hwell)]
    rw [htext, ExponentText.text, splitOnce_of_mark h.not_mark hmark]
    simp only [hone, hmantissa, Option.any_some, trimSigns_exponent hwell, hdigits]
    rfl

/-- A decimal without a leading zero is read as the number it denotes. -/
theorem PlainDecimal.parseFloat_text (h : PlainDecimal decimal)
    (hzero : NoLeadingZero decimal.whole) :
    parseFloat decimal.text = .ok (.float decimal.value) := by
  rw [parseFloat, h.invalidLeadingZero_iff.mpr hzero, h.validateFloatSyntax,
    DecimalText.parse_text h.wellFormed]
  rfl

/-- Nothing else is read as a float. -/
theorem parseFloat_ok {normalized : List Char} {value : Value}
    (h : parseFloat normalized = .ok value) :
    ∃ decimal, PlainDecimal decimal ∧ NoLeadingZero decimal.whole ∧ normalized = decimal.text ∧
      value = .float decimal.value := by
  rw [parseFloat] at h
  cases hzero : invalidLeadingZero normalized with
  | true => rw [hzero] at h; cases h
  | false =>
  rw [hzero, if_neg Bool.false_ne_true] at h
  cases hvalid : Toml.validateFloatSyntax normalized with
  | error message => rw [hvalid] at h; cases h
  | ok _ =>
  rw [hvalid] at h
  cases hparse : F64.parse normalized with
  | none => rw [hparse] at h; cases h
  | some float =>
  rw [hparse] at h
  obtain ⟨signs, hsigns, hall⟩ := exists_signs normalized
  -- the mantissa and what the exponent has behind its marker
  have hparts : ∃ mantissa rest, trimSigns normalized = mantissa ++ rest ∧
      mantissaDigits mantissa = true ∧ (rest = [] ∨ ∃ marker exponent,
        rest = marker :: exponent ∧ (marker = 'e' ∨ marker = 'E') ∧
          Digits 10 (trimSigns exponent)) := by
    rw [Toml.validateFloatSyntax, splitExponent] at hvalid
    rcases splitOnce_cases isExponentMark (trimSigns normalized) with
      ⟨hsplit, -⟩ | ⟨mantissa, marker, exponent, hsplit, htext, hmark, -⟩
    · rw [hsplit] at hvalid
      simp only at hvalid
      split at hvalid
      · cases hvalid
      · split at hvalid
        · cases hvalid
        · next hmantissa =>
            refine ⟨trimSigns normalized, [], (List.append_nil _).symm, ?_, .inl rfl⟩
            simpa using hmantissa
    · rw [hsplit] at hvalid
      simp only at hvalid
      split at hvalid
      · cases hvalid
      · split at hvalid
        · cases hvalid
        · next hmantissa =>
            split at hvalid
            · cases hvalid
            · next hexponent =>
                refine ⟨mantissa, marker :: exponent, htext, by simpa using hmantissa,
                  .inr ⟨marker, exponent, rfl, isExponentMark_iff.mp hmark, ?_⟩⟩
                exact digitsOnly_iff.mp (by simpa using hexponent)
  obtain ⟨mantissa, rest, hunsigned, hmantissa, hrest⟩ := hparts
  obtain ⟨whole, fraction, rfl, hwhole, hfraction⟩ := mantissaDigits_iff.mp hmantissa
  rw [hunsigned, List.append_assoc] at hsigns
  obtain ⟨c, more, hc, hdigit⟩ : ∃ c more,
      whole ++ (fraction.elim [] ('.' :: ·) ++ rest) = c :: more ∧ c.isDigit = true := by
    cases whole with
    | nil => exact absurd rfl hwhole.ne_nil
    | cons c whole => exact ⟨c, _, rfl, hwhole.isDigit c List.mem_cons_self⟩
  -- two signs at the front, or two in the exponent, are refused in the end
  obtain ⟨sign, rfl⟩ : ∃ sign : Sign, signs = sign.text := by
    rcases signs_cases hall with hsign | ⟨c, d, signs, rfl, hc, hd⟩
    · exact hsign
    · rw [hsigns, List.cons_append, List.cons_append, parse_of_two_signs hc hd] at hparse
      cases hparse
  have hexponent : ∃ exponent : Option ExponentText, rest = exponent.elim [] (·.text) ∧
      ∀ part ∈ exponent, part.WellFormed := by
    rcases hrest with rfl | ⟨marker, exponent, rfl, hmarker, hdigits⟩
    · exact ⟨none, rfl, fun _ hmem => by cases hmem⟩
    · obtain ⟨signs, hsplit, hall'⟩ := exists_signs exponent
      rcases signs_cases hall' with ⟨sign', rfl⟩ | ⟨d, e, signs, rfl, hd, he⟩
      · refine ⟨some ⟨marker, sign', trimSigns exponent⟩, congrArg _ hsplit, fun part hmem => ?_⟩
        obtain rfl := Option.some.inj hmem
        exact ⟨hmarker, hdigits.ne_nil, hdigits.isDigit⟩
      · exfalso
        have hdigitsFraction : ∀ c ∈ fraction.getD [], c.isDigit = true := by
          cases fraction with
          | none => exact fun c hmem => absurd hmem List.not_mem_nil
          | some fraction => exact (hfraction fraction rfl).isDigit
        have hmark : ∀ c ∈ (marker :: exponent).head?, c.isDigit = false ∧ c ≠ '.' := by
          intro c hc
          obtain rfl := Option.some.inj hc
          rcases hmarker with rfl | rfl <;> decide
        have hdecimal := DecimalText.parseDecimal_parts hwhole.isDigit hdigitsFraction
          (.inl hwhole.ne_nil) hmark
        rw [hsplit, List.cons_append, List.cons_append, parseExponent_of_two_signs hd he,
          Option.map_none, ← List.cons_append, ← List.cons_append, ← hsplit, hc] at hdecimal
        rw [hsigns, hc, F64.parse_unsigned sign (.inl hdigit), hdecimal] at hparse
        cases hparse
  obtain ⟨exponent, rfl, hexponent⟩ := hexponent
  have hplain : PlainDecimal ⟨sign, whole, fraction, exponent⟩ := ⟨hwhole, hfraction, hexponent⟩
  have htext : normalized = DecimalText.text ⟨sign, whole, fraction, exponent⟩ := hsigns
  refine ⟨_, hplain, hplain.invalidLeadingZero_iff.mp (htext ▸ hzero), htext, ?_⟩
  rw [htext, DecimalText.parse_text hplain.wellFormed] at hparse
  obtain rfl := Option.some.inj hparse
  cases h
  rfl

end Floats

section Integers

/-- The texts without underscores that are read as an integer, with their values. -/
inductive ReadInt : List Char → Int → Prop
  | decimal (sign : Sign) {digits : List Char} (h : Digits 10 digits)
      (hzero : NoLeadingZero digits) :
      ReadInt (sign.text ++ digits) (sign.apply (numeral 10 digits))
  | doubled {signs : List Char} {negative : Bool} (hsigns : (signs, negative) ∈ doubledSigns)
      {digits : List Char} (h : Digits 10 digits)
      (hzero : signs = ['-', '+'] → NoLeadingZero digits) :
      ReadInt (signs ++ digits)
        (if negative then -(numeral 10 digits : Int) else numeral 10 digits)
  | radix {mark : Char} {radix : Nat} (hmark : (mark, radix) ∈ radixMarks) (sign : Sign)
      {digits : List Char} (h : Digits radix digits) :
      ReadInt ('0' :: mark :: (sign.text ++ digits)) (sign.apply (numeral radix digits))

theorem stripStart_cases (c : Char) (text : List Char) :
    (∃ rest, text = c :: rest ∧ stripStart [c] text = some rest) ∨
      (text.head? ≠ some c ∧ stripStart [c] text = none) := by
  cases text with
  | nil => exact .inr ⟨(fun h => by cases h), rfl⟩
  | cons d rest =>
      by_cases hc : c = d
      · subst hc
        exact .inl ⟨rest, rfl, by simp [stripStart, startsWith]⟩
      · refine .inr ⟨fun h => hc (Option.some.inj h).symm, ?_⟩
        simp [stripStart, startsWith, hc]

theorem startsWith_iff {front text : List Char} :
    startsWith front text = true ↔ ∃ rest, text = front ++ rest := by
  rw [startsWith, List.isPrefixOf_iff_prefix]
  exact ⟨fun ⟨rest, h⟩ => ⟨rest, h.symm⟩, fun ⟨rest, h⟩ => ⟨rest, h.symm⟩⟩

theorem radixPrefixed_iff {text : List Char} : radixPrefixed text = true ↔
    ∃ mark radix rest, (mark, radix) ∈ radixMarks ∧ text = '0' :: mark :: rest := by
  rw [radixPrefixed, Bool.or_eq_true, Bool.or_eq_true, startsWith_iff, startsWith_iff,
    startsWith_iff]
  constructor
  · rintro ((⟨rest, rfl⟩ | ⟨rest, rfl⟩) | ⟨rest, rfl⟩)
    · exact ⟨'x', 16, rest, by simp [radixMarks], rfl⟩
    · exact ⟨'o', 8, rest, by simp [radixMarks], rfl⟩
    · exact ⟨'b', 2, rest, by simp [radixMarks], rfl⟩
  · rintro ⟨mark, radix, rest, hmark, rfl⟩
    simp only [radixMarks, List.mem_cons, Prod.mk.injEq, List.not_mem_nil, or_false] at hmark
    rcases hmark with ⟨rfl, rfl⟩ | ⟨rfl, rfl⟩ | ⟨rfl, rfl⟩
    · exact .inl (.inl ⟨rest, rfl⟩)
    · exact .inl (.inr ⟨rest, rfl⟩)
    · exact .inr ⟨rest, rfl⟩

/-- An unsigned integer has a radix mark, or it is decimal. -/
theorem splitRadix_of_mark {mark : Char} {radix : Nat} (h : (mark, radix) ∈ radixMarks)
    (rest : List Char) : splitRadix ('0' :: mark :: rest) = .ok (radix, rest) := by
  simp only [radixMarks, List.mem_cons, Prod.mk.injEq, List.not_mem_nil, or_false] at h
  rcases h with ⟨rfl, rfl⟩ | ⟨rfl, rfl⟩ | ⟨rfl, rfl⟩ <;> rfl

theorem splitRadix_of_not_prefixed {text : List Char} (h : radixPrefixed text = false) :
    splitRadix text = if 1 < text.length ∧ startsWith ['0'] text then
      .error "invalid leading zero in TOML integer" else .ok (10, text) := by
  rw [radixPrefixed, Bool.or_eq_false_iff, Bool.or_eq_false_iff] at h
  obtain ⟨⟨hhex, hoctal⟩, hbinary⟩ := h
  have hnone : ∀ {front : List Char}, startsWith front text = false →
      stripStart front text = none := fun hfront => by
    rw [stripStart, hfront, if_neg Bool.false_ne_true]
  rw [splitRadix, hnone hhex, hnone hoctal, hnone hbinary]

theorem mark_radix {mark : Char} {radix : Nat} (h : (mark, radix) ∈ radixMarks) :
    radix ≤ 16 ∧ 10 ≤ digitValue mark ∧ radix ≤ digitValue mark ∧ isSign mark = false ∧
      mark ≠ '_' := by
  simp only [radixMarks, List.mem_cons, Prod.mk.injEq, List.not_mem_nil, or_false] at h
  rcases h with ⟨rfl, rfl⟩ | ⟨rfl, rfl⟩ | ⟨rfl, rfl⟩ <;> decide

/-- Digits have no radix mark. -/
theorem not_prefixed_of_digits {digits : List Char} (h : Digits 10 digits) :
    radixPrefixed digits = false := by
  rw [← Bool.not_eq_true, radixPrefixed_iff]
  rintro ⟨mark, radix, rest, hmark, rfl⟩
  exact h.not_mem (mark_radix hmark).2.1 (List.mem_cons_of_mem _ List.mem_cons_self)

/-- What is read behind the radix: a sign and digits whose number fits into 64 bits. -/
theorem boundedInt_ok_iff {radix : Nat} (hradix : radix ≤ 16) {negative : Bool}
    {text : List Char} {value : Value} : boundedInt negative radix text = .ok value ↔
      ∃ (sign : Sign) (digits : List Char) (signed : Int), text = sign.text ++ digits ∧
        Digits radix digits ∧
        signed = (if negative then -(sign.apply (numeral radix digits))
          else sign.apply (numeral radix digits)) ∧
        -2 ^ 63 ≤ signed ∧ signed < 2 ^ 63 ∧ value = .int signed := by
  constructor
  · intro h
    rw [boundedInt] at h
    split at h
    · cases h
    cases hread : fromStrRadix radix text with
    | none => rw [hread] at h; cases h
    | some magnitude =>
        rw [hread] at h
        obtain ⟨sign, digits, htext, hdigits, rfl, -⟩ :=
          (fromStrRadix_eq_some_iff hradix).mp hread
        simp only at h
        generalize hsigned : (if negative = true then -(sign.apply (numeral radix digits))
          else sign.apply (numeral radix digits)) = signed at h
        by_cases hrange : -2 ^ 63 ≤ signed ∧ signed < 2 ^ 63
        · rw [if_pos hrange] at h
          cases h
          exact ⟨sign, digits, signed, htext, hdigits, hsigned.symm, hrange.1, hrange.2, rfl⟩
        · rw [if_neg hrange] at h
          cases h
  · rintro ⟨sign, digits, signed, rfl, hdigits, hsigned, hlow, hhigh, rfl⟩
    have hread : fromStrRadix radix (sign.text ++ digits) =
        some (sign.apply (numeral radix digits)) := by
      refine (fromStrRadix_eq_some_iff hradix).mpr ⟨sign, digits, rfl, hdigits, rfl, ?_⟩
      cases negative <;> simp only [Bool.false_eq_true, if_true, if_false] at hsigned <;> omega
    have hne : sign.text ++ digits ≠ [] := fun hnil =>
      hdigits.ne_nil (List.append_eq_nil_iff.mp hnil).2
    rw [boundedInt, if_neg hne, hread]
    simp only [← hsigned]
    exact if_pos ⟨hlow, hhigh⟩

theorem leadingZero_iff {digits : List Char} :
    ¬(1 < digits.length ∧ startsWith ['0'] digits = true) ↔ NoLeadingZero digits := by
  constructor
  · rintro h rest rfl
    by_contra hne
    refine h ⟨?_, startsWith_iff.mpr ⟨rest, rfl⟩⟩
    rw [List.length_cons]
    have := List.length_pos_of_ne_nil hne
    omega
  · rintro h ⟨hlength, hzero⟩
    obtain ⟨rest, rfl⟩ := startsWith_iff.mp hzero
    have : rest = [] := h rest rfl
    subst this
    exact absurd hlength (by decide)

/-- A minus and a plus in front of an unsigned integer. -/
def signRun (minus plus : Bool) : List Char :=
  (if minus then ['-'] else []) ++ (if plus then ['+'] else [])

theorem isSign_signRun (minus plus : Bool) : ∀ c ∈ signRun minus plus, isSign c = true := by
  cases minus <;> cases plus <;> simp [signRun, isSign]

/-- The signs that are not taken off are not there. -/
structure Unsigned (minus plus : Bool) (unsigned : List Char) : Prop where
  minus : minus = false → plus = false → unsigned.head? ≠ some '-'
  plus : plus = false → unsigned.head? ≠ some '+'

theorem stripStart_of_head_ne {c : Char} {text : List Char} (h : text.head? ≠ some c) :
    stripStart [c] text = none := by
  rcases stripStart_cases c text with ⟨rest, rfl, -⟩ | ⟨-, hstrip⟩
  · exact absurd rfl h
  · exact hstrip

theorem exists_signRun (normalized : List Char) :
    ∃ minus plus unsigned, normalized = signRun minus plus ++ unsigned ∧
      Unsigned minus plus unsigned := by
  have hplus : ∀ text : List Char, ∃ plus unsigned,
      text = (if plus then ['+'] else []) ++ unsigned ∧
        (plus = false → unsigned.head? ≠ some '+') := by
    intro text
    rcases stripStart_cases '+' text with ⟨rest, rfl, -⟩ | ⟨hhead, -⟩
    · exact ⟨true, rest, rfl, fun h => absurd h (by decide)⟩
    · exact ⟨false, text, rfl, fun _ => hhead⟩
  rcases stripStart_cases '-' normalized with ⟨rest, rfl, -⟩ | ⟨hhead, -⟩
  · obtain ⟨plus, unsigned, htext, hhead⟩ := hplus rest
    refine ⟨true, plus, unsigned, ?_, fun h => absurd h (by decide), hhead⟩
    rw [signRun, List.append_assoc, ← htext]
    rfl
  · obtain ⟨plus, unsigned, htext, hhead'⟩ := hplus normalized
    refine ⟨false, plus, unsigned, htext, fun _ hplus => ?_, hhead'⟩
    rw [hplus] at htext
    rwa [← show normalized = unsigned from htext]

/-- The signs are taken off, then the radix mark. -/
theorem parseInteger_signRun {minus plus : Bool} {unsigned : List Char}
    (h : Unsigned minus plus unsigned) :
    parseInteger (signRun minus plus ++ unsigned) = match splitRadix unsigned with
      | .error message => .error message
      | .ok (radix, digits) => boundedInt minus radix digits := by
  have hminus : splitMinus (signRun minus plus ++ unsigned) =
      (minus, signRun false plus ++ unsigned) := by
    cases minus with
    | true => rfl
    | false =>
        have hnone : stripStart ['-'] (signRun false plus ++ unsigned) = none := by
          cases plus with
          | true => rfl
          | false => exact stripStart_of_head_ne (h.minus rfl rfl)
        simp only [splitMinus, hnone]
  have hplus : (stripStart ['+'] (signRun false plus ++ unsigned)).getD
      (signRun false plus ++ unsigned) = unsigned := by
    cases plus with
    | true => rfl
    | false =>
        have hnone : stripStart ['+'] (signRun false false ++ unsigned) = none :=
          stripStart_of_head_ne (h.plus rfl)
        simp only [hnone, Option.getD_none]
        rfl
  rw [parseInteger, hminus]
  exact congrArg (fun digits => (match splitRadix digits with
    | .error message => .error message
    | .ok (radix, digits) => boundedInt minus radix digits : Except String Value)) hplus

theorem head_digit {digits : List Char} (h : Digits 10 digits) :
    digits.head? ≠ some '-' ∧ digits.head? ≠ some '+' := by
  have hhead := h.head (by decide)
  exact ⟨fun hc => (hhead '-' hc).1 rfl, fun hc => (hhead '+' hc).2 rfl⟩

/-- Whatever is read as an integer is one of the forms. -/
theorem parseInteger_ok {normalized : List Char} {value : Value}
    (hsigned : radixPrefixed (trimSigns normalized) = true →
      normalized.head?.any isSign = false)
    (h : parseInteger normalized = .ok value) :
    ∃ signed, value = .int signed ∧ (-2 ^ 63 ≤ signed ∧ signed < 2 ^ 63) ∧
      ReadInt normalized signed := by
  obtain ⟨minus, plus, unsigned, rfl, hunsigned⟩ := exists_signRun normalized
  rw [parseInteger_signRun hunsigned] at h
  cases hprefixed : radixPrefixed unsigned with
  | true =>
      obtain ⟨mark, radix, rest, hmark, rfl⟩ := radixPrefixed_iff.mp hprefixed
      have htrim : trimSigns (signRun minus plus ++ '0' :: mark :: rest) = '0' :: mark :: rest :=
        trimSigns_append (isSign_signRun minus plus) fun c hc => by
          obtain rfl := Option.some.inj hc
          rfl
      rw [htrim] at hsigned
      have hnone := hsigned hprefixed
      obtain ⟨rfl, rfl⟩ : minus = false ∧ plus = false := by
        cases minus <;> cases plus <;> first | exact ⟨rfl, rfl⟩ | cases hnone
      rw [splitRadix_of_mark hmark] at h
      obtain ⟨sign, digits, signed, rfl, hdigits, hvalue, hlow, hhigh, rfl⟩ :=
        (boundedInt_ok_iff (mark_radix hmark).1).mp h
      refine ⟨signed, rfl, ⟨hlow, hhigh⟩, ?_⟩
      rw [hvalue]
      exact .radix hmark sign hdigits
  | false =>
      rw [splitRadix_of_not_prefixed hprefixed] at h
      by_cases hzero : 1 < unsigned.length ∧ startsWith ['0'] unsigned = true
      · rw [if_pos hzero] at h
        cases h
      rw [if_neg hzero] at h
      have hzero := leadingZero_iff.mp hzero
      obtain ⟨sign, digits, signed, rfl, hdigits, hvalue, hlow, hhigh, rfl⟩ :=
        (boundedInt_ok_iff (by decide)).mp h
      refine ⟨signed, rfl, ⟨hlow, hhigh⟩, ?_⟩
      rw [hvalue]
      cases minus <;> cases plus <;> rcases sign with _ | _ | _
      · exact .decimal none hdigits hzero
      · exact absurd rfl (hunsigned.plus rfl)
      · exact absurd rfl (hunsigned.minus rfl rfl)
      · exact .decimal (some false) hdigits hzero
      · exact @ReadInt.doubled ['+', '+'] false (by decide) digits hdigits
          fun h => absurd h (by decide)
      · exact @ReadInt.doubled ['+', '-'] true (by decide) digits hdigits
          fun h => absurd h (by decide)
      · exact .decimal (some true) hdigits hzero
      · exact absurd rfl (hunsigned.plus rfl)
      · have hdouble : -(Sign.apply (some true) (numeral 10 digits)) = numeral 10 digits :=
          neg_neg _
        rw [if_pos rfl, hdouble]
        exact @ReadInt.doubled ['-', '-'] false (by decide) digits hdigits
          fun h => absurd h (by decide)
      · exact @ReadInt.doubled ['-', '+'] true (by decide) digits hdigits fun _ => hzero
      · exact @ReadInt.doubled ['-', '+', '+'] true (by decide) digits hdigits
          fun h => absurd h (by decide)
      · have hdouble : -(Sign.apply (some true) (numeral 10 digits)) = numeral 10 digits :=
          neg_neg _
        rw [if_pos rfl, hdouble]
        exact @ReadInt.doubled ['-', '+', '-'] false (by decide) digits hdigits
          fun h => absurd h (by decide)

/-- A decimal integer behind the signs that are taken off. -/
theorem parseInteger_decimal {minus plus : Bool} {sign : Sign} {digits : List Char} {signed : Int}
    (hunsigned : Unsigned minus plus (sign.text ++ digits)) (h : Digits 10 digits)
    (hzero : sign = none → NoLeadingZero digits)
    (hvalue : signed = if minus then -(sign.apply (numeral 10 digits))
      else sign.apply (numeral 10 digits))
    (hrange : -2 ^ 63 ≤ signed ∧ signed < 2 ^ 63) :
    parseInteger (signRun minus plus ++ (sign.text ++ digits)) = .ok (.int signed) := by
  have hprefixed : radixPrefixed (sign.text ++ digits) = false := by
    rcases sign with _ | _ | _
    · exact not_prefixed_of_digits h
    · rfl
    · rfl
  have hlead : ¬(1 < (sign.text ++ digits).length ∧
      startsWith ['0'] (sign.text ++ digits) = true) := by
    rcases sign with _ | _ | _
    · exact leadingZero_iff.mpr (hzero rfl)
    · exact fun hlead => absurd hlead.2 (by simp [Sign.text, startsWith])
    · exact fun hlead => absurd hlead.2 (by simp [Sign.text, startsWith])
  rw [parseInteger_signRun hunsigned, splitRadix_of_not_prefixed hprefixed, if_neg hlead]
  exact (boundedInt_ok_iff (by decide)).mpr
    ⟨sign, digits, signed, rfl, h, hvalue, hrange.1, hrange.2, rfl⟩

/-- Every form is read, when its value fits into 64 bits. -/
theorem parseInteger_readInt {text : List Char} {signed : Int} (h : ReadInt text signed)
    (hrange : -2 ^ 63 ≤ signed ∧ signed < 2 ^ 63) : parseInteger text = .ok (.int signed) := by
  cases h with
  | decimal sign h hzero =>
      obtain ⟨hminus, hplus⟩ := head_digit h
      rcases sign with _ | _ | _
      · exact @parseInteger_decimal false false none _ _ ⟨fun _ _ => hminus, fun _ => hplus⟩ h
          (fun _ => hzero) rfl hrange
      · exact @parseInteger_decimal false true none _ _ ⟨fun _ _ => hminus, fun _ => hplus⟩ h
          (fun _ => hzero) rfl hrange
      · exact @parseInteger_decimal true false none _ _ ⟨fun _ _ => hminus, fun _ => hplus⟩ h
          (fun _ => hzero) rfl hrange
  | @doubled signs negative hsigns digits h hzero =>
      obtain ⟨hminus, hplus⟩ := head_digit h
      have hneg : (numeral 10 digits : Int) = -(Sign.apply (some true) (numeral 10 digits)) :=
        (neg_neg _).symm
      simp only [doubledSigns, List.mem_cons, Prod.mk.injEq, List.not_mem_nil, or_false] at hsigns
      rcases hsigns with ⟨rfl, rfl⟩ | ⟨rfl, rfl⟩ | ⟨rfl, rfl⟩ | ⟨rfl, rfl⟩ | ⟨rfl, rfl⟩ | ⟨rfl, rfl⟩
      · exact @parseInteger_decimal true true none _ _ ⟨fun _ _ => hminus, fun _ => hplus⟩ h
          (fun _ => hzero rfl) rfl hrange
      · exact @parseInteger_decimal true false (some true) _ _
          ⟨fun h => absurd h (by decide), fun _ h => absurd (Option.some.inj h) (by decide)⟩ h
          (fun h => absurd h (by decide)) hneg hrange
      · exact @parseInteger_decimal false true (some false) _ _
          ⟨fun _ h => absurd h (by decide), fun h => absurd h (by decide)⟩ h
          (fun h => absurd h (by decide)) rfl hrange
      · exact @parseInteger_decimal false true (some true) _ _
          ⟨fun _ h => absurd h (by decide), fun h => absurd h (by decide)⟩ h
          (fun h => absurd h (by decide)) rfl hrange
      · exact @parseInteger_decimal true true (some true) _ _
          ⟨fun h => absurd h (by decide), fun h => absurd h (by decide)⟩ h
          (fun h => absurd h (by decide)) hneg hrange
      · exact @parseInteger_decimal true true (some false) _ _
          ⟨fun h => absurd h (by decide), fun h => absurd h (by decide)⟩ h
          (fun h => absurd h (by decide)) rfl hrange
  | @radix mark radix hmark sign digits h =>
      have hunsigned : Unsigned false false ('0' :: mark :: (sign.text ++ digits)) :=
        ⟨fun _ _ h => absurd (Option.some.inj h) (by decide),
          fun _ h => absurd (Option.some.inj h) (by decide)⟩
      have hread := parseInteger_signRun hunsigned
      rw [splitRadix_of_mark hmark] at hread
      refine hread.trans ((boundedInt_ok_iff (mark_radix hmark).1).mpr
        ⟨sign, digits, _, rfl, h, rfl, hrange.1, hrange.2, rfl⟩)

end Integers

end Telora.Toml
