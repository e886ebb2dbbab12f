import Telora.Value.FloatText

/-!
# Written decimals

A decimal as it is written: a sign, digits around a point, and an exponent with a sign of
its own. It is read as the float nearest to the number it denotes.
-/

namespace Telora

open Library

/-- A written sign; none, or whether it is a minus. -/
abbrev Sign := Option Bool

namespace Sign

def text : Sign → List Char
  | none => []
  | some true => ['-']
  | some false => ['+']

def negative (sign : Sign) : Bool := sign = some true

def apply (sign : Sign) (magnitude : Nat) : Int :=
  if sign.negative then -magnitude else magnitude

/-- A sign ends where something other than a sign starts. -/
theorem splitSign_text (sign : Sign) {rest : List Char}
    (h : ∀ c ∈ rest.head?, c ≠ '-' ∧ c ≠ '+') :
    splitSign (sign.text ++ rest) = (sign.negative, rest) := by
  rcases sign with _ | _ | _
  · cases rest with
    | nil => rfl
    | cons c rest =>
        obtain ⟨hminus, hplus⟩ := h c rfl
        change splitSign (c :: rest) = (false, c :: rest)
        rw [splitSign, if_neg hminus, if_neg hplus]
  · rfl
  · rfl

end Sign

theorem ne_sign_of_isDigit {c : Char} (h : c.isDigit = true) : c ≠ '-' ∧ c ≠ '+' := by
  constructor <;> (rintro rfl; cases h)

/-- The exponent of a decimal: its marker, its sign and its digits. -/
structure ExponentText where
  marker : Char
  sign : Sign
  digits : List Char

namespace ExponentText

def text (exponent : ExponentText) : List Char :=
  exponent.marker :: (exponent.sign.text ++ exponent.digits)

def value (exponent : ExponentText) : Int :=
  exponent.sign.apply (Nat.ofDigitChars 10 exponent.digits 0)

structure WellFormed (exponent : ExponentText) : Prop where
  marker : exponent.marker = 'e' ∨ exponent.marker = 'E'
  ne_nil : exponent.digits ≠ []
  digits : ∀ c ∈ exponent.digits, c.isDigit = true

theorem parse_text {exponent : ExponentText} (h : exponent.WellFormed) :
    F64.parseExponent exponent.text = some exponent.value := by
  have hhead : ∀ c ∈ exponent.digits.head?, c ≠ '-' ∧ c ≠ '+' := fun c hc =>
    ne_sign_of_isDigit (h.digits c (List.mem_of_mem_head? hc))
  have hall : exponent.digits.all Char.isDigit = true := List.all_eq_true.mpr h.digits
  rw [text, F64.parseExponent, if_pos h.marker, Sign.splitSign_text exponent.sign hhead]
  simp only [h.ne_nil, hall, ne_eq, not_false_eq_true, and_self, if_true]
  rfl

end ExponentText

structure DecimalText where
  sign : Sign
  whole : List Char
  fraction : Option (List Char)
  exponent : Option ExponentText

namespace DecimalText

def fractionDigits (decimal : DecimalText) : List Char := decimal.fraction.getD []

def fractionText (decimal : DecimalText) : List Char := decimal.fraction.elim [] ('.' :: ·)

def exponentText (decimal : DecimalText) : List Char := decimal.exponent.elim [] (·.text)

/-- The decimal without its sign. -/
def unsigned (decimal : DecimalText) : List Char :=
  decimal.whole ++ (decimal.fractionText ++ decimal.exponentText)

def text (decimal : DecimalText) : List Char := decimal.sign.text ++ decimal.unsigned

/-- The float nearest to the number. -/
def value (decimal : DecimalText) : F64 :=
  F64.ofParts decimal.sign.negative (Binary64.ofDecimal F64.unitShift
    (Nat.ofDigitChars 10 (decimal.whole ++ decimal.fractionDigits) 0)
    (decimal.exponent.elim 0 (·.value) - decimal.fractionDigits.length))

structure WellFormed (decimal : DecimalText) : Prop where
  whole : ∀ c ∈ decimal.whole, c.isDigit = true
  fraction : ∀ c ∈ decimal.fractionDigits, c.isDigit = true
  ne_nil : decimal.whole ≠ [] ∨ decimal.fractionDigits ≠ []
  exponent : ∀ exponent ∈ decimal.exponent, exponent.WellFormed

section WellFormed

variable {decimal : DecimalText}

theorem WellFormed.exponentText_head (h : decimal.WellFormed) :
    ∀ c ∈ decimal.exponentText.head?, c = 'e' ∨ c = 'E' := by
  intro c hc
  cases hexponent : decimal.exponent with
  | none => rw [exponentText, hexponent] at hc; cases hc
  | some exponent =>
      rw [exponentText, hexponent] at hc
      obtain rfl := Option.some.inj hc
      exact (h.exponent exponent hexponent).marker

/-- A decimal starts with a digit or with its point. -/
theorem WellFormed.unsigned_head (h : decimal.WellFormed) :
    ∃ c rest, decimal.unsigned = c :: rest ∧ (c.isDigit = true ∨ c = '.') := by
  rw [unsigned]
  cases hwhole : decimal.whole with
  | cons c whole => exact ⟨c, _, rfl, .inl (h.whole c (hwhole ▸ List.mem_cons_self))⟩
  | nil =>
      cases hfraction : decimal.fraction with
      | some fraction =>
          refine ⟨'.', fraction ++ decimal.exponentText, ?_, .inr rfl⟩
          rw [fractionText, hfraction]
          rfl
      | none =>
          refine absurd h.ne_nil (not_or.mpr ⟨not_not.mpr hwhole, not_not.mpr ?_⟩)
          rw [fractionDigits, hfraction]
          rfl

/-- Digits around a point, and what is left is the exponent. -/
theorem parseDecimal_parts {whole rest : List Char} {fraction : Option (List Char)}
    (hwhole : ∀ c ∈ whole, c.isDigit = true)
    (hfraction : ∀ c ∈ fraction.getD [], c.isDigit = true)
    (hne : whole ≠ [] ∨ fraction.getD [] ≠ [])
    (hrest : ∀ c ∈ rest.head?, c.isDigit = false ∧ c ≠ '.') :
    F64.parseDecimal (whole ++ (fraction.elim [] ('.' :: ·) ++ rest)) =
      (F64.parseExponent rest).map fun exponent => Binary64.ofDecimal F64.unitShift
        (Nat.ofDigitChars 10 (whole ++ fraction.getD []) 0)
        (exponent - (fraction.getD []).length) := by
  have hmark : ∀ c ∈ rest.head?, c.isDigit = false := fun c hc => (hrest c hc).1
  rw [F64.parseDecimal]
  cases fraction with
  | none =>
      have hwholeNe : whole ≠ [] := hne.resolve_right fun hne => hne rfl
      obtain ⟨htake, hdrop⟩ := F64.takeWhile_digits hwhole rest hmark
      have hpoint : ∀ rest', rest ≠ '.' :: rest' := fun rest' htext =>
        (hrest '.' (by rw [htext]; rfl)).2 rfl
      simp only [Option.elim_none, List.nil_append, htake, hdrop, Option.getD_none,
        List.append_nil]
      rw [if_neg fun hnil => hwholeNe hnil.1]
  | some fraction =>
      rw [Option.getD_some] at hfraction hne
      obtain ⟨htake, hdrop⟩ := F64.takeWhile_digits hwhole ('.' :: (fraction ++ rest))
        fun c hc => by
          obtain rfl := Option.some.inj hc
          rfl
      obtain ⟨htake', hdrop'⟩ := F64.takeWhile_digits hfraction rest hmark
      have hnone : ¬(whole = [] ∧ fraction = []) := fun hnil =>
        hne.elim (fun hne => hne hnil.1) fun hne => hne hnil.2
      simp only [Option.elim_some, List.cons_append, htake, hdrop, htake', hdrop',
        Option.getD_some, hnone, if_false]

theorem WellFormed.parseDecimal_unsigned (h : decimal.WellFormed) :
    F64.parseDecimal decimal.unsigned = some (Binary64.ofDecimal F64.unitShift
      (Nat.ofDigitChars 10 (decimal.whole ++ decimal.fractionDigits) 0)
      (decimal.exponent.elim 0 (·.value) - decimal.fractionDigits.length)) := by
  have hexponent : F64.parseExponent decimal.exponentText =
      some (decimal.exponent.elim 0 (·.value)) := by
    cases hexponent : decimal.exponent with
    | none => rw [exponentText, hexponent]; rfl
    | some exponent =>
        rw [exponentText, hexponent]
        exact ExponentText.parse_text (h.exponent exponent hexponent)
  have hmark : ∀ c ∈ decimal.exponentText.head?, c.isDigit = false ∧ c ≠ '.' := by
    intro c hc
    rcases h.exponentText_head c hc with rfl | rfl <;> decide
  rw [unsigned, fractionText, parseDecimal_parts h.whole h.fraction h.ne_nil hmark, hexponent]
  rfl

end WellFormed

end DecimalText

namespace F64

/-- A text that starts with a digit or a point, or with a sign and one of them, is a
decimal. -/
theorem parse_unsigned (sign : Sign) {c : Char} (h : c.isDigit = true ∨ c = '.')
    (rest : List Char) :
    parse (sign.text ++ c :: rest) = (parseDecimal (c :: rest)).map (ofParts sign.negative) := by
  have hsign := @Sign.splitSign_text sign (c :: rest) fun d hd => by
    obtain rfl := Option.some.inj hd
    rcases h with hdigit | rfl
    · exact ne_sign_of_isDigit hdigit
    · decide
  rcases h with hdigit | rfl
  · have hplain := parse_of_digit hdigit sign.negative rest
    rw [parse, splitSign_of_digit hdigit] at hplain
    rw [parse, hsign]
    exact hplain
  · have hname : ∀ name : String, name.toList.head? ≠ some '.' →
        String.ofList (('.' :: rest).map Char.toLower) ≠ name := by
      rintro name hhead rfl
      exact hhead (by rw [String.toList_ofList]; rfl)
    have hinf := hname "inf" (by decide)
    have hinfinity := hname "infinity" (by decide)
    have hnan := hname "nan" (by decide)
    simp only [parse, hsign, hinf, hinfinity, hnan, or_self, if_false]

end F64

/-- A written decimal is read as the number it denotes. -/
theorem DecimalText.parse_text {decimal : DecimalText} (h : decimal.WellFormed) :
    F64.parse decimal.text = some decimal.value := by
  have hdecimal := h.parseDecimal_unsigned
  obtain ⟨c, rest, hunsigned, hc⟩ := h.unsigned_head
  rw [hunsigned] at hdecimal
  rw [text, hunsigned, F64.parse_unsigned decimal.sign hc, hdecimal]
  rfl

end Telora
