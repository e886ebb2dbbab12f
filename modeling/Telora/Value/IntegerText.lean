import Telora.Value.DecimalText
import Mathlib.Data.List.Induction

/-!
# Written integers

The integer that the digits of a radix spell, and how the standard library of the source
language reads one, with a sign of its own and in 128 bits.
-/

namespace Telora

/-- The value of a digit, as `to_digit` reads it. -/
def toDigit (radix : Nat) (c : Char) : Option Nat :=
  let value :=
    if c.isDigit then some (c.toNat - '0'.toNat)
    else if 'a' ≤ c ∧ c ≤ 'z' then some (c.toNat - 'a'.toNat + 10)
    else if 'A' ≤ c ∧ c ≤ 'Z' then some (c.toNat - 'A'.toNat + 10)
    else none
  value.filter (· < radix)

/-- The digits of a number in a radix. -/
def readDigits (radix : Nat) : Nat → List Char → Option Nat
  | value, [] => some value
  | value, c :: rest => (toDigit radix c).bind fun digit =>
      readDigits radix (value * radix + digit) rest

/-- An integer of 128 bits, as `from_str_radix` reads it; it has a sign of its own. -/
def fromStrRadix (radix : Nat) (text : List Char) : Option Int :=
  let (negative, digits) := splitSign text
  if digits = [] then none
  else (readDigits radix 0 digits).bind fun (magnitude : Nat) =>
    let value : Int := if negative then -magnitude else magnitude
    if -2 ^ 127 ≤ value ∧ value < 2 ^ 127 then some value else none

/-- The value of a hexadecimal digit, and sixteen for any other character. -/
def digitValue (c : Char) : Nat :=
  if c.isDigit then c.toNat - '0'.toNat
  else if 'a' ≤ c ∧ c ≤ 'f' then c.toNat - 'a'.toNat + 10
  else if 'A' ≤ c ∧ c ≤ 'F' then c.toNat - 'A'.toNat + 10
  else 16

/-- The number that digits spell. -/
def numeral (radix : Nat) (digits : List Char) : Nat :=
  digits.foldl (fun value c => value * radix + digitValue c) 0

theorem numeral_concat (radix : Nat) (digits : List Char) (c : Char) :
    numeral radix (digits ++ [c]) = numeral radix digits * radix + digitValue c := by
  rw [numeral, List.foldl_append]
  rfl

theorem numeral_lt_pow {radix : Nat} {digits : List Char}
    (h : ∀ c ∈ digits, digitValue c < radix) : numeral radix digits < radix ^ digits.length := by
  induction digits using List.reverseRecOn with
  | nil => exact Nat.one_pos
  | append_singleton digits c ih =>
      have hfront := ih fun d hmem => h d (List.mem_append_left _ hmem)
      have hc := h c (List.mem_append_right _ List.mem_cons_self)
      rw [numeral_concat, List.length_append, List.length_singleton, Nat.pow_succ]
      calc numeral radix digits * radix + digitValue c
          < numeral radix digits * radix + radix := Nat.add_lt_add_left hc _
        _ = (numeral radix digits + 1) * radix := (Nat.succ_mul _ _).symm
        _ ≤ radix ^ digits.length * radix := Nat.mul_le_mul_right _ hfront

/-- Some digits of a radix. -/
structure Digits (radix : Nat) (text : List Char) : Prop where
  ne_nil : text ≠ []
  digit : ∀ c ∈ text, digitValue c < radix

theorem charLe_iff (a b : Char) : a ≤ b ↔ a.toNat ≤ b.toNat := UInt32.le_iff_toNat_le

theorem isDigit_iff (c : Char) : c.isDigit = true ↔ 48 ≤ c.toNat ∧ c.toNat ≤ 57 := by
  simp only [Char.isDigit, Bool.and_eq_true, decide_eq_true_eq, ge_iff_le,
    UInt32.le_iff_toNat_le]
  exact Iff.rfl

theorem digitValue_of_isDigit {c : Char} (h : c.isDigit = true) : digitValue c < 10 := by
  have hcode := (isDigit_iff c).mp h
  rw [digitValue, if_pos h]
  change c.toNat - 48 < 10
  omega

theorem isDigit_of_digitValue {c : Char} (h : digitValue c < 10) : c.isDigit = true := by
  by_contra hdigit
  rw [digitValue, if_neg hdigit] at h
  split at h
  · omega
  · split at h <;> omega

/-- A digit is read as its value. -/
theorem toDigit_eq {radix : Nat} (hradix : radix ≤ 16) (c : Char) :
    toDigit radix c = if digitValue c < radix then some (digitValue c) else none := by
  have hfilter : ∀ value, (some value).filter (fun n => decide (n < radix)) =
      if value < radix then some value else none := by
    intro value
    by_cases h : value < radix <;> simp [Option.filter, h]
  have hlow : ('a' ≤ c ∧ c ≤ 'z') = (97 ≤ c.toNat ∧ c.toNat ≤ 122) := by
    simp only [charLe_iff]; rfl
  have hup : ('A' ≤ c ∧ c ≤ 'Z') = (65 ≤ c.toNat ∧ c.toNat ≤ 90) := by
    simp only [charLe_iff]; rfl
  have hlowHex : ('a' ≤ c ∧ c ≤ 'f') = (97 ≤ c.toNat ∧ c.toNat ≤ 102) := by
    simp only [charLe_iff]; rfl
  have hupHex : ('A' ≤ c ∧ c ≤ 'F') = (65 ≤ c.toNat ∧ c.toNat ≤ 70) := by
    simp only [charLe_iff]; rfl
  have hnone : 16 ≤ digitValue c → (if digitValue c < radix then some (digitValue c) else none) =
      none := fun hbig => if_neg (by omega)
  rw [toDigit]
  by_cases hdigit : c.isDigit = true
  · rw [if_pos hdigit, hfilter, digitValue, if_pos hdigit]
  rw [if_neg hdigit]
  by_cases hlower : 'a' ≤ c ∧ c ≤ 'z'
  · rw [if_pos hlower, hfilter]
    by_cases hhex : 'a' ≤ c ∧ c ≤ 'f'
    · rw [digitValue, if_neg hdigit, if_pos hhex]
    · rw [hlow] at hlower
      rw [hlowHex] at hhex
      have hvalue : digitValue c = 16 := by
        rw [digitValue, if_neg hdigit, if_neg (hlowHex ▸ hhex),
          if_neg (hupHex ▸ show ¬(65 ≤ c.toNat ∧ c.toNat ≤ 70) by omega)]
      rw [hnone (Nat.le_of_eq hvalue.symm)]
      exact if_neg (show ¬c.toNat - 97 + 10 < radix by omega)
  rw [if_neg hlower]
  rw [hlow] at hlower
  by_cases hupper : 'A' ≤ c ∧ c ≤ 'Z'
  · rw [if_pos hupper, hfilter]
    have hnotLower : ¬('a' ≤ c ∧ c ≤ 'f') := by rw [hlowHex]; omega
    by_cases hhex : 'A' ≤ c ∧ c ≤ 'F'
    · rw [digitValue, if_neg hdigit, if_neg hnotLower, if_pos hhex]
    · have hvalue : digitValue c = 16 := by
        rw [digitValue, if_neg hdigit, if_neg hnotLower, if_neg hhex]
      rw [hup] at hupper
      rw [hupHex] at hhex
      rw [hnone (Nat.le_of_eq hvalue.symm)]
      exact if_neg (show ¬c.toNat - 65 + 10 < radix by omega)
  · rw [if_neg hupper, Option.filter_none]
    rw [hup] at hupper
    refine (hnone (Nat.le_of_eq (Eq.symm ?_))).symm
    rw [digitValue, if_neg hdigit, if_neg (by rw [hlowHex]; omega), if_neg (by rw [hupHex]; omega)]

section Radix

variable {radix : Nat}

theorem readDigits_eq (hradix : radix ≤ 16) {text : List Char}
    (h : ∀ c ∈ text, digitValue c < radix) (value : Nat) :
    readDigits radix value text =
      some (text.foldl (fun value c => value * radix + digitValue c) value) := by
  induction text generalizing value with
  | nil => rfl
  | cons c text ih =>
      rw [readDigits, toDigit_eq hradix, if_pos (h c List.mem_cons_self), Option.bind_some,
        ih fun c hmem => h c (List.mem_cons_of_mem _ hmem), List.foldl_cons]

theorem digits_of_readDigits (hradix : radix ≤ 16) {text : List Char} {value result : Nat}
    (h : readDigits radix value text = some result) : ∀ c ∈ text, digitValue c < radix := by
  induction text generalizing value with
  | nil => exact fun c hmem => absurd hmem List.not_mem_nil
  | cons c text ih =>
      rw [readDigits, toDigit_eq hradix] at h
      by_cases hdigit : digitValue c < radix
      · rw [if_pos hdigit, Option.bind_some] at h
        intro d hmem
        rcases List.mem_cons.mp hmem with rfl | hmem
        · exact hdigit
        · exact ih h d hmem
      · rw [if_neg hdigit] at h
        cases h

/-- A text is a sign and what follows it. -/
theorem splitSign_eq (text : List Char) :
    ∃ sign : Sign, text = sign.text ++ (splitSign text).2 ∧ (splitSign text).1 = sign.negative := by
  cases text with
  | nil => exact ⟨none, rfl, rfl⟩
  | cons c text =>
      rw [splitSign]
      by_cases hminus : c = '-'
      · rw [if_pos hminus, hminus]
        exact ⟨some true, rfl, rfl⟩
      · rw [if_neg hminus]
        by_cases hplus : c = '+'
        · rw [if_pos hplus, hplus]
          exact ⟨some false, rfl, rfl⟩
        · rw [if_neg hplus]
          exact ⟨none, rfl, rfl⟩

theorem Digits.head (hradix : radix ≤ 16) {text : List Char} (h : Digits radix text) :
    ∀ c ∈ text.head?, c ≠ '-' ∧ c ≠ '+' := by
  intro c hc
  have hdigit := h.digit c (List.mem_of_mem_head? hc)
  constructor <;>
    (rintro rfl
     exact absurd (Nat.lt_of_lt_of_le hdigit hradix) (by decide))

theorem Digits.not_mem {digits : List Char} (h : Digits radix digits) {c : Char}
    (hc : radix ≤ digitValue c) : c ∉ digits := fun hmem =>
  absurd (h.digit c hmem) (Nat.not_lt.mpr hc)

theorem Digits.isDigit {digits : List Char} (h : Digits 10 digits) :
    ∀ c ∈ digits, c.isDigit = true := fun c hmem => isDigit_of_digitValue (h.digit c hmem)

theorem Sign.underscore_notin (sign : Sign) : '_' ∉ sign.text := by
  rcases sign with _ | _ | _ <;> decide

/-- What is read is a sign and digits, within 128 bits. -/
theorem fromStrRadix_eq_some_iff (hradix : radix ≤ 16) {text : List Char} {value : Int} :
    fromStrRadix radix text = some value ↔
      ∃ (sign : Sign) (digits : List Char), text = sign.text ++ digits ∧ Digits radix digits ∧
        value = sign.apply (numeral radix digits) ∧ -2 ^ 127 ≤ value ∧ value < 2 ^ 127 := by
  constructor
  · intro h
    obtain ⟨sign, htext, hsign⟩ := splitSign_eq text
    rw [fromStrRadix] at h
    generalize splitSign text = parts at h htext hsign
    obtain ⟨negative, digits⟩ := parts
    simp only at h htext hsign
    by_cases hnil : digits = []
    · rw [if_pos hnil] at h
      cases h
    rw [if_neg hnil] at h
    cases hread : readDigits radix 0 digits with
    | none => rw [hread] at h; cases h
    | some magnitude =>
        have hdigits := digits_of_readDigits hradix hread
        rw [readDigits_eq hradix hdigits] at hread
        obtain rfl := Option.some.inj hread
        subst hsign
        rw [readDigits_eq hradix hdigits, Option.bind_some] at h
        change (if -2 ^ 127 ≤ sign.apply (numeral radix digits) ∧
          sign.apply (numeral radix digits) < 2 ^ 127 then
            some (sign.apply (numeral radix digits)) else none) = some value at h
        by_cases hrange : -2 ^ 127 ≤ sign.apply (numeral radix digits) ∧
          sign.apply (numeral radix digits) < 2 ^ 127
        · rw [if_pos hrange] at h
          obtain rfl := Option.some.inj h
          exact ⟨sign, digits, htext, ⟨hnil, hdigits⟩, rfl, hrange⟩
        · rw [if_neg hrange] at h
          cases h
  · rintro ⟨sign, digits, rfl, hdigits, rfl, hrange⟩
    rw [fromStrRadix, sign.splitSign_text (hdigits.head hradix)]
    simp only [hdigits.ne_nil, if_false, readDigits_eq hradix hdigits.digit, Option.bind_some]
    exact if_pos hrange

/-- Digits alone are read as the number they spell, when it fits. -/
theorem fromStrRadix_digits (hradix : radix ≤ 16) {digits : List Char} (h : Digits radix digits) :
    fromStrRadix radix digits =
      if numeral radix digits < 2 ^ 127 then some (numeral radix digits : Int) else none := by
  by_cases hrange : numeral radix digits < 2 ^ 127
  · rw [if_pos hrange, fromStrRadix_eq_some_iff hradix]
    refine ⟨none, digits, rfl, h, rfl, ?_, ?_⟩ <;> omega
  · rw [if_neg hrange, Option.eq_none_iff_forall_ne_some]
    intro value hvalue
    obtain ⟨sign, digits', htext, hdigits', hvalue, -, hlt⟩ :=
      (fromStrRadix_eq_some_iff hradix).mp hvalue
    have hnone := Sign.splitSign_text none (h.head hradix)
    have hsome := sign.splitSign_text (hdigits'.head hradix)
    rw [← htext] at hsome
    rw [show Sign.text none = [] from rfl, List.nil_append, hsome, Prod.mk.injEq] at hnone
    have hpositive : sign.negative = false := hnone.1
    rw [hvalue, hnone.2, Sign.apply, hpositive, if_neg Bool.false_ne_true] at hlt
    exact hrange (by exact_mod_cast hlt)

end Radix

end Telora
