import Telora.Library.Binary64
import Telora.Value.Basic

/-!
# Floats as text

The decimal text of a float, and the float a decimal text stands for, as the
standard library of the source language converts them: the shortest decimal that
reads back, without an exponent, and correctly rounded reading.
-/

namespace Telora

open Library

/-- The digits of `value`, with zeros in front up to `width`. -/
def paddedDigits (width value : Nat) : List Char :=
  List.replicate (width - (Nat.toDigits 10 value).length) '0' ++ Nat.toDigits 10 value

/-- An optional sign, and what follows it. -/
def splitSign : List Char → Bool × List Char
  | [] => (false, [])
  | c :: text =>
      if c = '-' then (true, text)
      else if c = '+' then (false, text)
      else (false, c :: text)

theorem splitSign_of_digit {c : Char} (h : c.isDigit = true) (negative : Bool) (text : List Char) :
    splitSign ((if negative then ['-'] else []) ++ c :: text) = (negative, c :: text) := by
  have hminus : c ≠ '-' := by
    rintro rfl
    cases h
  have hplus : c ≠ '+' := by
    rintro rfl
    cases h
  cases negative with
  | true => rfl
  | false => simp [splitSign, hminus, hplus]

namespace F64

/-- The exponent of the smallest subnormal number. -/
def unitShift : Nat := 1074

/-- The word without its sign. -/
def magnitude (x : F64) : Nat := x.bits.toNat % 2 ^ 63

def isNegative (x : F64) : Bool := 2 ^ 63 ≤ x.bits.toNat

def isFinite (x : F64) : Bool := x.magnitude < Binary64.infinity

def ofParts (negative : Bool) (word : Nat) : F64 :=
  ⟨BitVec.ofNat 64 (word + if negative then 2 ^ 63 else 0)⟩

def infinite (negative : Bool) : F64 := ofParts negative Binary64.infinity

/-- A finite number without a fraction, zero included. -/
def IsIntegral (x : F64) : Prop := Binary64.IsIntegral unitShift x.magnitude

instance : DecidablePred IsIntegral := fun x =>
  inferInstanceAs (Decidable (Binary64.IsIntegral unitShift x.magnitude))

/-- A decimal without an exponent. -/
def displayDecimal (digits : Nat) (point : Int) : List Char :=
  if 0 ≤ point then Nat.toDigits 10 (digits * 10 ^ point.toNat)
  else
    Nat.toDigits 10 (digits / 10 ^ (-point).toNat) ++
      '.' :: paddedDigits (-point).toNat (digits % 10 ^ (-point).toNat)

/-- The text `to_string` gives. -/
def display (x : F64) : List Char :=
  if x.isNaN then "NaN".toList
  else
    (if x.isNegative then ['-'] else []) ++
      if x.isFinite then
        displayDecimal (Binary64.shortest unitShift x.magnitude).1
          (Binary64.shortest unitShift x.magnitude).2
      else "inf".toList

/-- The exponent part of a decimal: nothing, or a marker, a sign and digits. -/
def parseExponent : List Char → Option Int
  | [] => some 0
  | marker :: rest =>
      if marker = 'e' ∨ marker = 'E' then
        let (negative, digits) := splitSign rest
        if digits ≠ [] ∧ digits.all Char.isDigit then
          let magnitude : Int := Nat.ofDigitChars 10 digits 0
          some (if negative then -magnitude else magnitude)
        else none
      else none

/-- The magnitude of an unsigned decimal. -/
def parseDecimal (text : List Char) : Option Nat :=
  let whole := text.takeWhile Char.isDigit
  let rest := text.dropWhile Char.isDigit
  let (fraction, rest) : List Char × List Char :=
    match rest with
    | '.' :: rest => (rest.takeWhile Char.isDigit, rest.dropWhile Char.isDigit)
    | rest => ([], rest)
  if whole = [] ∧ fraction = [] then none
  else (parseExponent rest).map fun exponent =>
    Binary64.ofDecimal unitShift (Nat.ofDigitChars 10 (whole ++ fraction) 0)
      (exponent - fraction.length)

/-- The number a text stands for, when `parse::<f64>` accepts it. -/
def parse (text : List Char) : Option F64 :=
  let (negative, unsigned) := splitSign text
  let name := String.ofList (unsigned.map Char.toLower)
  if name = "inf" ∨ name = "infinity" then some (infinite negative)
  else if name = "nan" then some (if negative then nan.neg else nan)
  else (parseDecimal unsigned).map (ofParts negative)

/-- A float is its sign and its magnitude. -/
theorem ofParts_magnitude (x : F64) : ofParts x.isNegative x.magnitude = x := by
  obtain ⟨bits⟩ := x
  have hbits := bits.isLt
  have hword : bits.toNat % 2 ^ 63 + (if 2 ^ 63 ≤ bits.toNat then 2 ^ 63 else 0) = bits.toNat := by
    split <;> omega
  simp only [ofParts, isNegative, magnitude, decide_eq_true_eq, hword, BitVec.ofNat_toNat,
    BitVec.setWidth_eq]

theorem not_isNaN_of_isFinite {x : F64} (h : x.isFinite = true) : x.isNaN = false := by
  have hfinite : x.bits.toNat % 2 ^ 63 < 2047 * 2 ^ 52 := of_decide_eq_true h
  have hexponent : x.bits.toNat / 2 ^ 52 % 2 ^ 11 ≠ 2 ^ 11 - 1 := by omega
  simp only [isNaN, exponent, beq_false_of_ne hexponent, Bool.false_and]

theorem all_isDigit_toDigits (n : Nat) : ∀ c ∈ Nat.toDigits 10 n, c.isDigit = true :=
  fun _ hmem => Nat.isDigit_of_mem_toDigits (by decide) (by decide) hmem

theorem all_isDigit_paddedDigits (width value : Nat) :
    ∀ c ∈ paddedDigits width value, c.isDigit = true := by
  intro c hmem
  rcases List.mem_append.mp hmem with hzero | hdigit
  · rw [List.eq_of_mem_replicate hzero]
    decide
  · exact all_isDigit_toDigits value c hdigit

theorem length_paddedDigits {width value : Nat} (hwidth : 0 < width) (h : value < 10 ^ width) :
    (paddedDigits width value).length = width := by
  have hle := (Nat.length_toDigits_le_iff (by decide) hwidth).mpr h
  simp only [paddedDigits, List.length_append, List.length_replicate]
  omega

theorem ofDigitChars_paddedDigits (width value init : Nat) (hwidth : 0 < width)
    (h : value < 10 ^ width) :
    Nat.ofDigitChars 10 (paddedDigits width value) init = 10 ^ width * init + value := by
  rw [Nat.ofDigitChars_eq_ofDigitChars_zero, length_paddedDigits hwidth h, paddedDigits,
    Nat.ofDigitChars_append, Nat.ofDigitChars_replicate_zero, mul_zero,
    Nat.ofDigitChars_ten_toDigits]

theorem takeWhile_digits {digits : List Char} (h : ∀ c ∈ digits, c.isDigit = true)
    (rest : List Char) (hrest : ∀ c ∈ rest.head?, c.isDigit = false) :
    (digits ++ rest).takeWhile Char.isDigit = digits ∧
      (digits ++ rest).dropWhile Char.isDigit = rest := by
  rw [List.takeWhile_append_of_pos h, List.dropWhile_append_of_pos h]
  cases rest with
  | nil => simp
  | cons c rest => simp [hrest c rfl]

/-- Digits alone are read as the integer they spell. -/
theorem parseDecimal_digits (n : Nat) :
    parseDecimal (Nat.toDigits 10 n) = some (Binary64.ofDecimal unitShift n 0) := by
  obtain ⟨htake, hdrop⟩ := takeWhile_digits (all_isDigit_toDigits n) [] (by simp)
  rw [List.append_nil] at htake hdrop
  simp [parseDecimal, htake, hdrop, parseExponent]

/-- Digits around a point are read as the decimal they spell. -/
theorem parseDecimal_fraction {whole fraction : List Char} (hwhole : ∀ c ∈ whole, c.isDigit = true)
    (hfraction : ∀ c ∈ fraction, c.isDigit = true) (hne : whole ≠ []) :
    parseDecimal (whole ++ '.' :: fraction) = some (Binary64.ofDecimal unitShift
      (Nat.ofDigitChars 10 (whole ++ fraction) 0) (-fraction.length)) := by
  obtain ⟨htake, hdrop⟩ := takeWhile_digits hwhole ('.' :: fraction) (by simp)
  obtain ⟨htake', hdrop'⟩ := takeWhile_digits hfraction [] (by simp)
  rw [List.append_nil] at htake' hdrop'
  simp [parseDecimal, htake, hdrop, htake', hdrop', hne, parseExponent]

/-- A displayed decimal reads back. -/
theorem parseDecimal_displayDecimal (digits : Nat) (point : Int) :
    parseDecimal (displayDecimal digits point) =
      some (Binary64.ofDecimal unitShift digits point) := by
  unfold displayDecimal
  split
  · next hpoint =>
      rw [parseDecimal_digits]
      simp [Binary64.ofDecimal, show (-point).toNat = 0 by omega]
  · next hpoint =>
      have hwidth : 0 < (-point).toNat := by omega
      have hlt : digits % 10 ^ (-point).toNat < 10 ^ (-point).toNat :=
        Nat.mod_lt _ (Nat.pow_pos (by decide))
      rw [parseDecimal_fraction (all_isDigit_toDigits _) (all_isDigit_paddedDigits _ _)
        Nat.toDigits_ne_nil, length_paddedDigits hwidth hlt, Nat.ofDigitChars_append,
        Nat.ofDigitChars_ten_toDigits, ofDigitChars_paddedDigits _ _ _ hwidth hlt,
        Nat.div_add_mod, show (-((-point).toNat : Int)) = point by omega]

theorem displayDecimal_head (digits : Nat) (point : Int) :
    ∃ c rest, displayDecimal digits point = c :: rest ∧ c.isDigit = true := by
  have hhead : ∀ n rest, ∃ c rest', Nat.toDigits 10 n ++ rest = c :: rest' ∧ c.isDigit = true := by
    intro n rest
    cases hdigits : Nat.toDigits 10 n with
    | nil => exact absurd hdigits Nat.toDigits_ne_nil
    | cons c digits =>
        exact ⟨c, _, rfl, all_isDigit_toDigits n c (hdigits ▸ List.mem_cons_self)⟩
  unfold displayDecimal
  split
  · obtain ⟨c, rest, htext, hdigit⟩ := hhead (digits * 10 ^ point.toNat) []
    exact ⟨c, rest, by rw [← htext, List.append_nil], hdigit⟩
  · exact hhead _ _

theorem toLower_of_isDigit {c : Char} (h : c.isDigit = true) : c.toLower = c := by
  simp only [Char.isDigit, Bool.and_eq_true, decide_eq_true_eq, ge_iff_le,
    UInt32.le_iff_toNat_le] at h
  have hcode : ¬(c.val ≥ 'A'.val ∧ c.val ≤ 'Z'.val) := by
    simp only [ge_iff_le, UInt32.le_iff_toNat_le]
    have hnine : '9'.val.toNat < 'A'.val.toNat := by decide
    omega
  exact dif_neg hcode

/-- A text that starts with a digit, or with a sign and a digit, is a decimal. -/
theorem parse_of_digit {c : Char} (h : c.isDigit = true) (negative : Bool) (rest : List Char) :
    parse ((if negative then ['-'] else []) ++ c :: rest) =
      (parseDecimal (c :: rest)).map (ofParts negative) := by
  have hlower := toLower_of_isDigit h
  have hname : ∀ name : String, name.toList.head?.any Char.isDigit = false →
      String.ofList ((c :: rest).map Char.toLower) ≠ name := by
    rintro name hhead rfl
    simp [hlower, h] at hhead
  have hinf := hname "inf" (by decide)
  have hinfinity := hname "infinity" (by decide)
  have hnan := hname "nan" (by decide)
  simp only [parse, splitSign_of_digit h, hinf, hinfinity, hnan, or_self, if_false]

theorem display_of_isFinite {x : F64} (h : x.isFinite = true) :
    x.display = (if x.isNegative then ['-'] else []) ++
      displayDecimal (Binary64.shortest unitShift x.magnitude).1
        (Binary64.shortest unitShift x.magnitude).2 := by
  rw [display, not_isNaN_of_isFinite h, h]
  simp only [Bool.false_eq_true, if_false, if_true]

/-- A finite number reads back from its text. -/
theorem parse_display {x : F64} (h : x.isFinite = true) : parse x.display = some x := by
  have hmagnitude : x.magnitude < Binary64.infinity := of_decide_eq_true h
  obtain ⟨c, rest, htext, hdigit⟩ := displayDecimal_head
    (Binary64.shortest unitShift x.magnitude).1 (Binary64.shortest unitShift x.magnitude).2
  have hdecimal := parseDecimal_displayDecimal
    (Binary64.shortest unitShift x.magnitude).1 (Binary64.shortest unitShift x.magnitude).2
  rw [Binary64.ofDecimal_shortest unitShift hmagnitude, htext] at hdecimal
  rw [display_of_isFinite h, htext, parse_of_digit hdigit, hdecimal, Option.map_some,
    ofParts_magnitude]

/-- A point is displayed exactly when there is a fraction. -/
theorem point_mem_display_iff {x : F64} (h : x.isFinite = true) :
    '.' ∈ x.display ↔ ¬x.IsIntegral := by
  have hmagnitude : x.magnitude < Binary64.infinity := of_decide_eq_true h
  have hdigits : ∀ n, '.' ∉ Nat.toDigits 10 n := fun n hmem =>
    absurd (all_isDigit_toDigits n '.' hmem) (by decide)
  have hsign : '.' ∉ (if x.isNegative then ['-'] else []) := by
    split <;> decide
  rw [IsIntegral, ← Binary64.shortest_nonneg_iff unitShift (by decide) hmagnitude,
    display_of_isFinite h]
  simp only [List.mem_append, hsign, false_or]
  unfold displayDecimal
  split
  · next hpoint => simp [hdigits, hpoint]
  · next hpoint => simp [hpoint]

end F64

end Telora
