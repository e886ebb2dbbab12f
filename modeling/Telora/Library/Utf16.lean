import Mathlib.Data.Char
import Mathlib.Data.List.Basic

/-!
# UTF-16

The code units of a text, and reading them back. A high surrogate is read with the low one
behind it; any other surrogate makes the units ill-formed.
-/

namespace Telora.Library.Utf16

def isHigh (unit : Nat) : Bool := 0xd800 ≤ unit && unit ≤ 0xdbff

def isLow (unit : Nat) : Bool := 0xdc00 ≤ unit && unit ≤ 0xdfff

/-- The scalar of a surrogate pair. -/
def combine (high low : Nat) : Nat := 0x10000 + (high - 0xd800) * 1024 + (low - 0xdc00)

def encodeChar (c : Char) : List Nat :=
  if c.toNat < 0x10000 then [c.toNat]
  else [0xd800 + (c.toNat - 0x10000) / 1024, 0xdc00 + (c.toNat - 0x10000) % 1024]

def encode (text : List Char) : List Nat := text.flatMap encodeChar

/-- The text of some units of 16 bits, unless a surrogate is alone or out of order. -/
def decode : List Nat → Option (List Char)
  | [] => some []
  | unit :: rest =>
      if isHigh unit then
        match rest with
        | [] => none
        | low :: rest =>
            if isLow low then (decode rest).map (Char.ofNat (combine unit low) :: ·) else none
      else if isLow unit then none
      else (decode rest).map (Char.ofNat unit :: ·)

theorem isHigh_iff {unit : Nat} : isHigh unit = true ↔ 0xd800 ≤ unit ∧ unit ≤ 0xdbff := by
  simp [isHigh]

theorem isLow_iff {unit : Nat} : isLow unit = true ↔ 0xdc00 ≤ unit ∧ unit ≤ 0xdfff := by
  simp [isLow]

theorem not_surrogate (c : Char) : isHigh c.toNat = false ∧ isLow c.toNat = false := by
  have hvalid : c.toNat < 0xd800 ∨ 0xdfff < c.toNat ∧ c.toNat < 0x110000 := c.valid
  constructor
  · rw [← Bool.not_eq_true, isHigh_iff]
    omega
  · rw [← Bool.not_eq_true, isLow_iff]
    omega

theorem decode_cons_of_not_surrogate {unit : Nat} (hhigh : isHigh unit = false)
    (hlow : isLow unit = false) (rest : List Nat) :
    decode (unit :: rest) = (decode rest).map (Char.ofNat unit :: ·) := by
  rw [decode.eq_def]
  simp only [hhigh, hlow, Bool.false_eq_true, if_false]

theorem decode_cons_of_low {unit : Nat} (hlow : isLow unit = true) (rest : List Nat) :
    decode (unit :: rest) = none := by
  have hhigh : isHigh unit = false := by
    rw [isLow_iff] at hlow
    rw [← Bool.not_eq_true, isHigh_iff]
    omega
  rw [decode.eq_def]
  simp only [hhigh, hlow, Bool.false_eq_true, if_false, if_true]

theorem decode_pair {high low : Nat} (hhigh : isHigh high = true) (hlow : isLow low = true)
    (rest : List Nat) :
    decode (high :: low :: rest) = (decode rest).map (Char.ofNat (combine high low) :: ·) := by
  rw [decode.eq_def]
  simp only [hhigh, hlow, if_true]

/-- A high surrogate alone is ill-formed. -/
theorem decode_cons_of_high {unit : Nat} (hhigh : isHigh unit = true) {rest : List Nat}
    (hrest : ∀ low ∈ rest.head?, isLow low = false) : decode (unit :: rest) = none := by
  cases rest with
  | nil =>
      rw [decode.eq_def]
      simp only [hhigh, if_true]
  | cons low rest =>
      rw [decode.eq_def]
      simp only [hhigh, hrest low rfl, Bool.false_eq_true, if_true, if_false]

/-- The first unit of a character is no low surrogate. -/
theorem head_encodeChar (c : Char) : ∃ unit rest, encodeChar c = unit :: rest ∧
    isLow unit = false := by
  have hvalid : c.toNat < 0xd800 ∨ 0xdfff < c.toNat ∧ c.toNat < 0x110000 := c.valid
  rw [encodeChar]
  split
  · exact ⟨c.toNat, [], rfl, (not_surrogate c).2⟩
  · refine ⟨_, _, rfl, ?_⟩
    rw [← Bool.not_eq_true, isLow_iff]
    omega

theorem encodeChar_lt (c : Char) : ∀ unit ∈ encodeChar c, unit < 0x10000 := by
  have hvalid : c.toNat < 0xd800 ∨ 0xdfff < c.toNat ∧ c.toNat < 0x110000 := c.valid
  intro unit hmem
  rw [encodeChar] at hmem
  split at hmem
  · next hsmall =>
      rw [List.mem_singleton.mp hmem]
      exact hsmall
  · rcases List.mem_cons.mp hmem with hunit | hmem
    · omega
    · have hunit := List.mem_singleton.mp hmem
      omega

theorem decode_encodeChar (c : Char) (rest : List Nat) :
    decode (encodeChar c ++ rest) = (decode rest).map (c :: ·) := by
  have hvalid : c.toNat < 0xd800 ∨ 0xdfff < c.toNat ∧ c.toNat < 0x110000 := c.valid
  rw [encodeChar]
  split
  · rw [List.singleton_append, decode_cons_of_not_surrogate (not_surrogate c).1
      (not_surrogate c).2, Char.ofNat_toNat]
  · next hlarge =>
      have hhigh : isHigh (0xd800 + (c.toNat - 0x10000) / 1024) = true :=
        isHigh_iff.mpr (by omega)
      have hlow : isLow (0xdc00 + (c.toNat - 0x10000) % 1024) = true :=
        isLow_iff.mpr (by omega)
      have hcombine : combine (0xd800 + (c.toNat - 0x10000) / 1024)
          (0xdc00 + (c.toNat - 0x10000) % 1024) = c.toNat := by
        unfold combine
        omega
      rw [List.cons_append, List.singleton_append, decode_pair hhigh hlow, hcombine,
        Char.ofNat_toNat]

theorem decode_encode (text : List Char) : decode (encode text) = some text := by
  induction text with
  | nil => rfl
  | cons c text ih =>
      rw [encode, List.flatMap_cons, decode_encodeChar]
      change (decode (encode text)).map _ = _
      rw [ih]
      rfl

private theorem toNat_ofNat {n : Nat} (h : n.isValidChar) : (Char.ofNat n).toNat = n := by
  rw [Char.ofNat, dif_pos h]
  rfl

theorem isValidChar_unit {unit : Nat} (hsmall : unit < 0x10000) (hhigh : isHigh unit = false)
    (hlow : isLow unit = false) : unit.isValidChar := by
  rw [← Bool.not_eq_true, isHigh_iff] at hhigh
  rw [← Bool.not_eq_true, isLow_iff] at hlow
  rw [Nat.isValidChar]
  omega

/-- The character of a unit, or of a pair, has these units. -/
theorem encodeChar_ofNat {unit : Nat} (hsmall : unit < 0x10000) (hhigh : isHigh unit = false)
    (hlow : isLow unit = false) : encodeChar (Char.ofNat unit) = [unit] := by
  have hvalue : (Char.ofNat unit).toNat = unit := toNat_ofNat (isValidChar_unit hsmall hhigh hlow)
  rw [encodeChar, hvalue, if_pos hsmall]

theorem combine_range {high low : Nat} (hhigh : isHigh high = true) (hlow : isLow low = true) :
    0x10000 ≤ combine high low ∧ combine high low < 0x110000 := by
  rw [isHigh_iff] at hhigh
  rw [isLow_iff] at hlow
  unfold combine
  omega

theorem combine_isValidChar {high low : Nat} (hhigh : isHigh high = true)
    (hlow : isLow low = true) : (combine high low).isValidChar := by
  have hrange := combine_range hhigh hlow
  rw [Nat.isValidChar]
  omega

theorem encodeChar_combine {high low : Nat} (hhigh : isHigh high = true)
    (hlow : isLow low = true) : encodeChar (Char.ofNat (combine high low)) = [high, low] := by
  have hrange := combine_range hhigh hlow
  have hvalue : (Char.ofNat (combine high low)).toNat = combine high low :=
    toNat_ofNat (combine_isValidChar hhigh hlow)
  rw [isHigh_iff] at hhigh
  rw [isLow_iff] at hlow
  have hunits : 0xd800 + (combine high low - 0x10000) / 1024 = high ∧
      0xdc00 + (combine high low - 0x10000) % 1024 = low := by
    unfold combine
    omega
  rw [encodeChar, hvalue, if_neg (Nat.not_lt.mpr hrange.1), hunits.1, hunits.2]

/-- Units of 16 bits are read as the text that has them, and are refused when none has. -/
theorem decode_eq_some_iff {units : List Nat} (hunits : ∀ unit ∈ units, unit < 0x10000)
    {text : List Char} : decode units = some text ↔ units = encode text := by
  constructor
  · intro h
    induction hlength : units.length using Nat.strong_induction_on generalizing units text with
    | _ n ih =>
    subst hlength
    cases units with
    | nil =>
        cases h
        rfl
    | cons unit rest =>
        have hrest := fun other hmem => hunits other (List.mem_cons_of_mem unit hmem)
        cases hhigh : isHigh unit with
        | false =>
            cases hlow : isLow unit with
            | true => rw [decode_cons_of_low hlow] at h; cases h
            | false =>
                rw [decode_cons_of_not_surrogate hhigh hlow] at h
                obtain ⟨tail, htail, rfl⟩ := Option.map_eq_some_iff.mp h
                rw [encode, List.flatMap_cons,
                  encodeChar_ofNat (hunits unit List.mem_cons_self) hhigh hlow]
                exact congrArg (unit :: ·) (ih _ (Nat.lt_succ_self _) hrest htail rfl)
        | true =>
            cases rest with
            | nil => rw [decode_cons_of_high hhigh fun low hlow => by cases hlow] at h; cases h
            | cons low rest =>
                cases hlow : isLow low with
                | false =>
                    rw [decode_cons_of_high hhigh fun other hother => by
                      obtain rfl := Option.some.inj hother
                      exact hlow] at h
                    cases h
                | true =>
                    rw [decode_pair hhigh hlow] at h
                    obtain ⟨tail, htail, rfl⟩ := Option.map_eq_some_iff.mp h
                    rw [encode, List.flatMap_cons, encodeChar_combine hhigh hlow]
                    refine congrArg (fun units => unit :: low :: units) ?_
                    refine ih _ ?_ (fun other hmem => hrest other (List.mem_cons_of_mem _ hmem))
                      htail rfl
                    rw [List.length_cons, List.length_cons]
                    omega
  · rintro rfl
    exact decode_encode text

end Telora.Library.Utf16
