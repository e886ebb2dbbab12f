import Telora.Library.Text

/-!
# Byte offsets

Texts are cut at byte offsets. An offset that is not on a boundary of characters has no two
sides. In a text of one-byte characters byte offsets count characters.
-/

namespace Telora.Library

@[simp] theorem byteLength_nil : byteLength [] = 0 := rfl

@[simp] theorem byteLength_cons (c : Char) (text : List Char) :
    byteLength (c :: text) = c.utf8Size + byteLength text := rfl

@[simp] theorem byteLength_append (text rest : List Char) :
    byteLength (text ++ rest) = byteLength text + byteLength rest := by
  rw [byteLength, List.map_append, List.sum_append]
  rfl

theorem byteLength_eq_zero {text : List Char} (h : byteLength text = 0) : text = [] := by
  cases text with
  | nil => rfl
  | cons c text =>
      rw [byteLength_cons] at h
      have := c.utf8Size_pos
      omega

/-- The two sides of a byte offset that is on a boundary of characters. -/
def splitAtByte : Nat → List Char → Option (List Char × List Char)
  | offset, [] => if offset = 0 then some ([], []) else none
  | offset, c :: rest =>
      if offset = 0 then some ([], c :: rest)
      else if offset < c.utf8Size then none
      else (splitAtByte (offset - c.utf8Size) rest).map fun sides => (c :: sides.1, sides.2)

@[simp] theorem splitAtByte_zero (text : List Char) : splitAtByte 0 text = some ([], text) := by
  cases text <;> rfl

@[simp] theorem splitAtByte_append (front back : List Char) :
    splitAtByte (byteLength front) (front ++ back) = some (front, back) := by
  induction front with
  | nil => exact splitAtByte_zero back
  | cons c front ih =>
      have hc := c.utf8Size_pos
      rw [List.cons_append, splitAtByte, byteLength_cons, if_neg (by omega), if_neg (by omega),
        Nat.add_sub_cancel_left, ih]
      rfl

theorem splitAtByte_eq_some_iff {offset : Nat} {text front back : List Char} :
    splitAtByte offset text = some (front, back) ↔
      text = front ++ back ∧ byteLength front = offset := by
  constructor
  · intro h
    induction text generalizing offset front with
    | nil =>
        rw [splitAtByte] at h
        split at h
        · next hzero =>
            cases h
            exact ⟨rfl, hzero.symm⟩
        · cases h
    | cons c text ih =>
        rw [splitAtByte] at h
        split at h
        · next hzero =>
            cases h
            exact ⟨rfl, hzero.symm⟩
        · split at h
          · cases h
          · next hlarge =>
              obtain ⟨⟨front', back'⟩, hsplit, hsides⟩ := Option.map_eq_some_iff.mp h
              cases hsides
              obtain ⟨rfl, hlength⟩ := ih hsplit
              refine ⟨rfl, ?_⟩
              rw [byteLength_cons, hlength]
              omega
  · rintro ⟨rfl, rfl⟩
    exact splitAtByte_append front back

/-- Two sides with the same length in front are the same. -/
theorem append_inj_of_byteLength {front back front' back' : List Char}
    (h : front ++ back = front' ++ back') (hlength : byteLength front = byteLength front') :
    front = front' ∧ back = back' := by
  have hsplit := splitAtByte_append front back
  rw [h, hlength, splitAtByte_append, Option.some.injEq, Prod.mk.injEq] at hsplit
  exact ⟨hsplit.1.symm, hsplit.2.symm⟩

/-- The nearer side is a part of the farther one. -/
theorem append_split_of_byteLength_le {front back front' back' : List Char}
    (h : front ++ back = front' ++ back') (hlength : byteLength front ≤ byteLength front') :
    ∃ middle, front' = front ++ middle ∧ back = middle ++ back' := by
  rcases List.append_eq_append_iff.mp h with ⟨middle, hfront, hback⟩ | ⟨middle, hfront, hback⟩
  · exact ⟨middle, hfront, hback⟩
  · rw [hfront, byteLength_append] at hlength
    obtain rfl := byteLength_eq_zero (show byteLength middle = 0 by omega)
    exact ⟨[], by rw [hfront, List.append_nil, List.append_nil], hback.symm⟩

/-- The text between two byte offsets. -/
def sliceBytes (start stop : Nat) (text : List Char) : Option (List Char) :=
  (splitAtByte stop text).bind fun sides => (splitAtByte start sides.1).map (·.2)

theorem sliceBytes_append (front middle back : List Char) :
    sliceBytes (byteLength front) (byteLength front + byteLength middle)
      (front ++ (middle ++ back)) = some middle := by
  have hstop := splitAtByte_append (front ++ middle) back
  rw [byteLength_append, List.append_assoc] at hstop
  rw [sliceBytes, hstop, Option.bind_some, splitAtByte_append]
  rfl

/-- The character that starts at a byte offset. For a character of one byte this is the byte
itself, which is part of no longer character. -/
def charAtByte (offset : Nat) (text : List Char) : Option Char :=
  (splitAtByte offset text).bind fun sides => sides.2.head?

theorem charAtByte_eq_some_iff {offset : Nat} {text : List Char} {c : Char} :
    charAtByte offset text = some c ↔
      ∃ front back, text = front ++ c :: back ∧ byteLength front = offset := by
  constructor
  · intro h
    obtain ⟨⟨front, back⟩, hsplit, hhead⟩ := Option.bind_eq_some_iff.mp h
    obtain ⟨rfl, hlength⟩ := splitAtByte_eq_some_iff.mp hsplit
    cases back with
    | nil => cases hhead
    | cons d back =>
        obtain rfl := Option.some.inj hhead
        exact ⟨front, back, rfl, hlength⟩
  · rintro ⟨front, back, rfl, rfl⟩
    rw [charAtByte, splitAtByte_append]
    rfl

/-- The last byte in front of an offset is a character of one byte exactly when that is the
last character in front of it. -/
theorem charAtByte_last_iff {front back : List Char} {c : Char} (hne : front ≠ [])
    (hc : c.utf8Size = 1) :
    charAtByte (byteLength front - 1) (front ++ back) = some c ↔ front.getLast? = some c := by
  rcases List.eq_nil_or_concat' front with rfl | ⟨init, d, rfl⟩
  · exact absurd rfl hne
  rw [List.getLast?_concat, charAtByte_eq_some_iff]
  constructor
  · rintro ⟨before, after, htext, hlength⟩
    have hpos := d.utf8Size_pos
    have hsame : byteLength (before ++ [c]) = byteLength (init ++ [d]) := by
      rw [byteLength_append, byteLength_append] at *
      simp only [byteLength_cons, byteLength_nil] at *
      omega
    have hsplit : init ++ [d] ++ back = (before ++ [c]) ++ after := by
      rw [htext, List.append_assoc]
      rfl
    have hfront := (append_inj_of_byteLength hsplit hsame.symm).1
    have hlast := congrArg List.getLast? hfront
    rwa [List.getLast?_concat, List.getLast?_concat] at hlast
  · intro hd
    obtain rfl := Option.some.inj hd
    refine ⟨init, back, List.append_assoc _ _ _, ?_⟩
    rw [byteLength_append, byteLength_cons, byteLength_nil, hc]
    omega

section Ascii

def Ascii (text : List Char) : Prop := ∀ c ∈ text, c.toNat < 128

theorem utf8Size_of_ascii {c : Char} (h : c.toNat < 128) : c.utf8Size = 1 :=
  Char.utf8Size_eq_one_iff.mpr (UInt32.le_iff_toNat_le.mpr (Nat.le_of_lt_succ h))

variable {text : List Char}

theorem Ascii.of_cons {c : Char} (h : Ascii (c :: text)) : c.toNat < 128 ∧ Ascii text :=
  ⟨h c List.mem_cons_self, fun d hmem => h d (List.mem_cons_of_mem _ hmem)⟩

theorem Ascii.of_append {rest : List Char} (h : Ascii (text ++ rest)) : Ascii text ∧ Ascii rest :=
  ⟨fun c hmem => h c (List.mem_append_left _ hmem),
    fun c hmem => h c (List.mem_append_right _ hmem)⟩

theorem Ascii.byteLength (h : Ascii text) : byteLength text = text.length := by
  induction text with
  | nil => rfl
  | cons c text ih =>
      obtain ⟨hc, hrest⟩ := h.of_cons
      rw [byteLength_cons, utf8Size_of_ascii hc, ih hrest, List.length_cons, Nat.add_comm]

theorem Ascii.splitAtByte_append {rest : List Char} (h : Ascii text) :
    splitAtByte text.length (text ++ rest) = some (text, rest) := by
  rw [← h.byteLength]
  exact Library.splitAtByte_append text rest

theorem Ascii.charAtByte_append {c : Char} {rest : List Char} (h : Ascii text) :
    charAtByte text.length (text ++ c :: rest) = some c := by
  rw [charAtByte, h.splitAtByte_append]
  rfl

theorem Ascii.sliceBytes_append {middle rest : List Char} (h : Ascii text)
    (hmiddle : Ascii middle) :
    sliceBytes text.length (text.length + middle.length) (text ++ (middle ++ rest)) =
      some middle := by
  rw [← h.byteLength, ← hmiddle.byteLength]
  exact Library.sliceBytes_append text middle rest

end Ascii

/-- The bytes of a text. -/
def utf8 (text : List Char) : List UInt8 := text.flatMap String.utf8EncodeChar

/-- The first byte of a character. -/
def leadingByte (c : Char) : UInt8 := (String.utf8EncodeChar c).headD 0

/-- The character with a byte as its code, as `char::from` has it. -/
def charFrom (byte : UInt8) : Char := Char.ofNat byte.toNat

theorem length_utf8 (text : List Char) : (utf8 text).length = byteLength text := by
  rw [utf8, List.length_flatMap, byteLength]
  exact congrArg List.sum (List.map_congr_left fun c _ => String.length_utf8EncodeChar c)

/-- At the offset of a character stands its first byte. -/
theorem utf8_getElem? (front : List Char) (c : Char) (back : List Char) :
    (utf8 (front ++ c :: back))[byteLength front]? = some (leadingByte c) := by
  have hbytes : utf8 (front ++ c :: back) =
      utf8 front ++ (String.utf8EncodeChar c ++ utf8 back) := by
    rw [utf8, List.flatMap_append, List.flatMap_cons]
    rfl
  rw [hbytes, ← length_utf8, List.getElem?_append_right (Nat.le_refl _), Nat.sub_self]
  cases hchar : String.utf8EncodeChar c with
  | nil => exact absurd hchar String.utf8EncodeChar_ne_nil
  | cons byte rest => rw [leadingByte, hchar]; rfl

theorem utf8_getElem?_end (text : List Char) : (utf8 text)[byteLength text]? = none :=
  List.getElem?_eq_none (Nat.le_of_eq (length_utf8 text))

/-- A byte below 128 is a character of its own. -/
theorem charFrom_leadingByte {c : Char} (h : c.toNat < 128) : charFrom (leadingByte c) = c := by
  have hbytes : String.utf8EncodeChar c = [UInt8.ofNat c.toNat] := by
    rw [String.utf8EncodeChar]
    exact if_pos (Nat.le_of_lt_succ h)
  have hvalue : (UInt8.ofNat c.toNat).toNat = c.toNat := by
    rw [UInt8.toNat_ofNat']
    omega
  rw [charFrom, leadingByte, hbytes, List.headD_cons, hvalue, Char.ofNat_toNat]

/-- A longer character starts with no such byte. -/
theorem charFrom_leadingByte_of_large {c : Char} (h : ¬c.toNat < 128) :
    ¬(charFrom (leadingByte c)).toNat < 128 := by
  have hlead : ∃ value, 192 ≤ value ∧ value < 256 ∧ leadingByte c = UInt8.ofNat value := by
    rw [leadingByte, String.utf8EncodeChar]
    have hlarge : ¬c.val.toNat ≤ 0x7f := fun hsmall => h (Nat.lt_succ_of_le hsmall)
    simp only [if_neg hlarge]
    split
    · exact ⟨_, by omega, by omega, rfl⟩
    · split
      · exact ⟨_, by omega, by omega, rfl⟩
      · exact ⟨_, by omega, by omega, rfl⟩
  obtain ⟨value, hlarge, hsmall, hbyte⟩ := hlead
  have hvalue : (leadingByte c).toNat = value := by
    rw [hbyte, UInt8.toNat_ofNat']
    exact Nat.mod_eq_of_lt hsmall
  have hvalid : (leadingByte c).toNat.isValidChar := .inl (by omega)
  rw [charFrom, Char.ofNat, dif_pos hvalid]
  change ¬(leadingByte c).toNat < 128
  omega

/-- The first byte of a character tells it from one of one byte. -/
theorem charFrom_leadingByte_eq_iff {c d : Char} (hd : d.toNat < 128) :
    charFrom (leadingByte c) = d ↔ c = d := by
  by_cases hc : c.toNat < 128
  · rw [charFrom_leadingByte hc]
  · constructor
    · intro h
      exact absurd (h ▸ hd) (charFrom_leadingByte_of_large hc)
    · rintro rfl
      exact absurd hd hc

theorem utf8_cons_of_ascii {c : Char} (h : c.toNat < 128) (text : List Char) :
    utf8 (c :: text) = leadingByte c :: utf8 text := by
  have hlength : (String.utf8EncodeChar c).length = 1 := by
    rw [String.length_utf8EncodeChar, utf8Size_of_ascii h]
  obtain ⟨byte, hbyte⟩ := List.length_eq_one_iff.mp hlength
  rw [utf8, List.flatMap_cons, leadingByte, hbyte]
  rfl

theorem utf8_drop (front back : List Char) :
    (utf8 (front ++ back)).drop (byteLength front) = utf8 back := by
  rw [utf8, List.flatMap_append, ← length_utf8]
  exact List.drop_left

end Telora.Library
