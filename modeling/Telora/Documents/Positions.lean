import Telora.Documents.Text
import Telora.Library.ExceptBind

/-!
# Positions and edits of a document

A position denotes an offset when its line exists and a part of the line's content has its
length. Positions are converted exactly, and edits are applied one after another or not at all.
-/

namespace Telora.Documents

open Library

section Lines

variable {text front content rest : List Char} {line : Nat}

theorem count_le_byteLength (text : List Char) : text.count '\n' ≤ byteLength text := by
  induction text with
  | nil => exact Nat.zero_le _
  | cons c text ih =>
      have hc := c.utf8Size_pos
      have hcount := List.count_cons (a := '\n') (b := c) (l := text)
      rw [byteLength_cons, hcount]
      split <;> omega

theorem logicalLineCount_eq (text : List Char) :
    logicalLineCount text = text.count '\n' + 1 := by
  rw [logicalLineCount, lineLen]
  rcases List.eq_nil_or_concat' text with rfl | ⟨init, c, rfl⟩
  · rfl
  · rw [if_neg (List.append_ne_nil_of_right_ne_nil _ (List.cons_ne_nil _ _)),
      List.getLast?_concat, Option.any_some]
    by_cases hc : c = '\n'
    · subst hc
      rfl
    · rw [if_neg fun h => hc (Option.some.inj h), if_pos (decide_eq_true hc)]

theorem byteOfLine_append (hstart : front = [] ∨ ∃ before, front = before ++ ['\n'])
    (back : List Char) :
    byteOfLine (front.count '\n') (front ++ back) = .ok (byteLength front) := by
  rw [byteOfLine, splitAtLine_append hstart back]

theorem endsWithByte_append {c : Char} (hc : c.utf8Size = 1) (front content back : List Char) :
    endsWithByte (byteLength front) (byteLength front + byteLength content) c
      (front ++ (content ++ back)) = .ok (decide (content.getLast? = some c)) := by
  rw [endsWithByte]
  by_cases hempty : content = []
  · subst hempty
    rw [if_neg (by rw [byteLength_nil]; omega)]
    rfl
  · have hpos : 0 < byteLength content :=
      Nat.pos_of_ne_zero fun hzero => hempty (byteLength_eq_zero hzero)
    have hlast := @charAtByte_last_iff (front ++ content) back c
      (List.append_ne_nil_of_right_ne_nil _ hempty) hc
    rw [byteLength_append, List.append_assoc, List.getLast?_append_of_ne_nil _ hempty] at hlast
    rw [if_pos (by omega), byteIs, if_pos (by simp only [byteLength_append]; omega)]
    exact congrArg Except.ok (decide_eq_decide.mpr hlast)

theorem byteSlice_append (front middle back : List Char) :
    byteSlice (byteLength front) (byteLength front + byteLength middle)
      (front ++ (middle ++ back)) = .ok middle := by
  rw [byteSlice, sliceBytes_append]

/-- The end of a line with what ends it. -/
theorem lineStop_lineAt (h : LineAt text line front content rest) :
    ∃ ending back, rest = ending ++ back ∧
      lineStop text line = .ok (byteLength front + byteLength (content ++ ending)) ∧
      (ending = [] ∨ ending = ['\r', '\n'] ∨
        ending = ['\n'] ∧ content.getLast? ≠ some '\r') := by
  obtain ⟨htext, hcount, hstart, hcontent, hending⟩ := h
  have hnext : ∀ {ending back : List Char}, rest = ending ++ back → ending.count '\n' = 1 →
      (∃ before, ending = before ++ ['\n']) →
      lineStop text line = .ok (byteLength front + byteLength (content ++ ending)) := by
    intro ending back hrest hone hlast
    obtain ⟨before, rfl⟩ := hlast
    have hline : (front ++ (content ++ (before ++ ['\n']))).count '\n' = line + 1 := by
      rw [List.count_append, List.count_append, hone, hcount, List.count_eq_zero.mpr hcontent]
    have htext' : text = (front ++ (content ++ (before ++ ['\n']))) ++ back := by
      rw [htext, hrest]
      simp only [List.append_assoc]
    have hlogical : line + 1 < logicalLineCount text := by
      rw [logicalLineCount_eq, htext', List.count_append, hline]
      omega
    have hbyte := @byteOfLine_append (front ++ (content ++ (before ++ ['\n'])))
      (.inr ⟨front ++ (content ++ before), by simp only [List.append_assoc]⟩) back
    rw [hline, ← htext', byteLength_append] at hbyte
    rw [lineStop, if_pos hlogical, hbyte]
  rcases hending with rfl | ⟨more, rfl⟩ | ⟨more, rfl, hlast⟩
  · refine ⟨[], [], rfl, ?_, .inl rfl⟩
    have hlogical : ¬ line + 1 < logicalLineCount text := by
      rw [logicalLineCount_eq, htext, List.count_append, List.count_append, hcount,
        List.count_eq_zero.mpr hcontent, List.count_nil]
      omega
    rw [lineStop, if_neg hlogical, htext, byteLength_append]
  · exact ⟨['\r', '\n'], more, rfl, hnext rfl rfl ⟨['\r'], rfl⟩, .inr (.inl rfl)⟩
  · exact ⟨['\n'], more, rfl, hnext rfl rfl ⟨[], rfl⟩, .inr (.inr ⟨rfl, hlast⟩)⟩

/-- The content of a line is found between its bytes. -/
theorem lineContentRange_lineAt (h : LineAt text line front content rest) :
    lineContentRange text line = .ok (byteLength front, byteLength front + byteLength content) := by
  have hline : ¬ logicalLineCount text ≤ line := by
    have := h.line_le
    rw [logicalLineCount_eq]
    omega
  have hbyteOfLine : byteOfLine line text = .ok (byteLength front) := by
    rw [h.eq, ← h.count]
    exact byteOfLine_append h.start _
  obtain ⟨ending, back, hrest, hstop, hending⟩ := lineStop_lineAt h
  have htext : text = front ++ ((content ++ ending) ++ back) := by
    rw [h.eq, hrest, List.append_assoc]
  have hfeed := @endsWithByte_append '\n' (by decide) front (content ++ ending) back
  rw [← htext] at hfeed
  rw [lineContentRange, if_neg hline]
  simp only [hbyteOfLine, hstop, hfeed, bind, Except.bind]
  rcases hending with rfl | rfl | ⟨rfl, hlast⟩
  · rw [List.append_nil, decide_eq_false fun hlast => h.noBreak (List.mem_of_getLast? hlast)]
    rfl
  · have hreturn := @endsWithByte_append '\r' (by decide) front (content ++ ['\r'])
      ('\n' :: back)
    have htext' : front ++ (content ++ ['\r'] ++ '\n' :: back) = text := by
      rw [htext]
      simp
    have hstop' : byteLength front + byteLength (content ++ ['\r', '\n']) - 1 =
        byteLength front + byteLength (content ++ ['\r']) := by
      simp only [byteLength_append, byteLength_cons, byteLength_nil]
      have : ('\r' : Char).utf8Size = 1 := rfl
      have : ('\n' : Char).utf8Size = 1 := rfl
      omega
    have hcontent : byteLength front + byteLength (content ++ ['\r']) - 1 =
        byteLength front + byteLength content := by
      simp only [byteLength_append, byteLength_cons, byteLength_nil]
      have : ('\r' : Char).utf8Size = 1 := rfl
      omega
    have hfeedLast : (content ++ ['\r', '\n']).getLast? = some '\n' := by simp
    rw [htext', List.getLast?_concat, decide_eq_true rfl] at hreturn
    rw [hfeedLast, decide_eq_true rfl, hstop', hreturn, hcontent]
    rfl
  · have hreturn := @endsWithByte_append '\r' (by decide) front content ('\n' :: back)
    have htext' : front ++ (content ++ '\n' :: back) = text := by
      rw [htext]
      simp
    have hstop' : byteLength front + byteLength (content ++ ['\n']) - 1 =
        byteLength front + byteLength content := by
      simp only [byteLength_append, byteLength_cons, byteLength_nil]
      have : ('\n' : Char).utf8Size = 1 := rfl
      omega
    rw [htext', decide_eq_false hlast] at hreturn
    rw [List.getLast?_concat, decide_eq_true rfl, hstop', hreturn]
    rfl

/-- A line is there exactly when there are enough line feeds. -/
theorem lineContentRange_cases (text : List Char) (line : Nat) :
    (∃ front content rest, LineAt text line front content rest) ∨
      (text.count '\n' < line ∧ lineContentRange text line =
        .error (.error (.invalidPosition ⟨u32OrMax line, 0⟩))) := by
  by_cases hline : line ≤ text.count '\n'
  · exact .inl (exists_lineAt hline)
  · refine .inr ⟨Nat.lt_of_not_le hline, ?_⟩
    rw [lineContentRange, if_pos (by rw [logicalLineCount_eq]; omega)]

end Lines

section Encodings

theorem utf8Size_of_large {c : Char} (h : 128 ≤ c.toNat) : 2 ≤ c.utf8Size := by
  have hpos := c.utf8Size_pos
  have hone : c.utf8Size ≠ 1 := fun hone => by
    have hle := UInt32.le_iff_toNat_le.mp (Char.utf8Size_eq_one_iff.mp hone)
    exact absurd (Nat.lt_of_lt_of_le h hle) (by decide)
  omega

theorem utf16Units_pos (c : Char) : 1 ≤ utf16Units c := by
  rw [utf16Units]
  split <;> decide

theorem utf16Units_le (c : Char) : utf16Units c ≤ c.utf8Size := by
  rw [utf16Units]
  split
  · exact c.utf8Size_pos
  · exact utf8Size_of_large (by omega)

@[simp] theorem utf16Len_nil : utf16Len [] = 0 := rfl

@[simp] theorem utf16Len_cons (c : Char) (text : List Char) :
    utf16Len (c :: text) = utf16Units c + utf16Len text := rfl

theorem utf16Len_append (text rest : List Char) :
    utf16Len (text ++ rest) = utf16Len text + utf16Len rest := by
  rw [utf16Len, List.map_append, List.sum_append]
  rfl

/-- Parts of a text with the same number of code units are the same. -/
theorem append_inj_of_utf16Len {front back front' back' : List Char}
    (h : front ++ back = front' ++ back') (hlength : utf16Len front = utf16Len front') :
    front = front' := by
  have hnil : ∀ {text : List Char}, utf16Len text = 0 → text = [] := by
    intro text hzero
    cases text with
    | nil => rfl
    | cons c text =>
        have := utf16Units_pos c
        rw [utf16Len_cons] at hzero
        omega
  rcases List.append_eq_append_iff.mp h with ⟨middle, hfront, -⟩ | ⟨middle, hfront, -⟩
  · rw [hfront, utf16Len_append] at hlength
    rw [hfront, hnil (show utf16Len middle = 0 by omega), List.append_nil]
  · rw [hfront, utf16Len_append] at hlength
    rw [hfront, hnil (show utf16Len middle = 0 by omega), List.append_nil]

/-- No encoding has more units than there are bytes. -/
theorem encodedLength_le (encoding : PositionEncoding) (text : List Char) :
    encodedLength encoding text ≤ byteLength text := by
  cases encoding with
  | utf8 => exact Nat.le_refl _
  | utf16 =>
      change utf16Len text ≤ byteLength text
      induction text with
      | nil => exact Nat.le_refl _
      | cons c text ih => exact Nat.add_le_add (utf16Units_le c) ih
  | utf32 =>
      change text.length ≤ byteLength text
      induction text with
      | nil => exact Nat.le_refl _
      | cons c text ih =>
          have := c.utf8Size_pos
          rw [List.length_cons, byteLength_cons]
          omega

/-- The part of a line that has a length in an encoding, and its bytes. -/
def MeasuredAt (encoding : PositionEncoding) (line : List Char) (character byte : Nat) : Prop :=
  ∃ before after, line = before ++ after ∧ encodedLength encoding before = character ∧
    byteLength before = byte

theorem utf32ToByteFrom_eq_some {target scalars bytes byte : Nat} {line : List Char} :
    utf32ToByteFrom target scalars bytes line = some byte ↔
      ∃ before after, line = before ++ after ∧ scalars + before.length = target ∧
        bytes + byteLength before = byte := by
  induction line generalizing scalars bytes with
  | nil =>
      rw [utf32ToByteFrom]
      constructor
      · intro h
        split at h
        · next hreached =>
            cases h
            exact ⟨[], [], rfl, hreached, rfl⟩
        · cases h
      · rintro ⟨before, after, hline, hcount, hbytes⟩
        obtain ⟨rfl, -⟩ := List.append_eq_nil_iff.mp hline.symm
        rw [if_pos (show scalars = target from hcount), ← hbytes]
        rfl
  | cons c line ih =>
      rw [utf32ToByteFrom]
      by_cases hreached : scalars = target
      · rw [if_pos hreached]
        constructor
        · intro h
          cases h
          exact ⟨[], c :: line, rfl, hreached, rfl⟩
        · rintro ⟨before, after, -, hcount, hbytes⟩
          have hnil : before = [] := List.length_eq_zero_iff.mp (by omega)
          subst hnil
          rw [← hbytes]
          rfl
      · rw [if_neg hreached, ih]
        constructor
        · rintro ⟨before, after, rfl, hcount, hbytes⟩
          refine ⟨c :: before, after, rfl, ?_, ?_⟩
          · rw [List.length_cons]
            omega
          · rw [byteLength_cons]
            omega
        · rintro ⟨before, after, hline, hcount, hbytes⟩
          cases before with
          | nil => exact absurd hcount hreached
          | cons d before =>
              obtain ⟨rfl, rfl⟩ := List.cons.inj hline
              rw [List.length_cons] at hcount
              rw [byteLength_cons] at hbytes
              exact ⟨before, after, rfl, by omega, by omega⟩

/-- A code unit starts a character, or the rope answers with a boundary of another unit. -/
theorem byteOfUtf16CodeUnit_cases (up : Bool) {unit : Nat} {line : List Char}
    (h : unit ≤ utf16Len line) :
    ∃ before after, line = before ++ after ∧
      byteLength before = byteOfUtf16CodeUnit up unit line ∧
      (utf16Len before = unit ∨
        ∀ other rest, line = other ++ rest → utf16Len other ≠ unit) := by
  induction line generalizing unit with
  | nil => exact ⟨[], [], rfl, rfl, .inl (Nat.le_zero.mp h).symm⟩
  | cons c line ih =>
      rw [byteOfUtf16CodeUnit]
      by_cases hzero : unit = 0
      · exact ⟨[], c :: line, rfl, (if_pos hzero).symm, .inl hzero.symm⟩
      rw [if_neg hzero]
      by_cases hinside : unit < utf16Units c
      · have hnone : ∀ other rest, c :: line = other ++ rest → utf16Len other ≠ unit := by
          intro other rest hline hunit
          cases other with
          | nil => exact hzero hunit.symm
          | cons d other =>
              obtain ⟨rfl, -⟩ := List.cons.inj hline
              rw [utf16Len_cons] at hunit
              omega
        rw [if_pos hinside]
        cases up with
        | true => exact ⟨[c], line, rfl, rfl, .inr hnone⟩
        | false => exact ⟨[], c :: line, rfl, rfl, .inr hnone⟩
      · rw [if_neg hinside]
        rw [utf16Len_cons] at h
        obtain ⟨before, after, rfl, hbytes, hunit⟩ := @ih (unit - utf16Units c) (by omega)
        refine ⟨c :: before, after, rfl, by rw [byteLength_cons, hbytes], ?_⟩
        rcases hunit with hunit | hnone
        · exact .inl (by rw [utf16Len_cons]; omega)
        · refine .inr fun other rest hline hother => ?_
          cases other with
          | nil => exact hzero hother.symm
          | cons d other =>
              obtain ⟨rfl, htail⟩ := List.cons.inj hline
              rw [utf16Len_cons] at hother
              exact hnone other rest htail (by omega)

theorem utf16CodeUnitOfByte_append (before after : List Char) :
    utf16CodeUnitOfByte (byteLength before) (before ++ after) = .ok (utf16Len before) := by
  rw [utf16CodeUnitOfByte, splitAtByte_append]

/-- A character of a line is found exactly when a part of the line has that length. -/
theorem relativeOffset_spec (up : Bool) (encoding : PositionEncoding) (line : List Char)
    (character : Nat) : ∃ result, relativeOffset up encoding line character = .ok result ∧
      ∀ byte, result = some byte ↔ MeasuredAt encoding line character byte := by
  cases encoding with
  | utf8 =>
      rw [relativeOffset]
      cases hsplit : splitAtByte character line with
      | some sides =>
          obtain ⟨before, after⟩ := sides
          obtain ⟨rfl, hlength⟩ := splitAtByte_eq_some_iff.mp hsplit
          have hfound : ¬(byteLength (before ++ after) < character ∨
              (!isCharBoundary character (before ++ after)) = true) := by
            have hboundary : isCharBoundary character (before ++ after) = true := by
              rw [isCharBoundary, hsplit]
              rfl
            rw [hboundary, byteLength_append]
            rintro (hshort | hboundary)
            · omega
            · cases hboundary
          refine ⟨some character, if_neg hfound, fun byte => ?_⟩
          rw [Option.some.injEq]
          constructor
          · rintro rfl
            exact ⟨before, after, rfl, hlength, hlength⟩
          · rintro ⟨other, rest, -, hcharacter, hbyte⟩
            exact hcharacter.symm.trans hbyte
      | none =>
          have hboundary : isCharBoundary character line = false := by
            rw [isCharBoundary, hsplit]
            rfl
          refine ⟨none, if_pos (.inr (by rw [hboundary]; rfl)), fun byte =>
            iff_of_false (fun h => by cases h) ?_⟩
          · rintro ⟨before, after, rfl, hcharacter, -⟩
            change byteLength before = character at hcharacter
            rw [← hcharacter, splitAtByte_append] at hsplit
            cases hsplit
  | utf16 =>
      rw [relativeOffset]
      by_cases hlong : utf16Len line < character
      · refine ⟨none, if_pos hlong, fun byte => iff_of_false (fun h => by cases h) ?_⟩
        rintro ⟨before, after, rfl, hcharacter, -⟩
        change utf16Len before = character at hcharacter
        rw [utf16Len_append] at hlong
        omega
      · obtain ⟨before, after, hline, hbytes, hunit⟩ :=
          byteOfUtf16CodeUnit_cases up (Nat.le_of_not_lt hlong)
        have hread : utf16CodeUnitOfByte (byteLength before) line = .ok (utf16Len before) := by
          rw [hline]
          exact utf16CodeUnitOfByte_append before after
        rw [if_neg hlong, ← hbytes]
        simp only [hread, bind, Except.bind]
        rcases hunit with hunit | hnone
        · refine ⟨some (byteLength before), if_neg (not_not.mpr hunit), fun byte => ?_⟩
          rw [Option.some.injEq]
          constructor
          · rintro rfl
            exact ⟨before, after, hline, hunit, rfl⟩
          · rintro ⟨other, rest, hother, hcharacter, rfl⟩
            rw [append_inj_of_utf16Len (hline.symm.trans hother) (hunit.trans hcharacter.symm)]
        · refine ⟨none, if_pos (hnone before after hline), fun byte =>
            iff_of_false (fun h => by cases h) ?_⟩
          rintro ⟨other, rest, hother, hcharacter, -⟩
          exact hnone other rest hother hcharacter
  | utf32 =>
      refine ⟨utf32ToByte line character, rfl, fun byte => ?_⟩
      rw [utf32ToByte, utf32ToByteFrom_eq_some]
      simp only [Nat.zero_add]
      exact Iff.rfl

end Encodings

section Positions

/-- The offset that a position stands for: behind the lines before it and the part of its line
that has the length of the position's character. -/
def Denotes (text : List Char) (encoding : PositionEncoding) (position : TextPosition)
    (offset : Nat) : Prop :=
  ∃ front content rest byte, LineAt text position.line.toNat front content rest ∧
    MeasuredAt encoding content position.character.toNat byte ∧
    offset = byteLength front + byte

/-- An offset on a boundary that is not between a carriage return and a line feed. -/
def Addressable (text : List Char) (offset : Nat) : Prop :=
  ∃ before after, text = before ++ after ∧ byteLength before = offset ∧
    ¬(before.getLast? = some '\r' ∧ after.head? = some '\n')

theorem tryU32_eq_ok_iff {number : Nat} {value : UInt32} :
    tryU32 number = .ok value ↔ value.toNat = number := by
  rw [tryU32]
  constructor
  · intro h
    split at h
    · next hsmall =>
        cases h
        exact UInt32.toNat_ofNat_of_lt hsmall
    · cases h
  · rintro rfl
    rw [if_pos value.toNat_lt, UInt32.ofNat_toNat]

theorem tryU32_ne_panic (number : Nat) : tryU32 number ≠ .error .panic := by
  rw [tryU32]
  split <;> exact fun h => by cases h

variable {text : List Char} {encoding : PositionEncoding}

/-- The offset of a position, once its line is known. -/
theorem offset_lineAt (up : Bool) (position : TextPosition) (encoding : PositionEncoding)
    {front content rest : List Char}
    (h : LineAt text position.line.toNat front content rest) :
    ∃ result, (∀ byte, result = some byte ↔
        MeasuredAt encoding content position.character.toNat byte) ∧
      offset up text position encoding = match result with
        | none => .error (.error (.invalidPosition position))
        | some relative => tryU32 (byteLength front + relative) := by
  obtain ⟨result, hresult, hspec⟩ :=
    relativeOffset_spec up encoding content position.character.toNat
  have hslice : byteSlice (byteLength front) (byteLength front + byteLength content) text =
      .ok content := by
    rw [h.eq]
    exact byteSlice_append front content rest
  refine ⟨result, hspec, ?_⟩
  rw [offset, lineContentRange_lineAt h]
  change (byteSlice (byteLength front) (byteLength front + byteLength content) text >>=
    fun line => _) = _
  rw [hslice]
  change (relativeOffset up encoding content position.character.toNat >>= fun relative => _) = _
  rw [hresult]
  cases result with
  | none => rfl
  | some relative => rfl

/-- A position is converted to the offset that it denotes, and to nothing else. -/
theorem offset_eq_ok_iff (up : Bool) {position : TextPosition} {value : UInt32} :
    offset up text position encoding = .ok value ↔
      Denotes text encoding position value.toNat := by
  constructor
  · intro h
    rcases lineContentRange_cases text position.line.toNat with
      ⟨front, content, rest, hline⟩ | ⟨-, hnone⟩
    · obtain ⟨result, hspec, hoffset⟩ := offset_lineAt up position encoding hline
      rw [hoffset] at h
      cases result with
      | none => cases h
      | some byte =>
          exact ⟨front, content, rest, byte, hline, (hspec byte).mp rfl,
            tryU32_eq_ok_iff.mp h⟩
    · simp only [offset, hnone, bind, Except.bind] at h
      cases h
  · rintro ⟨front, content, rest, byte, hline, hmeasured, hvalue⟩
    obtain ⟨result, hspec, hoffset⟩ := offset_lineAt up position encoding hline
    rw [hoffset, (hspec byte).mpr hmeasured]
    exact tryU32_eq_ok_iff.mpr hvalue

theorem offset_ne_panic (up : Bool) (position : TextPosition) :
    offset up text position encoding ≠ .error .panic := by
  rcases lineContentRange_cases text position.line.toNat with
    ⟨front, content, rest, hline⟩ | ⟨-, hnone⟩
  · obtain ⟨result, -, hoffset⟩ := offset_lineAt up position encoding hline
    rw [hoffset]
    cases result with
    | none => exact fun h => by cases h
    | some byte => exact tryU32_ne_panic _
  · simp only [offset, hnone, bind, Except.bind]
    exact fun h => by cases h

/-- A text is cut behind its last line feed. -/
theorem exists_lastLine (text : List Char) : ∃ front line, text = front ++ line ∧
    '\n' ∉ line ∧ (front = [] ∨ ∃ before, front = before ++ ['\n']) := by
  induction text using List.reverseRecOn with
  | nil => exact ⟨[], [], rfl, List.not_mem_nil, .inl rfl⟩
  | append_singleton text c ih =>
      by_cases hc : c = '\n'
      · subst hc
        exact ⟨text ++ ['\n'], [], (List.append_nil _).symm, List.not_mem_nil, .inr ⟨text, rfl⟩⟩
      · obtain ⟨front, line, rfl, hline, hfront⟩ := ih
        refine ⟨front, line ++ [c], List.append_assoc _ _ _, fun hmem => ?_, hfront⟩
        rcases List.mem_append.mp hmem with hmem | hmem
        · exact hline hmem
        · exact hc (List.mem_singleton.mp hmem).symm

/-- An addressable offset is within the content of its line. -/
theorem Addressable.lineAt {value : Nat} (h : Addressable text value) :
    ∃ front line after rest, LineAt text (front.count '\n') front (line ++ after) rest ∧
      text = (front ++ line) ++ (after ++ rest) ∧ value = byteLength front + byteLength line ∧
      (front ++ line).count '\n' = front.count '\n' := by
  obtain ⟨before, behind, rfl, rfl, hbreak⟩ := h
  obtain ⟨front, line, rfl, hline, hfront⟩ := exists_lastLine before
  have hcount : (front ++ line).count '\n' = front.count '\n' := by
    rw [List.count_append, List.count_eq_zero.mpr hline, Nat.add_zero]
  have hle : front.count '\n' ≤ (front ++ line ++ behind).count '\n' := by
    rw [List.count_append, hcount]
    exact Nat.le_add_right _ _
  obtain ⟨front', content, rest, hlineAt⟩ := exists_lineAt hle
  have hsplit := splitAtLine_append hlineAt.start (content ++ rest)
  rw [hlineAt.count, ← hlineAt.eq, List.append_assoc, splitAtLine_append hfront,
    Option.some.injEq, Prod.mk.injEq] at hsplit
  obtain ⟨rfl, hback⟩ := hsplit
  -- the line goes at most to the end of the content
  have hprefix : ∃ after, content = line ++ after ∧ behind = after ++ rest := by
    rcases List.append_eq_append_iff.mp hback with ⟨after, hcontent, hbehind⟩ |
      ⟨past, hpast, hrest⟩
    · exact ⟨after, hcontent, hbehind⟩
    · have hnot : '\n' ∉ past := fun hmem => hline (hpast ▸ List.mem_append_right _ hmem)
      rcases hlineAt.ending with rfl | ⟨more, rfl⟩ | ⟨more, rfl, -⟩
      · obtain ⟨rfl, rfl⟩ := List.append_eq_nil_iff.mp hrest.symm
        exact ⟨[], by rw [hpast, List.append_nil, List.append_nil], rfl⟩
      · cases past with
        | nil => exact ⟨[], by rw [hpast, List.append_nil, List.append_nil], hrest.symm⟩
        | cons c past =>
            obtain ⟨rfl, htail⟩ := List.cons.inj hrest
            cases past with
            | nil =>
                refine absurd ⟨?_, ?_⟩ hbreak
                · rw [hpast, ← List.append_assoc, List.getLast?_concat]
                · rw [← show '\n' :: more = behind from htail]
                  rfl
            | cons d past =>
                obtain ⟨rfl, -⟩ := List.cons.inj htail
                exact absurd (List.mem_cons_of_mem _ List.mem_cons_self) hnot
      · cases past with
        | nil => exact ⟨[], by rw [hpast, List.append_nil, List.append_nil], hrest.symm⟩
        | cons c past =>
            obtain ⟨rfl, -⟩ := List.cons.inj hrest
            exact absurd List.mem_cons_self hnot
  obtain ⟨after, rfl, rfl⟩ := hprefix
  exact ⟨front, line, after, rest, hlineAt, rfl, byteLength_append _ _, hcount⟩

/-- The position of an addressable offset denotes it. -/
theorem position_of_addressable (encoding : PositionEncoding) {value : UInt32}
    (h : Addressable text value.toNat) :
    ∃ result, position text value encoding = .ok result ∧
      Denotes text encoding result value.toNat := by
  obtain ⟨front, line, after, rest, hlineAt, htext, hvalue, hcount⟩ := h.lineAt
  have hsplit : splitAtByte value.toNat text = some (front ++ line, after ++ rest) := by
    rw [htext, hvalue, ← byteLength_append, splitAtByte_append]
  have hboundary : isCharBoundary value.toNat text = true := by
    rw [isCharBoundary, hsplit]
    rfl
  have hlength : value.toNat ≤ byteLength text := by
    rw [htext, hvalue, byteLength_append, byteLength_append]
    omega
  have hcheck : ¬(byteLength text < value.toNat ∨ (!isCharBoundary value.toNat text) = true) := by
    rw [hboundary]
    rintro (hlong | hnot)
    · omega
    · cases hnot
  have hlineOfByte : lineOfByte value.toNat text = .ok (front.count '\n') := by
    rw [lineOfByte, hsplit, ← hcount]
  have hend : ¬ byteLength front + byteLength (line ++ after) < value.toNat := by
    rw [hvalue, byteLength_append]
    omega
  have hslice : byteSlice (byteLength front) value.toNat text = .ok line := by
    rw [htext, hvalue, List.append_assoc]
    exact byteSlice_append front line (after ++ rest)
  have hsmall := value.toNat_lt
  have hline : tryU32 (front.count '\n') = .ok (.ofNat (front.count '\n')) := by
    have := count_le_byteLength front
    rw [tryU32, if_pos (by omega)]
  have hcharacter : tryU32 (encodedLength encoding line) =
      .ok (.ofNat (encodedLength encoding line)) := by
    have := encodedLength_le encoding line
    rw [tryU32, if_pos (by omega)]
  refine ⟨⟨.ofNat (front.count '\n'), .ofNat (encodedLength encoding line)⟩, ?_, ?_⟩
  · rw [position, if_neg hcheck]
    simp only [hlineOfByte, lineContentRange_lineAt hlineAt, if_neg hend, hslice, hline,
      hcharacter, bind, Except.bind]
  · refine ⟨front, line ++ after, rest, byteLength line, ?_, ?_, hvalue⟩
    · rw [tryU32_eq_ok_iff.mp hline]
      exact hlineAt
    · rw [tryU32_eq_ok_iff.mp hcharacter]
      exact ⟨line, after, rfl, rfl, rfl⟩

end Positions

section Edits

/-- A text with edits spliced in one after another, each ranged in the text before it. -/
inductive Spliced : List Char → List TextEdit → List Char → Prop
  | nil {text : List Char} : Spliced text [] text
  | replace {before middle after replacement result : List Char} {range : TextRange}
      {edits : List TextEdit} (hstart : byteLength before = range.start.toNat)
      (hstop : byteLength (before ++ middle) = range.stop.toNat)
      (h : Spliced (before ++ (replacement ++ after)) edits result) :
      Spliced (before ++ (middle ++ after)) (.replace range replacement :: edits) result
  | full {old text result : List Char} {edits : List TextEdit} (h : Spliced text edits result) :
      Spliced old (.full text :: edits) result

/-- A range is valid exactly when it cuts the text in three. -/
theorem validateRange_cases (text : List Char) (range : TextRange) :
    (∃ before middle after, text = before ++ (middle ++ after) ∧
      byteLength before = range.start.toNat ∧
      byteLength (before ++ middle) = range.stop.toNat ∧
      validateRange text range = .ok (range.start.toNat, range.stop.toNat)) ∨
    ((∀ before middle after, text = before ++ (middle ++ after) →
        byteLength before = range.start.toNat →
        byteLength (before ++ middle) ≠ range.stop.toNat) ∧
      ∃ error, validateRange text range = .error (.error error)) := by
  by_cases hbad : range.stop.toNat < range.start.toNat ∨ byteLength text < range.stop.toNat ∨
      (!isCharBoundary range.start.toNat text) = true ∨
      (!isCharBoundary range.stop.toNat text) = true
  · refine .inr ⟨?_, _, if_pos hbad⟩
    rintro before middle after rfl hstart hstop
    have hfirst : isCharBoundary range.start.toNat (before ++ (middle ++ after)) = true := by
      rw [← hstart, isCharBoundary, splitAtByte_append]
      rfl
    have hlast : isCharBoundary range.stop.toNat (before ++ (middle ++ after)) = true := by
      rw [← hstop, ← List.append_assoc, isCharBoundary, splitAtByte_append]
      rfl
    rw [hfirst, hlast] at hbad
    simp only [byteLength_append] at hbad hstop
    simp only [Bool.not_true, Bool.false_eq_true, or_false] at hbad
    omega
  · simp only [not_or, Nat.not_lt, Bool.not_eq_true, Bool.not_eq_false'] at hbad
    obtain ⟨hle, hlength, hfirst, hlast⟩ := hbad
    obtain ⟨⟨before, rest⟩, hstart⟩ := Option.isSome_iff_exists.mp hfirst
    obtain ⟨⟨front, after⟩, hstop⟩ := Option.isSome_iff_exists.mp hlast
    obtain ⟨rfl, hbefore⟩ := splitAtByte_eq_some_iff.mp hstart
    obtain ⟨htext, hfront⟩ := splitAtByte_eq_some_iff.mp hstop
    obtain ⟨middle, rfl, rfl⟩ := append_split_of_byteLength_le htext (by omega)
    refine .inl ⟨before, middle, after, rfl, hbefore, hfront, ?_⟩
    refine if_neg ?_
    simp only [not_or, Nat.not_lt, Bool.not_eq_true, Bool.not_eq_false']
    exact ⟨hle, hlength, hfirst, hlast⟩

theorem replaceBytes_append (before middle after replacement : List Char) :
    replaceBytes (byteLength before) (byteLength (before ++ middle)) replacement
      (before ++ (middle ++ after)) = .ok (before ++ (replacement ++ after)) := by
  rw [replaceBytes, ← List.append_assoc, splitAtByte_append]
  simp only [splitAtByte_append]

/-- Edits either splice the text, or fail with an error when they cannot. -/
theorem apply_cases (text : List Char) (edits : List TextEdit) :
    (∃ result, apply text edits = .ok result ∧ Spliced text edits result) ∨
      ((∀ result, ¬ Spliced text edits result) ∧
        ∃ error, apply text edits = .error (.error error)) := by
  induction edits generalizing text with
  | nil => exact .inl ⟨text, rfl, .nil⟩
  | cons edit edits ih =>
      cases edit with
      | full new =>
          rcases ih new with ⟨result, happly, hspliced⟩ | ⟨hnone, error, happly⟩
          · exact .inl ⟨result, happly, .full hspliced⟩
          · refine .inr ⟨fun result h => ?_, error, happly⟩
            cases h with
            | full h => exact hnone result h
      | replace range replacement =>
          rcases validateRange_cases text range with
            ⟨before, middle, after, rfl, hstart, hstop, hvalid⟩ | ⟨hnone, error, hinvalid⟩
          · have hreplace := replaceBytes_append before middle after replacement
            rw [hstart, hstop] at hreplace
            have hstep : apply (before ++ (middle ++ after)) (.replace range replacement :: edits) =
                apply (before ++ (replacement ++ after)) edits := by
              simp only [apply, applyEdit, hvalid, hreplace, bind, Except.bind]
            rw [hstep]
            rcases ih (before ++ (replacement ++ after)) with
              ⟨result, happly, hspliced⟩ | ⟨hnone, error, happly⟩
            · exact .inl ⟨result, happly, .replace hstart hstop hspliced⟩
            · refine .inr ⟨fun result h => ?_, error, happly⟩
              generalize htext : before ++ (middle ++ after) = text at h
              cases h with
              | @replace before' middle' after' _ _ _ _ hstart' hstop' h =>
                  obtain ⟨rfl, hback⟩ :=
                    append_inj_of_byteLength htext (hstart.trans hstart'.symm)
                  rw [byteLength_append] at hstop hstop'
                  obtain ⟨rfl, rfl⟩ := append_inj_of_byteLength hback (by omega)
                  exact hnone result h
          · refine .inr ⟨fun result h => ?_, error, ?_⟩
            · cases h with
              | replace hstart hstop _ => exact hnone _ _ _ rfl hstart hstop
            · simp only [apply, applyEdit, hinvalid, bind, Except.bind]

end Edits

/-- Every addressable offset comes back from its position. -/
def RoundTrips (up : Bool) (text : List Char) : Prop :=
  ∀ encoding (value : UInt32), Addressable text value.toNat →
    ∃ result, position text value encoding = .ok result ∧
      offset up text result encoding = .ok value

/-- Every position gives the offset that it denotes, or an error when it denotes none of 32
bits. -/
def PositionsExact (up : Bool) (text : List Char) : Prop :=
  ∀ encoding location,
    (∃ value, offset up text location encoding = .ok value ∧
      Denotes text encoding location value.toNat) ∨
    ((∀ value : UInt32, ¬ Denotes text encoding location value.toNat) ∧
      ∃ error, offset up text location encoding = .error (.error error))

/-- All edits are spliced in, or there is an error and no new text. -/
def EditsExact (text : List Char) : Prop :=
  ∀ edits,
    (∃ result, apply text edits = .ok result ∧ Spliced text edits result) ∨
    ((∀ result, ¬ Spliced text edits result) ∧
      ∃ error, apply text edits = .error (.error error))

/-- Positions and edits are exact, however the rope rounds within a surrogate pair. -/
theorem document_exact (up : Bool) (text : List Char) :
    RoundTrips up text ∧ PositionsExact up text ∧ EditsExact text := by
  refine ⟨fun encoding value haddressable => ?_, fun encoding location => ?_, apply_cases text⟩
  · obtain ⟨result, hposition, hdenotes⟩ := position_of_addressable encoding haddressable
    exact ⟨result, hposition, (offset_eq_ok_iff up).mpr hdenotes⟩
  · cases hoffset : offset up text location encoding with
    | ok value => exact .inl ⟨value, rfl, (offset_eq_ok_iff up).mp hoffset⟩
    | error failure =>
        refine .inr ⟨fun value hdenotes => ?_, ?_⟩
        · rw [(offset_eq_ok_iff up).mpr hdenotes] at hoffset
          cases hoffset
        · cases failure with
          | panic => exact absurd hoffset (offset_ne_panic up location)
          | error error => exact ⟨error, rfl⟩

end Telora.Documents
