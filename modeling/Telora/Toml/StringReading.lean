import Telora.Toml.Strings

/-!
# Reading basic strings

The decoder takes the pieces of a literal one by one. What it keeps of them is compared with
what they denote.
-/

namespace Telora.Toml

open Library

variable {multiline : Bool}

section Steps

/-- A text from which white space is taken, when it follows a line-ending backslash. -/
def trimIf (continued : Bool) (text : List Char) : List Char :=
  if continued then text.dropWhile isWhitespaceChar else text

/-- What is kept of a piece, and whether the decoder is behind a line-ending backslash then. -/
def keptOf (continued : Bool) : Piece multiline → List Char × Bool
  | .raw c _ => if continued && isWhitespaceChar c then ([], true) else ([c], false)
  | .newline crlf _ => if continued then ([], true) else (lineBreak crlf, false)
  | .escape _ c _ => ([c], false)
  | .continuation _ _ _ _ _ _ => ([], true)
  | .unknown _ _ _ => ([], false)
  | .badScalar _ _ => ([], false)
  | .loneReturn _ => ([], true)

/-- What is kept of all pieces. -/
def keptText : Bool → List (Piece multiline) → List Char
  | _, [] => []
  | continued, piece :: rest =>
      (keptOf continued piece).1 ++ keptText (keptOf continued piece).2 rest

theorem trimIf_cons {c : Char} (hc : isWhitespaceChar c = false) (continued : Bool)
    (text : List Char) : trimIf continued (c :: text) = c :: text := by
  cases continued with
  | false => rfl
  | true => exact List.dropWhile_cons_of_neg (by rw [hc]; exact Bool.false_ne_true)

theorem trimIf_append {front : List Char} (h : ∀ c ∈ front, isWhitespaceChar c = true)
    (text : List Char) : trimIf true (front ++ text) = trimIf true text :=
  List.dropWhile_append_of_pos h

theorem length_trimIf_le (continued : Bool) (text : List Char) :
    (trimIf continued text).length ≤ text.length := by
  cases continued with
  | false => exact Nat.le_refl _
  | true => exact (List.dropWhile_sublist _).length_le

theorem isWhitespace_lineBreak (crlf : Bool) : ∀ c ∈ lineBreak crlf, isWhitespaceChar c = true := by
  cases crlf <;> simp [lineBreak, isWhitespaceChar]

theorem isWhitespace_of_isBlank {c : Char} (h : isBlank c = true) : isWhitespaceChar c = true := by
  simp only [isBlank, Bool.or_eq_true, decide_eq_true_eq] at h
  rcases h with rfl | rfl <;> rfl

theorem Trail.isWhitespace {trail : List Char} (h : Trail trail) :
    ∀ c ∈ trail, isWhitespaceChar c = true := by
  induction h with
  | nil => exact fun c hmem => absurd hmem List.not_mem_nil
  | blank hblank _ ih =>
      intro c hmem
      rcases List.mem_cons.mp hmem with rfl | hmem
      · exact isWhitespace_of_isBlank hblank
      · exact ih c hmem
  | lineBreak crlf _ ih =>
      intro c hmem
      rcases List.mem_append.mp hmem with hmem | hmem
      · exact isWhitespace_lineBreak crlf c hmem
      · exact ih c hmem

theorem shortEscape_of_mem {letter c : Char} (h : (letter, c) ∈ shortEscapes) :
    shortEscape letter = some c ∧ letter ∉ ['u', 'U'] ∧ letter ∉ ['\n', '\r'] := by
  simp only [shortEscapes, List.mem_cons, Prod.mk.injEq, List.not_mem_nil, or_false] at h
  rcases h with ⟨rfl, rfl⟩ | ⟨rfl, rfl⟩ | ⟨rfl, rfl⟩ | ⟨rfl, rfl⟩ | ⟨rfl, rfl⟩ | ⟨rfl, rfl⟩ |
    ⟨rfl, rfl⟩ <;> exact ⟨rfl, by decide, by decide⟩

theorem unicode_letter {letter : Char} {count : Nat}
    (h : (letter, count) ∈ [('u', 4), ('U', 8)]) :
    letter ∈ ['u', 'U'] ∧ letter ∉ ['\n', '\r'] ∧ (if letter = 'u' then 4 else 8) = count ∧
      count ≤ 8 := by
  simp only [List.mem_cons, Prod.mk.injEq, List.not_mem_nil, or_false] at h
  rcases h with ⟨rfl, rfl⟩ | ⟨rfl, rfl⟩ <;> decide

/-- Up to eight digits stay in 32 bits. -/
theorem unicodeValue_digits {digits : List Char} (h : ∀ c ∈ digits, digitValue c < 16)
    (rest : List Char) {value : Nat} {before : Nat} (hvalue : value < 16 ^ before)
    (hlength : before + digits.length ≤ 8) :
    unicodeValue digits.length value (digits ++ rest) =
      .ok (digits.foldl (fun value c => value * 16 + digitValue c) value, rest) := by
  induction digits generalizing value before with
  | nil => rfl
  | cons c digits ih =>
      have hc := h c List.mem_cons_self
      have hnext : value * 16 + digitValue c < 16 ^ (before + 1) := by
        rw [Nat.pow_succ]
        omega
      rw [List.length_cons] at hlength
      have hpow : 16 ^ (before + 1) ≤ 16 ^ 8 := Nat.pow_le_pow_right (by decide) (by omega)
      have hsmall : value * 16 + digitValue c < 2 ^ 32 := by omega
      rw [List.length_cons, List.cons_append, unicodeValue, toDigit_eq (by decide), if_pos hc]
      simp only [if_pos hsmall, List.foldl_cons]
      exact ih (fun d hmem => h d (List.mem_cons_of_mem _ hmem)) hnext (by omega)

theorem unicodeValue_numeral {count : Nat} {digits : List Char} (hlength : digits.length = count)
    (hcount : count ≤ 8) (h : Digits 16 digits) (rest : List Char) :
    unicodeValue count 0 (digits ++ rest) = .ok (numeral 16 digits, rest) := by
  subst hlength
  exact unicodeValue_digits h.digit rest (by decide : 0 < 16 ^ 0) (by omega)

theorem decodeCharacters_raw {c : Char} (hc : c ≠ '\\') (fuel : Nat) (text : List Char) :
    decodeCharacters multiline (fuel + 1) (c :: text) =
      (c :: ·) <$> decodeCharacters multiline fuel text := by
  rw [decodeCharacters.eq_def]
  exact if_pos hc

theorem decodeCharacters_line {c : Char} (hline : multiline = true) (hc : c ∈ ['\n', '\r'])
    (fuel : Nat) (text : List Char) :
    decodeCharacters multiline (fuel + 1) ('\\' :: c :: text) =
      decodeCharacters multiline fuel (trimIf true (dropLineBreak (c :: text))) := by
  have htest : (multiline && (c :: text).head?.any (· ∈ ['\n', '\r'])) = true := by
    rw [List.head?_cons, Option.any_some, hline, decide_eq_true hc]
    rfl
  rw [decodeCharacters.eq_def]
  exact (if_neg (by decide)).trans (if_pos htest)

/-- Behind a backslash that ends no line comes an escape. -/
theorem decodeCharacters_escape {c : Char} (hc : multiline = true → c ∉ ['\n', '\r']) (fuel : Nat)
    (text : List Char) :
    decodeCharacters multiline (fuel + 1) ('\\' :: c :: text) =
      if c ∈ ['u', 'U'] then do
        let (value, text) ← unicodeValue (if c = 'u' then 4 else 8) 0 text
        let scalar ← unicodeScalar value
        (scalar :: ·) <$> decodeCharacters multiline fuel text
      else match shortEscape c with
        | some value => (value :: ·) <$> decodeCharacters multiline fuel text
        | none => .error "unknown TOML escape" := by
  have hline : (multiline && (c :: text).head?.any (· ∈ ['\n', '\r'])) = false := by
    rw [List.head?_cons, Option.any_some]
    cases multiline with
    | false => rfl
    | true => rw [decide_eq_false (hc rfl), Bool.and_false]
  rw [decodeCharacters.eq_def]
  exact (if_neg (by decide)).trans (if_neg (by rw [hline]; exact Bool.false_ne_true))

theorem map_append_nil (x : Except String (List Char)) : ([] ++ ·) <$> x = x := by
  cases x <;> rfl

/-- A piece that can be decoded is taken off the text. -/
theorem decodeCharacters_piece {piece : Piece multiline}
    (h : piece.decodes = true ∨ ∃ c hc, piece = .raw c hc) (continued : Bool) {fuel : Nat}
    {rest : List Char} (hfuel : (trimIf continued (piece.text ++ rest)).length < fuel) :
    ∃ fuel', (trimIf (keptOf continued piece).2 rest).length < fuel' ∧
      decodeCharacters multiline fuel (trimIf continued (piece.text ++ rest)) =
        ((keptOf continued piece).1 ++ ·) <$>
          decodeCharacters multiline fuel' (trimIf (keptOf continued piece).2 rest) := by
  cases piece with
  | raw c hraw =>
      have hc : c ≠ '\\' := by
        rintro rfl
        cases multiline <;> cases hraw
      by_cases hspace : (continued && isWhitespaceChar c) = true
      · have hkept : keptOf continued (.raw c hraw) = ([], true) := if_pos hspace
        rw [Bool.and_eq_true] at hspace
        obtain ⟨rfl, hwhite⟩ := hspace
        have htrim : trimIf true ((Piece.raw c hraw).text ++ rest) = trimIf true rest :=
          trimIf_append (fun d hmem => (List.mem_singleton.mp hmem) ▸ hwhite) rest
        rw [htrim] at hfuel ⊢
        rw [hkept]
        exact ⟨fuel, hfuel, (map_append_nil _).symm⟩
      · have hkept : keptOf continued (.raw c hraw) = ([c], false) := if_neg hspace
        have htrim : trimIf continued ((Piece.raw c hraw).text ++ rest) = c :: rest := by
          cases continued with
          | false => rfl
          | true => exact trimIf_cons (by simpa using hspace) true rest
        rw [htrim] at hfuel ⊢
        rw [hkept]
        cases fuel with
        | zero => cases hfuel
        | succ fuel =>
            exact ⟨fuel, Nat.lt_of_succ_lt_succ hfuel, decodeCharacters_raw hc fuel rest⟩
  | newline crlf hline =>
      cases continued with
      | true =>
          have htrim : trimIf true ((Piece.newline crlf hline).text ++ rest) = trimIf true rest :=
            trimIf_append (isWhitespace_lineBreak crlf) rest
          rw [htrim] at hfuel ⊢
          exact ⟨fuel, hfuel, (map_append_nil _).symm⟩
      | false =>
          change (lineBreak crlf ++ rest).length < fuel at hfuel
          change ∃ fuel', rest.length < fuel' ∧ decodeCharacters multiline fuel
            (lineBreak crlf ++ rest) = (lineBreak crlf ++ ·) <$> _
          cases fuel with
          | zero => cases hfuel
          | succ fuel =>
              cases crlf with
              | false =>
                  exact ⟨fuel, Nat.lt_of_succ_lt_succ hfuel,
                    decodeCharacters_raw (by decide) fuel rest⟩
              | true =>
                  cases fuel with
                  | zero => exact absurd hfuel (by simp [lineBreak])
                  | succ fuel =>
                      refine ⟨fuel, Nat.lt_of_succ_lt_succ (Nat.lt_of_succ_lt_succ hfuel), ?_⟩
                      change decodeCharacters multiline (fuel + 1 + 1) ('\r' :: '\n' :: rest) = _
                      rw [decodeCharacters_raw (by decide), decodeCharacters_raw (by decide)]
                      change _ = (lineBreak true ++ ·) <$> decodeCharacters multiline fuel rest
                      cases decodeCharacters multiline fuel rest <;> rfl
  | escape text c hescape =>
      have htrim : trimIf continued ((@Piece.escape multiline text c hescape).text ++ rest) =
          '\\' :: (text ++ rest) := trimIf_cons rfl continued _
      rw [htrim] at hfuel ⊢
      change ∃ fuel', rest.length < fuel' ∧ _ =
        ([c] ++ ·) <$> decodeCharacters multiline fuel' rest
      cases fuel with
      | zero => cases hfuel
      | succ fuel =>
          rw [List.length_cons, List.length_append] at hfuel
          refine ⟨fuel, by omega, ?_⟩
          cases hescape with
          | @short letter _ hshort =>
              obtain ⟨hvalue, hunicode, hline⟩ := shortEscape_of_mem hshort
              change decodeCharacters multiline (fuel + 1) ('\\' :: letter :: rest) = _
              rw [decodeCharacters_escape (fun _ => hline), if_neg hunicode, hvalue]
              rfl
          | @unicode letter _ count digits hletter hlength hdigits hvalue =>
              obtain ⟨hunicode, hline, hcount, hbound⟩ := unicode_letter hletter
              change decodeCharacters multiline (fuel + 1) ('\\' :: letter :: (digits ++ rest)) = _
              rw [decodeCharacters_escape (fun _ => hline), if_pos hunicode, hcount,
                unicodeValue_numeral hlength hbound hdigits, hvalue]
              change (unicodeScalar c.toNat >>= fun scalar =>
                (scalar :: ·) <$> decodeCharacters multiline fuel rest) = _
              have hscalar : unicodeScalar c.toNat = .ok c := by
                rw [unicodeScalar, if_pos (show c.toNat.isValidChar from c.valid), Char.ofNat_toNat]
              rw [hscalar]
              rfl
  | continuation blanks crlf trail hline hblanks htrail =>
      have hnil : blanks = [] := by
        rcases h with h | ⟨c, hc, h⟩
        · exact of_decide_eq_true h
        · cases h
      subst hnil
      have htext : (Piece.continuation [] crlf trail hline hblanks htrail).text ++ rest =
          '\\' :: (lineBreak crlf ++ (trail ++ rest)) := by
        rw [Piece.text, List.nil_append, List.cons_append, List.append_assoc]
      rw [htext, trimIf_cons rfl] at hfuel ⊢
      change ∃ fuel', (trimIf true rest).length < fuel' ∧ _ =
        ([] ++ ·) <$> decodeCharacters multiline fuel' (trimIf true rest)
      have hrest := length_trimIf_le true rest
      cases fuel with
      | zero => cases hfuel
      | succ fuel =>
          rw [List.length_cons, List.length_append, List.length_append] at hfuel
          refine ⟨fuel, by omega, ?_⟩
          rw [map_append_nil]
          cases crlf with
          | false =>
              change decodeCharacters multiline (fuel + 1) ('\\' :: '\n' :: (trail ++ rest)) = _
              rw [decodeCharacters_line hline (by decide)]
              exact congrArg _ (trimIf_append htrail.isWhitespace rest)
          | true =>
              change decodeCharacters multiline (fuel + 1)
                ('\\' :: '\r' :: '\n' :: (trail ++ rest)) = _
              rw [decodeCharacters_line hline (by decide)]
              exact congrArg _ (trimIf_append htrail.isWhitespace rest)
  | unknown c hunknown hline =>
      rcases h with h | ⟨c, hc, h⟩ <;> cases h
  | badScalar text hbad =>
      rcases h with h | ⟨c, hc, h⟩ <;> cases h
  | loneReturn hline =>
      have htrim : trimIf continued ((Piece.loneReturn hline).text ++ rest) =
          '\\' :: '\r' :: rest := trimIf_cons rfl continued _
      rw [htrim] at hfuel ⊢
      change ∃ fuel', (trimIf true rest).length < fuel' ∧ _ =
        ([] ++ ·) <$> decodeCharacters multiline fuel' (trimIf true rest)
      have hrest := length_trimIf_le true rest
      cases fuel with
      | zero => cases hfuel
      | succ fuel =>
          rw [List.length_cons, List.length_cons] at hfuel
          refine ⟨fuel, by omega, ?_⟩
          rw [map_append_nil, decodeCharacters_line hline (by decide)]
          congr 1
          -- a line feed behind it is taken as white space or with the carriage return
          cases rest with
          | nil => rfl
          | cons d rest =>
              by_cases hd : d = '\n'
              · subst hd
                rfl
              · rw [dropLineBreak]
                intro rest' _ hrest'
                exact hd (List.cons.inj hrest').1

/-- A piece that cannot be decoded is refused. -/
theorem decodeCharacters_refused {piece : Piece multiline} (h : piece.decodes = false)
    (hraw : ∀ c hc, piece ≠ .raw c hc) (continued : Bool) {fuel : Nat} {rest : List Char}
    (hfuel : (trimIf continued (piece.text ++ rest)).length < fuel) :
    ∃ message, decodeCharacters multiline fuel (trimIf continued (piece.text ++ rest)) =
      .error message := by
  cases fuel with
  | zero => cases hfuel
  | succ fuel =>
  cases piece with
  | raw c hc => exact absurd rfl (hraw c hc)
  | newline crlf hline => cases h
  | escape text c hescape => cases h
  | loneReturn hline => cases h
  | continuation blanks crlf trail hline hblanks htrail =>
      have hne : blanks ≠ [] := of_decide_eq_false h
      cases blanks with
      | nil => exact absurd rfl hne
      | cons c blanks =>
          have hc := hblanks c List.mem_cons_self
          have htext : trimIf continued
              ((Piece.continuation (c :: blanks) crlf trail hline hblanks htrail).text ++ rest) =
              '\\' :: c :: (blanks ++ (lineBreak crlf ++ trail) ++ rest) := trimIf_cons rfl _ _
          simp only [isBlank, Bool.or_eq_true, decide_eq_true_eq] at hc
          refine ⟨"unknown TOML escape", ?_⟩
          rw [htext]
          rcases hc with rfl | rfl <;>
            (rw [decodeCharacters_escape (fun _ => by decide), if_neg (by decide)]; rfl)
  | unknown c hunknown hline =>
      obtain ⟨hu, hU, hnone⟩ := hunknown
      have htext : trimIf continued ((Piece.unknown c ⟨hu, hU, hnone⟩ hline).text ++ rest) =
          '\\' :: c :: rest := trimIf_cons rfl _ _
      refine ⟨"unknown TOML escape", ?_⟩
      rw [htext, decodeCharacters_escape (fun h => by simpa using hline h),
        if_neg (by simp [hu, hU]), hnone]
  | badScalar text hbad =>
      have htext : trimIf continued ((@Piece.badScalar multiline text hbad).text ++ rest) =
          '\\' :: (text ++ rest) := trimIf_cons rfl _ _
      refine ⟨"invalid TOML Unicode scalar", ?_⟩
      rw [htext]
      cases hbad with
      | @mk letter count digits hletter hlength hdigits hvalue =>
          obtain ⟨hunicode, hline, hcount, hbound⟩ := unicode_letter hletter
          rw [List.cons_append, decodeCharacters_escape (fun _ => hline), if_pos hunicode, hcount,
            unicodeValue_numeral hlength hbound hdigits]
          change (unicodeScalar (numeral 16 digits) >>= fun scalar => _) = _
          rw [unicodeScalar, if_neg hvalue]
          rfl

end Steps

section Whole

theorem pieceText_cons (piece : Piece multiline) (rest : List (Piece multiline)) :
    pieceText (piece :: rest) = piece.text ++ pieceText rest := rfl

theorem decodeCharacters_pieces {pieces : List (Piece multiline)}
    (h : ∀ piece ∈ pieces, piece.decodes = true ∨ ∃ c hc, piece = .raw c hc) (continued : Bool)
    {fuel : Nat} (hfuel : (trimIf continued (pieceText pieces)).length < fuel) :
    decodeCharacters multiline fuel (trimIf continued (pieceText pieces)) =
      .ok (keptText continued pieces) := by
  induction pieces generalizing continued fuel with
  | nil =>
      cases fuel with
      | zero => cases hfuel
      | succ fuel => cases continued <;> rfl
  | cons piece rest ih =>
      obtain ⟨fuel', hfuel', hdecode⟩ :=
        @decodeCharacters_piece multiline piece (h piece List.mem_cons_self) continued fuel
          (pieceText rest) hfuel
      rw [pieceText_cons, hdecode,
        ih (fun other hmem => h other (List.mem_cons_of_mem _ hmem)) _ hfuel']
      rfl

theorem decodeCharacters_pieces_refused {pieces : List (Piece multiline)} {bad : Piece multiline}
    (hmem : bad ∈ pieces) (hbad : bad.decodes = false) (hraw : ∀ c hc, bad ≠ .raw c hc)
    (continued : Bool) {fuel : Nat}
    (hfuel : (trimIf continued (pieceText pieces)).length < fuel) :
    ∃ message, decodeCharacters multiline fuel (trimIf continued (pieceText pieces)) =
      .error message := by
  induction pieces generalizing continued fuel with
  | nil => cases hmem
  | cons piece rest ih =>
      by_cases hpiece : piece.decodes = true ∨ ∃ c hc, piece = .raw c hc
      · obtain ⟨fuel', hfuel', hdecode⟩ :=
          @decodeCharacters_piece multiline piece hpiece continued fuel (pieceText rest) hfuel
        have hrest : bad ∈ rest := by
          rcases List.mem_cons.mp hmem with rfl | hrest
          · rcases hpiece with hpiece | ⟨c, hc, hpiece⟩
            · rw [hpiece] at hbad
              cases hbad
            · exact absurd hpiece (hraw c hc)
          · exact hrest
        obtain ⟨message, hmessage⟩ := ih hrest _ hfuel'
        refine ⟨message, ?_⟩
        rw [pieceText_cons, hdecode, hmessage]
        rfl
      · rw [not_or, Bool.not_eq_true, not_exists] at hpiece
        exact decodeCharacters_refused hpiece.1 (fun c hc h => hpiece.2 c ⟨hc, h⟩) continued hfuel

theorem isForbidden_eq_false {c : Char} (h : 0x20 ≤ c.toNat ∧ c.toNat < 0x7f) :
    isForbidden multiline c = false := by
  have hcontrol : isControl c = false := by
    rw [isControl, Bool.or_eq_false_iff, Bool.and_eq_false_iff]
    exact ⟨decide_eq_false (by omega), .inl (decide_eq_false (by omega))⟩
  rw [isForbidden, hcontrol, Bool.false_and, Bool.false_and]

theorem isForbidden_lineBreak (crlf : Bool) : ∀ c ∈ lineBreak crlf, isForbidden true c = false := by
  cases crlf <;> simp [lineBreak, isForbidden]

theorem isForbidden_of_isBlank {c : Char} (h : isBlank c = true) :
    isForbidden multiline c = false := by
  simp only [isBlank, Bool.or_eq_true, decide_eq_true_eq] at h
  rcases h with rfl | rfl <;> cases multiline <;> rfl

theorem isForbidden_trail {trail : List Char} (h : Trail trail) :
    ∀ c ∈ trail, isForbidden true c = false := by
  induction h with
  | nil => exact fun c hmem => absurd hmem List.not_mem_nil
  | blank hblank _ ih =>
      intro c hmem
      rcases List.mem_cons.mp hmem with rfl | hmem
      · exact isForbidden_of_isBlank hblank
      · exact ih c hmem
  | lineBreak crlf _ ih =>
      intro c hmem
      rcases List.mem_append.mp hmem with hmem | hmem
      · exact isForbidden_lineBreak crlf c hmem
      · exact ih c hmem

theorem ascii_of_digitValue {c : Char} (h : digitValue c < 16) :
    0x20 ≤ c.toNat ∧ c.toNat < 0x7f := by
  have hlow : ('a' ≤ c ∧ c ≤ 'f') = (97 ≤ c.toNat ∧ c.toNat ≤ 102) := by
    simp only [charLe_iff]; rfl
  have hup : ('A' ≤ c ∧ c ≤ 'F') = (65 ≤ c.toNat ∧ c.toNat ≤ 70) := by
    simp only [charLe_iff]; rfl
  rw [digitValue] at h
  split at h
  · next hdigit =>
      have := (isDigit_iff c).mp hdigit
      omega
  · split at h
    · next hlower =>
        rw [hlow] at hlower
        omega
    · split at h
      · next hupper =>
          rw [hup] at hupper
          omega
      · exact absurd h (by decide)

/-- A piece that can be decoded has no forbidden character. -/
theorem Piece.not_forbidden {piece : Piece multiline} (h : piece.decodes = true) :
    ∀ c ∈ piece.text, isForbidden multiline c = false := by
  intro c hmem
  cases piece with
  | raw d hraw =>
      obtain rfl := List.mem_singleton.mp hmem
      rw [Piece.decodes, Bool.or_eq_true, Bool.not_eq_true', decide_eq_true_iff] at h
      rw [isForbidden]
      rcases h with h | h
      · rw [h, Bool.false_and, Bool.false_and]
      · rw [h]
        rfl
  | newline crlf hline =>
      rw [hline]
      exact isForbidden_lineBreak crlf c hmem
  | escape text d hescape =>
      rcases List.mem_cons.mp hmem with rfl | hbody
      · exact isForbidden_eq_false (by decide)
      · clear hmem h
        cases hescape with
        | short hshort =>
            obtain rfl := List.mem_singleton.mp hbody
            simp only [shortEscapes, List.mem_cons, Prod.mk.injEq, List.not_mem_nil, or_false]
              at hshort
            rcases hshort with ⟨rfl, -⟩ | ⟨rfl, -⟩ | ⟨rfl, -⟩ | ⟨rfl, -⟩ | ⟨rfl, -⟩ | ⟨rfl, -⟩ |
              ⟨rfl, -⟩ <;> exact isForbidden_eq_false (by decide)
        | unicode hletter _ hdigits _ =>
            rcases List.mem_cons.mp hbody with rfl | hdigit
            · simp only [List.mem_cons, Prod.mk.injEq, List.not_mem_nil, or_false] at hletter
              rcases hletter with ⟨rfl, -⟩ | ⟨rfl, -⟩ <;> exact isForbidden_eq_false (by decide)
            · exact isForbidden_eq_false (ascii_of_digitValue (hdigits.digit c hdigit))
  | continuation blanks crlf trail hline hblanks htrail =>
      rw [hline]
      rcases List.mem_cons.mp hmem with rfl | hmem
      · exact isForbidden_eq_false (by decide)
      · rcases List.mem_append.mp hmem with hmem | hmem
        · exact isForbidden_of_isBlank (hblanks c hmem)
        · rcases List.mem_append.mp hmem with hmem | hmem
          · exact isForbidden_lineBreak crlf c hmem
          · exact isForbidden_trail htrail c hmem
  | unknown d hunknown hline => cases h
  | badScalar text hbad => cases h
  | loneReturn hline =>
      rw [hline]
      rcases List.mem_cons.mp hmem with rfl | hmem
      · rfl
      · obtain rfl := List.mem_singleton.mp hmem
        rfl

/-- A raw character that is not decoded is forbidden. -/
theorem isForbidden_of_raw {c : Char} {hc : isRaw multiline c = true}
    (h : (Piece.raw c hc).decodes = false) : isForbidden multiline c = true := by
  rw [Piece.decodes, Bool.or_eq_false_iff, Bool.not_eq_false'] at h
  obtain ⟨hcontrol, htab⟩ := h
  have hline : (multiline && decide (c ∈ ['\n', '\r'])) = false := by
    rw [Bool.and_eq_false_iff]
    refine .inr (decide_eq_false ?_)
    intro hmem
    simp only [List.mem_cons, List.not_mem_nil, or_false] at hmem
    rcases hmem with rfl | rfl <;> cases multiline <;> cases hc
  rw [isForbidden, hcontrol, hline, Bool.true_and, Bool.and_eq_true, decide_eq_true_iff]
  exact ⟨of_decide_eq_false htab, rfl⟩

/-- The body of a literal is decoded when each of its pieces is. -/
theorem decodeBasicString_pieces {pieces : List (Piece multiline)}
    (h : ∀ piece ∈ pieces, piece.decodes = true) :
    decodeBasicString (pieceText pieces) multiline = .ok (keptText false pieces) := by
  have hcontrols : (pieceText pieces).any (isForbidden multiline) = false := by
    rw [List.any_eq_false]
    intro c hmem
    obtain ⟨piece, hpiece, hc⟩ := List.mem_flatMap.mp hmem
    rw [(Piece.not_forbidden (h piece hpiece)) c hc]
    exact Bool.false_ne_true
  have hvalid : validateStringControls (pieceText pieces) multiline = .ok () :=
    if_neg (by rw [hcontrols]; exact Bool.false_ne_true)
  rw [decodeBasicString, hvalid]
  exact @decodeCharacters_pieces multiline pieces (fun piece hmem => .inl (h piece hmem)) false _
    (Nat.lt_succ_self _)

/-- Otherwise it is refused. -/
theorem decodeBasicString_refused {pieces : List (Piece multiline)}
    (h : ∃ piece ∈ pieces, piece.decodes = false) :
    ∃ message, decodeBasicString (pieceText pieces) multiline = .error message := by
  by_cases hcontrols : (pieceText pieces).any (isForbidden multiline) = true
  · have hvalid : validateStringControls (pieceText pieces) multiline =
        .error "TOML String contains a forbidden control character" := if_pos hcontrols
    refine ⟨"TOML String contains a forbidden control character", ?_⟩
    rw [decodeBasicString, hvalid]
    rfl
  · have hvalid : validateStringControls (pieceText pieces) multiline = .ok () := if_neg hcontrols
    obtain ⟨bad, hmem, hbad⟩ := h
    have hraw : ∀ c hc, bad ≠ .raw c hc := by
      rintro c hc rfl
      refine hcontrols (List.any_eq_true.mpr ⟨c, ?_, isForbidden_of_raw hbad⟩)
      exact List.mem_flatMap.mpr ⟨_, hmem, List.mem_singleton.mpr rfl⟩
    rw [decodeBasicString, hvalid]
    exact decodeCharacters_pieces_refused hmem hbad hraw false (Nat.lt_succ_self _)

end Whole

end Telora.Toml
