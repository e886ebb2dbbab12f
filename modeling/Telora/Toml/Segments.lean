import Telora.Toml.Lexer

/-!
# Segments of TOML text

A text up to a stable boundary is lexed on its own as it is lexed with any text behind it, or has
an error on its own and with any text behind it. The scan for boundaries is at a line outside of
strings exactly where the lexer is, as long as no token is an error.
-/

namespace Telora.Toml.Lexing

open Library

section Boundaries

/-- The scan of a text from a mode and a depth on finds a boundary at its end. -/
def settles (mode : ScanMode) (depth : Nat) : List Char → Bool
  | [] => false
  | c :: rest =>
      let (next, deeper, skip) := scanAt mode depth c rest
      if rest.drop skip = [] then isStable mode depth c else settles next deeper (rest.drop skip)
termination_by text => text.length
decreasing_by
  rw [List.length_drop, List.length_cons]
  omega

theorem settles_nil (mode : ScanMode) (depth : Nat) : settles mode depth [] = false := by
  rw [settles]

theorem settles_cons (mode : ScanMode) (depth : Nat) (c : Char) (rest : List Char) :
    settles mode depth (c :: rest) =
      if rest.drop (scanAt mode depth c rest).2.2 = [] then isStable mode depth c
      else settles (scanAt mode depth c rest).1 (scanAt mode depth c rest).2.1
        (rest.drop (scanAt mode depth c rest).2.2) := by
  rw [settles]

/-- A boundary is behind a line end. -/
theorem newline_of_settles {mode : ScanMode} {depth : Nat} {text : List Char}
    (h : settles mode depth text = true) : '\n' ∈ text := by
  induction hlength : text.length using Nat.strong_induction_on generalizing mode depth text with
  | _ n ih =>
  cases text with
  | nil => rw [settles_nil] at h; cases h
  | cons c rest =>
      rw [settles_cons] at h
      split at h
      · have hstable := of_decide_eq_true h
        exact hstable.2.2 ▸ List.mem_cons_self
      · refine List.mem_cons_of_mem c (List.mem_of_mem_drop (ih _ ?_ h rfl))
        rw [← hlength, List.length_drop, List.length_cons]
        omega

theorem takeWhile_of_newline {p : Char → Bool} (hp : p '\n' = false) {text : List Char}
    (h : '\n' ∈ text) (more : List Char) : (text ++ more).takeWhile p = text.takeWhile p := by
  rw [List.takeWhile_append, if_neg]
  intro hall
  have hsame := (List.takeWhile_prefix p).eq_of_length hall
  have := List.mem_takeWhile_imp (hsame.symm ▸ h)
  rw [hp] at this
  cases this

theorem quoteRun_append {quote : Char} (hquote : quote ≠ '\n') {text : List Char}
    (h : '\n' ∈ text) (more : List Char) : quoteRun quote (text ++ more) = quoteRun quote text :=
  congrArg List.length (takeWhile_of_newline (decide_eq_false (Ne.symm hquote)) h more)

/-- What the scan looks at ends with the line. -/
theorem scanAt_append (mode : ScanMode) (depth : Nat) (c : Char) {rest : List Char}
    (h : '\n' ∈ rest) (more : List Char) :
    scanAt mode depth c (rest ++ more) = scanAt mode depth c rest := by
  have hdouble := quoteRun_append (show '"' ≠ '\n' by decide) (List.mem_cons_of_mem c h) more
  have hsingle := quoteRun_append (show '\'' ≠ '\n' by decide) (List.mem_cons_of_mem c h) more
  have hrest : rest ≠ [] := List.ne_nil_of_mem h
  have hmore : rest ++ more ≠ [] := fun hnil => hrest (List.append_eq_nil_iff.mp hnil).1
  rw [List.cons_append] at hdouble hsingle
  cases mode with
  | normal => simp only [scanAt, hdouble, hsingle]
  | basic => simp only [scanAt, hrest, hmore]
  | literal => rfl
  | multilineBasic => simp only [scanAt, hdouble, hrest, hmore]
  | multilineLiteral => simp only [scanAt, hsingle]
  | comment => rfl

/-- The last boundary of a text ends a part of it that settles. -/
theorem boundaryFrom_cases (index stable : Nat) (mode : ScanMode) (depth : Nat)
    (text : List Char) : boundaryFrom index stable mode depth text = stable ∨
      ∃ front back, text = front ++ back ∧ settles mode depth front = true ∧
        boundaryFrom index stable mode depth text = index + byteLength front := by
  induction hlength : text.length using Nat.strong_induction_on
    generalizing index stable mode depth text with
  | _ n ih =>
  cases text with
  | nil =>
      rw [boundaryFrom]
      exact .inl rfl
  | cons c rest =>
      rw [boundaryFrom]
      generalize hscan : scanAt mode depth c rest = found
      obtain ⟨next, deeper, skip⟩ := found
      simp only
      have hshorter : (rest.drop skip).length < n := by
        rw [← hlength, List.length_drop, List.length_cons]
        omega
      rcases ih _ hshorter (index + c.utf8Size + byteLength (rest.take skip))
          (if isStable mode depth c then index + c.utf8Size else stable) next deeper _ rfl with
        hstable | ⟨front, back, hsplit, hsettles, hvalue⟩
      · rw [hstable]
        split
        · next hline =>
            refine .inr ⟨[c], rest, rfl, ?_, ?_⟩
            · rw [settles_cons, List.drop_nil, if_pos rfl]
              exact hline
            · rw [byteLength_cons, byteLength_nil]
              rfl
        · exact .inl rfl
      · refine .inr ⟨c :: (rest.take skip ++ front), back, ?_, ?_, ?_⟩
        · rw [List.cons_append, List.append_assoc, ← hsplit, List.take_append_drop]
        · have hline : '\n' ∈ rest.take skip ++ front :=
            List.mem_append_right _ (newline_of_settles hsettles)
          have hrest : rest = rest.take skip ++ front ++ back := by
            rw [List.append_assoc, ← hsplit, List.take_append_drop]
          have hsame : scanAt mode depth c (rest.take skip ++ front) = (next, deeper, skip) := by
            rw [← scanAt_append mode depth c hline back, ← hrest, hscan]
          have hfront : front ≠ [] := List.ne_nil_of_mem (newline_of_settles hsettles)
          have htake : (rest.take skip).length = skip := by
            refine List.length_take_of_le ?_
            by_contra hlong
            rw [List.drop_eq_nil_of_le (Nat.le_of_not_le hlong)] at hsplit
            exact hfront (List.append_eq_nil_iff.mp hsplit.symm).1
          have hdrop : (rest.take skip ++ front).drop skip = front := List.drop_left' htake
          rw [settles_cons, hsame]
          simp only [hdrop, hfront, if_false]
          exact hsettles
        · rw [hvalue, byteLength_cons, byteLength_append]
          omega

theorem stableStatementBoundary_cases (text : List Char) : stableStatementBoundary text = 0 ∨
    ∃ front back, text = front ++ back ∧ settles .normal 0 front = true ∧
      stableStatementBoundary text = byteLength front := by
  rcases boundaryFrom_cases 0 0 .normal 0 text with hzero | ⟨front, back, hsplit, hsettles, hvalue⟩
  · exact .inl hzero
  · rw [Nat.zero_add] at hvalue
    exact .inr ⟨front, back, hsplit, hsettles, hvalue⟩

end Boundaries

section Strings

/-- A mode that the scan is in inside a string. -/
structure StringMode (mode : ScanMode) (quote : Char) (escaped multiline : Bool) : Prop where
  scan : ∀ depth c rest, scanAt mode depth c rest =
    if multiline ∧ 3 ≤ quoteRun quote (c :: rest) then
      (.normal, depth, min (quoteRun quote (c :: rest)) 5 - 1)
    else if ¬multiline ∧ c = quote then (.normal, depth, 0)
    else if escaped ∧ c = '\\' then (mode, depth, if rest = [] then 0 else 1)
    else (mode, depth, 0)
  inside : ∀ depth c, isStable mode depth c = false
  quote_ne : quote ≠ '\n'

theorem stringMode_basic : StringMode .basic '"' true false where
  scan depth c rest := by
    by_cases hquote : c = '"'
    · subst hquote
      rfl
    · simp [scanAt, hquote]
  inside depth c := by simp [isStable]
  quote_ne := by decide

theorem stringMode_literal : StringMode .literal '\'' false false where
  scan depth c rest := by simp [scanAt]
  inside depth c := by simp [isStable]
  quote_ne := by decide

theorem stringMode_multilineBasic : StringMode .multilineBasic '"' true true where
  scan depth c rest := by simp [scanAt]
  inside depth c := by simp [isStable]
  quote_ne := by decide

theorem stringMode_multilineLiteral : StringMode .multilineLiteral '\'' false true where
  scan depth c rest := by simp [scanAt]
  inside depth c := by simp [isStable]
  quote_ne := by decide

variable {mode : ScanMode} {quote : Char} {escaped multiline : Bool}

/-- Inside a string a settled text goes on. -/
theorem StringMode.settles_cons (h : StringMode mode quote escaped multiline) {depth : Nat}
    {c : Char} {rest : List Char} (hsettles : settles mode depth (c :: rest) = true) :
    settles (scanAt mode depth c rest).1 (scanAt mode depth c rest).2.1
      (rest.drop (scanAt mode depth c rest).2.2) = true := by
  rw [Lexing.settles_cons] at hsettles
  split at hsettles
  · rw [h.inside] at hsettles
    cases hsettles
  · exact hsettles

/-- A string in a settled text is closed in it, or has an error whatever follows. -/
theorem StringMode.stringEnd (h : StringMode mode quote escaped multiline) (more : List Char)
    {depth : Nat} {text : List Char} (hsettles : settles mode depth text = true) :
    (∃ length, Lexing.stringEnd quote escaped multiline text = (length, true) ∧
      Lexing.stringEnd quote escaped multiline (text ++ more) = (length, true) ∧
      settles .normal depth (text.drop length) = true) ∨
    ((Lexing.stringEnd quote escaped multiline text).2 = false ∧
      (Lexing.stringEnd quote escaped multiline (text ++ more)).2 = false) := by
  induction hsize : text.length using Nat.strong_induction_on generalizing text with
  | _ n ih =>
  cases text with
  | nil => rw [settles_nil] at hsettles; cases hsettles
  | cons c rest =>
      have hrun := quoteRun_append h.quote_ne (newline_of_settles hsettles) more
      have hnext := h.settles_cons hsettles
      rw [h.scan] at hnext
      rw [List.cons_append] at hrun ⊢
      rw [Lexing.stringEnd, Lexing.stringEnd.eq_2 _ _ _ c (rest ++ more)]
      simp only [hrun]
      by_cases hclose : multiline = true ∧ 3 ≤ quoteRun quote (c :: rest)
      · rw [if_pos hclose] at hnext
        rw [if_pos hclose, if_pos hclose]
        refine .inl ⟨_, rfl, rfl, ?_⟩
        obtain ⟨skip, hskip⟩ : ∃ skip, min (quoteRun quote (c :: rest)) 5 = skip + 1 :=
          ⟨min (quoteRun quote (c :: rest)) 5 - 1, by omega⟩
        rw [hskip] at hnext ⊢
        exact hnext
      rw [if_neg hclose] at hnext
      rw [if_neg hclose, if_neg hclose]
      by_cases hquote : ¬multiline = true ∧ c = quote
      · rw [if_pos hquote] at hnext
        rw [if_pos hquote, if_pos hquote]
        exact .inl ⟨1, rfl, rfl, hnext⟩
      rw [if_neg hquote] at hnext
      rw [if_neg hquote, if_neg hquote]
      by_cases hline : ¬multiline = true ∧ (c = '\n' ∨ c = '\r')
      · rw [if_pos hline, if_pos hline]
        exact .inr ⟨rfl, rfl⟩
      rw [if_neg hline, if_neg hline]
      by_cases hescape : escaped = true ∧ c = '\\'
      · rw [if_pos hescape] at hnext
        rw [if_pos hescape, if_pos hescape]
        cases rest with
        | nil => rw [List.drop_nil, settles_nil] at hnext; cases hnext
        | cons d rest =>
            rw [if_neg (List.cons_ne_nil d rest)] at hnext
            change settles mode depth rest = true at hnext
            have hshorter : rest.length < n := by
              rw [← hsize, List.length_cons, List.length_cons]
              omega
            rcases ih _ hshorter hnext rfl with ⟨length, hfound, hsame, hafter⟩ | hfailed
            · refine .inl ⟨length + 2, ?_, ?_, hafter⟩
              · rw [if_neg (List.cons_ne_nil d rest), List.drop_one, List.tail_cons, hfound]
                rfl
              · rw [List.cons_append, if_neg (List.cons_ne_nil d _), List.drop_one, List.tail_cons,
                  hsame]
                rfl
            · rw [List.cons_append, if_neg (List.cons_ne_nil d _), List.drop_one, List.tail_cons,
                if_neg (List.cons_ne_nil d _), List.drop_one, List.tail_cons]
              exact .inr hfailed
      · rw [if_neg hescape] at hnext
        change settles mode depth rest = true at hnext
        rw [if_neg hescape, if_neg hescape]
        have hshorter : rest.length < n := by
          rw [← hsize, List.length_cons]
          omega
        rcases ih _ hshorter hnext rfl with ⟨length, hfound, hsame, hafter⟩ | hfailed
        · refine .inl ⟨length + 1, ?_, ?_, hafter⟩
          · rw [hfound]
            rfl
          · rw [hsame]
            rfl
        · exact .inr hfailed

end Strings

section Tokens

/-- A character that changes nothing outside strings. -/
def isPlain (c : Char) : Bool := c ∉ ['#', '[', ']', '"', '\'', '\n']

theorem settles_normal_cons {c : Char} (h : c ≠ '\n') {depth deeper : Nat} {rest : List Char}
    (hscan : scanAt .normal depth c rest = (.normal, deeper, 0)) :
    settles .normal depth (c :: rest) = settles .normal deeper rest := by
  rw [settles_cons, hscan]
  cases rest with
  | nil => simp [isStable, settles_nil, h]
  | cons d rest => rfl

theorem settles_plain_cons {c : Char} (h : isPlain c = true) (depth : Nat) (rest : List Char) :
    settles .normal depth (c :: rest) = settles .normal depth rest := by
  have hc := of_decide_eq_true h
  simp only [List.mem_cons, List.not_mem_nil, or_false, not_or] at hc
  refine settles_normal_cons hc.2.2.2.2.2 ?_
  simp [scanAt, hc.1, hc.2.1, hc.2.2.1, hc.2.2.2.1, hc.2.2.2.2.1]

theorem settles_plain {text : List Char} (h : ∀ c ∈ text, isPlain c = true) (depth : Nat)
    (rest : List Char) : settles .normal depth (text ++ rest) = settles .normal depth rest := by
  induction text with
  | nil => rfl
  | cons c text ih =>
      obtain ⟨hc, htext⟩ := List.forall_mem_cons.mp h
      rw [List.cons_append, settles_plain_cons hc, ih htext]

theorem settles_comment {text : List Char} (h : ∀ c ∈ text, isLineEnd c = false) (depth : Nat)
    (rest : List Char) :
    settles .comment depth (text ++ rest) = settles .comment depth rest := by
  induction text with
  | nil => rfl
  | cons c text ih =>
      obtain ⟨hc, htext⟩ := List.forall_mem_cons.mp h
      have hnewline : c ≠ '\n' := by
        rintro rfl
        cases hc
      have hscan : scanAt .comment depth c (text ++ rest) = (.comment, depth, 0) :=
        if_neg hnewline
      rw [List.cons_append, settles_cons, hscan, ← ih htext]
      cases hrest : text ++ rest with
      | nil => simp [isStable, settles_nil, hnewline]
      | cons d more => rfl

/-- A line end behind a comment is met as outside of one. -/
theorem settles_comment_newline (depth : Nat) (rest : List Char) :
    settles .comment depth ('\n' :: rest) = settles .normal depth ('\n' :: rest) := by
  have hscan : scanAt .comment depth '\n' rest = scanAt .normal depth '\n' rest := rfl
  have hstable : isStable .comment depth '\n' = isStable .normal depth '\n' := by simp [isStable]
  rw [settles_cons, settles_cons, hscan, hstable]

theorem settles_comment_return (depth : Nat) (rest : List Char) :
    settles .comment depth ('\r' :: '\n' :: rest) =
      settles .normal depth ('\r' :: '\n' :: rest) := by
  rw [settles_cons, settles_plain_cons (by decide), ← settles_comment_newline]
  rfl

/-- Where the scan is when the lexer is at a token: outside strings, or behind a comment. -/
def InStep (depth : Nat) (text : List Char) : Prop :=
  settles .normal depth text = true ∨
    settles .comment depth text = true ∧ ∃ c rest, text = c :: rest ∧ isLineEnd c = true

variable (errorLength : List Char → Nat)

/-- The first token of a text in step: an error whatever follows, or the same token whatever
follows, with the rest in step unless the token ends the last line. -/
inductive First (depth : Nat) (text more : List Char) : Prop
  | failed (h : (scanToken errorLength text).1 = .error)
      (hmore : (scanToken errorLength (text ++ more)).1 = .error)
  | inside {token : Token} {length : Nat} (htoken : token ≠ .error)
      (h : scanToken errorLength text = (token, length))
      (hmore : scanToken errorLength (text ++ more) = (token, length))
      (hrest : InStep (nextDepth depth (bracketed depth token)) (text.drop (length + 1)))
  | last (hdepth : depth = 0) (h : scanToken errorLength text = (.newline, text.length - 1))
      (hmore : scanToken errorLength (text ++ more) = (.newline, text.length - 1))

theorem punctuation_first {c : Char} {token : Token} (h : punctuation c = some token)
    {depth : Nat} {rest : List Char} (hsettles : settles .normal depth (c :: rest) = true) :
    token ≠ .error ∧ settles .normal (nextDepth depth (bracketed depth token)) rest = true := by
  rw [punctuation] at h
  iterate 2
    split at h
    · next hc =>
        cases h
        rw [hc, settles_plain_cons (by decide)] at hsettles
        exact ⟨by decide, hsettles⟩
  split at h
  · next hc =>
      cases h
      rw [hc, settles_normal_cons (by decide) rfl] at hsettles
      exact ⟨by decide, hsettles⟩
  split at h
  · next hc =>
      cases h
      rw [hc, settles_normal_cons (by decide) rfl] at hsettles
      exact ⟨by decide, hsettles⟩
  iterate 3
    split at h
    · next hc =>
        cases h
        rw [hc, settles_plain_cons (by decide)] at hsettles
        exact ⟨by decide, hsettles⟩
  cases h

/-- A string is closed in a settled text, or has an error whatever follows. -/
theorem scanString_first {quote : Char} {escaped : Bool} {single multi : ScanMode}
    (hsingle : StringMode single quote escaped false) (hmulti : StringMode multi quote escaped true)
    {depth : Nat} {rest : List Char}
    (hscan : scanAt .normal depth quote rest =
      if 3 ≤ quoteRun quote (quote :: rest) then (multi, depth, 2) else (single, depth, 0))
    (hsettles : settles .normal depth (quote :: rest) = true) (more : List Char) :
    (∃ length, scanString quote escaped rest = (length, true) ∧
      scanString quote escaped (rest ++ more) = (length, true) ∧
      settles .normal depth (rest.drop length) = true) ∨
    ((scanString quote escaped rest).2 = false ∧
      (scanString quote escaped (rest ++ more)).2 = false) := by
  have hline : '\n' ∈ rest :=
    (List.mem_cons.mp (newline_of_settles hsettles)).resolve_left (Ne.symm hsingle.quote_ne)
  have hrun : quoteRun quote (quote :: rest) = quoteRun quote rest + 1 := by
    rw [quoteRun, List.takeWhile_cons_of_pos (by simp)]
    rfl
  rw [settles_cons, hscan, hrun] at hsettles
  rw [scanString, scanString, quoteRun_append hsingle.quote_ne hline]
  have hinside : isStable .normal depth quote = false := by simp [isStable, hsingle.quote_ne]
  by_cases hmany : 2 ≤ quoteRun quote rest
  · rw [if_pos (show 3 ≤ quoteRun quote rest + 1 by omega)] at hsettles
    rw [if_pos hmany, if_pos hmany]
    have hlength : 2 ≤ rest.length := Nat.le_trans hmany (List.takeWhile_prefix _).length_le
    have hopened : settles multi depth (rest.drop 2) = true := by
      split at hsettles
      · rw [hinside] at hsettles
        cases hsettles
      · exact hsettles
    rw [List.drop_append_of_le_length hlength]
    rcases hmulti.stringEnd more hopened with ⟨length, hfound, hsame, hafter⟩ | hfailed
    · rw [List.drop_drop] at hafter
      refine .inl ⟨length + 2, ?_, ?_, Nat.add_comm 2 length ▸ hafter⟩
      · rw [hfound]
        rfl
      · rw [hsame]
        rfl
    · exact .inr hfailed
  · rw [if_neg (show ¬3 ≤ quoteRun quote rest + 1 by omega)] at hsettles
    rw [if_neg hmany, if_neg hmany]
    have hopened : settles single depth rest = true := by
      split at hsettles
      · rw [hinside] at hsettles
        cases hsettles
      · exact hsettles
    exact hsingle.stringEnd more hopened

theorem isPlain_of_isAtomChar {c : Char} (h : isAtomChar c = true) : isPlain c = true := by
  refine decide_eq_true fun hmem => ?_
  simp only [List.mem_cons, List.not_mem_nil, or_false] at hmem
  rcases hmem with rfl | rfl | rfl | rfl | rfl | rfl <;> cases h

theorem isPlain_of_isBlank {c : Char} (h : isBlank c = true) : isPlain c = true := by
  rcases of_decide_eq_true h with rfl | rfl <;> decide

theorem atomTail_plain : ∀ rest : List Char, ∀ c ∈ rest.take (atomTail rest), isPlain c = true
  | [] => fun _ h => by rw [List.take_nil] at h; cases h
  | c :: rest => by
      rw [atomTail.eq_def]
      by_cases hc : isAtomChar c = true
      · simp only [hc, if_true, List.take_succ_cons]
        exact List.forall_mem_cons.mpr ⟨isPlain_of_isAtomChar hc, atomTail_plain rest⟩
      simp only [hc, if_false, Bool.false_eq_true]
      split
      · next hpoint =>
          cases rest with
          | nil => exact fun _ h => (List.not_mem_nil h).elim
          | cons d rest =>
              simp only
              split
              · next hd =>
                  simp only [List.take_succ_cons]
                  refine List.forall_mem_cons.mpr ⟨by rw [hpoint]; decide, ?_⟩
                  exact List.forall_mem_cons.mpr ⟨isPlain_of_isAtomChar hd, atomTail_plain rest⟩
              · exact fun _ h => (List.not_mem_nil h).elim
      · exact fun _ h => (List.not_mem_nil h).elim

/-- An atom ends with the line. -/
theorem atomTail_append (more : List Char) : ∀ rest : List Char, '\n' ∈ rest →
    atomTail (rest ++ more) = atomTail rest
  | [], h => (List.not_mem_nil h).elim
  | c :: rest, h => by
      rw [List.cons_append, atomTail.eq_def, atomTail.eq_def (c :: rest)]
      simp only
      split
      · next hc =>
          have hrest : '\n' ∈ rest := by
            refine (List.mem_cons.mp h).resolve_left ?_
            rintro rfl
            cases hc
          rw [atomTail_append more rest hrest]
      · split
        · next hpoint =>
            have hrest : '\n' ∈ rest := by
              refine (List.mem_cons.mp h).resolve_left ?_
              rintro rfl
              cases hpoint
            cases rest with
            | nil => cases hrest
            | cons d rest =>
                rw [List.cons_append]
                simp only
                split
                · next hd =>
                    have htail : '\n' ∈ rest := by
                      refine (List.mem_cons.mp hrest).resolve_left ?_
                      rintro rfl
                      cases hd
                    rw [atomTail_append more rest htail]
                · rfl
        · rfl

/-- The rest of a text in step behind a token of plain characters. -/
theorem inStep_plain {depth : Nat} {c : Char} {rest : List Char} {length : Nat}
    (hsettles : settles .normal depth (c :: rest) = true) (hc : isPlain c = true)
    (hplain : ∀ d ∈ rest.take length, isPlain d = true) : InStep depth (rest.drop length) := by
  refine .inl ?_
  rw [← settles_plain hplain, List.take_append_drop]
  rwa [settles_plain_cons hc] at hsettles

theorem isBlank_append {rest : List Char} (h : '\n' ∈ rest) (more : List Char) :
    (rest ++ more).takeWhile isBlank = rest.takeWhile isBlank :=
  takeWhile_of_newline rfl h more

theorem nextDepth_bracketed {depth : Nat} {token : Token} (hopen : token ≠ .lBracket)
    (hclose : token ≠ .rBracket) : nextDepth depth (bracketed depth token) = depth := by
  rw [bracketed]
  split
  · rfl
  · cases token <;> first | rfl | contradiction

/-- A settled text goes on behind a line end, or ends there. -/
theorem settles_newline {depth : Nat} {rest : List Char}
    (hsettles : settles .normal depth ('\n' :: rest) = true) :
    rest = [] ∧ depth = 0 ∨ settles .normal depth rest = true := by
  have hscan : scanAt .normal depth '\n' rest = (.normal, depth, 0) := rfl
  rw [settles_cons, hscan, List.drop_zero] at hsettles
  split at hsettles
  · next hnil => exact .inl ⟨hnil, (of_decide_eq_true hsettles).2.1⟩
  · exact .inr hsettles

/-- A token that leaves the depth as it is. -/
theorem First.of_level {depth length : Nat} {text more : List Char} {token : Token}
    (hopen : token ≠ .lBracket) (hclose : token ≠ .rBracket) (herror : token ≠ .error)
    (h : scanToken errorLength text = (token, length))
    (hmore : scanToken errorLength (text ++ more) = (token, length))
    (hrest : InStep depth (text.drop (length + 1))) : First errorLength depth text more := by
  refine .inside herror h hmore ?_
  rw [nextDepth_bracketed hopen hclose]
  exact hrest

theorem first_string {quote : Char} {escaped : Bool} {single multi : ScanMode}
    (hsingle : StringMode single quote escaped false) (hmulti : StringMode multi quote escaped true)
    {depth : Nat} {rest : List Char}
    (hscan : scanAt .normal depth quote rest =
      if 3 ≤ quoteRun quote (quote :: rest) then (multi, depth, 2) else (single, depth, 0))
    (hkind : ∀ tail, scanToken errorLength (quote :: tail) =
      stringToken (scanString quote escaped tail))
    (hsettles : settles .normal depth (quote :: rest) = true) (more : List Char) :
    First errorLength depth (quote :: rest) more := by
  rcases scanString_first hsingle hmulti hscan hsettles more with
    ⟨length, hfound, hsame, hafter⟩ | ⟨hfound, hsame⟩
  · refine First.of_level errorLength (show Token.string ≠ _ by decide) (by decide) (by decide)
      ?_ ?_ (.inl hafter)
    · rw [hkind, hfound]
      rfl
    · rw [List.cons_append, hkind, hsame]
      rfl
  · refine .failed ?_ ?_
    · rw [hkind, stringToken, hfound]
      rfl
    · rw [List.cons_append, hkind, stringToken, hsame]
      rfl

theorem first_newline {depth : Nat} {rest : List Char}
    (hsettles : settles .normal depth ('\n' :: rest) = true) (more : List Char) :
    First errorLength depth ('\n' :: rest) more := by
  have hkind : ∀ tail, scanToken errorLength ('\n' :: tail) = (.newline, 0) := fun _ => rfl
  rcases settles_newline hsettles with ⟨rfl, hdepth⟩ | hrest
  · exact .last hdepth (hkind []) (hkind more)
  · exact First.of_level errorLength (by decide) (by decide) (by decide) (hkind rest)
      (hkind (rest ++ more)) (.inl hrest)

theorem first_return {depth : Nat} {rest : List Char}
    (hsettles : settles .normal depth ('\r' :: '\n' :: rest) = true) (more : List Char) :
    First errorLength depth ('\r' :: '\n' :: rest) more := by
  have hkind : ∀ tail, scanToken errorLength ('\r' :: '\n' :: tail) = (.newline, 1) := by
    intro tail
    rw [scanToken]
    rfl
  rw [settles_plain_cons (by decide)] at hsettles
  rcases settles_newline hsettles with ⟨rfl, hdepth⟩ | hrest
  · exact .last hdepth (hkind []) (hkind more)
  · exact First.of_level errorLength (by decide) (by decide) (by decide) (hkind rest)
      (hkind (rest ++ more)) (.inl hrest)

/-- A comment is left in step at its line end. -/
theorem first_hash {depth : Nat} {rest : List Char}
    (hsettles : settles .normal depth ('#' :: rest) = true) (more : List Char) :
    First errorLength depth ('#' :: rest) more := by
  have hkind : ∀ tail, scanToken errorLength ('#' :: tail) =
      (.comment, (tail.takeWhile (!isLineEnd ·)).length) := fun _ => rfl
  have hline : '\n' ∈ rest :=
    (List.mem_cons.mp (newline_of_settles hsettles)).resolve_left (by decide)
  have hinside : settles .comment depth rest = true := by
    have hscan : scanAt .normal depth '#' rest = (.comment, depth, 0) := rfl
    rw [settles_cons, hscan, List.drop_zero, if_neg (List.ne_nil_of_mem hline)] at hsettles
    exact hsettles
  refine First.of_level errorLength (by decide) (by decide) (by decide) (hkind rest) ?_ ?_
  · rw [List.cons_append, hkind, takeWhile_of_newline rfl hline]
  have hsplit : rest.takeWhile (!isLineEnd ·) ++ rest.dropWhile (!isLineEnd ·) = rest :=
    List.takeWhile_append_dropWhile
  have hfront : ∀ c ∈ rest.takeWhile (!isLineEnd ·), isLineEnd c = false := fun c hc => by
    have := List.mem_takeWhile_imp hc
    rwa [Bool.not_eq_true'] at this
  have hdrop : rest.drop (rest.takeWhile (!isLineEnd ·)).length = rest.dropWhile (!isLineEnd ·) := by
    have := @List.drop_left _ (rest.takeWhile (!isLineEnd ·)) (rest.dropWhile (!isLineEnd ·))
    rwa [hsplit] at this
  rw [List.drop_succ_cons, hdrop]
  rw [← hsplit, settles_comment hfront] at hinside
  refine .inr ⟨hinside, ?_⟩
  cases hback : rest.dropWhile (!isLineEnd ·) with
  | nil =>
      rw [hback, settles_nil] at hinside
      cases hinside
  | cons c back =>
      have hend := List.head_dropWhile_not (!isLineEnd ·) (hback ▸ List.cons_ne_nil c back)
      simp only [hback, List.head_cons, Bool.not_eq_false'] at hend
      exact ⟨c, back, rfl, hend⟩

/-- Outside strings and comments. -/
theorem first_normal {depth : Nat} {c : Char} {rest : List Char}
    (hsettles : settles .normal depth (c :: rest) = true) (more : List Char) :
    First errorLength depth (c :: rest) more := by
  have hscan : ∀ tail, scanToken errorLength (c :: tail) = _ := fun tail => scanToken.eq_2 _ c tail
  cases hpunctuation : punctuation c with
  | some token =>
      obtain ⟨htoken, hrest⟩ := punctuation_first hpunctuation hsettles
      refine @First.inside errorLength depth (c :: rest) more token 0 htoken ?_ ?_ (.inl hrest)
      · rw [hscan, hpunctuation]
      · rw [List.cons_append, hscan, hpunctuation]
  | none =>
      simp only [hpunctuation] at hscan
      by_cases hdouble : c = '"'
      · subst hdouble
        exact first_string errorLength stringMode_basic stringMode_multilineBasic rfl
          (fun _ => rfl) hsettles more
      by_cases hsingle : c = '\''
      · subst hsingle
        exact first_string errorLength stringMode_literal stringMode_multilineLiteral rfl
          (fun _ => rfl) hsettles more
      simp only [hdouble, hsingle, if_false] at hscan
      by_cases hatom : isAtomChar c = true
      · simp only [hatom, if_true] at hscan
        have hnewline : '\n' ∈ rest := by
          refine (List.mem_cons.mp (newline_of_settles hsettles)).resolve_left ?_
          rintro rfl
          cases hatom
        refine First.of_level errorLength (by decide) (by decide) (by decide) (hscan rest) ?_
          (show InStep depth (rest.drop _) from
            inStep_plain hsettles (isPlain_of_isAtomChar hatom) (atomTail_plain rest))
        rw [List.cons_append, hscan, atomTail_append more rest hnewline]
      simp only [hatom, if_false, Bool.false_eq_true] at hscan
      by_cases hnewline : c = '\n'
      · subst hnewline
        exact first_newline errorLength hsettles more
      simp only [hnewline, if_false] at hscan
      have hmem : '\n' ∈ rest :=
        (List.mem_cons.mp (newline_of_settles hsettles)).resolve_left (Ne.symm hnewline)
      have hhead : (rest ++ more).head? = rest.head? :=
        List.head?_append_of_ne_nil rest (List.ne_nil_of_mem hmem)
      by_cases hreturn : c = '\r' ∧ rest.head? = some '\n'
      · obtain ⟨rfl, hfirst⟩ := hreturn
        obtain ⟨tail, rfl⟩ := List.head?_eq_some_iff.mp hfirst
        exact first_return errorLength hsettles more
      by_cases hblank : isBlank c = true
      · refine First.of_level errorLength (show Token.whitespace ≠ _ by decide) (by decide)
          (by decide) (by rw [hscan, if_neg hreturn, if_pos hblank]) ?_
          (show InStep depth (rest.drop _) from
            inStep_plain hsettles (isPlain_of_isBlank hblank) ?_)
        · rw [List.cons_append, hscan, hhead, if_neg hreturn, if_pos hblank,
            isBlank_append hmem]
        · rw [(List.prefix_iff_eq_take.mp (List.takeWhile_prefix isBlank)).symm]
          exact fun d hd => isPlain_of_isBlank (List.mem_takeWhile_imp hd)
      by_cases hcomment : c = '#'
      · subst hcomment
        exact first_hash errorLength hsettles more
      · refine .failed ?_ ?_
        · rw [hscan, if_neg hreturn, if_neg hblank, if_neg hcomment]
        · rw [List.cons_append, hscan, hhead, if_neg hreturn, if_neg hblank, if_neg hcomment]

/-- Behind a comment. -/
theorem first_comment {depth : Nat} {c : Char} {rest : List Char} (hend : isLineEnd c = true)
    (hsettles : settles .comment depth (c :: rest) = true) (more : List Char) :
    First errorLength depth (c :: rest) more := by
  rcases of_decide_eq_true hend with rfl | rfl
  · have hrest : rest ≠ [] := by
      rintro rfl
      rw [settles_cons, List.drop_nil, if_pos rfl] at hsettles
      exact absurd (of_decide_eq_true hsettles).2.2 (by decide)
    by_cases hnewline : rest.head? = some '\n'
    · obtain ⟨tail, rfl⟩ := List.head?_eq_some_iff.mp hnewline
      rw [settles_comment_return] at hsettles
      exact first_return errorLength hsettles more
    -- a carriage return alone is an error whatever follows
    · have herror : ∀ tail : List Char, tail.head? ≠ some '\n' →
          scanToken errorLength ('\r' :: tail) = (.error, errorLength ('\r' :: tail)) := by
        intro tail htail
        rw [scanToken]
        exact if_neg (fun h : '\r' = '\r' ∧ tail.head? = some '\n' => htail h.2)
      refine .failed ?_ ?_
      · rw [herror rest hnewline]
      · rw [List.cons_append, herror]
        rwa [List.head?_append_of_ne_nil rest hrest]
  · rw [settles_comment_newline] at hsettles
    exact first_newline errorLength hsettles more

theorem first_of_inStep {depth : Nat} {text : List Char} (h : InStep depth text)
    (more : List Char) : First errorLength depth text more := by
  rcases h with hsettles | ⟨hsettles, c, rest, rfl, hend⟩
  · cases text with
    | nil => rw [settles_nil] at hsettles; cases hsettles
    | cons c rest => exact first_normal errorLength hsettles more
  · exact first_comment errorLength hend hsettles more

/-- Some lexemes are errors. -/
def Fails (lexemes : List (Lexeme Token)) : Prop := ∃ lexeme ∈ lexemes, lexeme.token = .error

/-- The last line of some lexemes is ended. -/
def Ended (lexemes : List (Lexeme Token)) : Prop :=
  lexemes.getLast?.map (·.token) = some .newline

theorem bracketed_eq_error {depth : Nat} {token : Token} :
    bracketed depth token = .error ↔ token = .error := by
  rw [bracketed]
  split
  · next h => simp [h.1]
  · rfl

theorem InStep.ne_nil {depth : Nat} {text : List Char} (h : InStep depth text) : text ≠ [] := by
  rintro rfl
  rcases h with h | ⟨-, c, rest, h, -⟩
  · rw [settles_nil] at h
    cases h
  · cases h

theorem tokens_scanToken {depth length : Nat} {c : Char} {rest : List Char} {token : Token}
    (h : scanToken errorLength (c :: rest) = (token, length)) :
    (lexer errorLength).tokens depth (c :: rest) =
      ⟨bracketed depth token, c :: rest.take length⟩ ::
        (lexer errorLength).tokens (nextDepth depth (bracketed depth token))
          (rest.drop length) := by
  have hscan : (lexer errorLength).scan depth (c :: rest) = (bracketed depth token, length) := by
    change (bracketed depth (scanToken errorLength (c :: rest)).1,
      (scanToken errorLength (c :: rest)).2) = _
    rw [h]
  rw [Lexer.tokens_cons, hscan]
  rfl

theorem fails_of_scanToken (depth : Nat) {c : Char} {rest : List Char}
    (h : (scanToken errorLength (c :: rest)).1 = .error) :
    Fails ((lexer errorLength).tokens depth (c :: rest)) := by
  rw [tokens_scanToken errorLength rfl]
  exact ⟨_, List.mem_cons_self, bracketed_eq_error.mpr h⟩

theorem fails_cons {depth : Nat} {token : Token} (h : token ≠ .error) (text : List Char)
    (lexemes : List (Lexeme Token)) :
    Fails (⟨bracketed depth token, text⟩ :: lexemes) ↔ Fails lexemes := by
  refine ⟨?_, fun ⟨failed, hmem, herror⟩ => ⟨failed, List.mem_cons_of_mem _ hmem, herror⟩⟩
  rintro ⟨failed, hmem, herror⟩
  rcases List.mem_cons.mp hmem with rfl | hmem
  · exact absurd (bracketed_eq_error.mp herror) h
  · exact ⟨failed, hmem, herror⟩

theorem Ended.cons {lexemes : List (Lexeme Token)} (h : Ended lexemes) (lexeme : Lexeme Token) :
    Ended (lexeme :: lexemes) := by
  cases lexemes with
  | nil => cases h
  | cons next lexemes => rwa [Ended, List.getLast?_cons_cons]

/-- A text in step has an error whatever follows, or ends a line behind which the lexer starts
anew. -/
theorem tokens_of_inStep (more : List Char) {depth : Nat} {text : List Char}
    (h : InStep depth text) :
    Fails ((lexer errorLength).tokens depth text) ∧
        Fails ((lexer errorLength).tokens depth (text ++ more)) ∨
      ¬Fails ((lexer errorLength).tokens depth text) ∧
        Ended ((lexer errorLength).tokens depth text) ∧
        (lexer errorLength).tokens depth (text ++ more) =
          (lexer errorLength).tokens depth text ++ (lexer errorLength).tokens 0 more := by
  induction hsize : text.length using Nat.strong_induction_on generalizing depth text with
  | _ n ih =>
  cases text with
  | nil => exact absurd rfl h.ne_nil
  | cons c rest =>
      cases first_of_inStep errorLength h more with
      | failed hfirst hmore =>
          exact .inl ⟨fails_of_scanToken errorLength depth hfirst,
            fails_of_scanToken errorLength depth hmore⟩
      | @inside token length htoken hfirst hmore hrest =>
          rw [List.drop_succ_cons] at hrest
          have hlength : length ≤ rest.length := by
            by_contra hlong
            exact hrest.ne_nil (List.drop_eq_nil_of_le (by omega))
          have hshorter : (rest.drop length).length < n := by
            rw [← hsize, List.length_drop, List.length_cons]
            omega
          rw [List.cons_append] at hmore
          have hwhole := @tokens_scanToken errorLength depth length c (rest ++ more) token hmore
          rw [List.take_append_of_le_length hlength, List.drop_append_of_le_length hlength] at hwhole
          rw [List.cons_append, hwhole, tokens_scanToken errorLength hfirst, fails_cons htoken,
            fails_cons htoken]
          rcases ih _ hshorter hrest rfl with hfailed | ⟨hclean, hended, hsplit⟩
          · exact .inl hfailed
          · refine .inr ⟨hclean, hended.cons _, ?_⟩
            rw [hsplit, List.cons_append]
      | last hdepth hfirst hmore =>
          subst hdepth
          rw [List.length_cons, Nat.add_sub_cancel] at hfirst hmore
          rw [List.cons_append] at hmore
          have hwhole := @tokens_scanToken errorLength 0 rest.length c (rest ++ more) .newline hmore
          rw [List.take_left, List.drop_left] at hwhole
          rw [List.cons_append, hwhole, tokens_scanToken errorLength hfirst, List.take_length,
            List.drop_length, Lexer.tokens_nil]
          refine .inr ⟨?_, rfl, rfl⟩
          rintro ⟨failed, hmem, herror⟩
          rw [List.mem_singleton.mp hmem] at herror
          cases herror

end Tokens

end Telora.Toml.Lexing
