import Telora.Yaml.Quoting

/-!
# Scanning a line for quotes

The two scanners of a line as automata. The one that looks for a comment takes every quote as
the start or the end of a quoted stretch; the one that looks for a key also counts brackets and
passes over escapes. Both keep a text as far as no character in it ends the scan.
-/

namespace Telora.Yaml

open Library

section Comments

/-- The quote that is open behind a character. -/
def nextQuote (quote : Option Char) (c : Char) : Option Char :=
  match quote with
  | some active => if c = active then none else some active
  | none => if isQuote c then some c else none

/-- The quote that is open behind a text. -/
def quoteAfter (quote : Option Char) (text : List Char) : Option Char :=
  text.foldl nextQuote quote

/-- The character before what follows a text. -/
def lastOf (previous : Option Char) (text : List Char) : Option Char :=
  text.foldl (fun _ c => some c) previous

/-- A `#` behind a text starts a comment: no quote is open, and white space is before it. -/
structure OpensComment (quote previous : Option Char) (text : List Char) : Prop where
  outside : quoteAfter quote text = none
  apart : (lastOf previous text).all isWhitespaceChar = true

/-- No comment starts in a text. -/
def Uncut (quote previous : Option Char) (text : List Char) : Prop :=
  ∀ front back, text = front ++ '#' :: back → ¬ OpensComment quote previous front

variable {quote previous : Option Char} {text : List Char}

theorem quoteAfter_append (quote : Option Char) (left right : List Char) :
    quoteAfter quote (left ++ right) = quoteAfter (quoteAfter quote left) right :=
  List.foldl_append

theorem lastOf_concat (previous : Option Char) (text : List Char) (c : Char) :
    lastOf previous (text ++ [c]) = some c := by
  rw [lastOf, List.foldl_append]
  rfl

theorem stripCommentFrom_cons (quote previous : Option Char) (c : Char) (rest : List Char) :
    stripCommentFrom quote previous (c :: rest) =
      if c = '#' ∧ quote = none ∧ previous.all isWhitespaceChar = true then []
      else c :: stripCommentFrom (nextQuote quote c) (some c) rest := by
  cases quote with
  | some active =>
      rw [if_neg fun h => by cases h.2.1]
      rfl
  | none =>
      by_cases hquote : isQuote c = true
      · have hc : c ≠ '#' := by
          rintro rfl
          exact absurd hquote (by decide)
        rw [if_neg fun h => hc h.1, stripCommentFrom, nextQuote]
        simp only [hquote, if_true]
      · rw [stripCommentFrom, nextQuote]
        simp only [hquote, if_false, Bool.false_eq_true, true_and]

theorem uncut_nil (quote previous : Option Char) : Uncut quote previous [] := by
  intro front back h
  cases front <;> cases h

theorem uncut_cons (quote previous : Option Char) (c : Char) (rest : List Char) :
    Uncut quote previous (c :: rest) ↔
      ¬ (c = '#' ∧ quote = none ∧ previous.all isWhitespaceChar = true) ∧
        Uncut (nextQuote quote c) (some c) rest := by
  constructor
  · intro h
    refine ⟨?_, fun front back hsplit hopens => ?_⟩
    · rintro ⟨rfl, hquote, hprevious⟩
      exact h [] rest rfl ⟨hquote, hprevious⟩
    · exact h (c :: front) back (congrArg (c :: ·) hsplit) ⟨hopens.outside, hopens.apart⟩
  · rintro ⟨hfirst, hrest⟩ front back hsplit hopens
    cases front with
    | nil =>
        obtain ⟨rfl, -⟩ := List.cons.inj hsplit
        exact hfirst ⟨rfl, hopens.outside, hopens.apart⟩
    | cons d front =>
        obtain ⟨rfl, htail⟩ := List.cons.inj hsplit
        exact hrest front back htail ⟨hopens.outside, hopens.apart⟩

/-- A text in which no comment starts is kept in front of any other. -/
theorem Uncut.strip_append (h : Uncut quote previous text) (more : List Char) :
    stripCommentFrom quote previous (text ++ more) =
      text ++ stripCommentFrom (quoteAfter quote text) (lastOf previous text) more := by
  induction text generalizing quote previous with
  | nil => rfl
  | cons c text ih =>
      obtain ⟨hfirst, hrest⟩ := (uncut_cons quote previous c text).mp h
      rw [List.cons_append, stripCommentFrom_cons, if_neg hfirst, ih hrest]
      rfl

theorem Uncut.strip (h : Uncut quote previous text) :
    stripCommentFrom quote previous text = text := by
  have hstrip := h.strip_append []
  rw [List.append_nil] at hstrip
  rw [hstrip]
  exact List.append_nil text

/-- Any other text is cut at its first comment, whatever is behind it. -/
theorem exists_cut (h : ¬ Uncut quote previous text) :
    ∃ front back, text = front ++ '#' :: back ∧ OpensComment quote previous front ∧
      ∀ more, stripCommentFrom quote previous (text ++ more) = front := by
  induction text generalizing quote previous with
  | nil => exact absurd (uncut_nil quote previous) h
  | cons c text ih =>
      by_cases hfirst : c = '#' ∧ quote = none ∧ previous.all isWhitespaceChar = true
      · obtain ⟨rfl, hquote, hprevious⟩ := hfirst
        refine ⟨[], text, rfl, ⟨hquote, hprevious⟩, fun more => ?_⟩
        rw [List.cons_append, stripCommentFrom_cons, if_pos ⟨rfl, hquote, hprevious⟩]
      · have hrest : ¬ Uncut (nextQuote quote c) (some c) text := fun hrest =>
          h ((uncut_cons quote previous c text).mpr ⟨hfirst, hrest⟩)
        obtain ⟨front, back, rfl, hopens, hstrip⟩ := ih hrest
        refine ⟨c :: front, back, rfl, ⟨hopens.outside, hopens.apart⟩, fun more => ?_⟩
        rw [List.cons_append, stripCommentFrom_cons, if_neg hfirst, hstrip]

end Comments

/-- What the scanner for a key keeps of the text it has passed. -/
structure KeyScan where
  quote : Option Char
  depth : Nat
  escaped : Bool
  deriving DecidableEq

namespace KeyScan

/-- Outside of quotes and brackets. -/
def start : KeyScan := ⟨none, 0, false⟩

def next (scan : KeyScan) (c : Char) : KeyScan :=
  if scan.escaped then { scan with escaped := false }
  else if scan.quote = some '"' ∧ c = '\\' then { scan with escaped := true }
  else match scan.quote with
    | some active => { scan with quote := if c = active then none else some active }
    | none =>
        if isQuote c then { scan with quote := some c }
        else if c = '[' ∨ c = '\x7b' then { scan with depth := scan.depth + 1 }
        else if c = ']' ∨ c = '\x7d' then { scan with depth := scan.depth - 1 }
        else scan

def after (scan : KeyScan) (text : List Char) : KeyScan := text.foldl next scan

def split (scan : KeyScan) (text : List Char) : Option (List Char × List Char) :=
  splitMappingFrom scan.quote scan.depth scan.escaped text

theorem split_start (text : List Char) : start.split text = splitMapping text := rfl

theorem after_append (scan : KeyScan) (left right : List Char) :
    scan.after (left ++ right) = (scan.after left).after right :=
  List.foldl_append

/-- No colon in a text is the one of a key, when some more text is behind it. -/
def Unsplit (scan : KeyScan) (text more : List Char) : Prop :=
  ∀ front back, text = front ++ ':' :: back → (back ++ more).head?.all isWhitespaceChar = true →
    scan.after front ≠ start

variable {scan : KeyScan} {text more : List Char}

theorem split_cons (scan : KeyScan) (c : Char) (rest : List Char) :
    scan.split (c :: rest) =
      if c = ':' ∧ rest.head?.all isWhitespaceChar = true ∧ scan = start then some ([], rest)
      else ((scan.next c).split rest).map fun found => (c :: found.1, found.2) := by
  obtain ⟨quote, depth, escaped⟩ := scan
  rw [split, splitMappingFrom.eq_def]
  cases escaped with
  | true =>
      have hopen : (⟨quote, depth, true⟩ : KeyScan) ≠ start := by
        intro h
        cases h
      rw [if_neg fun h => hopen h.2.2]
      rfl
  | false =>
      by_cases hslash : quote = some '"' ∧ c = '\\'
      · have hc : c ≠ ':' := by
          rw [hslash.2]
          decide
        rw [if_neg fun h => hc h.1, next]
        simp only [Bool.false_eq_true, if_false, if_pos hslash]
        rfl
      · cases quote with
        | some active =>
            have hopen : (⟨some active, depth, false⟩ : KeyScan) ≠ start := by
              intro h
              cases h
            rw [if_neg fun h => hopen h.2.2, next]
            simp only [Bool.false_eq_true, if_false, if_neg hslash]
            rfl
        | none =>
            simp only [next, Bool.false_eq_true, if_false, if_neg hslash]
            by_cases hquote : isQuote c = true
            · have hc : c ≠ ':' := by
                rintro rfl
                exact absurd hquote (by decide)
              rw [if_pos hquote, if_pos hquote, if_neg fun h => hc h.1]
              rfl
            · rw [if_neg hquote, if_neg hquote]
              by_cases hcolon : c = ':'
              · subst hcolon
                have hscan : (⟨none, depth, false⟩ : KeyScan) = start ↔ depth = 0 :=
                  ⟨fun h => congrArg KeyScan.depth h, fun h => by rw [h]; rfl⟩
                have hopen : ¬ (':' = '[' ∨ ':' = '\x7b') := by decide
                have hclose : ¬ (':' = ']' ∨ ':' = '\x7d') := by decide
                simp only [if_neg hopen, if_neg hclose, hscan]
                exact if_congr (and_congr_right fun _ => and_comm) rfl rfl
              · by_cases hopen : c = '[' ∨ c = '\x7b'
                · simp only [hcolon, false_and, if_false, if_pos hopen]
                  rfl
                · by_cases hclose : c = ']' ∨ c = '\x7d'
                  · simp only [hcolon, false_and, if_false, if_neg hopen, if_pos hclose]
                    rfl
                  · simp only [hcolon, false_and, if_false, if_neg hopen, if_neg hclose]
                    rfl

/-- The two parts of a split are around a colon. -/
theorem eq_of_split {key rest : List Char} (h : scan.split text = some (key, rest)) :
    text = key ++ ':' :: rest := by
  induction text generalizing scan key with
  | nil => cases h
  | cons c text ih =>
      rw [split_cons] at h
      split at h
      · next hfirst =>
          cases h
          rw [hfirst.1]
          rfl
      · obtain ⟨⟨key', rest'⟩, hfound, hparts⟩ := Option.map_eq_some_iff.mp h
        cases hparts
        rw [ih hfound]
        rfl

theorem unsplit_cons (scan : KeyScan) (c : Char) (rest more : List Char) :
    scan.Unsplit (c :: rest) more ↔
      ¬ (c = ':' ∧ (rest ++ more).head?.all isWhitespaceChar = true ∧ scan = start) ∧
        (scan.next c).Unsplit rest more := by
  constructor
  · intro h
    refine ⟨?_, fun front back hsplit hblank => ?_⟩
    · rintro ⟨rfl, hblank, hscan⟩
      exact h [] rest rfl hblank hscan
    · exact h (c :: front) back (congrArg (c :: ·) hsplit) hblank
  · rintro ⟨hfirst, hrest⟩ front back hsplit hblank
    cases front with
    | nil =>
        obtain ⟨rfl, rfl⟩ := List.cons.inj hsplit
        exact fun hscan => hfirst ⟨rfl, hblank, hscan⟩
    | cons d front =>
        obtain ⟨rfl, htail⟩ := List.cons.inj hsplit
        exact hrest front back htail hblank

/-- A text without such a colon is passed. -/
theorem Unsplit.split_append (h : scan.Unsplit text more) :
    scan.split (text ++ more) =
      ((scan.after text).split more).map fun found => (text ++ found.1, found.2) := by
  induction text generalizing scan with
  | nil => exact Option.map_id'.symm
  | cons c text ih =>
      obtain ⟨hfirst, hrest⟩ := (unsplit_cons scan c text more).mp h
      rw [List.cons_append, split_cons, if_neg hfirst, ih hrest, Option.map_map]
      rfl

theorem unsplit_append (scan : KeyScan) (left right more : List Char) :
    scan.Unsplit (left ++ right) more ↔
      scan.Unsplit left (right ++ more) ∧ (scan.after left).Unsplit right more := by
  induction left generalizing scan with
  | nil =>
      refine (and_iff_right fun front back h => ?_).symm
      cases front <;> cases h
  | cons c left ih =>
      rw [List.cons_append, unsplit_cons, unsplit_cons, ih, and_assoc, List.append_assoc]
      rfl

theorem split_eq_none_iff (scan : KeyScan) (text : List Char) :
    scan.split text = none ↔ scan.Unsplit text [] := by
  induction text generalizing scan with
  | nil =>
      refine iff_of_true rfl fun front back h => ?_
      cases front <;> cases h
  | cons c text ih =>
      rw [split_cons, unsplit_cons, List.append_nil]
      by_cases hfirst : c = ':' ∧ text.head?.all isWhitespaceChar = true ∧ scan = start
      · rw [if_pos hfirst]
        exact iff_of_false (fun h => by cases h) fun h => h.1 hfirst
      · rw [if_neg hfirst, Option.map_eq_none_iff, ih]
        exact (and_iff_right hfirst).symm

/-- The colon behind a text is the one of its key exactly when nothing is open there. -/
theorem split_key_iff (h : scan.Unsplit text (':' :: more))
    (hmore : more.head?.all isWhitespaceChar = true) :
    scan.split (text ++ ':' :: more) = some (text, more) ↔ scan.after text = start := by
  rw [h.split_append, split_cons]
  constructor
  · intro hsplit
    by_contra hopen
    rw [if_neg fun hfirst => hopen hfirst.2.2, Option.map_map] at hsplit
    obtain ⟨found, -, hfound⟩ := Option.map_eq_some_iff.mp hsplit
    have hlength := congrArg List.length (Prod.mk.inj hfound).1
    simp at hlength
  · intro hscan
    rw [if_pos ⟨rfl, hmore, hscan⟩, Option.map_some, List.append_nil]

end KeyScan

end Telora.Yaml
