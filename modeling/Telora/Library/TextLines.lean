import Telora.Library.Utf8
import Mathlib.Data.List.TakeWhile

/-!
# Lines of a text

A text is cut at line feeds. The content of a line is what stands before its line feed, or
before a carriage return and a line feed.
-/

namespace Telora.Library

/-- What stands before a line, and the text from it on. -/
def splitAtLine : Nat → List Char → Option (List Char × List Char)
  | 0, text => some ([], text)
  | _ + 1, [] => none
  | line + 1, c :: rest =>
      (splitAtLine (if c = '\n' then line else line + 1) rest).map fun sides =>
        (c :: sides.1, sides.2)

/-- A line of a text: the lines before it, its content, and the rest from its end on. -/
structure LineAt (text : List Char) (line : Nat) (front content rest : List Char) : Prop where
  eq : text = front ++ (content ++ rest)
  count : front.count '\n' = line
  start : front = [] ∨ ∃ before, front = before ++ ['\n']
  noBreak : '\n' ∉ content
  ending : rest = [] ∨ (∃ more, rest = '\r' :: '\n' :: more) ∨
    ∃ more, rest = '\n' :: more ∧ content.getLast? ≠ some '\r'

section Lines

theorem splitAtLine_zero (text : List Char) : splitAtLine 0 text = some ([], text) := by
  cases text <;> rfl

/-- The lines before a line end with a line feed, and the text is cut behind them. -/
theorem splitAtLine_append {front : List Char}
    (hstart : front = [] ∨ ∃ before, front = before ++ ['\n']) (back : List Char) :
    splitAtLine (front.count '\n') (front ++ back) = some (front, back) := by
  induction front with
  | nil => exact splitAtLine_zero back
  | cons c front ih =>
      have hrest : front = [] ∧ c = '\n' ∨ ∃ before, front = before ++ ['\n'] := by
        rcases hstart with h | ⟨before, h⟩
        · cases h
        · cases before with
          | nil =>
              obtain ⟨rfl, rfl⟩ := List.cons.inj h
              exact .inl ⟨rfl, rfl⟩
          | cons d before => exact .inr ⟨before, (List.cons.inj h).2⟩
      have hcut := ih (hrest.imp (·.1) id)
      by_cases hc : c = '\n'
      · subst hc
        rw [List.count_cons_self, List.cons_append, splitAtLine, if_pos rfl, hcut]
        rfl
      · obtain ⟨before, rfl⟩ := hrest.resolve_left fun h => hc h.2
        have hcount : (before ++ ['\n']).count '\n' = before.count '\n' + 1 := by
          rw [List.count_append, List.count_singleton_self]
        rw [List.count_cons_of_ne hc, List.cons_append]
        rw [hcount] at hcut ⊢
        rw [splitAtLine, if_neg hc, hcut]
        rfl

theorem splitAtLine_eq_some {line : Nat} {text front back : List Char}
    (h : splitAtLine line text = some (front, back)) :
    text = front ++ back ∧ front.count '\n' = line ∧
      (front = [] ∨ ∃ before, front = before ++ ['\n']) := by
  induction text generalizing line front with
  | nil =>
      cases line with
      | zero => cases h; exact ⟨rfl, rfl, .inl rfl⟩
      | succ line => cases h
  | cons c text ih =>
      cases line with
      | zero => cases h; exact ⟨rfl, rfl, .inl rfl⟩
      | succ line =>
          rw [splitAtLine] at h
          obtain ⟨⟨front', back'⟩, hsplit, hsides⟩ := Option.map_eq_some_iff.mp h
          cases hsides
          obtain ⟨rfl, hcount, hstart⟩ := ih hsplit
          by_cases hc : c = '\n'
          · subst hc
            rw [if_pos rfl] at hcount
            refine ⟨rfl, by rw [List.count_cons_self, hcount], .inr ?_⟩
            rcases hstart with rfl | ⟨before, rfl⟩
            · exact ⟨[], rfl⟩
            · exact ⟨'\n' :: before, rfl⟩
          · rw [if_neg hc] at hcount
            refine ⟨rfl, by rw [List.count_cons_of_ne hc, hcount], .inr ?_⟩
            rcases hstart with rfl | ⟨before, rfl⟩
            · cases hcount
            · exact ⟨c :: before, rfl⟩

/-- There is a line for every line feed, and one more. -/
theorem exists_splitAtLine {line : Nat} {text : List Char} (h : line ≤ text.count '\n') :
    ∃ front back, splitAtLine line text = some (front, back) := by
  induction text generalizing line with
  | nil =>
      obtain rfl := Nat.le_zero.mp h
      exact ⟨[], [], rfl⟩
  | cons c text ih =>
      cases line with
      | zero => exact ⟨[], c :: text, rfl⟩
      | succ line =>
          have hle : (if c = '\n' then line else line + 1) ≤ text.count '\n' := by
            by_cases hc : c = '\n'
            · rw [if_pos hc]
              rw [hc, List.count_cons_self] at h
              exact Nat.le_of_succ_le_succ h
            · rw [if_neg hc]
              rwa [List.count_cons_of_ne hc] at h
          obtain ⟨front, back, hsplit⟩ := ih hle
          exact ⟨c :: front, back, by rw [splitAtLine, hsplit]; rfl⟩

/-- A text up to its first line feed, without a carriage return in front of it. -/
theorem exists_content (text : List Char) : ∃ content rest, text = content ++ rest ∧
    '\n' ∉ content ∧ (rest = [] ∨ (∃ more, rest = '\r' :: '\n' :: more) ∨
      ∃ more, rest = '\n' :: more ∧ content.getLast? ≠ some '\r') := by
  have hsplit := @List.takeWhile_append_dropWhile _ (fun c => decide (c ≠ '\n')) text
  have hfront : '\n' ∉ text.takeWhile (fun c => decide (c ≠ '\n')) := fun hmem =>
    by
    simpa using List.mem_takeWhile_imp hmem
  cases hback : text.dropWhile (fun c => decide (c ≠ '\n')) with
  | nil =>
      rw [hback] at hsplit
      exact ⟨_, [], hsplit.symm, hfront, .inl rfl⟩
  | cons c more =>
      have hc : c = '\n' := by
        have hhead := List.head?_dropWhile_not (fun c => decide (c ≠ '\n')) text
        rw [hback] at hhead
        simpa using hhead
      subst hc
      rw [hback] at hsplit
      generalize text.takeWhile (fun c => decide (c ≠ '\n')) = front at hsplit hfront
      rcases List.eq_nil_or_concat' front with rfl | ⟨front, d, rfl⟩
      · exact ⟨[], '\n' :: more, hsplit.symm, hfront, .inr (.inr ⟨more, rfl, by simp⟩)⟩
      · by_cases hd : d = '\r'
        · subst hd
          refine ⟨front, '\r' :: '\n' :: more, ?_, fun hmem => hfront ?_, .inr (.inl ⟨more, rfl⟩)⟩
          · rw [← hsplit, List.append_assoc]
            rfl
          · exact List.mem_append_left _ hmem
        · refine ⟨front ++ [d], '\n' :: more, hsplit.symm, hfront, .inr (.inr ⟨more, rfl, ?_⟩)⟩
          rw [List.getLast?_concat]
          exact fun h => hd (Option.some.inj h)

theorem exists_lineAt {line : Nat} {text : List Char} (h : line ≤ text.count '\n') :
    ∃ front content rest, LineAt text line front content rest := by
  obtain ⟨front, back, hsplit⟩ := exists_splitAtLine h
  obtain ⟨rfl, hcount, hstart⟩ := splitAtLine_eq_some hsplit
  obtain ⟨content, rest, rfl, hcontent, hrest⟩ := exists_content back
  exact ⟨front, content, rest, rfl, hcount, hstart, hcontent, hrest⟩

theorem LineAt.line_le {text front content rest : List Char} {line : Nat}
    (h : LineAt text line front content rest) : line ≤ text.count '\n' := by
  rw [h.eq, List.count_append, h.count]
  exact Nat.le_add_right _ _

end Lines

end Telora.Library
