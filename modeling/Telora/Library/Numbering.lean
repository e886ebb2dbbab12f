import Mathlib.Data.List.Nodup
import Mathlib.Logic.Function.Basic

/-!
# Numbering by position

A list that was sorted gives new numbers to what it holds. One pass over it fills a table from
the old numbers to the new ones; some places of the list have no old number.
-/

namespace Telora.Library

variable {κ : Type} [DecidableEq κ]

/-- The pass over the list from a position on. -/
def numbering : Nat → List (Option κ) → (κ → Nat) → κ → Nat
  | _, [], table => table
  | position, none :: rest, table => numbering (position + 1) rest table
  | position, some key :: rest, table =>
      numbering (position + 1) rest (Function.update table key position)

theorem numbering_of_not_mem {keys : List (Option κ)} {key : κ} (h : some key ∉ keys)
    (position : Nat) (table : κ → Nat) : numbering position keys table key = table key := by
  induction keys generalizing position table with
  | nil => rfl
  | cons first rest ih =>
      obtain ⟨hne, hrest⟩ := not_or.mp fun hmem => h (List.mem_cons.mpr hmem)
      cases first with
      | none => exact ih hrest _ _
      | some other =>
          rw [numbering, ih hrest]
          exact Function.update_of_ne (fun heq => hne (congrArg some heq)) _ _

/-- A key that occurs once gets its position. -/
theorem numbering_eq {keys : List (Option κ)} {key : κ} {i : Nat}
    (hi : keys[i]? = some (some key)) (honce : keys.count (some key) ≤ 1) (position : Nat)
    (table : κ → Nat) : numbering position keys table key = position + i := by
  induction keys generalizing i position table with
  | nil => cases hi
  | cons first rest ih =>
      cases i with
      | zero =>
          obtain rfl : first = some key := Option.some.inj hi
          rw [List.count_cons_self] at honce
          have hrest : some key ∉ rest := List.count_eq_zero.mp (by omega)
          rw [numbering, numbering_of_not_mem hrest, Function.update_self]
          rfl
      | succ i =>
          have hrest : rest.count (some key) ≤ 1 := Nat.le_trans List.count_le_count_cons honce
          have hnext (table : κ → Nat) :
              numbering (position + 1) rest table key = position + (i + 1) := by
            rw [ih hi hrest]
            omega
          cases first with
          | none => exact hnext table
          | some other => exact hnext _

theorem count_some_le_one {keys : List (Option κ)} (h : (keys.filterMap id).Nodup) (key : κ) :
    keys.count (some key) ≤ 1 := by
  induction keys with
  | nil => exact Nat.zero_le 1
  | cons first rest ih =>
      cases first with
      | none =>
          rw [List.count_cons_of_ne (by simp)]
          exact ih h
      | some other =>
          obtain ⟨hother, hrest⟩ := List.nodup_cons.mp h
          by_cases heq : other = key
          · subst heq
            have hnone : rest.count (some other) = 0 := by
              refine List.count_eq_zero.mpr fun hmem => hother ?_
              exact List.mem_filterMap.mpr ⟨some other, hmem, rfl⟩
            have hcount : (some other :: rest).count (some other) = 1 :=
              List.count_cons_self.trans (congrArg (· + 1) hnone)
            exact Nat.le_of_eq hcount
          · rw [List.count_cons_of_ne (by simpa using heq)]
            exact ih hrest

end Telora.Library
