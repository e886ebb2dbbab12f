import Mathlib.Data.List.Destutter
import Mathlib.Data.List.Sort
import Telora.Library.Entries

/-!
# Grouping

Values that are collected by name in an ordered map of lists, and the values of a list
after all but the first of each key are dropped.
-/

namespace Telora.Library

section Distinct

variable {α κ : Type} [LinearOrder κ] (key : α → κ)

/-- The values in the order of their keys, the first one of each key. -/
def distinctBy (xs : List α) : List α :=
  (xs.insertionSort fun left right => key left ≤ key right).destutter fun left right =>
    key left ≠ key right

theorem mem_of_mem_distinctBy {xs : List α} {a : α} (h : a ∈ distinctBy key xs) : a ∈ xs :=
  (List.perm_insertionSort _ _).mem_iff.mp ((List.destutter_sublist _ _).subset h)

private theorem isChain_lt {keys : List κ} (hne : keys.IsChain (· ≠ ·))
    (hle : keys.Pairwise (· ≤ ·)) : keys.IsChain (· < ·) := by
  induction keys with
  | nil => exact .nil
  | cons first rest ih =>
      obtain ⟨hfirst, hrest⟩ := List.pairwise_cons.mp hle
      cases rest with
      | nil => exact .singleton first
      | cons next rest =>
          obtain ⟨hnext, hchain⟩ := List.isChain_cons_cons.mp hne
          have hlt := lt_of_le_of_ne (hfirst next List.mem_cons_self) hnext
          exact List.isChain_cons_cons.mpr ⟨hlt, ih hchain hrest⟩

theorem nodup_distinctBy (xs : List α) : ((distinctBy key xs).map key).Nodup := by
  have : Std.Total fun left right => key left ≤ key right := ⟨fun _ _ => le_total _ _⟩
  have : IsTrans α fun left right => key left ≤ key right := ⟨fun _ _ _ => le_trans⟩
  have hsorted := List.pairwise_insertionSort (fun left right => key left ≤ key right) xs
  have hkept := hsorted.sublist (List.destutter_sublist
    (fun left right => key left ≠ key right) _)
  have hchain := isChain_lt (List.isChain_map key |>.mpr (List.isChain_destutter _ _))
    (List.pairwise_map.mpr hkept)
  exact hchain.pairwise.imp ne_of_lt

private theorem exists_mem_destutter' (xs : List α) (first : α) {a : α}
    (h : a ∈ first :: xs) :
    ∃ b ∈ xs.destutter' (fun left right => key left ≠ key right) first, key b = key a := by
  induction xs generalizing first a with
  | nil => exact ⟨a, h, rfl⟩
  | cons next rest ih =>
      rw [List.destutter'_cons]
      split
      · rcases List.mem_cons.mp h with rfl | hrest
        · exact ⟨a, List.mem_cons_self, rfl⟩
        · obtain ⟨b, hb, hkey⟩ := ih next hrest
          exact ⟨b, List.mem_cons_of_mem first hb, hkey⟩
      · rename_i heq
        obtain rfl | rfl | hrest := by simpa using h
        · exact ih _ List.mem_cons_self
        · obtain ⟨b, hb, hkey⟩ := ih first List.mem_cons_self
          exact ⟨b, hb, hkey.trans (not_not.mp heq)⟩
        · exact ih first (List.mem_cons_of_mem first hrest)

theorem exists_mem_distinctBy {xs : List α} {a : α} (h : a ∈ xs) :
    ∃ b ∈ distinctBy key xs, key b = key a := by
  have hsorted := (List.perm_insertionSort (fun left right => key left ≤ key right) xs).mem_iff.mpr h
  rw [distinctBy]
  generalize xs.insertionSort (fun left right => key left ≤ key right) = sorted at hsorted
  cases sorted with
  | nil => exact absurd hsorted List.not_mem_nil
  | cons first rest => exact exists_mem_destutter' key rest first hsorted

end Distinct

section Groups

variable {κ β : Type} [LinearOrder κ]

/-- Add a value to those of its key. -/
def pushEntry (groups : List (κ × List β)) (entry : κ × β) : List (κ × List β) :=
  insertEntry entry.1 ((groups.lookup entry.1).getD [] ++ [entry.2]) groups

theorem pairwise_pushEntries {groups : List (κ × List β)} (h : groups.Pairwise (·.1 < ·.1))
    (entries : List (κ × β)) : (entries.foldl pushEntry groups).Pairwise (·.1 < ·.1) := by
  induction entries generalizing groups with
  | nil => exact h
  | cons entry rest ih => exact ih (pairwise_insertEntry h)

/-- What a key has after entries are added to its group. -/
theorem lookup_pushEntries (groups : List (κ × List β)) (entries : List (κ × β)) (key : κ) :
    ((entries.foldl pushEntry groups).lookup key).getD [] =
      (groups.lookup key).getD [] ++ (entries.filter (·.1 = key)).map (·.2) := by
  induction entries generalizing groups with
  | nil => simp
  | cons entry rest ih =>
      rw [List.foldl_cons, ih, pushEntry, lookup_insertEntry]
      by_cases hkey : key = entry.1
      · subst hkey
        simp
      · rw [if_neg hkey, List.filter_cons_of_neg (by simpa using Ne.symm hkey)]

/-- Every group of a key has a value. -/
theorem ne_nil_of_mem_pushEntries {groups : List (κ × List β)}
    (h : ∀ group ∈ groups, group.2 ≠ []) (entries : List (κ × β)) :
    ∀ group ∈ entries.foldl pushEntry groups, group.2 ≠ [] := by
  induction entries generalizing groups with
  | nil => exact h
  | cons entry rest ih =>
      refine ih fun group hgroup => ?_
      rcases mem_insertEntry hgroup with rfl | hmem
      · simp
      · exact h group hmem

end Groups

end Telora.Library
