import Mathlib.Data.String.Basic
import Mathlib.Tactic.Tauto
import Telora.Library.Lists

/-!
# Ordered entries

Association lists with increasing keys, as an ordered map iterates over them.
-/

namespace Telora.Library

variable {κ β : Type} [LinearOrder κ]

/-- Insert or overwrite the entry of a key. -/
def insertEntry (key : κ) (value : β) : List (κ × β) → List (κ × β)
  | [] => [(key, value)]
  | entry :: rest =>
      if key < entry.1 then (key, value) :: entry :: rest
      else if key = entry.1 then (key, value) :: rest
      else entry :: insertEntry key value rest

theorem mem_insertEntry {key : κ} {value : β} {entries : List (κ × β)} {entry : κ × β}
    (h : entry ∈ insertEntry key value entries) :
    entry = (key, value) ∨ entry ∈ entries := by
  induction entries with
  | nil => simpa [insertEntry] using h
  | cons first rest ih =>
      rw [insertEntry] at h
      split at h
      · simpa using h
      · split at h
        · simp only [List.mem_cons] at h ⊢
          tauto
        · rcases List.mem_cons.mp h with rfl | hrest
          · simp
          · rcases ih hrest with rfl | hmem
            · simp
            · simp [hmem]

theorem lookup_insertEntry {key other : κ} {value : β} (entries : List (κ × β)) :
    (insertEntry key value entries).lookup other =
      if other = key then some value else entries.lookup other := by
  induction entries with
  | nil =>
      by_cases hother : other = key
      · subst hother
        exact lookup_cons_self.trans (if_pos rfl).symm
      · exact (lookup_cons_ne hother).trans (if_neg hother).symm
  | cons first rest ih =>
      obtain ⟨name, found⟩ := first
      rw [insertEntry]
      split
      · by_cases hother : other = key
        · subst hother
          rw [lookup_cons_self, if_pos rfl]
        · rw [lookup_cons_ne hother, if_neg hother]
      · split
        · rename_i hkey
          obtain rfl : key = name := hkey
          by_cases hother : other = key
          · subst hother
            rw [lookup_cons_self, if_pos rfl]
          · rw [lookup_cons_ne hother, lookup_cons_ne hother, if_neg hother]
        · rename_i hkey
          by_cases hname : other = name
          · subst hname
            rw [lookup_cons_self, lookup_cons_self, if_neg (Ne.symm hkey)]
          · rw [lookup_cons_ne hname, lookup_cons_ne hname, ih]

/-- Inserting keeps the keys increasing. -/
theorem pairwise_insertEntry {key : κ} {value : β} {entries : List (κ × β)}
    (h : entries.Pairwise (·.1 < ·.1)) :
    (insertEntry key value entries).Pairwise (·.1 < ·.1) := by
  induction entries with
  | nil => simp [insertEntry]
  | cons first rest ih =>
      obtain ⟨hfirst, hrest⟩ := List.pairwise_cons.mp h
      rw [insertEntry]
      split
      · rename_i hlt
        refine List.pairwise_cons.mpr ⟨?_, h⟩
        intro entry hentry
        rcases List.mem_cons.mp hentry with rfl | hmem
        · exact hlt
        · exact hlt.trans (hfirst entry hmem)
      · split
        · rename_i heq
          exact List.pairwise_cons.mpr ⟨fun entry hentry => heq ▸ hfirst entry hentry, hrest⟩
        · rename_i hge hne
          refine List.pairwise_cons.mpr ⟨?_, ih hrest⟩
          intro entry hentry
          rcases mem_insertEntry hentry with rfl | hmem
          · exact lt_of_le_of_ne (le_of_not_gt hge) (Ne.symm hne)
          · exact hfirst entry hmem

/-- Inserting entries one after the other, the later ones win. -/
def insertEntries (entries merged : List (κ × β)) : List (κ × β) :=
  entries.foldl (fun merged entry => insertEntry entry.1 entry.2 merged) merged

theorem pairwise_insertEntries (entries : List (κ × β)) {merged : List (κ × β)}
    (h : merged.Pairwise (·.1 < ·.1)) : (insertEntries entries merged).Pairwise (·.1 < ·.1) := by
  induction entries generalizing merged with
  | nil => exact h
  | cons entry rest ih => exact ih (pairwise_insertEntry h)

theorem lookup_insertEntries {entries : List (κ × β)} (hnodup : (entries.map (·.1)).Nodup)
    (merged : List (κ × β)) (key : κ) :
    (insertEntries entries merged).lookup key = (entries.lookup key).or (merged.lookup key) := by
  induction entries generalizing merged with
  | nil => rfl
  | cons entry rest ih =>
      obtain ⟨first, value⟩ := entry
      obtain ⟨hfresh, hrest⟩ := List.nodup_cons.mp hnodup
      change (insertEntries rest (insertEntry first value merged)).lookup key = _
      rw [ih hrest, lookup_insertEntry]
      by_cases hkey : key = first
      · subst hkey
        have hnone : rest.lookup key = none := by
          cases hfound : rest.lookup key with
          | none => rfl
          | some other =>
              exact absurd (List.mem_map_of_mem (f := (·.1)) (mem_of_lookup hfound)) hfresh
        rw [hnone, if_pos rfl, Option.none_or, lookup_cons_self, Option.some_or]
      · rw [if_neg hkey, lookup_cons_ne hkey]

/-- The union of some lists of entries: each key has the value of the last list that has it. -/
theorem lookup_foldl_insertEntries {lists : List (List (κ × β))}
    (hnodup : ∀ entries ∈ lists, (entries.map (·.1)).Nodup) (merged : List (κ × β)) (key : κ) :
    (lists.foldl (fun merged entries => insertEntries entries merged) merged).lookup key =
      (lists.reverse.findSome? (·.lookup key)).or (merged.lookup key) := by
  induction lists generalizing merged with
  | nil => rfl
  | cons entries rest ih =>
      obtain ⟨hfirst, hrest⟩ := List.forall_mem_cons.mp hnodup
      rw [List.foldl_cons, ih hrest, lookup_insertEntries hfirst, List.reverse_cons,
        List.findSome?_append, Option.or_assoc, List.findSome?_singleton]

theorem pairwise_foldl_insertEntries (lists : List (List (κ × β))) {merged : List (κ × β)}
    (h : merged.Pairwise (·.1 < ·.1)) :
    (lists.foldl (fun merged entries => insertEntries entries merged) merged).Pairwise
      (·.1 < ·.1) := by
  induction lists generalizing merged with
  | nil => exact h
  | cons entries rest ih => exact ih (pairwise_insertEntries entries h)

end Telora.Library
