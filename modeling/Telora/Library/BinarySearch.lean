import Mathlib.Order.Lattice
import Mathlib.Tactic.Common
import Telora.Library.Lists

/-!
# Binary search

The search halves a window and keeps its base. The key at an index is seen only
through its comparison with the wanted key, and in a strictly increasing sequence
the search finds the index of an equal key exactly when there is one.
-/

namespace Telora.Library

/-- The base of the window once it holds one index; the fuel bounds its size. -/
def narrow (compare : Nat → Ordering) : Nat → Nat → Nat → Nat
  | 0, _, base => base
  | fuel + 1, size, base =>
      if size ≤ 1 then base
      else
        narrow compare fuel (size - size / 2)
          (if compare (base + size / 2) = .gt then base else base + size / 2)

def binarySearchBy (compare : Nat → Ordering) (size : Nat) : Option Nat :=
  if size = 0 then none
  else if compare (narrow compare size size 0) = .eq then some (narrow compare size size 0)
  else none

/-- The keys increase strictly around the index of an equal key. -/
structure Pivot (compare : Nat → Ordering) (size index : Nat) : Prop where
  lt_size : index < size
  equal : compare index = .eq
  below : ∀ i < index, compare i = .lt
  above : ∀ i, index < i → i < size → compare i = .gt

/-- The window keeps the index of the equal key. -/
theorem narrow_eq {compare : Nat → Ordering} {total index : Nat}
    (h : Pivot compare total index) {fuel size base : Nat} (hfuel : size ≤ fuel)
    (hbase : base ≤ index) (hindex : index < base + size) (htotal : base + size ≤ total) :
    narrow compare fuel size base = index := by
  induction fuel generalizing size base with
  | zero => omega
  | succ fuel ih =>
      rw [narrow]
      by_cases hsmall : size ≤ 1
      · rw [if_pos hsmall]
        omega
      · rw [if_neg hsmall]
        apply ih
        · omega
        · by_cases hle : base + size / 2 ≤ index
          · split <;> omega
          · rw [if_pos (h.above _ (by omega) (by omega))]
            exact hbase
        · by_cases hle : base + size / 2 ≤ index
          · have hne : compare (base + size / 2) ≠ .gt := by
              rcases Nat.lt_or_eq_of_le hle with hlt | heq
              · simp [h.below _ hlt]
              · simp [heq, h.equal]
            rw [if_neg hne]
            omega
          · rw [if_pos (h.above _ (by omega) (by omega))]
            omega
        · split <;> omega

theorem binarySearchBy_eq_some {compare : Nat → Ordering} {size index : Nat}
    (h : Pivot compare size index) : binarySearchBy compare size = some index := by
  have hnarrow : narrow compare size size 0 = index :=
    narrow_eq h (Nat.le_refl _) (Nat.zero_le _) (by simpa using h.lt_size) (by omega)
  have hsize : size ≠ 0 := by
    have := h.lt_size
    omega
  rw [binarySearchBy, if_neg hsize, hnarrow, if_pos h.equal]

/-- An index that is found holds an equal key. -/
theorem compare_of_binarySearchBy {compare : Nat → Ordering} {size index : Nat}
    (h : binarySearchBy compare size = some index) : compare index = .eq := by
  unfold binarySearchBy at h
  split at h
  · cases h
  · split at h
    · rename_i heq
      rw [← Option.some.inj h, heq]
    · cases h

theorem narrow_lt {compare : Nat → Ordering} {fuel size base : Nat} (hsize : 0 < size) :
    narrow compare fuel size base < base + size := by
  induction fuel generalizing size base with
  | zero => exact Nat.lt_add_of_pos_right hsize
  | succ fuel ih =>
      rw [narrow]
      split
      · exact Nat.lt_add_of_pos_right hsize
      · refine lt_of_lt_of_le (ih (by omega)) ?_
        split <;> omega

theorem binarySearchBy_lt {compare : Nat → Ordering} {size index : Nat}
    (h : binarySearchBy compare size = some index) : index < size := by
  unfold binarySearchBy at h
  split at h
  · cases h
  · rename_i hsize
    split at h
    · obtain rfl := Option.some.inj h
      exact lt_of_lt_of_eq (narrow_lt (Nat.pos_of_ne_zero hsize)) (Nat.zero_add _)
    · cases h

/-- In increasing keys the search finds what is next to the wanted key. -/
theorem bind_binarySearchBy {α β : Type} [LinearOrder α] {keys : List α} {values : List β}
    {compare' : Nat → Ordering} {key : α} (hsorted : keys.Pairwise (· < ·))
    (hlength : keys.length = values.length)
    (hcompare : ∀ (i : Nat) (hi : i < keys.length), compare' i = compare keys[i] key) :
    (binarySearchBy compare' keys.length).bind (values[·]?) = (keys.zip values).lookup key := by
  have hzip (i : Nat) (hi : i < keys.length) : (keys.zip values)[i]? =
      some (keys[i], values.get ⟨i, hlength ▸ hi⟩) := by
    rw [List.getElem?_eq_getElem (by simp [← hlength, hi]), List.getElem_zip]
    rfl
  cases hlookup : (keys.zip values).lookup key with
  | some value =>
      obtain ⟨i, hi⟩ := List.mem_iff_getElem?.mp (mem_of_lookup hlookup)
      have hlt : i < keys.length := by
        have := (List.getElem?_eq_some_iff.mp hi).1
        rw [List.length_zip] at this
        omega
      rw [hzip i hlt] at hi
      obtain ⟨hkey, hvalue⟩ := Prod.mk.inj (Option.some.inj hi)
      have hpivot : Pivot compare' keys.length i := by
        refine ⟨hlt, ?_, ?_, ?_⟩
        · rw [hcompare i hlt, compare_eq_iff_eq, hkey]
        · intro j hj
          rw [hcompare j (hj.trans hlt), compare_lt_iff_lt, ← hkey]
          exact List.pairwise_iff_getElem.mp hsorted j i _ hlt hj
        · intro j hj hj'
          rw [hcompare j hj', compare_gt_iff_gt, ← hkey]
          exact List.pairwise_iff_getElem.mp hsorted i j hlt hj' hj
      rw [binarySearchBy_eq_some hpivot, Option.bind_some,
        List.getElem?_eq_getElem (hlength ▸ hlt)]
      exact congrArg some hvalue
  | none =>
      cases hsearch : binarySearchBy compare' keys.length with
      | none => rfl
      | some i =>
          have hlt := binarySearchBy_lt hsearch
          have hkey : keys[i] = key := by
            rw [← compare_eq_iff_eq, ← hcompare i hlt]
            exact compare_of_binarySearchBy hsearch
          refine absurd ?_ (not_mem_keys_of_lookup hlookup)
          rw [List.map_fst_zip (le_of_eq hlength), ← hkey]
          exact List.getElem_mem hlt

end Telora.Library
