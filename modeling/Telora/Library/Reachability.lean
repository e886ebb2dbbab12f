import Mathlib.Data.List.Perm.Subperm

/-!
# Traversals that visit nothing twice

A traversal keeps the elements it has entered. When it enters new ones of a finite
list only, its depth is bounded: fuel for the rest of the list is enough.
-/

namespace Telora.Library

variable {α : Type}

/-- Elements, none twice, that leave fuel for the others. -/
structure Within (fuel : Nat) (elements visited : List α) : Prop where
  nodup : visited.Nodup
  subset : visited ⊆ elements
  fuel : elements.length < fuel + visited.length

namespace Within

variable {fuel : Nat} {elements visited : List α}

theorem length_le (h : Within fuel elements visited) : visited.length ≤ elements.length :=
  (List.subperm_of_subset h.nodup h.subset).length_le

/-- Fuel is left. -/
theorem fuel_pos (h : Within fuel elements visited) : 0 < fuel := by
  have := h.length_le
  have := h.fuel
  omega

theorem enter {a : α} (h : Within (fuel + 1) elements visited) (hnew : a ∉ visited)
    (hmem : a ∈ elements) : Within fuel elements (a :: visited) where
  nodup := List.nodup_cons.mpr ⟨hnew, h.nodup⟩
  subset := List.cons_subset.mpr ⟨hmem, h.subset⟩
  fuel := by
    have := h.fuel
    rw [List.length_cons]
    omega

theorem leave (h : Within fuel elements visited) :
    Within (fuel + 1) elements visited where
  nodup := h.nodup
  subset := h.subset
  fuel := by
    have := h.fuel
    omega

end Within

end Telora.Library
