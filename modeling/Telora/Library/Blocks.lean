import Mathlib.Algebra.GroupWithZero.Nat
import Mathlib.Data.List.Flatten

/-!
# Blocks in a row

Lists that are put one after another: what is at a place of one of them is at its offset in the
whole, and each place of the whole is one place of one block. Blocks may be built in turn from
where each starts.
-/

namespace Telora.Library

variable {ι β : Type}

/-- Where a block starts. -/
def offset (blocks : List (List β)) (i : Nat) : Nat := ((blocks.take i).map List.length).sum

theorem offset_zero (blocks : List (List β)) : offset blocks 0 = 0 := rfl

theorem offset_cons_succ (block : List β) (rest : List (List β)) (i : Nat) :
    offset (block :: rest) (i + 1) = block.length + offset rest i := rfl

theorem getElem?_flatten_offset {blocks : List (List β)} {i j : Nat} {block : List β}
    (hi : blocks[i]? = some block) (hj : j < block.length) :
    blocks.flatten[offset blocks i + j]? = block[j]? := by
  induction blocks generalizing i with
  | nil => cases hi
  | cons first rest ih =>
      cases i with
      | zero =>
          obtain rfl : first = block := Option.some.inj hi
          rw [offset_zero, Nat.zero_add, List.flatten_cons, List.getElem?_append_left hj]
      | succ i =>
          rw [offset_cons_succ, Nat.add_assoc, List.flatten_cons,
            List.getElem?_append_right (Nat.le_add_right _ _), Nat.add_sub_cancel_left]
          exact ih hi

/-- Each place of the whole is in some block. -/
theorem exists_offset {blocks : List (List β)} {n : Nat} (hn : n < blocks.flatten.length) :
    ∃ i j block, blocks[i]? = some block ∧ j < block.length ∧ n = offset blocks i + j := by
  induction blocks generalizing n with
  | nil => cases hn
  | cons first rest ih =>
      by_cases hfirst : n < first.length
      · exact ⟨0, n, first, rfl, hfirst, by rw [offset_zero, Nat.zero_add]⟩
      · rw [List.flatten_cons, List.length_append] at hn
        obtain ⟨i, j, block, hi, hj, heq⟩ := ih (n := n - first.length) (by omega)
        exact ⟨i + 1, j, block, hi, hj, by rw [offset_cons_succ]; omega⟩

theorem offset_unique {blocks : List (List β)} {i i' j j' : Nat} {block block' : List β}
    (hi : blocks[i]? = some block) (hj : j < block.length) (hi' : blocks[i']? = some block')
    (hj' : j' < block'.length) (h : offset blocks i + j = offset blocks i' + j') :
    i = i' ∧ j = j' := by
  induction blocks generalizing i i' with
  | nil => cases hi
  | cons first rest ih =>
      cases i with
      | zero =>
          obtain rfl : first = block := Option.some.inj hi
          cases i' with
          | zero => exact ⟨rfl, by simpa [offset_zero] using h⟩
          | succ i' =>
              rw [offset_zero, offset_cons_succ] at h
              omega
      | succ i =>
          cases i' with
          | zero =>
              obtain rfl : first = block' := Option.some.inj hi'
              rw [offset_zero, offset_cons_succ] at h
              omega
          | succ i' =>
              rw [offset_cons_succ, offset_cons_succ] at h
              obtain ⟨rfl, rfl⟩ := ih hi hi' (by omega)
              exact ⟨rfl, rfl⟩

/-- Each number from the first to the last is the place of one part of one element. -/
structure OneEach (size : ι → Nat) (xs : List ι) (place : Nat → Nat → Nat) (first last : Nat) :
    Prop where
  inside : ∀ (i j : Nat) (a : ι), xs[i]? = some a → j < size a →
    first ≤ place i j ∧ place i j < last
  onto : ∀ n, first ≤ n → n < last →
    ∃ (i j : Nat) (a : ι), xs[i]? = some a ∧ j < size a ∧ place i j = n
  once : ∀ (i j : Nat) (a : ι) (i' j' : Nat) (a' : ι), xs[i]? = some a → j < size a →
    xs[i']? = some a' → j' < size a' → place i j = place i' j' → i = i' ∧ j = j'

/-- The places of blocks whose lengths are the sizes of the elements they are for. -/
theorem oneEach_offset {size : ι → Nat} {xs : List ι} {blocks : List (List β)}
    (h : ∀ (i : Nat) (a : ι), xs[i]? = some a →
      ∃ block : List β, blocks[i]? = some block ∧ block.length = size a)
    (hlength : blocks.length = xs.length) :
    OneEach size xs (fun i j => offset blocks i + j) 0 blocks.flatten.length where
  inside i j a hi hj := by
    obtain ⟨block, hblock, hsize⟩ := h i a hi
    have hlt : j < block.length := hsize.symm ▸ hj
    have hplace := getElem?_flatten_offset hblock hlt
    rw [List.getElem?_eq_getElem hlt] at hplace
    exact ⟨Nat.zero_le _, (List.getElem?_eq_some_iff.mp hplace).1⟩
  onto n _ hn := by
    obtain ⟨i, j, block, hi, hj, rfl⟩ := exists_offset hn
    have hlt : i < xs.length := hlength ▸ (List.getElem?_eq_some_iff.mp hi).1
    obtain ⟨block', hblock', hsize⟩ := h i xs[i] (List.getElem?_eq_getElem hlt)
    obtain rfl : block = block' := Option.some.inj (hi.symm.trans hblock')
    exact ⟨i, j, xs[i], List.getElem?_eq_getElem hlt, hsize ▸ hj, rfl⟩
  once i j a i' j' a' hi hj hi' hj' heq := by
    obtain ⟨block, hblock, hsize⟩ := h i a hi
    obtain ⟨block', hblock', hsize'⟩ := h i' a' hi'
    exact offset_unique hblock (hsize.symm ▸ hj) hblock' (hsize'.symm ▸ hj') heq

theorem oneEach_of_places {size : ι → Nat} {xs : List ι} {blocks : List (List β)}
    {place : Nat → Nat → Nat} (hplace : ∀ i, place i = (offset blocks i + ·))
    (h : ∀ (i : Nat) (a : ι), xs[i]? = some a →
      ∃ block : List β, blocks[i]? = some block ∧ block.length = size a)
    (hlength : blocks.length = xs.length) : OneEach size xs place 0 blocks.flatten.length := by
  obtain rfl : place = fun i j => offset blocks i + j := funext hplace
  exact oneEach_offset h hlength

/-- An entry of a block is at its place in all blocks together. -/
theorem getElem?_flatten_place {blocks : List (List β)} {block : List β} {place : Nat → Nat}
    {i j : Nat} {b : β} (hplace : place = (offset blocks i + ·)) (hi : blocks[i]? = some block)
    (hj : block[j]? = some b) : blocks.flatten[place j]? = some b := by
  have hlt := (List.getElem?_eq_some_iff.mp hj).1
  rw [hplace]
  exact (getElem?_flatten_offset hi hlt).trans hj

/-- The places of one element before those of the others. -/
theorem OneEach.cons {size : ι → Nat} {a : ι} {rest : List ι} {place : Nat → Nat → Nat}
    {here : Nat → Nat} {first middle last : Nat} (h : OneEach size rest place middle last)
    (hbounds : first ≤ middle ∧ middle ≤ last)
    (hinside : ∀ j < size a, first ≤ here j ∧ here j < middle)
    (honto : ∀ n, first ≤ n → n < middle → ∃ j < size a, here j = n)
    (honce : ∀ j < size a, ∀ j' < size a, here j = here j' → j = j') :
    OneEach size (a :: rest) (fun i => Nat.casesOn i here place) first last where
  inside i j b hi hj := by
    cases i with
    | zero =>
        obtain rfl : a = b := Option.some.inj hi
        obtain ⟨hfirst, hmiddle⟩ := hinside j hj
        exact ⟨hfirst, Nat.lt_of_lt_of_le hmiddle hbounds.2⟩
    | succ i =>
        obtain ⟨hmiddle, hlast⟩ := h.inside i j b hi hj
        exact ⟨Nat.le_trans hbounds.1 hmiddle, hlast⟩
  onto n hfirst hlast := by
    by_cases hmiddle : n < middle
    · obtain ⟨j, hj, heq⟩ := honto n hfirst hmiddle
      exact ⟨0, j, a, rfl, hj, heq⟩
    · obtain ⟨i, j, b, hi, hj, heq⟩ := h.onto n (Nat.le_of_not_lt hmiddle) hlast
      exact ⟨i + 1, j, b, hi, hj, heq⟩
  once i j b i' j' b' hi hj hi' hj' heq := by
    cases i with
    | zero =>
        obtain rfl : a = b := Option.some.inj hi
        cases i' with
        | zero =>
            obtain rfl : a = b' := Option.some.inj hi'
            exact ⟨rfl, honce j hj j' hj' heq⟩
        | succ i' =>
            have hhere := (hinside j hj).2
            have hthere := (h.inside i' j' b' hi' hj').1
            change here j = place i' j' at heq
            omega
    | succ i =>
        cases i' with
        | zero =>
            obtain rfl : a = b' := Option.some.inj hi'
            have hhere := (hinside j' hj').2
            have hthere := (h.inside i j b hi hj).1
            change place i j = here j' at heq
            omega
        | succ i' =>
            obtain ⟨rfl, rfl⟩ := h.once i j b i' j' b' hi hj hi' hj' heq
            exact ⟨rfl, rfl⟩

/-- Blocks that are built in turn, each from its index and from where it starts. -/
def buildBlocks (build : Nat → Nat → ι → Option (List β)) :
    Nat → Nat → List ι → Option (List (List β))
  | _, _, [] => some []
  | index, base, a :: rest => do
      let block ← build index base a
      let blocks ← buildBlocks build (index + 1) (base + block.length) rest
      return block :: blocks

/-- When no block can fail, each is built from its own offset. -/
theorem buildBlocks_built {build : Nat → Nat → ι → Option (List β)} {xs : List ι}
    {index base : Nat}
    (h : ∀ i a, xs[i]? = some a → ∀ start, ∃ block, build (index + i) start a = some block) :
    ∃ blocks, buildBlocks build index base xs = some blocks ∧ blocks.length = xs.length ∧
      ∀ i a, xs[i]? = some a → ∃ block, blocks[i]? = some block ∧
        build (index + i) (base + offset blocks i) a = some block := by
  induction xs generalizing index base with
  | nil => exact ⟨[], rfl, rfl, fun i a hi => by cases hi⟩
  | cons first rest ih =>
      obtain ⟨block, hblock⟩ := h 0 first rfl base
      have hrest : ∀ i a, rest[i]? = some a → ∀ start, ∃ block,
          build (index + 1 + i) start a = some block := by
        intro i a hi start
        have heq : index + 1 + i = index + (i + 1) := by omega
        rw [heq]
        exact h (i + 1) a hi start
      obtain ⟨blocks, hblocks, hlength, hbuilt⟩ := @ih (index + 1) (base + block.length) hrest
      rw [Nat.add_zero] at hblock
      refine ⟨block :: blocks, ?_, congrArg Nat.succ hlength, fun i a hi => ?_⟩
      · rw [buildBlocks, hblock]
        change (buildBlocks build (index + 1) (base + block.length) rest).bind _ = _
        rw [hblocks]
        rfl
      · cases i with
        | zero =>
            obtain rfl : first = a := Option.some.inj hi
            exact ⟨block, rfl, hblock⟩
        | succ i =>
            obtain ⟨found, hfound, hbuild⟩ := hbuilt i a hi
            refine ⟨found, hfound, ?_⟩
            rw [offset_cons_succ, ← Nat.add_assoc base]
            have heq : index + (i + 1) = index + 1 + i := by omega
            rw [heq]
            exact hbuild

/-- Blocks that are built from the start. -/
theorem buildBlocks_start {build : Nat → Nat → ι → Option (List β)} {xs : List ι}
    (h : ∀ (i : Nat) (a : ι), xs[i]? = some a → ∀ start, ∃ block, build i start a = some block) :
    ∃ blocks, buildBlocks build 0 0 xs = some blocks ∧ blocks.length = xs.length ∧
      ∀ (i : Nat) (a : ι), xs[i]? = some a → ∃ block, blocks[i]? = some block ∧
        build i (offset blocks i) a = some block := by
  obtain ⟨blocks, hblocks, hlength, hbuilt⟩ := @buildBlocks_built _ _ build xs 0 0
    fun i a hi start => (Nat.zero_add i).symm ▸ h i a hi start
  refine ⟨blocks, hblocks, hlength, fun i a hi => ?_⟩
  obtain ⟨block, hblock, hbuild⟩ := hbuilt i a hi
  rw [Nat.zero_add, Nat.zero_add] at hbuild
  exact ⟨block, hblock, hbuild⟩

end Telora.Library
