import Mathlib.Data.List.Basic
import Mathlib.Data.List.Infix
import Mathlib.Data.List.Nodup

/-!
# Intern tables

An intern table is a growing vector of distinct values together with the
reverse map from a value to its slot. The two directions agree in every table
that can be built, so a slot is as good as the value it holds.
-/

namespace Telora.Library

variable {α : Type*} [DecidableEq α]

/-- A vector of values and the map back from each value to its slot. -/
structure InternTable (α : Type*) [DecidableEq α] where
  values : List α
  slots : List (α × Nat)
  slots_spec : ∀ a s, slots.lookup a = some s ↔ values[s]? = some a

namespace InternTable

def empty : InternTable α where
  values := []
  slots := []
  slots_spec := by simp

/-- The slot of a value that is already present. -/
def find (table : InternTable α) (a : α) : Option Nat := table.slots.lookup a

/-- The value held by a slot. -/
def resolve (table : InternTable α) (slot : Nat) : Option α := table.values[slot]?

theorem find_eq_some_iff (table : InternTable α) (a : α) (s : Nat) :
    table.find a = some s ↔ table.resolve s = some a :=
  table.slots_spec a s

theorem find_eq_none_iff (table : InternTable α) (a : α) :
    table.find a = none ↔ a ∉ table.values := by
  constructor
  · intro h hmem
    obtain ⟨s, hs⟩ := List.mem_iff_getElem?.mp hmem
    have hfound : table.find a = some s := (table.find_eq_some_iff a s).mpr hs
    simp [h] at hfound
  · intro h
    cases hf : table.find a with
    | none => rfl
    | some s =>
        have hs := (table.find_eq_some_iff a s).mp hf
        exact absurd (List.mem_of_getElem? hs) h

/-- Two slots of one table hold the same value only when they are one slot. -/
theorem resolve_injective (table : InternTable α) {s t : Nat} {a : α}
    (hs : table.resolve s = some a) (ht : table.resolve t = some a) : s = t := by
  have h₁ := (table.find_eq_some_iff a s).mpr hs
  have h₂ := (table.find_eq_some_iff a t).mpr ht
  exact Option.some.inj (h₁.symm.trans h₂)

/-- The values of a table are distinct. -/
theorem values_nodup (table : InternTable α) : table.values.Nodup := by
  rw [List.nodup_iff_getElem?_ne_getElem?]
  intro i j hij hj heq
  have hget := List.getElem?_eq_getElem hj
  have := table.resolve_injective (s := i) (t := j) (heq.trans hget) hget
  omega

theorem resolve_lt (table : InternTable α) {s : Nat} {a : α}
    (hs : table.resolve s = some a) : s < table.values.length :=
  (List.getElem?_eq_some_iff.mp hs).1

theorem resolve_isSome_iff (table : InternTable α) (s : Nat) :
    (∃ a, table.resolve s = some a) ↔ s < table.values.length := by
  constructor
  · rintro ⟨a, h⟩
    exact table.resolve_lt h
  · intro h
    exact ⟨table.values[s], List.getElem?_eq_getElem h⟩

/-- Append a value that no slot holds yet. -/
def push (table : InternTable α) (a : α) (fresh : table.find a = none) : InternTable α where
  values := table.values ++ [a]
  slots := (a, table.values.length) :: table.slots
  slots_spec := by
    have hnot := (table.find_eq_none_iff a).mp fresh
    intro b s
    rw [List.lookup_cons]
    by_cases hb : b = a
    · subst hb
      simp only [beq_self_eq_true]
      constructor
      · intro h
        obtain rfl : table.values.length = s := by simpa using h
        simp
      · intro h
        by_cases hlt : s < table.values.length
        · rw [List.getElem?_append_left hlt] at h
          exact absurd (List.mem_of_getElem? h) hnot
        · have hlen := (List.getElem?_eq_some_iff.mp h).1
          simp only [List.length_append, List.length_singleton] at hlen
          have : table.values.length = s := by omega
          simp [this]
    · have hbeq : (b == a) = false := by simpa using hb
      simp only [hbeq]
      rw [table.slots_spec b s]
      by_cases hlt : s < table.values.length
      · rw [List.getElem?_append_left hlt]
      · have hnone : table.values[s]? = none := List.getElem?_eq_none (by omega)
        rw [hnone, List.getElem?_append_right (by omega)]
        constructor
        · simp
        · intro h
          have hmem := List.mem_of_getElem? h
          simp only [List.mem_singleton] at hmem
          exact absurd hmem hb

/-- The slot of a value, appending it when it is new. -/
def insert (table : InternTable α) (a : α) : InternTable α × Nat :=
  match h : table.find a with
  | some s => (table, s)
  | none => (table.push a h, table.values.length)

theorem insert_of_find {table : InternTable α} {a : α} {s : Nat}
    (h : table.find a = some s) : table.insert a = (table, s) := by
  unfold insert
  split
  · rename_i t ht
    rw [h] at ht
    rw [Option.some.inj ht]
  · rename_i hn
    rw [h] at hn
    cases hn

theorem insert_of_fresh {table : InternTable α} {a : α} (h : table.find a = none) :
    table.insert a = (table.push a h, table.values.length) := by
  unfold insert
  split
  · rename_i t ht
    rw [h] at ht
    cases ht
  · rfl

/-- A table grows by appending: every slot of the old table keeps its value. -/
def Extends (old new : InternTable α) : Prop := old.values <+: new.values

theorem Extends.refl (table : InternTable α) : Extends table table := List.prefix_refl _

theorem insert_extends (table : InternTable α) (a : α) :
    Extends table (table.insert a).1 := by
  cases h : table.find a with
  | some s =>
      rw [insert_of_find h]
      exact Extends.refl table
  | none =>
      rw [insert_of_fresh h]
      exact List.prefix_append _ _

/-- Interning adds at most the value itself. -/
theorem mem_insert {table : InternTable α} {a b : α} (h : b ∈ (table.insert a).1.values) :
    b ∈ table.values ∨ b = a := by
  cases hfind : table.find a with
  | some s =>
      rw [insert_of_find hfind] at h
      exact .inl h
  | none =>
      rw [insert_of_fresh hfind] at h
      exact (List.mem_append.mp h).imp_right List.mem_singleton.mp

/-- Interning a value yields a slot that holds it. -/
theorem insert_resolve (table : InternTable α) (a : α) :
    (table.insert a).1.resolve (table.insert a).2 = some a := by
  cases h : table.find a with
  | some s =>
      rw [insert_of_find h]
      exact (table.find_eq_some_iff a s).mp h
  | none =>
      rw [insert_of_fresh h]
      simp [push, InternTable.resolve]

end InternTable

end Telora.Library
