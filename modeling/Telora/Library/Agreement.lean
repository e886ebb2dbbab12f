import Mathlib.Data.List.Basic
import Telora.Library.Entries

/-!
# Agreement of a computation with its specification

A computation that may fail with an error agrees with a partial function when both
succeed, with related results, or both fail.  Ordered entries are related key by
key.
-/

namespace Telora.Library

universe u v

section Agree

variable {ε : Type u} {α β γ δ : Type v}

inductive Agree (R : α → β → Prop) : Except ε α → Option β → Prop where
  | accepted {a : α} {b : β} (h : R a b) : Agree R (.ok a) (some b)
  | refused (e : ε) : Agree R (.error e) none

variable {R : α → β → Prop} {S : γ → δ → Prop} {x : Except ε α} {y : Option β}

namespace Agree

theorem bind {f : α → Except ε γ} {g : β → Option δ} (h : Agree R x y)
    (hnext : ∀ a b, y = some b → R a b → Agree S (f a) (g b)) : Agree S (x >>= f) (y.bind g) := by
  cases h with
  | accepted hab => exact hnext _ _ rfl hab
  | refused e => exact .refused e

theorem bindOk {f : α → γ} {g : β → δ} (h : Agree R x y) (hnext : ∀ a b, R a b → S (f a) (g b)) :
    Agree S (x >>= fun a => .ok (f a)) (y.map g) := by
  cases h with
  | accepted hab => exact .accepted (hnext _ _ hab)
  | refused e => exact .refused e

theorem mapError {ε' : Type u} {f : ε → ε'} (h : Agree R x y) : Agree R (x.mapError f) y := by
  cases h with
  | accepted hab => exact .accepted hab
  | refused e => exact .refused (f e)

@[simp] theorem some_iff {b : β} : Agree R x (some b) ↔ ∃ a, x = .ok a ∧ R a b := by
  constructor
  · intro h
    cases h with
    | accepted hab => exact ⟨_, rfl, hab⟩
  · rintro ⟨a, rfl, hab⟩
    exact .accepted hab

end Agree

end Agree

section Entries

variable {κ α β : Type}

/-- The same keys with related values. -/
abbrev EntriesRel (R : α → β → Prop) : List (κ × α) → List (κ × β) → Prop :=
  List.Forall₂ fun left right => left.1 = right.1 ∧ R left.2 right.2

variable {R : α → β → Prop} {left : List (κ × α)} {right : List (κ × β)}

theorem EntriesRel.insertEntry [LinearOrder κ] {key : κ} {a : α} {b : β} (h : EntriesRel R left right)
    (hab : R a b) : EntriesRel R (insertEntry key a left) (insertEntry key b right) := by
  induction h with
  | nil => exact .cons ⟨rfl, hab⟩ .nil
  | @cons first first' rest rest' hfirst hrest ih =>
      simp only [Library.insertEntry, hfirst.1]
      split
      · exact .cons ⟨rfl, hab⟩ (.cons hfirst hrest)
      · split
        · exact .cons ⟨rfl, hab⟩ hrest
        · exact .cons hfirst ih

theorem EntriesRel.lookup [BEq κ] (h : EntriesRel R left right) (key : κ) :
    Option.Rel R (left.lookup key) (right.lookup key) := by
  induction h with
  | nil => exact .none
  | @cons first first' rest rest' hfirst hrest ih =>
      obtain ⟨name, a⟩ := first
      obtain ⟨name', b⟩ := first'
      obtain ⟨hname, hvalue⟩ := hfirst
      change name = name' at hname
      simp only [List.lookup_cons, hname]
      cases key == name' with
      | true => exact .some hvalue
      | false => exact ih

end Entries

end Telora.Library
