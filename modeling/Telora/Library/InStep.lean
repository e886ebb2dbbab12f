import Telora.Library.ExceptBind
import Telora.Library.Lists

/-!
# Runs in step

A run with fuel has not ended, has failed, or has returned. Two runs are in step when
neither has ended, both failed alike, or both returned related results. Runs made of
parts in step are in step, so two executions of one program on related inputs are
compared part by part.
-/

namespace Telora.Library

/-- A computation that can fail and that may need more fuel. -/
abbrev Fueled (ε α : Type) := ExceptT ε Option α

section Runs

variable {ε α β γ δ : Type}

/-- The fuel is spent. -/
def outOfFuel : Fueled ε α := ExceptT.mk none

/-- The computation returned. -/
def Returns (run : Fueled ε α) (result : α) : Prop := run.run = some (.ok result)

def orThrow (error : ε) : Option α → Fueled ε α
  | some value => pure value
  | none => throw error

@[simp] theorem orThrow_some {error : ε} {value : α} :
    orThrow error (some value) = (pure value : Fueled ε α) := rfl

@[simp] theorem returns_pure {a b : α} : Returns (pure a : Fueled ε α) b ↔ a = b :=
  ⟨fun h => Except.ok.inj (Option.some.inj h), fun h => h ▸ rfl⟩

@[simp] theorem not_returns_throw {error : ε} {a : α} :
    ¬Returns (throw error : Fueled ε α) a := by
  intro h
  cases Option.some.inj h

@[simp] theorem not_returns_outOfFuel {a : α} : ¬Returns (outOfFuel : Fueled ε α) a := by
  intro h
  cases h

/-- A run in sequence returns when both parts do. -/
theorem returns_bind {run : Fueled ε α} {next : α → Fueled ε β} {b : β} :
    Returns (run >>= next) b ↔ ∃ a, Returns run a ∧ Returns (next a) b := by
  cases run with
  | none => exact ⟨fun h => (by cases h), fun ⟨_, h, _⟩ => (by cases h)⟩
  | some outcome =>
      cases outcome with
      | error e =>
          exact ⟨fun h => (by cases Option.some.inj h), fun ⟨_, h, _⟩ => (by cases Option.some.inj h)⟩
      | ok a =>
          constructor
          · exact fun h => ⟨a, rfl, h⟩
          · rintro ⟨a', ha, h⟩
            obtain rfl : a = a' := Except.ok.inj (Option.some.inj ha)
            exact h

@[simp] theorem returns_orThrow {error : ε} {found : Option α} {a : α} :
    Returns (orThrow error found) a ↔ found = some a := by
  cases found with
  | none => exact ⟨fun h => absurd h not_returns_throw, fun h => (by cases h)⟩
  | some b => simp [orThrow]

theorem Returns.unique {run : Fueled ε α} {a b : α} (h : Returns run a) (h' : Returns run b) :
    a = b :=
  Except.ok.inj (Option.some.inj (h.symm.trans h'))

/-- A change of the error alone. -/
theorem returns_adapt {ε' : Type} {f : ε → ε'} {run : Fueled ε α} {a : α} :
    Returns (ExceptT.adapt f run) a ↔ Returns run a := by
  cases run with
  | none => exact ⟨fun h => (by cases h), fun h => (by cases h)⟩
  | some outcome =>
      cases outcome with
      | error e => exact ⟨fun h => (by cases h), fun h => (by cases h)⟩
      | ok b =>
          constructor
          · intro h
            obtain rfl := Except.ok.inj (Option.some.inj h)
            rfl
          · intro h
            obtain rfl := Except.ok.inj (Option.some.inj h)
            rfl

/-- A traversal that returns relates each element to its image. -/
theorem returns_mapM {f : α → Fueled ε β} {xs : List α} {ys : List β}
    (h : Returns (xs.mapM f) ys) : List.Forall₂ (fun x y => Returns (f x) y) xs ys := by
  induction xs generalizing ys with
  | nil =>
      obtain rfl := returns_pure.mp h
      exact .nil
  | cons x rest ih =>
      rw [List.mapM_cons] at h
      obtain ⟨y, hy, h⟩ := returns_bind.mp h
      obtain ⟨zs, hzs, h⟩ := returns_bind.mp h
      obtain rfl := returns_pure.mp h
      exact .cons hy (ih hzs)

/-- A traversal returns when each of its steps does. -/
theorem exists_returns_mapM {f : α → Fueled ε β} {xs : List α}
    (h : ∀ x ∈ xs, ∃ y, Returns (f x) y) : ∃ ys, Returns (xs.mapM f) ys := by
  induction xs with
  | nil => exact ⟨[], rfl⟩
  | cons x rest ih =>
      obtain ⟨y, hy⟩ := h x List.mem_cons_self
      obtain ⟨ys, hys⟩ := ih fun z hz => h z (List.mem_cons_of_mem _ hz)
      refine ⟨y :: ys, ?_⟩
      rw [List.mapM_cons]
      exact returns_bind.mpr ⟨y, hy, returns_bind.mpr ⟨ys, hys, rfl⟩⟩

theorem Returns.bind_eq {run : Fueled ε α} {a : α} (h : Returns run a) (next : α → Fueled ε β) :
    run >>= next = next a := by
  obtain rfl : run = some (.ok a) := h
  rfl

end Runs

/-- Neither run has ended, both failed alike, or both returned related results. -/
inductive InStep {ε α β : Type} (R : α → β → Prop) : Fueled ε α → Fueled ε β → Prop where
  | running : InStep R outOfFuel outOfFuel
  | failed (error : ε) : InStep R (throw error) (throw error)
  | returned {a : α} {b : β} (h : R a b) : InStep R (pure a) (pure b)

namespace InStep

variable {ε α β γ δ : Type} {R : α → β → Prop} {S : γ → δ → Prop}

/-- Sequences of parts in step are in step. -/
theorem bind {left : Fueled ε α} {right : Fueled ε β} {next : α → Fueled ε γ}
    {next' : β → Fueled ε δ} (h : InStep R left right)
    (hnext : ∀ {a b}, R a b → InStep S (next a) (next' b)) :
    InStep S (left >>= next) (right >>= next') := by
  cases h with
  | running => exact .running
  | failed error => exact .failed error
  | returned h => exact hnext h

/-- The same, where the rest may use that both parts returned. -/
theorem bind_returns {left : Fueled ε α} {right : Fueled ε β} {next : α → Fueled ε γ}
    {next' : β → Fueled ε δ} (h : InStep R left right)
    (hnext : ∀ {a b}, Returns left a → Returns right b → R a b →
      InStep S (next a) (next' b)) :
    InStep S (left >>= next) (right >>= next') := by
  cases h with
  | running => exact .running
  | failed error => exact .failed error
  | returned h => exact hnext rfl rfl h

theorem orThrow {error : ε} {found : Option α} {found' : Option β}
    (h : Option.Rel R found found') :
    InStep R (Library.orThrow error found) (Library.orThrow error found') := by
  cases h with
  | none => exact .failed error
  | some h => exact .returned h

/-- A refusal on both sides, or on neither. -/
theorem ite {p q : Prop} [Decidable p] [Decidable q] (hpq : p ↔ q)
    {left left₂ : Fueled ε α} {right right₂ : Fueled ε β}
    (h : p → InStep R left right) (h₂ : ¬p → InStep R left₂ right₂) :
    InStep R (if p then left else left₂) (if q then right else right₂) := by
  by_cases hp : p
  · rw [if_pos hp, if_pos (hpq.mp hp)]
    exact h hp
  · rw [if_neg hp, if_neg (mt hpq.mpr hp)]
    exact h₂ hp

theorem mapM {f : α → Fueled ε γ} {g : β → Fueled ε δ}
    (hstep : ∀ {a b}, R a b → InStep S (f a) (g b)) {xs : List α} {ys : List β}
    (h : List.Forall₂ R xs ys) : InStep (List.Forall₂ S) (xs.mapM f) (ys.mapM g) := by
  induction h with
  | nil => exact .returned .nil
  | cons hhead _ ih =>
      rw [List.mapM_cons, List.mapM_cons]
      exact (hstep hhead).bind fun hc => ih.bind fun hcs => .returned (.cons hc hcs)

/-- A fold whose accumulators stay related. -/
theorem foldlM {f : γ → α → Fueled ε γ} {g : δ → β → Fueled ε δ}
    (hstep : ∀ {c d a b}, S c d → R a b → InStep S (f c a) (g d b))
    {xs : List α} {ys : List β} (h : List.Forall₂ R xs ys) {c : γ} {d : δ}
    (hcd : S c d) : InStep S (xs.foldlM f c) (ys.foldlM g d) := by
  induction h generalizing c d with
  | nil => exact .returned hcd
  | cons hhead _ ih =>
      rw [List.foldlM_cons, List.foldlM_cons]
      exact (hstep hcd hhead).bind fun hnext => ih hnext

/-- A run in step with one that returned has returned, to a related result. -/
theorem returns {left : Fueled ε α} {right : Fueled ε β} (h : InStep R left right) {a : α}
    (hleft : Returns left a) : ∃ b, Returns right b ∧ R a b := by
  cases h with
  | running => cases hleft
  | failed error => cases Option.some.inj hleft
  | @returned a' b h =>
      obtain rfl : a' = a := returns_pure.mp hleft
      exact ⟨b, rfl, h⟩

theorem returned_right {left : Fueled ε α} {right : Fueled ε β} (h : InStep R left right)
    {b : β} (hright : Returns right b) : ∃ a, Returns left a ∧ R a b := by
  cases h with
  | running => cases hright
  | failed error => cases Option.some.inj hright
  | @returned a b' h =>
      obtain rfl : b' = b := returns_pure.mp hright
      exact ⟨a, rfl, h⟩

end InStep

end Telora.Library
