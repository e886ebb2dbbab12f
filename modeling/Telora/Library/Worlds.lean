import Mathlib.Order.Basic

/-!
# Programs in growing worlds

A program with a state and with errors keeps an invariant and only lets the world grow, a
part of its state that is ordered. What is known of a value in a world stays known in every
larger one, so the rules of sequencing hand a fact on without a word about the state.
-/

namespace Telora.Library

abbrev Program (σ ε α : Type) := ExceptT ε (StateM σ) α

/-- An invariant of the states, and the world a state is in. -/
structure Discipline (σ W : Type) where
  Inv : σ → Prop
  world : σ → W

namespace Discipline

variable {σ ε W α β : Type} [Preorder W] (D : Discipline σ W)

/-- Started in the world or in a larger one, a program keeps the invariant and lets the world
grow, also when it fails; the value it returns meets the condition in the world it ends in. -/
def Spec (w : W) (program : Program σ ε α) (post : W → α → Prop) : Prop :=
  ∀ s, D.Inv s → w ≤ D.world s → ∀ result s', program s = (result, s') →
    D.Inv s' ∧ D.world s ≤ D.world s' ∧ ∀ a, result = .ok a → post (D.world s') a

variable {D} {w : W} {post : W → α → Prop}

theorem Spec.pure {a : α} (h : ∀ w' ≥ w, post w' a) :
    D.Spec w (pure a : Program σ ε α) post := by
  intro s hinv hw result s' hrun
  obtain ⟨rfl, rfl⟩ := Prod.mk.inj hrun
  exact ⟨hinv, le_rfl, fun b hb => Except.ok.inj hb ▸ h _ hw⟩

theorem bind_run (program : Program σ ε α) (next : α → Program σ ε β) (s : σ) :
    (program >>= next) s =
      match program s with
      | (.ok a, s') => next a s'
      | (.error e, s') => (.error e, s') := by
  change StateT.bind program (ExceptT.bindCont next) s = _
  simp only [StateT.bind]
  generalize program s = outcome
  rcases outcome with ⟨_ | _, s'⟩ <;> rfl

theorem Spec.bind {program : Program σ ε α} {next : α → Program σ ε β} {mid : W → α → Prop}
    {post : W → β → Prop} (hprogram : D.Spec w program mid)
    (hnext : ∀ w' ≥ w, ∀ a, mid w' a → D.Spec w' (next a) post) :
    D.Spec w (program >>= next) post := by
  intro s hinv hw result s' hrun
  rw [bind_run] at hrun
  rcases hfirst : program s with ⟨_ | a, s''⟩
  · rw [hfirst] at hrun
    obtain ⟨rfl, rfl⟩ := Prod.mk.inj hrun
    obtain ⟨hinv, hgrows, -⟩ := hprogram s hinv hw _ _ hfirst
    exact ⟨hinv, hgrows, fun b hb => by cases hb⟩
  · rw [hfirst] at hrun
    obtain ⟨hinv, hgrows, hmid⟩ := hprogram s hinv hw _ _ hfirst
    obtain ⟨hinv', hgrows', hpost⟩ :=
      hnext _ (hw.trans hgrows) a (hmid a rfl) s'' hinv le_rfl result s' hrun
    exact ⟨hinv', hgrows.trans hgrows', hpost⟩

theorem Spec.forM {items : List α} {body : α → Program σ ε PUnit}
    (h : ∀ item ∈ items, ∀ w' ≥ w, D.Spec w' (body item) fun _ _ => True) :
    D.Spec w (items.forM body) fun _ _ => True := by
  induction items generalizing w with
  | nil => exact .pure fun _ _ => trivial
  | cons item rest ih =>
      refine .bind (h item List.mem_cons_self w le_rfl) fun w' hw' _ _ => ih fun item hmem k hk => ?_
      exact h item (List.mem_cons_of_mem _ hmem) k (hw'.trans hk)

end Discipline

end Telora.Library
