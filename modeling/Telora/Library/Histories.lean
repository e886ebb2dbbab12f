import Mathlib.Data.List.Nodup
import Mathlib.Logic.Relation

/-!
# Histories

A history has the events of a run, newest first. One event is earlier than another when it
happened before; where no event happens twice this is an order, so a relation whose steps lead
to earlier events has no cycle.
-/

namespace Telora.Library

variable {α β : Type} {history : List α} {x y z : α}

def Earlier (history : List α) (x y : α) : Prop := [y, x].Sublist history

theorem Earlier.mono {later : List α} (h : Earlier history x y) (hsub : history.Sublist later) :
    Earlier later x y :=
  h.trans hsub

theorem Earlier.cons {event : α} (h : Earlier history x y) : Earlier (event :: history) x y :=
  List.Sublist.cons event h

/-- What happens now is later than all that happened so far. -/
theorem earlier_now (h : x ∈ history) : Earlier (y :: history) x y :=
  List.Sublist.cons_cons y (List.singleton_sublist.mpr h)

theorem Earlier.mem_first (h : Earlier history x y) : x ∈ history :=
  h.subset (List.mem_cons_of_mem _ List.mem_cons_self)

theorem Earlier.mem_second (h : Earlier history x y) : y ∈ history :=
  h.subset List.mem_cons_self

theorem Earlier.cases {event : α} (h : Earlier (event :: history) x y) :
    Earlier history x y ∨ y = event ∧ x ∈ history := by
  rcases List.sublist_cons_iff.mp h with h | ⟨rest, heq, h⟩
  · exact .inl h
  · obtain ⟨rfl, rfl⟩ := List.cons.inj heq
    exact .inr ⟨rfl, List.singleton_sublist.mp h⟩

theorem Earlier.trans (hnodup : history.Nodup) (hxy : Earlier history x y)
    (hyz : Earlier history y z) : Earlier history x z := by
  induction history with
  | nil => cases hxy
  | cons event rest ih =>
      obtain ⟨hfresh, hrest⟩ := List.nodup_cons.mp hnodup
      have hne : y ≠ event := by
        rintro rfl
        rcases hyz.cases with h | ⟨_, h⟩
        · exact hfresh h.mem_first
        · exact hfresh h
      have holder : Earlier rest x y := hxy.cases.resolve_right fun h => hne h.1
      rcases hyz.cases with hyz | ⟨rfl, _⟩
      · exact (ih hrest holder hyz).cons
      · exact earlier_now holder.mem_first

theorem Earlier.irrefl (hnodup : history.Nodup) : ¬Earlier history x x := by
  intro h
  exact absurd rfl (List.pairwise_iff_forall_sublist.mp hnodup h)

/-- Steps that lead to earlier events, as long as they start from where a run can get to. -/
theorem earlier_of_transGen {step : β → β → Prop} {reached : β → Prop} (event : β → α)
    (hnodup : history.Nodup)
    (hstep : ∀ b b', reached b → step b b' → reached b' ∧ Earlier history (event b') (event b))
    {b b' : β} (hb : reached b) (h : Relation.TransGen step b b') :
    reached b' ∧ Earlier history (event b') (event b) := by
  induction h with
  | single h => exact hstep _ _ hb h
  | tail _ hlast ih =>
      obtain ⟨hreached, hearlier⟩ := ih
      obtain ⟨hreached', hearlier'⟩ := hstep _ _ hreached hlast
      exact ⟨hreached', hearlier'.trans hnodup hearlier⟩

end Telora.Library
