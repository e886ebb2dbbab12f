import Mathlib.Logic.Relation
import Mathlib.Order.WellFounded

/-!
# Deterministic machines

A step gives the next state or the result. An invariant that every step keeps
holds of every reachable state, and a machine reaches a result when its steps
decrease a well-founded measure, apart from stretches that come to an end.

The runs of a system whose parties interleave in any way. A run may be limited to steps that
meet a condition on the state before the step and on what is done there; an invariant that
those steps keep holds in every state of such a run.
-/

namespace Telora.Library

variable {σ ρ α : Type} (step : σ → Except ρ σ)

def Steps (before after : σ) : Prop := step before = .ok after

/-- Zero or more steps. -/
def Reaches : σ → σ → Prop := Relation.ReflTransGen (Steps step)

/-- One or more steps. -/
def Progresses : σ → σ → Prop := Relation.TransGen (Steps step)

/-- The result, when it comes within a number of steps. -/
def runFor : Nat → σ → Option ρ
  | 0, _ => none
  | steps + 1, state =>
      match step state with
      | .ok next => runFor steps next
      | .error result => some result

variable {step}

theorem Reaches.invariant {inv : σ → Prop}
    (hstep : ∀ before after, inv before → Steps step before after → inv after)
    {before after : σ} (h : Reaches step before after) (hinv : inv before) : inv after := by
  induction h with
  | refl => exact hinv
  | tail _ hlast ih => exact hstep _ _ ih hlast

/-- The run from a state ends: no steps lead from it without end. -/
def Halts (step : σ → Except ρ σ) : σ → Prop := Acc fun after before => Steps step before after

theorem exists_runFor_iff_halts {state : σ} :
    (∃ steps result, runFor step steps state = some result) ↔ Halts step state := by
  constructor
  · rintro ⟨steps, result, hrun⟩
    induction steps generalizing state with
    | zero => cases hrun
    | succ steps ih =>
        refine Acc.intro _ fun next (hnext : step state = .ok next) => ?_
        rw [runFor, hnext] at hrun
        exact ih hrun
  · intro hhalts
    induction hhalts with
    | intro state _ ih =>
        cases hnext : step state with
        | error result => exact ⟨1, result, by rw [runFor, hnext]⟩
        | ok next =>
            obtain ⟨steps, result, hrun⟩ := ih next hnext
            exact ⟨steps + 1, result, by simp [runFor, hnext, hrun]⟩

theorem Halts.of_reaches {before after : σ} (hhalts : Halts step before)
    (h : Reaches step before after) : Halts step after := by
  induction h with
  | refl => exact hhalts
  | tail _ hlast ih => exact ih.inv hlast

section Measures

variable [Preorder α] (measure : σ → α) {stays : σ → σ → Prop}
  (hstep : ∀ before after, Steps step before after →
    measure after < measure before ∨ measure after = measure before ∧ stays before after)

include hstep

/-- A run ends when a measure falls, and the steps on which it stays come to an end. -/
theorem halts_of_measure [WellFoundedLT α] {initial : σ}
    (hstays : ∀ state, Reaches step initial state →
      Acc (fun after before => Steps step before after ∧ stays before after) state) :
    Halts step initial := by
  have hhalts : ∀ a state, measure state = a → Reaches step initial state → Halts step state := by
    intro a
    induction a using WellFoundedLT.induction with
    | ind a ih =>
        intro state hmeasure hreaches
        induction hstays state hreaches with
        | intro state _ ihstays =>
            refine Acc.intro _ fun next hnext => ?_
            obtain hlt | ⟨heq, hstay⟩ := hstep state next hnext
            · exact ih _ (hmeasure ▸ hlt) next rfl (hreaches.tail hnext)
            · exact ihstays next ⟨hnext, hstay⟩ (heq.trans hmeasure) (hreaches.tail hnext)
  exact hhalts _ initial rfl .refl

/-- Along a nonempty run the measure falls, or it stays all the way. -/
theorem Progresses.measure_lt_or (htrans : ∀ {a b c}, stays a b → stays b c → stays a c)
    {before after : σ} (h : Progresses step before after) :
    measure after < measure before ∨ measure after = measure before ∧ stays before after := by
  induction h with
  | single hfirst => exact hstep _ _ hfirst
  | tail _ hlast ih =>
      obtain hlt | ⟨heq, hstay⟩ := ih <;> obtain hlt' | ⟨heq', hstay'⟩ := hstep _ _ hlast
      · exact .inl (hlt'.trans hlt)
      · exact .inl (heq'.trans_lt hlt)
      · exact .inl (hlt'.trans_eq heq)
      · exact .inr ⟨heq'.trans heq, htrans hstay hstay'⟩

end Measures

end Telora.Library

namespace Telora.Library

structure TransitionSystem (σ α : Type) where
  initial : σ → Prop
  step : σ → α → σ → Prop

namespace TransitionSystem

variable {σ α : Type} (system : TransitionSystem σ α)

/-- The states of the runs all of whose steps are allowed. -/
inductive ReachableBy (allowed : σ → α → Prop) : σ → Prop where
  | initial {s} : system.initial s → ReachableBy allowed s
  | step {s a s'} : ReachableBy allowed s → allowed s a → system.step s a s' →
      ReachableBy allowed s'

/-- The states of all runs. -/
def Reachable : σ → Prop := system.ReachableBy fun _ _ => True

/-- The system started in a given state. -/
def startedIn (s : σ) : TransitionSystem σ α := { system with initial := (· = s) }

variable {system} {allowed : σ → α → Prop}

/-- What holds at the start and is kept by the allowed steps holds in every run of them. -/
theorem ReachableBy.invariant {inv : σ → Prop} (hinitial : ∀ s, system.initial s → inv s)
    (hstep : ∀ s a s', inv s → allowed s a → system.step s a s' → inv s') {s : σ}
    (h : system.ReachableBy allowed s) : inv s := by
  induction h with
  | initial h => exact hinitial _ h
  | step _ hallowed h ih => exact hstep _ _ _ ih hallowed h

theorem Reachable.invariant {inv : σ → Prop} (hinitial : ∀ s, system.initial s → inv s)
    (hstep : ∀ s a s', inv s → system.step s a s' → inv s') {s : σ} (h : system.Reachable s) :
    inv s :=
  ReachableBy.invariant hinitial (fun s a s' hinv _ => hstep s a s' hinv) h

end TransitionSystem

end Telora.Library
