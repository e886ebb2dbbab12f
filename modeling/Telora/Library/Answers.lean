import Mathlib.Data.List.Forall2
import Mathlib.Order.Filter.AtTopBot.Basic

/-!
# Answers that may not come

A computation that may run forever or stop without a result answers `none`; otherwise it
answers a value or an error. A recursion is run to a depth, and it answers when it does so
at every large depth.
-/

namespace Telora.Library

abbrev Answer (ε α : Type) := ExceptT ε Option α

namespace Answer

variable {ε α β : Type}

/-- The answer of a computation that always ends. -/
def ofExcept (result : Except ε α) : Answer ε α := some result

/-- No answer. -/
def none : Answer ε α := Option.none

def Is (answer : Answer ε α) (a : α) : Prop := answer = some (.ok a)

/-- An answer comes, a value or an error. -/
def Comes (answer : Answer ε α) : Prop := ∃ result, answer = some result

theorem Is.comes {answer : Answer ε α} {a : α} (h : answer.Is a) : answer.Comes := ⟨_, h⟩

theorem Is.unique {answer : Answer ε α} {a b : α} (h : answer.Is a) (h' : answer.Is b) : a = b :=
  Except.ok.inj (Option.some.inj (h.symm.trans h'))

@[simp] theorem pure_is {a b : α} : (pure a : Answer ε α).Is b ↔ a = b :=
  ⟨fun h => Except.ok.inj (Option.some.inj h), fun h => h ▸ rfl⟩

@[simp] theorem not_throw_is {e : ε} {a : α} : ¬(throw e : Answer ε α).Is a :=
  fun h => by cases Option.some.inj h

@[simp] theorem not_none_is {a : α} : ¬(none : Answer ε α).Is a := fun h => by cases h

@[simp] theorem ofExcept_is {result : Except ε α} {a : α} :
    (ofExcept result).Is a ↔ result = .ok a :=
  ⟨fun h => Option.some.inj h, fun h => congrArg some h⟩

theorem bind_is {answer : Answer ε α} {f : α → Answer ε β} {b : β} :
    (answer >>= f).Is b ↔ ∃ a, answer.Is a ∧ (f a).Is b := by
  constructor
  · intro h
    rcases answer with _ | e | a
    · cases h
    · cases Option.some.inj h
    · exact ⟨a, rfl, h⟩
  · rintro ⟨a, ha, hb⟩
    change answer = some (.ok a) at ha
    rw [ha]
    exact hb

@[simp] theorem pure_comes {a : α} : (pure a : Answer ε α).Comes := ⟨_, rfl⟩

@[simp] theorem throw_comes {e : ε} : (throw e : Answer ε α).Comes := ⟨_, rfl⟩

@[simp] theorem ofExcept_comes {result : Except ε α} : (ofExcept result).Comes := ⟨_, rfl⟩

/-- A sequence answers when its first part does, and its second part after a value. -/
theorem bind_comes {answer : Answer ε α} {f : α → Answer ε β} (h : answer.Comes)
    (hf : ∀ a, answer.Is a → (f a).Comes) : (answer >>= f).Comes := by
  obtain ⟨e | a, rfl⟩ := h
  · exact ⟨.error e, rfl⟩
  · exact hf a rfl

theorem mapM_is {f : α → Answer ε β} {xs : List α} {ys : List β} :
    (xs.mapM f).Is ys ↔ List.Forall₂ (fun x y => (f x).Is y) xs ys := by
  induction xs generalizing ys with
  | nil => cases ys <;> simp
  | cons x rest ih =>
      rw [List.mapM_cons, bind_is]
      constructor
      · rintro ⟨y, hy, h⟩
        obtain ⟨zs, hzs, h⟩ := bind_is.mp h
        obtain rfl := pure_is.mp h
        exact .cons hy (ih.mp hzs)
      · intro h
        cases h with
        | cons hy htail => exact ⟨_, hy, bind_is.mpr ⟨_, ih.mpr htail, pure_is.mpr rfl⟩⟩

theorem mapM_comes {f : α → Answer ε β} {xs : List α} (h : ∀ x ∈ xs, (f x).Comes) :
    (xs.mapM f).Comes := by
  induction xs with
  | nil => exact pure_comes
  | cons x rest ih =>
      rw [List.mapM_cons]
      refine bind_comes (h x List.mem_cons_self) fun y _ => ?_
      exact bind_comes (ih fun z hz => h z (List.mem_cons_of_mem _ hz)) fun ys _ => pure_comes

/-- Where the first answers, the second answers the same. -/
def Below (answer answer' : Answer ε α) : Prop :=
  ∀ result, answer = some result → answer' = some result

theorem below_refl (answer : Answer ε α) : Below answer answer := fun _ h => h

theorem Below.trans {answer answer' answer'' : Answer ε α} (h : Below answer answer')
    (h' : Below answer' answer'') : Below answer answer'' :=
  fun result hresult => h' result (h result hresult)

theorem none_below (answer : Answer ε α) : Below none answer := fun _ h => by cases h

theorem Below.bind {answer answer' : Answer ε α} {f f' : α → Answer ε β}
    (h : Below answer answer') (hf : ∀ a, Below (f a) (f' a)) :
    Below (answer >>= f) (answer' >>= f') := by
  intro result hresult
  rcases answer with _ | e | a
  · cases hresult
  · rw [h _ rfl]
    exact hresult
  · rw [h _ rfl]
    exact hf a result hresult

/-- A check that ends, and that accepts exactly where the condition holds. -/
structure Checks (check : Answer ε Unit) (p : Prop) : Prop where
  comes : check.Comes
  accepts : check.Is () ↔ p

namespace Checks

variable {check check' : Answer ε Unit} {p q : Prop}

theorem pure (h : p) : Checks (Pure.pure () : Answer ε Unit) p :=
  ⟨pure_comes, iff_of_true (pure_is.mpr rfl) h⟩

theorem throw {e : ε} (h : ¬p) : Checks (MonadExcept.throw e : Answer ε Unit) p :=
  ⟨throw_comes, iff_of_false not_throw_is h⟩

theorem congr (h : Checks check p) (hpq : p ↔ q) : Checks check q :=
  ⟨h.comes, h.accepts.trans hpq⟩

theorem ite {c : Prop} [Decidable c] (hthen : c → Checks check p) (helse : ¬c → Checks check' p) :
    Checks (if c then check else check') p := by
  split
  · exact hthen ‹_›
  · exact helse ‹_›

theorem bind (h : Checks check p) (h' : p → Checks check' q) :
    Checks (check >>= fun _ => check') (p ∧ q) where
  comes := bind_comes h.comes fun _ ha => (h' (h.accepts.mp ha)).comes
  accepts := by
    rw [bind_is]
    constructor
    · rintro ⟨_, hcheck, hcheck'⟩
      exact ⟨h.accepts.mp hcheck, (h' (h.accepts.mp hcheck)).accepts.mp hcheck'⟩
    · rintro ⟨hp, hq⟩
      exact ⟨(), h.accepts.mpr hp, (h' hp).accepts.mpr hq⟩

theorem forM {f : α → Answer ε Unit} {P : α → Prop} {xs : List α}
    (h : ∀ x ∈ xs, Checks (f x) (P x)) : Checks (xs.forM f) (∀ x ∈ xs, P x) := by
  induction xs with
  | nil => exact .pure (by simp)
  | cons x rest ih =>
      rw [List.forall_mem_cons] at h
      exact (bind h.1 fun _ => ih h.2).congr List.forall_mem_cons.symm

end Checks

end Answer

section Eventually

open Filter

variable {α : Type}

/-- What holds of each member of a list at every large depth holds of all of them at once. -/
theorem eventually_forall_mem {p : Nat → α → Prop} {xs : List α}
    (h : ∀ x ∈ xs, ∀ᶠ depth in atTop, p depth x) : ∀ᶠ depth in atTop, ∀ x ∈ xs, p depth x := by
  induction xs with
  | nil => exact .of_forall fun _ x hx => absurd hx List.not_mem_nil
  | cons x rest ih =>
      filter_upwards [h x List.mem_cons_self, ih fun y hy => h y (List.mem_cons_of_mem _ hy)]
        with depth hx hrest
      exact List.forall_mem_cons.mpr ⟨hx, hrest⟩

/-- A statement about the depth below holds at every large depth as well. -/
theorem eventually_succ {p : Nat → Prop} (h : ∀ᶠ depth in atTop, p depth) :
    ∀ᶠ depth in atTop, ∃ below, depth = below + 1 ∧ p below := by
  obtain ⟨bound, hbound⟩ := eventually_atTop.mp h
  refine eventually_atTop.mpr ⟨bound + 1, fun depth hdepth => ⟨depth - 1, by omega, ?_⟩⟩
  exact hbound _ (by omega)

end Eventually

end Telora.Library
