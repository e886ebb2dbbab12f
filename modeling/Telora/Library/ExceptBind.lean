import Mathlib.Data.List.Forall2

/-!
# Successful runs of `Except`

A computation that succeeds succeeded at every step it took.

A computation that can fail returns what is expected exactly when a condition holds. The
expectation is split: where the condition holds the result is described exactly, and
where it does not hold every result misses a weaker description.
-/

namespace Telora.Library

universe u v

variable {ε : Type u} {α β : Type v}

theorem bind_eq_ok {x : Except ε α} {f : α → Except ε β} {b : β} :
    (x >>= f) = .ok b ↔ ∃ a, x = .ok a ∧ f a = .ok b := by
  cases x with
  | error e => simp [bind, Except.bind]
  | ok a => simp [bind, Except.bind]

@[simp] theorem pure_eq_ok {a b : α} : (pure a : Except ε α) = .ok b ↔ a = b := by
  simp [pure, Except.pure]

theorem map_eq_ok {x : Except ε α} {f : α → β} {b : β} :
    x.map f = .ok b ↔ ∃ a, x = .ok a ∧ f a = b := by
  cases x with
  | error e => simp [Except.map]
  | ok a => simp [Except.map]

theorem mapError_eq_ok {ε' : Type u} {x : Except ε α} {f : ε → ε'} {a : α} :
    x.mapError f = .ok a ↔ x = .ok a := by
  cases x with
  | error e => simp [Except.mapError]
  | ok a => simp [Except.mapError]

/-- A conditional refusal that succeeds did not refuse. -/
theorem ite_error_eq_ok {p : Prop} [Decidable p] {e : ε} {x : Except ε α} {a : α} :
    (if p then .error e else x) = .ok a ↔ ¬p ∧ x = .ok a := by
  by_cases h : p <;> simp [h]

/-- The same for a guard that throws before the rest of a block. -/
theorem ite_throw_eq_ok {p : Prop} [Decidable p] {e : ε} {γ : Type v} {k : γ → Except ε α}
    {x : Except ε α} {a : α} :
    (if p then (throw e >>= k) else x) = .ok a ↔ ¬p ∧ x = .ok a := by
  by_cases h : p
  · simp [h, throw, throwThe, MonadExceptOf.throw, bind, Except.bind]
  · simp [h]

/-- A successful traversal relates each element to its image. -/
theorem mapM_eq_ok {f : α → Except ε β} {xs : List α} {ys : List β} :
    xs.mapM f = .ok ys ↔ List.Forall₂ (fun x y => f x = .ok y) xs ys := by
  induction xs generalizing ys with
  | nil => cases ys <;> simp
  | cons x rest ih =>
      rw [List.mapM_cons, bind_eq_ok]
      constructor
      · rintro ⟨y, hy, h⟩
        obtain ⟨zs, hzs, h⟩ := bind_eq_ok.mp h
        obtain rfl := pure_eq_ok.mp h
        exact .cons hy (ih.mp hzs)
      · intro h
        cases h with
        | cons hy htail => exact ⟨_, hy, bind_eq_ok.mpr ⟨_, ih.mpr htail, by simp⟩⟩

/-- A traversal succeeds when every element does. -/
theorem exists_mapM_eq_ok {f : α → Except ε β} {xs : List α}
    (h : ∀ x ∈ xs, ∃ y, f x = .ok y) : ∃ ys, xs.mapM f = .ok ys := by
  induction xs with
  | nil => exact ⟨[], rfl⟩
  | cons x rest ih =>
      obtain ⟨y, hy⟩ := h x List.mem_cons_self
      obtain ⟨ys, hys⟩ := ih fun z hz => h z (List.mem_cons_of_mem _ hz)
      exact ⟨y :: ys, mapM_eq_ok.mpr (.cons hy (mapM_eq_ok.mp hys))⟩

end Telora.Library

namespace Telora.Library

variable {ε α β : Type}

/-- The computation returns an exact result if the condition holds, and nothing acceptable
if it does not. -/
structure Decides (condition : Prop) (exact acceptable : α → Prop) (result : Except ε α) :
    Prop where
  returns : condition → ∃ a, result = .ok a ∧ exact a
  refuses : ¬condition → ∀ a, result = .ok a → ¬acceptable a

namespace Decides

variable {condition condition' : Prop} {exact acceptable : α → Prop}
  {exact' acceptable' : β → Prop} {result : Except ε α}

theorem ok {a : α} (hexact : condition → exact a) (hmiss : ¬condition → ¬acceptable a) :
    Decides condition exact acceptable (.ok a : Except ε α) where
  returns h := ⟨a, rfl, hexact h⟩
  refuses h a' ha' := by
    obtain rfl := Except.ok.inj ha'
    exact hmiss h

theorem error {e : ε} (h : ¬condition) : Decides condition exact acceptable (.error e) where
  returns hcondition := absurd hcondition h
  refuses _ a ha := by cases ha

/-- Two steps in a row decide both conditions, if an acceptable end needs an acceptable
result of the first step. -/
theorem bind {f : α → Except ε β} (h : Decides condition exact acceptable result)
    (hf : ∀ a, exact a → Decides condition' exact' acceptable' (f a))
    (hfirst : ∀ a b, f a = .ok b → acceptable' b → acceptable a) :
    Decides (condition ∧ condition') exact' acceptable' (result >>= f) where
  returns := by
    rintro ⟨hcondition, hcondition'⟩
    obtain ⟨a, ha, hexact⟩ := h.returns hcondition
    obtain ⟨b, hb, hexact'⟩ := (hf a hexact).returns hcondition'
    exact ⟨b, bind_eq_ok.mpr ⟨a, ha, hb⟩, hexact'⟩
  refuses := by
    intro hneither b hb hacceptable
    obtain ⟨a, ha, hfb⟩ := bind_eq_ok.mp hb
    by_cases hcondition : condition
    · obtain ⟨a', ha', hexact⟩ := h.returns hcondition
      obtain rfl := Except.ok.inj (ha.symm.trans ha')
      exact (hf a hexact).refuses (fun h' => hneither ⟨hcondition, h'⟩) b hfb hacceptable
    · exact h.refuses hcondition a ha (hfirst a b hfb hacceptable)

/-- A last step that cannot fail. -/
theorem map {f : α → β} (h : Decides condition exact acceptable result)
    (hexact : ∀ a, exact a → exact' (f a)) (hacceptable : ∀ a, acceptable' (f a) → acceptable a) :
    Decides condition exact' acceptable' (result >>= fun a => .ok (f a)) where
  returns hcondition := by
    obtain ⟨a, ha, hresult⟩ := h.returns hcondition
    exact ⟨f a, bind_eq_ok.mpr ⟨a, ha, rfl⟩, hexact a hresult⟩
  refuses hcondition b hb hb' := by
    obtain ⟨a, ha, hf⟩ := bind_eq_ok.mp hb
    obtain rfl := Except.ok.inj hf
    exact h.refuses hcondition a ha (hacceptable a hb')

/-- A condition that is equivalent. -/
theorem congr (h : Decides condition exact acceptable result) (hiff : condition ↔ condition') :
    Decides condition' exact acceptable result where
  returns h' := h.returns (hiff.mpr h')
  refuses h' := h.refuses fun hcondition => h' (hiff.mp hcondition)

/-- Where exact results are acceptable, an acceptable result means that the condition holds. -/
theorem acceptable_iff (h : Decides condition exact acceptable result)
    (hexact : ∀ a, exact a → acceptable a) :
    (∃ a, result = .ok a ∧ acceptable a) ↔ condition := by
  constructor
  · rintro ⟨a, ha, hacceptable⟩
    by_contra hcondition
    exact h.refuses hcondition a ha hacceptable
  · intro hcondition
    obtain ⟨a, ha, hresult⟩ := h.returns hcondition
    exact ⟨a, ha, hexact a hresult⟩

end Decides

end Telora.Library
