import Telora.Library.ExceptBind

/-!
# Runs of stateful computations that can fail

`Runs x s post fail` says how the run of `x` from `s` ends: with a result and a
state that satisfy `post`, or with an error that satisfies `fail`. The rules
follow the shape of the computation; a traversal is reasoned about through one
extension order of its states.
-/

namespace Telora.Library

variable {σ ε α β : Type}

/-- A run ends in `post`, or it fails in `fail`. -/
def Runs (x : StateT σ (Except ε) α) (s : σ) (post : α → σ → Prop) (fail : ε → Prop) : Prop :=
  match x.run s with
  | .ok (a, s') => post a s'
  | .error e => fail e

namespace Runs

variable {post post' : α → σ → Prop} {fail fail' : ε → Prop} {s : σ}

theorem of_ok {x : StateT σ (Except ε) α} {a : α} {s' : σ} (h : Runs x s post fail)
    (hrun : x.run s = .ok (a, s')) : post a s' := by
  rwa [Runs, hrun] at h

theorem of_error {x : StateT σ (Except ε) α} {e : ε} (h : Runs x s post fail)
    (hrun : x.run s = .error e) : fail e := by
  rwa [Runs, hrun] at h

theorem imp {x : StateT σ (Except ε) α} (h : Runs x s post fail)
    (hpost : ∀ a s', post a s' → post' a s') (hfail : ∀ e, fail e → fail' e) :
    Runs x s post' fail' := by
  cases hrun : x.run s with
  | error e =>
      rw [Runs, hrun]
      exact hfail e (h.of_error hrun)
  | ok result =>
      rw [Runs, hrun]
      exact hpost _ _ (h.of_ok hrun)

theorem pure {a : α} (h : post a s) : Runs (Pure.pure a) s post fail := h

theorem throw {e : ε} (h : fail e) : Runs (MonadExcept.throw e) s post fail := h

theorem bind {x : StateT σ (Except ε) β} {f : β → StateT σ (Except ε) α}
    (h : Runs x s (fun b s' => Runs (f b) s' post fail) fail) :
    Runs (x >>= f) s post fail := by
  cases hrun : x.run s with
  | error e =>
      rw [Runs, StateT.run_bind, hrun]
      exact h.of_error hrun
  | ok result =>
      rw [Runs, StateT.run_bind, hrun]
      exact h.of_ok hrun

theorem map {x : StateT σ (Except ε) β} {f : β → α}
    (h : Runs x s (fun b s' => post (f b) s') fail) : Runs (f <$> x) s post fail := by
  rw [← bind_pure_comp]
  exact bind h

theorem get {post : σ → σ → Prop} (h : post s s) :
    Runs MonadState.get s post fail := h

theorem update {post : PUnit → σ → Prop} {f : σ → σ} (h : post ⟨⟩ (f s)) :
    Runs (modify f) s post fail := h

theorem lift {x : Except ε α} (hok : ∀ a, x = .ok a → post a s)
    (herror : ∀ e, x = .error e → fail e) :
    Runs (liftM x) s post fail := by
  cases x with
  | ok a => exact hok a rfl
  | error e => exact herror e rfl

/-- A traversal that does not use the state is a traversal without it. -/
theorem mapM_lift {f : β → Except ε α} {xs : List β} {post : List α → σ → Prop}
    (hok : ∀ ys, xs.mapM f = .ok ys → post ys s) (herror : ∀ e, xs.mapM f = .error e → fail e) :
    Runs (xs.mapM fun x => (f x : StateT σ (Except ε) α)) s post fail := by
  have heq : ∀ xs : List β, (xs.mapM fun x => (f x : StateT σ (Except ε) α)).run s =
      (xs.mapM f).map fun ys => (ys, s) := by
    intro xs
    induction xs with
    | nil => rfl
    | cons x rest ih =>
        rw [List.mapM_cons, List.mapM_cons, StateT.run_bind]
        cases hx : f x with
        | error e => rfl
        | ok y =>
            change ((rest.mapM fun x => (f x : StateT σ (Except ε) α)) >>=
              fun ys => Pure.pure (y :: ys)).run s =
                ((rest.mapM f) >>= fun ys => Pure.pure (y :: ys)).map fun ys => (ys, s)
            rw [StateT.run_bind, ih]
            cases rest.mapM f <;> rfl
  unfold Runs
  rw [heq]
  cases hys : xs.mapM f with
  | error e => exact herror e hys
  | ok ys => exact hok ys hys

/-- A traversal keeps the invariant, extends the state step by step, and relates
every element to its image in the final state. -/
theorem mapM {f : β → StateT σ (Except ε) α} {xs : List β} {inv : σ → Prop}
    {ext : σ → σ → Prop} {rel : σ → β → α → Prop}
    (hrefl : ∀ s, ext s s) (htrans : ∀ {a b c}, ext a b → ext b c → ext a c)
    (hmono : ∀ {a b x y}, ext a b → rel a x y → rel b x y)
    (hstep : ∀ x ∈ xs, ∀ s', ext s s' → inv s' →
      Runs (f x) s' (fun y s'' => inv s'' ∧ ext s' s'' ∧ rel s'' x y) fail)
    (hinv : inv s) :
    Runs (xs.mapM f) s (fun ys s' => inv s' ∧ ext s s' ∧ List.Forall₂ (rel s') xs ys) fail := by
  induction xs generalizing s with
  | nil => exact pure ⟨hinv, hrefl s, .nil⟩
  | cons x rest ih =>
      rw [List.mapM_cons]
      refine bind ((hstep x List.mem_cons_self s (hrefl s) hinv).imp ?_ fun _ => id)
      rintro y s₁ ⟨hinv₁, hext₁, hrel₁⟩
      have hrest := ih (s := s₁)
        (fun z hz s' hs' => hstep z (List.mem_cons_of_mem _ hz) s' (htrans hext₁ hs')) hinv₁
      refine bind (hrest.imp ?_ fun _ => id)
      rintro ys s₂ ⟨hinv₂, hext₂, hrel₂⟩
      exact pure ⟨hinv₂, htrans hext₁ hext₂, .cons (hmono hext₂ hrel₁) hrel₂⟩

end Runs

end Telora.Library
