import Mathlib
import Telora.Inference.Unify
import Telora.Inference.Resolution

/-!
# Runs of inference

Only `bindInferenceVariable` and the defaults write the table of bindings. Whatever inference
does, in whatever order, the table stays grounded and a variable that is bound stays bound.
-/

namespace Telora

open Library TypeDescriptor Substitutions

namespace Infer

variable (context : InferContext)

theorem ofOption_run {α : Type} (value : Option α) (s : InferState) :
    (ofOption value : Infer α) s = (value.elim (.error .outOfDepth) .ok, s) := by
  cases value <;> rfl

theorem resolve_run (ty : TypeDescriptor) (s : InferState) :
    resolve context ty s =
      ((s.substitutions.resolve context.debugText ty).elim (.error .outOfDepth) .ok, s) :=
  ofOption_run _ s

theorem addNumeric_run (id : Nat) (s : InferState) :
    addNumeric id s = (.ok ⟨⟩, { s with numericVariables := id :: s.numericVariables }) := rfl

theorem fail_run {α : Type} (message : String) (s : InferState) :
    (fail message : Infer α) s = (.error (.failed message), s) := rfl

theorem pure_run {α : Type} (a : α) (s : InferState) : (pure a : Infer α) s = (.ok a, s) := rfl

theorem get_run (s : InferState) : (get : Infer InferState) s = (.ok s, s) := rfl

/-- A program that leaves the table alone and runs to its end. -/
def Aside {α : Type} (program : Infer α) : Prop :=
  ∀ s, (program s).2.substitutions = s.substitutions ∧ (program s).1 ≠ .error .outOfDepth

theorem Aside.bind {α β : Type} {program : Infer α} {next : α → Infer β} (h : Aside program)
    (hnext : ∀ a, Aside (next a)) : Aside (program >>= next) := by
  intro s
  rw [Discipline.bind_run]
  obtain ⟨hkeeps, hends⟩ := h s
  rcases hrun : program s with ⟨error | a, s'⟩ <;> rw [hrun] at hkeeps hends
  · exact ⟨hkeeps, fun heq => hends (congrArg _ (Except.error.inj heq))⟩
  · obtain ⟨hkeeps', hends'⟩ := hnext a s'
    exact ⟨hkeeps'.trans hkeeps, hends'⟩

theorem aside_pure {α : Type} (a : α) : Aside (pure a : Infer α) := fun _ => ⟨rfl, by simp [pure_run]⟩

theorem aside_get : Aside (get : Infer InferState) := fun _ => ⟨rfl, by simp [get_run]⟩

theorem aside_fail {α : Type} (message : String) : Aside (fail message : Infer α) :=
  fun _ => ⟨rfl, by simp [fail_run]⟩

theorem aside_addNumeric (id : Nat) : Aside (addNumeric id) :=
  fun _ => ⟨rfl, by simp [addNumeric_run]⟩

theorem aside_checkNumericBinding (id : Nat) (ty : TypeDescriptor) :
    Aside (checkNumericBinding id ty) := by
  unfold checkNumericBinding
  refine aside_get.bind fun s => ?_
  cases ty with
  | inference target =>
      have hrest : Aside (do
          if (← get).numericVariables.contains target then addNumeric id) := by
        refine aside_get.bind fun s => ?_
        split
        · exact aside_addNumeric id
        · exact aside_pure _
      dsimp only
      split
      · exact (aside_addNumeric target).bind fun _ => hrest
      · exact hrest
  | int | float | any | never =>
      dsimp only
      split
      · exact aside_pure _
      · exact aside_pure _
  | _ =>
      dsimp only
      split
      · exact (aside_fail _).bind fun _ => aside_pure _
      · exact aside_pure _

/-- The outcomes of binding a variable to a type that resolves to the given one. -/
inductive Binding (s : InferState) (id : Nat) (resolved : TypeDescriptor) :
    Except Stop PUnit × InferState → Prop
  | failed (message : String) (s' : InferState) (h : s'.substitutions = s.substitutions) :
      Binding s id resolved (.error (.failed message), s')
  | outOfDepth (h : context.depth ≤ resolved.depth) :
      Binding s id resolved (.error .outOfDepth, s)
  | bound (s' : InferState) (hoccurs : id ∉ resolved.inferenceLeaves)
      (h : s'.substitutions = (id, resolved) :: s.substitutions) :
      Binding s id resolved (.ok ⟨⟩, s')

theorem bindInferenceVariable_run {s : InferState} {id : Nat} {ty resolved : TypeDescriptor}
    {found : Bool} (hresolve : s.substitutions.resolve context.debugText ty = some resolved)
    (hoccurs : s.substitutions.occurs context.debugText id context.depth resolved = some found) :
    bindInferenceVariable context id ty s =
      if found then (.error (.failed s!"infinite type for ?{id}"), s)
      else (checkNumericBinding id resolved >>= fun _ => substitute id resolved) s := by
  rw [bindInferenceVariable, Discipline.bind_run, resolve_run, hresolve]
  simp only [Option.elim_some, Discipline.bind_run, get_run, ofOption_run, hoccurs]
  cases found with
  | true => rfl
  | false => exact Discipline.bind_run (checkNumericBinding id resolved) _ s

theorem bindInferenceVariable_cases {s : InferState} (id : Nat) {ty resolved : TypeDescriptor}
    (hresolve : s.substitutions.resolve context.debugText ty = some resolved) :
    Binding context s id resolved (bindInferenceVariable context id ty s) := by
  have hsettled := resolve_settled hresolve
  cases hoccurs : s.substitutions.occurs context.debugText id context.depth resolved with
  | none =>
      have hdepth : context.depth ≤ resolved.depth := by
        by_contra hdepth
        rw [hsettled.occurs_eq (Nat.lt_of_not_le hdepth)] at hoccurs
        cases hoccurs
      rw [bindInferenceVariable, Discipline.bind_run, resolve_run, hresolve]
      simp only [Option.elim_some, Discipline.bind_run, get_run, ofOption_run, hoccurs]
      exact .outOfDepth hdepth
  | some found =>
      have hfound := hsettled.occurs_eq_some hoccurs
      rw [bindInferenceVariable_run context hresolve hoccurs]
      cases found with
      | true => exact .failed _ s rfl
      | false =>
          obtain ⟨hkeeps, hends⟩ := aside_checkNumericBinding id resolved s
          simp only [Bool.false_eq_true, if_false, Discipline.bind_run]
          rcases hrun : checkNumericBinding id resolved s with ⟨error | _, s'⟩ <;>
            rw [hrun] at hkeeps hends
          · cases error with
            | failed message => exact .failed message s' hkeeps
            | outOfDepth => exact absurd rfl hends
          · refine .bound _ (decide_eq_false_iff_not.mp hfound.symm) ?_
            exact congrArg _ hkeeps

/-- Grounded tables, which grow by the variables that they bind. -/
def tables (debugText : TypeDescriptor → String) : Discipline InferState (Set Nat) where
  Inv s := s.substitutions.Grounded debugText
  world s := {id | s.substitutions.lookup id ≠ none}

theorem tables_le {debugText : TypeDescriptor → String} {s s' : InferState}
    (h : ∀ id, s.substitutions.lookup id ≠ none → s'.substitutions.lookup id ≠ none) :
    (tables debugText).world s ≤ (tables debugText).world s' := h

def Keeps {α : Type} (debugText : TypeDescriptor → String) (program : Infer α) : Prop :=
  ∀ w, (tables debugText).Spec w program fun _ _ => True

section Keeps

variable {α β : Type} {debugText : TypeDescriptor → String} {program : Infer α}

theorem keeps_of_still (h : ∀ s, (program s).2.substitutions = s.substitutions) :
    Keeps debugText program := by
  intro w s hinv _ result s' hrun
  have hstill := h s
  rw [hrun] at hstill
  change s'.substitutions = s.substitutions at hstill
  refine ⟨?_, tables_le ?_, fun _ _ => trivial⟩
  · change s'.substitutions.Grounded debugText
    rw [hstill]
    exact hinv
  · rw [hstill]
    exact fun _ => id

theorem Aside.keeps (h : Aside program) : Keeps debugText program :=
  keeps_of_still fun s => (h s).1

theorem Keeps.bind {next : α → Infer β} (h : Keeps debugText program)
    (hnext : ∀ a, Keeps debugText (next a)) : Keeps debugText (program >>= next) :=
  fun w => (h w).bind fun w' _ a _ => hnext a w'

theorem keeps_pure (a : α) : Keeps debugText (pure a : Infer α) := (aside_pure a).keeps

theorem keeps_fail (message : String) : Keeps debugText (fail message : Infer α) :=
  (aside_fail message).keeps

theorem Keeps.forM {items : List α} {body : α → Infer PUnit}
    (h : ∀ item ∈ items, Keeps debugText (body item)) : Keeps debugText (items.forM body) :=
  fun _ => .forM fun item hmem w' _ => h item hmem w'

theorem keeps_get : Keeps debugText (get : Infer InferState) := aside_get.keeps

end Keeps

section Operations

theorem keeps_resolve (ty : TypeDescriptor) : Keeps context.debugText (resolve context ty) :=
  keeps_of_still fun s => by rw [resolve_run]

theorem keeps_bindInferenceVariable (id : Nat) (ty : TypeDescriptor) :
    Keeps context.debugText (bindInferenceVariable context id ty) := by
  intro w s hinv _ result s' hrun
  obtain ⟨resolved, hresolve⟩ := Grounded.exists_resolve hinv ty
  have hcases := bindInferenceVariable_cases context id hresolve
  rw [hrun] at hcases
  change s'.substitutions.Grounded context.debugText ∧ _
  cases hcases with
  | failed message _ h => exact ⟨h ▸ hinv, tables_le (by simp [h]), fun _ _ => trivial⟩
  | outOfDepth _ => exact ⟨hinv, le_rfl, fun _ _ => trivial⟩
  | bound _ hoccurs h =>
      rw [h]
      refine ⟨Grounded.bind hinv (resolve_settled hresolve) hoccurs, tables_le ?_,
        fun _ _ => trivial⟩
      intro other hother
      rw [h, lookup_cons_ite]
      split
      · simp
      · exact hother

theorem keeps_requireNumeric (ty : TypeDescriptor) :
    Keeps context.debugText (requireNumeric context ty) := by
  refine (keeps_resolve context ty).bind fun resolved => ?_
  cases resolved with
  | inference id => exact (aside_addNumeric id).keeps
  | int | float | any | never => exact keeps_pure _
  | _ => exact keeps_fail _

section Rules

variable {recurse : TypeDescriptor → TypeDescriptor → Infer PUnit}
  (hrecurse : ∀ left right, Keeps context.debugText (recurse left right))

include hrecurse

theorem keeps_unifyItems (lefts rights : List TypeDescriptor) :
    Keeps context.debugText (unifyItems recurse lefts rights) :=
  .forM fun pair _ => hrecurse pair.1 pair.2

omit hrecurse in
theorem keeps_unifyEqual (left right : TypeDescriptor) :
    Keeps context.debugText (unifyEqual left right) := by
  unfold unifyEqual
  split
  · exact keeps_pure _
  · exact keeps_fail _

theorem keeps_unifyTagged (tag : Atom) (payload : TypeDescriptor)
    (variants : List (String × Option TypeDescriptor)) :
    Keeps context.debugText (unifyTagged recurse tag payload variants) := by
  unfold unifyTagged
  split
  · exact hrecurse _ _
  · exact keeps_fail _

theorem keeps_unifyVariant (variant other : String × Option TypeDescriptor) :
    Keeps context.debugText (unifyVariant recurse variant other) := by
  unfold unifyVariant
  split
  · exact keeps_pure _
  · exact hrecurse _ _
  · exact keeps_fail _

theorem keeps_unifyRules (left right : TypeDescriptor) :
    Keeps context.debugText (unifyRules context recurse left right) := by
  unfold unifyRules
  split
  all_goals first
    | exact keeps_pure _
    | exact keeps_bindInferenceVariable context _ _
    | exact hrecurse _ _
    | exact keeps_unifyTagged context hrecurse _ _ _
    | exact keeps_unifyEqual context _ _
    | split
  all_goals first
    | exact keeps_pure _
    | exact keeps_bindInferenceVariable context _ _
    | exact hrecurse _ _
    | exact keeps_unifyEqual context _ _
    | exact keeps_unifyItems context hrecurse _ _
    | exact .forM fun pair _ => keeps_unifyVariant context hrecurse pair.1 pair.2
    | exact (keeps_unifyItems context hrecurse _ _).bind fun _ => hrecurse _ _

theorem keeps_unifyResolved (left right : TypeDescriptor) :
    Keeps context.debugText (unifyResolved context recurse left right) := by
  unfold unifyResolved
  split
  · exact .forM fun field _ => hrecurse _ _
  · exact keeps_fail _
  · split
    · exact keeps_pure _
    · exact keeps_unifyRules context hrecurse _ _

end Rules

theorem keeps_unify (depth : Nat) (left right : TypeDescriptor) :
    Keeps context.debugText (unify context depth left right) := by
  induction depth generalizing left right with
  | zero => exact keeps_of_still fun _ => rfl
  | succ depth ih =>
      refine (keeps_resolve context left).bind fun left => ?_
      refine (keeps_resolve context right).bind fun right => ?_
      exact keeps_unifyResolved context ih left right

theorem keeps_checkPlain (actual expected : TypeDescriptor) :
    Keeps context.debugText (checkPlain context actual expected) := by
  unfold checkPlain
  split
  · split
    · exact keeps_pure _
    · exact keeps_fail _
  · exact keeps_unify context _ _ _

theorem keeps_checkRules {recurse : TypeDescriptor → TypeDescriptor → Infer PUnit}
    (hrecurse : ∀ actual expected, Keeps context.debugText (recurse actual expected))
    (actual expected : TypeDescriptor) :
    Keeps context.debugText (checkRules context recurse actual expected) := by
  unfold checkRules
  split
  all_goals first
    | exact hrecurse _ _
    | exact keeps_checkPlain context _ _
    | exact .forM fun field _ => hrecurse _ _
    | split
  all_goals first
    | exact hrecurse _ _
    | exact keeps_checkPlain context _ _
    | exact keeps_unifyItems context hrecurse _ _
    | exact (keeps_unifyItems context hrecurse _ _).bind fun _ => hrecurse _ _

theorem keeps_checkWithin (depth : Nat) (actual expected : TypeDescriptor) :
    Keeps context.debugText (checkWithin context depth actual expected) := by
  induction depth generalizing actual expected with
  | zero => exact keeps_of_still fun _ => rfl
  | succ depth ih =>
      refine (keeps_resolve context actual).bind fun actual => ?_
      refine (keeps_resolve context expected).bind fun expected => ?_
      unfold checkResolved
      split
      · exact keeps_pure _
      · split
        · have hfreshen : Keeps context.debugText (freshen actual) := keeps_of_still fun _ => rfl
          exact hfreshen.bind fun _ => keeps_bindInferenceVariable context _ _
        · exact keeps_checkRules context ih _ _
      · exact keeps_checkRules context ih _ _

theorem keeps_check (actual expected : TypeDescriptor) :
    Keeps context.debugText (check context actual expected) :=
  keeps_checkWithin context _ actual expected

theorem keeps_substitute_any (id : Nat) : Keeps context.debugText (substitute id .any) := by
  intro w s hinv _ result s' hrun
  obtain ⟨rfl, rfl⟩ := Prod.mk.inj hrun
  have hany : s.substitutions.Settled context.debugText .any :=
    normal_of_parts (by simp) (by simp) fun _ hmem => absurd hmem List.not_mem_nil
  refine ⟨Grounded.bind hinv hany List.not_mem_nil, tables_le fun other hother => ?_,
    fun _ _ => trivial⟩
  change List.lookup other ((id, .any) :: s.substitutions) ≠ none
  rw [lookup_cons_ite]
  split
  · simp
  · exact hother

theorem keeps_defaultInferenceVariablesToAny (depth : Nat) (ty : TypeDescriptor) :
    Keeps context.debugText (defaultInferenceVariablesToAny context depth ty) := by
  induction depth generalizing ty with
  | zero => exact keeps_of_still fun _ => rfl
  | succ depth ih =>
      refine (keeps_resolve context ty).bind fun resolved => ?_
      split
      · exact keeps_substitute_any context _
      · exact .forM fun item _ => ih item

theorem keeps_solveRecursiveEquations (ids : List Nat) :
    Keeps context.debugText (solveRecursiveEquations context ids) := by
  refine keeps_get.bind fun s => ?_
  refine (keeps_of_still fun s => by rw [ofOption_run]).bind fun approximations => ?_
  exact .forM fun entry _ => keeps_bindInferenceVariable context entry.1 entry.2

end Operations

/-- What inference does to its state: it unifies, checks, sets defaults and solves recursive
equations, and whatever else it does leaves the table of bindings alone. -/
inductive InferenceStep : InferState → InferState → Prop
  | requireNumeric (ty : TypeDescriptor) (s : InferState) :
      InferenceStep s (requireNumeric context ty s).2
  | bindInferenceVariable (id : Nat) (ty : TypeDescriptor) (s : InferState) :
      InferenceStep s (bindInferenceVariable context id ty s).2
  | unify (left right : TypeDescriptor) (s : InferState) :
      InferenceStep s (unify context context.depth left right s).2
  | check (actual expected : TypeDescriptor) (s : InferState) :
      InferenceStep s (check context actual expected s).2
  | default (ty : TypeDescriptor) (s : InferState) :
      InferenceStep s (defaultInferenceVariablesToAny context context.depth ty s).2
  | solve (ids : List Nat) (s : InferState) :
      InferenceStep s (solveRecursiveEquations context ids s).2
  | aside (s s' : InferState) (h : s'.substitutions = s.substitutions) : InferenceStep s s'

abbrev InferenceReaches : InferState → InferState → Prop :=
  Relation.ReflTransGen (InferenceStep context)

theorem InferenceStep.keeps {s s' : InferState} (h : InferenceStep context s s')
    (hgrounded : s.substitutions.Grounded context.debugText) :
    s'.substitutions.Grounded context.debugText ∧
      ∀ id, s.substitutions.lookup id ≠ none → s'.substitutions.lookup id ≠ none := by
  have of_keeps {program : Infer PUnit} (hkeeps : Keeps context.debugText program) :
      (program s).2.substitutions.Grounded context.debugText ∧
        ∀ id, s.substitutions.lookup id ≠ none →
          (program s).2.substitutions.lookup id ≠ none := by
    obtain ⟨hinv, hgrows, -⟩ := hkeeps _ s hgrounded le_rfl _ _ rfl
    exact ⟨hinv, hgrows⟩
  cases h with
  | requireNumeric ty => exact of_keeps (keeps_requireNumeric context ty)
  | bindInferenceVariable id ty => exact of_keeps (keeps_bindInferenceVariable context id ty)
  | unify left right => exact of_keeps (keeps_unify context _ left right)
  | check actual expected => exact of_keeps (keeps_check context actual expected)
  | default ty => exact of_keeps (keeps_defaultInferenceVariablesToAny context _ ty)
  | solve ids => exact of_keeps (keeps_solveRecursiveEquations context ids)
  | aside _ _ hsame =>
      rw [hsame]
      exact ⟨hgrounded, fun _ => id⟩

theorem InferenceReaches.keeps {s s' : InferState} (h : InferenceReaches context s s')
    (hgrounded : s.substitutions.Grounded context.debugText) :
    s'.substitutions.Grounded context.debugText ∧
      ∀ id, s.substitutions.lookup id ≠ none → s'.substitutions.lookup id ≠ none := by
  induction h with
  | refl => exact ⟨hgrounded, fun _ => id⟩
  | tail _ hstep ih =>
      obtain ⟨hmiddle, hgrows⟩ := ih
      obtain ⟨hlast, hgrows'⟩ := hstep.keeps context hmiddle
      exact ⟨hlast, fun id hbound => hgrows' id (hgrows id hbound)⟩

/-- Whatever inference has done, the recursion of `resolve` ends on every type, at a type that
has free variables only and that resolves to itself; the variables bound stay bound; and a
type is refused as infinite exactly when the variable stands in the resolved type. -/
theorem inference_resolves {s s' : InferState} (hstart : InferenceReaches context {} s)
    (hreaches : InferenceReaches context s s') (ty : TypeDescriptor) :
    ∃ resolved, s'.substitutions.resolve context.debugText ty = some resolved ∧
      (∀ id ∈ resolved.inferenceLeaves, s'.substitutions.lookup id = none ∧
        s.substitutions.lookup id = none) ∧
      s'.substitutions.resolve context.debugText resolved = some resolved ∧
      ∀ id depth, resolved.depth < depth →
        s'.substitutions.occurs context.debugText id depth ty =
          some (decide (id ∈ resolved.inferenceLeaves)) := by
  obtain ⟨hgrounded, -⟩ := hstart.keeps context grounded_nil
  obtain ⟨hgrounded', hgrows⟩ := hreaches.keeps context hgrounded
  obtain ⟨resolved, hresolve⟩ := hgrounded'.exists_resolve ty
  have hsettled := resolve_settled hresolve
  refine ⟨resolved, hresolve, fun id hid => ?_, hsettled.resolve_eq, fun id depth hdepth => ?_⟩
  · have hfree := Normal.free_of_mem hsettled hid
    exact ⟨hfree, by_contra fun hbound => hgrows id hbound hfree⟩
  · rw [occurs_eq_of_resolve hresolve, hsettled.occurs_eq hdepth]

def bareContext : InferContext where
  debugText := displayName
  hashOrder := id
  hashOrder_perm := .refl
  depth := 8

/-- The state after `?0` was unified with `Array<?1>`. -/
def arrayState : InferState := (unify bareContext 8 (.inference 0) (.array (.inference 1)) {}).2

theorem arrayState_reached : InferenceReaches bareContext {} arrayState :=
  .single (.unify (.inference 0) (.array (.inference 1)) {})

theorem inference_resolves_array :
    ∃ resolved, arrayState.substitutions.resolve displayName (.tuple [.inference 0]) = some resolved ∧
      arrayState.substitutions.resolve displayName resolved = some resolved := by
  obtain ⟨resolved, hresolve, -, hagain, -⟩ :=
    inference_resolves bareContext arrayState_reached .refl (.tuple [.inference 0])
  exact ⟨resolved, hresolve, hagain⟩

end Infer

end Telora
