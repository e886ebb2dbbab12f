import Mathlib.Data.Finset.Card
import Telora.Inference.Runs

/-!
# Unification ends

A variable is bound at most once, and a call on parts of resolved types is about smaller
types as long as no variable is bound. So the recursion of `unify` is finite in every
state whose table is grounded: from some depth on, the depth makes no difference.
-/

namespace Telora

open Library TypeDescriptor Substitutions

namespace TypeDescriptor

theorem sizeOf_child {d child : TypeDescriptor} (h : child ∈ d.children) :
    sizeOf child < sizeOf d := by
  cases d <;> simp only [children, List.mem_singleton, List.not_mem_nil] at h
  case typeOf | array | dict | tagged =>
    subst h
    simp
  case tuple items | union variants =>
    have := List.sizeOf_lt_of_mem h
    simp
    omega
  case struct fields =>
    obtain ⟨⟨name, item⟩, hmem, rfl⟩ := List.mem_map.mp h
    have := List.sizeOf_lt_of_mem hmem
    simp at this ⊢
    omega
  case enum variants =>
    obtain ⟨⟨name, payload⟩, hmem, hpayload⟩ := List.mem_filterMap.mp h
    have := List.sizeOf_lt_of_mem hmem
    simp only at hpayload
    subst hpayload
    simp at this ⊢
    omega
  case function parameters result =>
    obtain rfl | hmem := List.mem_cons.mp h
    · simp
    · have := List.sizeOf_lt_of_mem hmem
      simp
      omega

end TypeDescriptor

namespace Infer

section Ends

variable {α β : Type}

/-- From some depth on, a program has the same outcome, and is not cut off. -/
def Ends (program : Nat → Nat → Infer α) (s : InferState)
    (outcome : Except Stop α × InferState) : Prop :=
  outcome.1 ≠ .error .outOfDepth ∧
    ∃ bound, ∀ inner ≥ bound, ∀ outer ≥ bound, program inner outer s = outcome

/-- A program ends, and in a state that meets the condition. -/
def EndsIn (program : Nat → Nat → Infer α) (s : InferState) (post : InferState → Prop) : Prop :=
  ∃ outcome, Ends program s outcome ∧ post outcome.2

theorem EndsIn.mono {program : Nat → Nat → Infer α} {s : InferState}
    {post post' : InferState → Prop} (h : EndsIn program s post) (himp : ∀ s', post s' → post' s') :
    EndsIn program s post' := by
  obtain ⟨outcome, hends, hpost⟩ := h
  exact ⟨outcome, hends, himp _ hpost⟩

theorem EndsIn.bind {program : Nat → Nat → Infer α} {next : Nat → Nat → α → Infer β}
    {s : InferState} {mid post : InferState → Prop} (h : EndsIn program s mid)
    (hfailed : ∀ s', mid s' → post s')
    (hnext : ∀ a s', mid s' → EndsIn (fun inner outer => next inner outer a) s' post) :
    EndsIn (fun inner outer => program inner outer >>= next inner outer) s post := by
  obtain ⟨⟨result, s'⟩, ⟨hends, bound, hrun⟩, hmid⟩ := h
  cases result with
  | error error =>
      refine ⟨(.error error, s'), ⟨?_, bound, fun inner hinner outer houter => ?_⟩, hfailed s' hmid⟩
      · exact fun heq => hends (congrArg _ (Except.error.inj heq))
      · change (program inner outer >>= next inner outer) s = _
        rw [Discipline.bind_run, hrun inner hinner outer houter]
  | ok a =>
      obtain ⟨outcome, ⟨hends', bound', hrun'⟩, hpost⟩ := hnext a s' hmid
      refine ⟨outcome, ⟨hends', max bound bound', fun inner hinner outer houter => ?_⟩, hpost⟩
      change (program inner outer >>= next inner outer) s = _
      rw [Discipline.bind_run,
        hrun inner (le_of_max_le_left hinner) outer (le_of_max_le_left houter)]
      exact hrun' inner (le_of_max_le_right hinner) outer (le_of_max_le_right houter)

end Ends

section Rules

/-- Two parts of a pair of types, or of types put together from parts. -/
structure Smaller (left right a b : TypeDescriptor) : Prop where
  normal : ∀ {debugText : TypeDescriptor → String} {free : Nat → Prop},
    left.Normal debugText free → right.Normal debugText free →
      a.Normal debugText free ∧ b.Normal debugText free
  size : sizeOf a + sizeOf b < sizeOf left + sizeOf right

theorem smaller_of_child {left right a b : TypeDescriptor} (ha : a ∈ left.children)
    (hb : b ∈ right.children) : Smaller left right a b where
  normal hleft hright := ⟨hleft.child ha, hright.child hb⟩
  size := Nat.add_lt_add (sizeOf_child ha) (sizeOf_child hb)

theorem Smaller.swap {left right a b : TypeDescriptor} (h : Smaller left right a b) :
    Smaller right left a b where
  normal hright hleft := h.normal hleft hright
  size := by
    have := h.size
    omega

/-- What the rules for two resolved types do: nothing with the table, bind a variable, or go
on to smaller types. -/
inductive Follows (left right : TypeDescriptor) :
    (InferContext → (TypeDescriptor → TypeDescriptor → Infer PUnit) → Infer PUnit) → Prop
  | aside (program : Infer PUnit) (h : Aside program) : Follows left right fun _ _ => program
  | bind (id : Nat) (ty : TypeDescriptor)
      (h : left = .inference id ∧ right = ty ∨ left = ty ∧ right = .inference id) 
      (hne : ty ≠ .inference id) :
      Follows left right fun context _ => bindInferenceVariable context id ty
  | call (a b : TypeDescriptor) (h : Smaller left right a b) :
      Follows left right fun _ recurse => recurse a b
  | calls {α : Type} (items : List α) (a b : α → TypeDescriptor)
      (h : ∀ item ∈ items, Smaller left right (a item) (b item)) :
      Follows left right fun _ recurse => items.forM fun item => recurse (a item) (b item)
  | variants (pairs : List ((String × Option TypeDescriptor) × (String × Option TypeDescriptor)))
      (h : ∀ pair ∈ pairs, ∀ a b, pair.1.2 = some a → pair.2.2 = some b → Smaller left right a b) :
      Follows left right fun _ recurse => pairs.forM fun pair => unifyVariant recurse pair.1 pair.2
  | function (pairs : List (TypeDescriptor × TypeDescriptor)) (a b : TypeDescriptor)
      (h : ∀ pair ∈ pairs, Smaller left right pair.1 pair.2) (hlast : Smaller left right a b) :
      Follows left right fun _ recurse => do
        pairs.forM fun pair => recurse pair.1 pair.2
        recurse a b

theorem aside_unifyEqual (left right : TypeDescriptor) : Aside (unifyEqual left right) := by
  unfold unifyEqual
  split
  · exact aside_pure _
  · exact aside_fail _

theorem follows_equal (left right : TypeDescriptor) {left' right' : TypeDescriptor} :
    Follows left right fun _ _ => unifyEqual left' right' :=
  .aside _ (aside_unifyEqual left' right')

theorem follows_zip {left right : TypeDescriptor} {lefts rights : List TypeDescriptor}
    (hleft : ∀ item ∈ lefts, item ∈ left.children) (hright : ∀ item ∈ rights, item ∈ right.children) :
    Follows left right fun _ recurse => unifyItems recurse lefts rights := by
  refine .calls (lefts.zip rights) Prod.fst Prod.snd fun pair hmem => ?_
  exact smaller_of_child (hleft _ (List.of_mem_zip hmem).1) (hright _ (List.of_mem_zip hmem).2)

theorem follows_tagged {left right : TypeDescriptor} {tag : Atom} {payload : TypeDescriptor}
    {variants : List (String × Option TypeDescriptor)}
    (h : ∀ expected, variants.lookup tag.name = some (some expected) →
      Smaller left right payload expected) :
    Follows left right fun _ recurse => unifyTagged recurse tag payload variants := by
  unfold unifyTagged
  cases hlookup : variants.lookup tag.name with
  | none => exact .aside _ (aside_fail _)
  | some found =>
      cases found with
      | none => exact .aside _ (aside_fail _)
      | some expected => exact .call _ _ (h expected hlookup)

theorem follows_atom (tag : Atom) (variants : List (String × Option TypeDescriptor))
    {left right left' right' : TypeDescriptor} :
    Follows left right fun _ _ =>
      match variants.lookup tag.name with
      | some none => pure ⟨⟩
      | _ => unifyEqual left' right' := by
  refine .aside _ ?_
  split
  · exact aside_pure _
  · exact aside_unifyEqual _ _

theorem mem_children_of_lookup {variants : List (String × Option TypeDescriptor)} {name : String}
    {payload : TypeDescriptor} (h : variants.lookup name = some (some payload)) :
    payload ∈ (TypeDescriptor.enum variants).children :=
  List.mem_filterMap.mpr ⟨_, mem_of_lookup h, rfl⟩

/-- A tag that stands for its constructor is a smaller type with the parameter inside. -/
theorem smaller_constructor (tag : Atom) (parameter result : TypeDescriptor) :
    Smaller (.atom tag) (.function [parameter] result) (.tagged tag parameter) result where
  normal _ hright := by
    refine ⟨normal_of_parts (by simp) (by simp) fun child hmem => ?_,
      hright.child List.mem_cons_self⟩
    obtain rfl := List.mem_singleton.mp hmem
    exact hright.child (List.mem_cons_of_mem _ (List.mem_singleton_self _))
  size := by
    simp
    omega

theorem follows_rules (left right : TypeDescriptor) :
    Follows left right fun context recurse => unifyRules context recurse left right := by
  cases left with
  | inference id =>
      cases right with
      | inference other =>
          by_cases heq : id = other
          · simp only [unifyRules, if_pos heq]
            exact .aside _ (aside_pure _)
          · simp only [unifyRules, if_neg heq]
            exact .bind _ _ (.inl ⟨rfl, rfl⟩) (by simpa [eq_comm] using heq)
      | _ => exact .bind _ _ (.inl ⟨rfl, rfl⟩) (by simp)
  | any =>
      cases right with
      | inference id => exact .bind _ _ (.inr ⟨rfl, rfl⟩) (by simp)
      | _ => exact .aside _ (aside_pure _)
  | typeOf described =>
      cases right with
      | inference id => exact .bind _ _ (.inr ⟨rfl, rfl⟩) (by simp)
      | any | type => exact .aside _ (aside_pure _)
      | typeOf other =>
          exact .call _ _ (smaller_of_child (List.mem_singleton_self _) (List.mem_singleton_self _))
      | _ => exact follows_equal _ _
  | array item =>
      cases right with
      | inference id => exact .bind _ _ (.inr ⟨rfl, rfl⟩) (by simp)
      | any => exact .aside _ (aside_pure _)
      | array other =>
          exact .call _ _ (smaller_of_child (List.mem_singleton_self _) (List.mem_singleton_self _))
      | _ => exact follows_equal _ _
  | dict item =>
      cases right with
      | inference id => exact .bind _ _ (.inr ⟨rfl, rfl⟩) (by simp)
      | any => exact .aside _ (aside_pure _)
      | dict other =>
          exact .call _ _ (smaller_of_child (List.mem_singleton_self _) (List.mem_singleton_self _))
      | _ => exact follows_equal _ _
  | tagged tag payload =>
      cases right with
      | inference id => exact .bind _ _ (.inr ⟨rfl, rfl⟩) (by simp)
      | any => exact .aside _ (aside_pure _)
      | tagged otherTag other =>
          by_cases heq : tag = otherTag
          · simp only [unifyRules, if_pos heq]
            exact .call _ _
              (smaller_of_child (List.mem_singleton_self _) (List.mem_singleton_self _))
          · simp only [unifyRules, if_neg heq]
            exact follows_equal _ _
      | enum variants =>
          exact follows_tagged fun expected h =>
            smaller_of_child (List.mem_singleton_self _) (mem_children_of_lookup h)
      | _ => exact follows_equal _ _
  | tuple items =>
      cases right with
      | inference id => exact .bind _ _ (.inr ⟨rfl, rfl⟩) (by simp)
      | any => exact .aside _ (aside_pure _)
      | tuple others =>
          by_cases hlength : items.length = others.length
          · simp only [unifyRules, if_pos hlength]
            exact follows_zip (fun _ h => h) fun _ h => h
          · simp only [unifyRules, if_neg hlength]
            exact follows_equal _ _
      | _ => exact follows_equal _ _
  | union variants =>
      cases right with
      | inference id => exact .bind _ _ (.inr ⟨rfl, rfl⟩) (by simp)
      | any => exact .aside _ (aside_pure _)
      | union others =>
          by_cases hlength : variants.length = others.length
          · simp only [unifyRules, if_pos hlength]
            exact follows_zip (fun _ h => h) fun _ h => h
          · simp only [unifyRules, if_neg hlength]
            exact follows_equal _ _
      | _ => exact follows_equal _ _
  | struct fields =>
      cases right with
      | inference id => exact .bind _ _ (.inr ⟨rfl, rfl⟩) (by simp)
      | any => exact .aside _ (aside_pure _)
      | struct others =>
          by_cases hnames : fields.map (·.1) = others.map (·.1)
          · simp only [unifyRules, if_pos hnames]
            exact follows_zip (fun _ h => h) fun _ h => h
          · simp only [unifyRules, if_neg hnames]
            exact follows_equal _ _
      | _ => exact follows_equal _ _
  | enum variants =>
      cases right with
      | inference id => exact .bind _ _ (.inr ⟨rfl, rfl⟩) (by simp)
      | any => exact .aside _ (aside_pure _)
      | tagged tag payload =>
          exact follows_tagged fun expected h =>
            (smaller_of_child (List.mem_singleton_self _) (mem_children_of_lookup h)).swap
      | atom tag => exact follows_atom tag variants
      | enum others =>
          by_cases hnames : variants.map (·.1) = others.map (·.1)
          · simp only [unifyRules, if_pos hnames]
            refine .variants _ fun pair hmem a b ha hb => smaller_of_child ?_ ?_
            · exact List.mem_filterMap.mpr ⟨_, (List.of_mem_zip hmem).1, ha⟩
            · exact List.mem_filterMap.mpr ⟨_, (List.of_mem_zip hmem).2, hb⟩
          · simp only [unifyRules, if_neg hnames]
            exact follows_equal _ _
      | _ => exact follows_equal _ _
  | atom tag =>
      cases right with
      | inference id => exact .bind _ _ (.inr ⟨rfl, rfl⟩) (by simp)
      | any => exact .aside _ (aside_pure _)
      | enum variants => exact follows_atom tag variants
      | function parameters result =>
          match parameters with
          | [] => exact follows_equal _ _
          | [parameter] => exact .call _ _ (smaller_constructor tag parameter result)
          | _ :: _ :: _ => exact follows_equal _ _
      | _ => exact follows_equal _ _
  | function parameters result =>
      cases right with
      | inference id => exact .bind _ _ (.inr ⟨rfl, rfl⟩) (by simp)
      | any => exact .aside _ (aside_pure _)
      | atom tag =>
          match parameters with
          | [] => exact follows_equal _ _
          | [parameter] => exact .call _ _ (smaller_constructor tag parameter result).swap
          | _ :: _ :: _ => exact follows_equal _ _
      | function others otherResult =>
          by_cases hlength : parameters.length = others.length
          · simp only [unifyRules, if_pos hlength]
            refine .function (parameters.zip others) _ _ (fun pair hmem => smaller_of_child ?_ ?_)
              (smaller_of_child List.mem_cons_self List.mem_cons_self)
            · exact List.mem_cons_of_mem _ (List.of_mem_zip hmem).1
            · exact List.mem_cons_of_mem _ (List.of_mem_zip hmem).2
          · simp only [unifyRules, if_neg hlength]
            exact follows_equal _ _
      | _ => exact follows_equal _ _
  | _ =>
      cases right with
      | inference id => exact .bind _ _ (.inr ⟨rfl, rfl⟩) (by simp)
      | any => exact .aside _ (aside_pure _)
      | _ => exact follows_equal _ _

theorem follows_resolved (left right : TypeDescriptor) :
    Follows left right fun context recurse => unifyResolved context recurse left right := by
  by_cases hfields : ∃ fields item, left = .struct fields ∧ right = .dict item
  · obtain ⟨fields, item, rfl, rfl⟩ := hfields
    refine .calls fields Prod.snd (fun _ => item) fun field hmem => ?_
    exact smaller_of_child (List.mem_map_of_mem hmem) (List.mem_singleton_self _)
  by_cases hdict : ∃ item fields, left = .dict item ∧ right = .struct fields
  · obtain ⟨item, fields, rfl, rfl⟩ := hdict
    exact .aside _ (aside_fail _)
  have heq : ∀ context recurse, unifyResolved context recurse left right =
      if eitherAssignable left right then pure ⟨⟩ else unifyRules context recurse left right := by
    intro context recurse
    unfold unifyResolved
    split
    · exact absurd ⟨_, _, rfl, rfl⟩ hfields
    · exact absurd ⟨_, _, rfl, rfl⟩ hdict
    · rfl
  simp only [heq]
  by_cases hassignable : eitherAssignable left right = true
  · simp only [if_pos hassignable]
    exact .aside _ (aside_pure _)
  · simp only [if_neg hassignable]
    exact follows_rules left right

end Rules

section Progress

variable (context : InferContext) (vars : Finset Nat)

/-- The variables of the given ones that are still free. -/
def free (s : InferState) : Finset Nat :=
  vars.filter fun id => (s.substitutions.lookup id).isNone = true

/-- A grounded table whose types have no other variables than the given ones. -/
structure Closed (s : InferState) : Prop where
  grounded : s.substitutions.Grounded context.debugText
  table : ∀ entry ∈ s.substitutions, ∀ id ∈ entry.2.inferenceLeaves, id ∈ vars

/-- A resolved type whose variables are among the given ones. -/
def Fits (s : InferState) (ty : TypeDescriptor) : Prop :=
  ty.Normal context.debugText fun id => s.substitutions.Free id ∧ id ∈ vars

/-- The table has not changed, or fewer of the variables are free. -/
structure Progress (s s' : InferState) : Prop where
  closed : Closed context vars s'
  step : s'.substitutions = s.substitutions ∨ (free vars s').card < (free vars s).card

variable {context} {vars} {s s' : InferState} {ty : TypeDescriptor}

theorem free_eq (h : s'.substitutions = s.substitutions) : free vars s' = free vars s := by
  rw [free, free, h]

theorem Fits.settled (h : Fits context vars s ty) :
    s.substitutions.Settled context.debugText ty :=
  Normal.mono h fun _ hid => (Normal.free_of_mem h hid).1

theorem Closed.progress (h : Closed context vars s) : Progress context vars s s := ⟨h, .inl rfl⟩

theorem Closed.aside (h : Closed context vars s) (hsame : s'.substitutions = s.substitutions) :
    Progress context vars s s' :=
  ⟨⟨hsame ▸ h.grounded, hsame ▸ h.table⟩, .inl hsame⟩

/-- To bind a free variable is progress. -/
theorem Closed.bind (h : Closed context vars s) (hty : Fits context vars s ty) {id : Nat}
    (hid : s.substitutions.Free id) (hmem : id ∈ vars) (hoccurs : id ∉ ty.inferenceLeaves)
    (hbound : s'.substitutions = (id, ty) :: s.substitutions) : Progress context vars s s' := by
  refine ⟨⟨hbound ▸ h.grounded.bind hty.settled hoccurs, ?_⟩, .inr ?_⟩
  · rw [hbound]
    intro entry hentry
    rcases List.mem_cons.mp hentry with rfl | hentry
    · exact fun leaf hleaf => (Normal.free_of_mem hty hleaf).2
    · exact h.table entry hentry
  · refine Finset.card_lt_card ⟨fun other hother => ?_, fun hsubset => ?_⟩
    · obtain ⟨hother, hfree⟩ := Finset.mem_filter.mp hother
      rw [hbound, lookup_cons_ite] at hfree
      split at hfree
      · cases hfree
      · exact Finset.mem_filter.mpr ⟨hother, hfree⟩
    · have hfree := hsubset (Finset.mem_filter.mpr ⟨hmem, Option.isNone_iff_eq_none.mpr hid⟩)
      have hnone := (Finset.mem_filter.mp hfree).2
      rw [hbound, lookup_cons_ite, if_pos rfl] at hnone
      cases hnone

theorem Progress.trans {s'' : InferState} (h : Progress context vars s s')
    (h' : Progress context vars s' s'') : Progress context vars s s'' := by
  refine ⟨h'.closed, ?_⟩
  rcases h.step with heq | hlt
  · rcases h'.step with heq' | hlt'
    · exact .inl (heq'.trans heq)
    · rw [free_eq heq] at hlt'
      exact .inr hlt'
  · rcases h'.step with heq' | hlt'
    · rw [← free_eq heq'] at hlt
      exact .inr hlt
    · exact .inr (hlt'.trans hlt)

theorem expand_fits (h : Closed context vars s) {depth id : Nat} {result : TypeDescriptor}
    (hid : id ∈ vars)
    (hexpand : s.substitutions.expand context.debugText depth id = some result) :
    Fits context vars s result := by
  induction depth generalizing id result with
  | zero => cases hexpand
  | succ depth ih =>
      rw [expand] at hexpand
      split at hexpand
      · rename_i hlookup
        exact Option.some.inj hexpand ▸ normal_inference ⟨hlookup, hid⟩
      · rename_i ty hlookup
        refine substitute_normal hexpand fun leaf hleaf _ hvalue => ih ?_ hvalue
        exact h.table _ (mem_of_lookup hlookup) leaf hleaf

theorem Closed.exists_resolve (h : Closed context vars s) (hty : ∀ id ∈ ty.inferenceLeaves, id ∈ vars) :
    ∃ resolved, s.substitutions.resolve context.debugText ty = some resolved ∧
      Fits context vars s resolved := by
  obtain ⟨resolved, hresolve⟩ := h.grounded.exists_resolve ty
  exact ⟨resolved, hresolve, substitute_normal hresolve fun id hid _ hvalue =>
    expand_fits h (hty id hid) hvalue⟩

/-- A context that runs its recursions to another depth. -/
def atDepth (context : InferContext) (depth : Nat) : InferContext := { context with depth }

theorem bindInferenceVariable_endsIn (h : Closed context vars s) (hty : Fits context vars s ty)
    {id : Nat} (hid : s.substitutions.Free id) (hmem : id ∈ vars) :
    EndsIn (fun inner _ => bindInferenceVariable (atDepth context inner) id ty) s
      (Progress context vars s) := by
  have hresolve := hty.settled.resolve_eq
  have hcases := bindInferenceVariable_cases (atDepth context (ty.depth + 1)) id hresolve
  refine ⟨bindInferenceVariable (atDepth context (ty.depth + 1)) id ty s,
    ⟨?_, ty.depth + 1, fun inner hinner _ _ => ?_⟩, ?_⟩
  · generalize bindInferenceVariable (atDepth context (ty.depth + 1)) id ty s = outcome at hcases
    cases hcases with
    | failed message s' hkeeps => simp
    | outOfDepth hdepth => exact absurd hdepth (Nat.not_succ_le_self _)
    | bound s' hoccurs hbound => simp
  · exact (bindInferenceVariable_run (atDepth context inner) hresolve
        (hty.settled.occurs_eq hinner)).trans
      (bindInferenceVariable_run (atDepth context (ty.depth + 1)) hresolve
        (hty.settled.occurs_eq (Nat.lt_succ_self _))).symm
  · generalize bindInferenceVariable (atDepth context (ty.depth + 1)) id ty s = outcome at hcases
    cases hcases with
    | failed message s' hkeeps => exact h.aside hkeeps
    | outOfDepth hdepth => exact absurd hdepth (Nat.not_succ_le_self _)
    | bound s' hoccurs hbound => exact h.bind hty hid hmem hoccurs hbound

theorem endsIn_aside {program : Infer PUnit} (h : Aside program)
    (hprogress : Progress context vars s s') :
    EndsIn (fun _ _ => program) s' (Progress context vars s) := by
  obtain ⟨hsame, hends⟩ := h s'
  exact ⟨program s', ⟨hends, 0, fun _ _ _ _ => rfl⟩, hprogress.trans (hprogress.closed.aside hsame)⟩

theorem endsIn_forM {α : Type} {body : Nat → Nat → α → Infer PUnit} {items : List α}
    (h : ∀ item ∈ items, ∀ s', Progress context vars s s' →
      EndsIn (fun inner outer => body inner outer item) s' (Progress context vars s))
    (hprogress : Progress context vars s s') :
    EndsIn (fun inner outer => items.forM (body inner outer)) s' (Progress context vars s) := by
  induction items generalizing s' with
  | nil => exact endsIn_aside (aside_pure PUnit.unit) hprogress
  | cons item rest ih =>
      refine (h item List.mem_cons_self s' hprogress).bind (fun _ hfailed => hfailed) fun _ s'' hs'' => ?_
      exact ih (fun other hmem => h other (List.mem_cons_of_mem _ hmem)) hs''

/-- What the rules do ends, when the calls on smaller types do. -/
theorem Follows.endsIn {left right : TypeDescriptor}
    {program : InferContext → (TypeDescriptor → TypeDescriptor → Infer PUnit) → Infer PUnit}
    (hfollows : Follows left right program) (hclosed : Closed context vars s)
    (hleft : Fits context vars s left) (hright : Fits context vars s right)
    {recurse : Nat → Nat → TypeDescriptor → TypeDescriptor → Infer PUnit}
    (hrecurse : ∀ a b, Smaller left right a b → ∀ s', Progress context vars s s' →
      EndsIn (fun inner outer => recurse inner outer a b) s' (Progress context vars s)) :
    EndsIn (fun inner outer => program (atDepth context inner) (recurse inner outer)) s
      (Progress context vars s) := by
  cases hfollows with
  | aside program h => exact endsIn_aside h hclosed.progress
  | bind id ty h hne =>
      have hid : Fits context vars s (.inference id) := by
        rcases h with ⟨rfl, -⟩ | ⟨-, rfl⟩
        · exact hleft
        · exact hright
      have hty : Fits context vars s ty := by
        rcases h with ⟨-, rfl⟩ | ⟨rfl, -⟩
        · exact hright
        · exact hleft
      obtain ⟨hfree, hmem⟩ := Normal.free_of_mem hid (List.mem_singleton_self id)
      exact bindInferenceVariable_endsIn hclosed hty hfree hmem
  | call a b h => exact hrecurse a b h s hclosed.progress
  | calls items a b h =>
      exact endsIn_forM (fun item hmem s' => hrecurse _ _ (h item hmem) s') hclosed.progress
  | variants pairs h =>
      refine endsIn_forM (fun pair hmem s' hprogress => ?_) hclosed.progress
      obtain ⟨⟨name, left⟩, ⟨other, right⟩⟩ := pair
      cases left with
      | none =>
          cases right with
          | none => exact endsIn_aside (aside_pure PUnit.unit) hprogress
          | some b => exact endsIn_aside (aside_fail _) hprogress
      | some a =>
          cases right with
          | none => exact endsIn_aside (aside_fail _) hprogress
          | some b => exact hrecurse a b (h _ hmem a b rfl rfl) s' hprogress
  | function pairs a b h hlast =>
      have hpairs := endsIn_forM (fun pair hmem s' => hrecurse _ _ (h pair hmem) s')
        hclosed.progress
      exact hpairs.bind (fun _ hfailed => hfailed) fun _ s' hs' => hrecurse a b hlast s' hs'

theorem unify_succ_run {left right left' right' : TypeDescriptor}
    (hleft : s.substitutions.resolve context.debugText left = some left')
    (hright : s.substitutions.resolve context.debugText right = some right') (inner outer : Nat) :
    unify (atDepth context inner) (outer + 1) left right s =
      unifyResolved (atDepth context inner) (unify (atDepth context inner) outer) left' right' s := by
  rw [unify, Discipline.bind_run, resolve_run, atDepth, hleft]
  simp only [Option.elim_some, Discipline.bind_run, resolve_run, hright]

theorem unify_endsIn (hclosed : Closed context vars s) {left right : TypeDescriptor}
    (hleft : ∀ id ∈ left.inferenceLeaves, id ∈ vars)
    (hright : ∀ id ∈ right.inferenceLeaves, id ∈ vars) :
    EndsIn (fun inner outer => unify (atDepth context inner) outer left right) s
      (Progress context vars s) := by
  -- first by the number of free variables, then by the size of the resolved types
  induction hcount : (free vars s).card using Nat.strong_induction_on generalizing s left right with
  | _ count ihCount =>
  obtain ⟨left', hresolveLeft, hfitsLeft⟩ := hclosed.exists_resolve hleft
  obtain ⟨right', hresolveRight, hfitsRight⟩ := hclosed.exists_resolve hright
  induction hsize : sizeOf left' + sizeOf right' using Nat.strong_induction_on
    generalizing s left right left' right' with
  | _ size ihSize =>
  have hrules : EndsIn (fun inner outer => unifyResolved (atDepth context inner)
      (unify (atDepth context inner) outer) left' right') s (Progress context vars s) := by
    refine (follows_resolved left' right').endsIn hclosed hfitsLeft hfitsRight
      fun a b hsmaller s' hprogress => ?_
    obtain ⟨ha, hb⟩ := hsmaller.normal hfitsLeft hfitsRight
    have haVars : ∀ id ∈ a.inferenceLeaves, id ∈ vars := fun _ h => (Normal.free_of_mem ha h).2
    have hbVars : ∀ id ∈ b.inferenceLeaves, id ∈ vars := fun _ h => (Normal.free_of_mem hb h).2
    suffices EndsIn (fun inner outer => unify (atDepth context inner) outer a b) s'
        (Progress context vars s') from this.mono fun _ h => hprogress.trans h
    rcases hprogress.step with hsame | hfewer
    · have ha' : Fits context vars s' a := by
        unfold Fits
        rw [hsame]
        exact ha
      have hb' : Fits context vars s' b := by
        unfold Fits
        rw [hsame]
        exact hb
      exact ihSize _ (hsize ▸ hsmaller.size) hprogress.closed haVars hbVars
        ((congrArg _ (free_eq hsame)).trans hcount) a ha'.settled.resolve_eq ha'
        b hb'.settled.resolve_eq hb' rfl
    · exact ihCount _ (hcount ▸ hfewer) hprogress.closed haVars hbVars rfl
  obtain ⟨outcome, ⟨hends, bound, hrun⟩, hpost⟩ := hrules
  refine ⟨outcome, ⟨hends, bound + 1, fun inner hinner outer houter => ?_⟩, hpost⟩
  obtain ⟨outer, rfl⟩ : ∃ rest, outer = rest + 1 := ⟨outer - 1, by omega⟩
  change unify (atDepth context inner) (outer + 1) left right s = outcome
  rw [unify_succ_run hresolveLeft hresolveRight]
  exact hrun inner (by omega) outer (by omega)

end Progress

/-- In every state that inference reaches, unification of any two types ends: from some depth
on, it has the same outcome and is not cut off. -/
theorem unify_terminates (context : InferContext) {s : InferState}
    (hreaches : InferenceReaches context {} s) (left right : TypeDescriptor) :
    ∃ bound outcome, outcome.1 ≠ .error .outOfDepth ∧
      ∀ depth ≥ bound, unify (atDepth context depth) depth left right s = outcome := by
  have hgrounded := (hreaches.keeps context grounded_nil).1
  have hclosed : Closed context (left.inferenceLeaves ++ right.inferenceLeaves ++
      s.substitutions.flatMap fun entry => entry.2.inferenceLeaves).toFinset s := by
    refine ⟨hgrounded, fun entry hentry id hid => ?_⟩
    exact List.mem_toFinset.mpr
      (List.mem_append_right _ (List.mem_flatMap.mpr ⟨entry, hentry, hid⟩))
  obtain ⟨outcome, ⟨hends, bound, hrun⟩, -⟩ := unify_endsIn hclosed
    (fun id hid => List.mem_toFinset.mpr
      (List.mem_append_left _ (List.mem_append_left _ hid)))
    (fun id hid => List.mem_toFinset.mpr
      (List.mem_append_left _ (List.mem_append_right _ hid)))
  exact ⟨bound, outcome, hends, fun depth hdepth => hrun depth hdepth depth hdepth⟩

theorem unify_terminates_array :
    ∃ bound outcome, outcome.1 ≠ .error .outOfDepth ∧ ∀ depth ≥ bound,
      unify (atDepth bareContext depth) depth (.inference 1) (.inference 0) arrayState = outcome :=
  unify_terminates bareContext arrayState_reached (.inference 1) (.inference 0)

end Infer

end Telora
