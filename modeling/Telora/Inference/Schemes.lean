import Telora.Inference.Runs

/-!
# Generalised types and their instances

A closure's type is generalised over the variables that inference made for it. An instance
of the scheme is the same type again, with a fresh variable for each of these and with
everything else as it was.
-/

namespace Telora

open Library TypeDescriptor

namespace Infer

variable {context : InferContext}

/-- The variables of a type numbered from the first owned one on. -/
def owned (ty : TypeDescriptor) (first : Nat) : List Nat :=
  ty.collectInferenceVariables.filter (first ≤ ·)

theorem mem_owned {ty : TypeDescriptor} {first id : Nat} :
    id ∈ owned ty first ↔ id ∈ ty.inferenceLeaves ∧ first ≤ id := by
  simp [owned, collectInferenceVariables]

/-- The owned variables renamed to the next fresh ones, in their order. -/
def renewed (ty : TypeDescriptor) (first next id : Nat) : Nat :=
  if id ∈ owned ty first then next + (owned ty first).idxOf id else id

/-- The owned variables get variables of their own. -/
theorem renewed_injOn {ty : TypeDescriptor} {first next : Nat} (h : first ≤ next) :
    Set.InjOn (renewed ty first next) {id | id ∈ ty.inferenceLeaves} := by
  intro a ha b hb heq
  have hsmall : ∀ id ∈ ty.inferenceLeaves, id ∉ owned ty first → id < first := by
    intro id hid hnot
    by_contra hle
    exact hnot (mem_owned.mpr ⟨hid, Nat.le_of_not_lt hle⟩)
  unfold renewed at heq
  split at heq
  · rename_i hmem
    split at heq
    · exact (List.idxOf_inj hmem).mp (Nat.add_left_cancel heq)
    · have := hsmall b hb ‹_›
      omega
  · have := hsmall a ha ‹_›
    split at heq
    · omega
    · exact heq

theorem lookup_zipIdx (items : List Nat) (start id : Nat) :
    (items.zipIdx start).lookup id =
      if id ∈ items then some (start + items.idxOf id) else none := by
  induction items generalizing start with
  | nil => rfl
  | cons item rest ih =>
      rw [List.zipIdx_cons, lookup_cons_ite, ih]
      by_cases heq : id = item
      · rw [if_pos heq, if_pos (heq ▸ List.mem_cons_self), heq, List.idxOf_cons_self,
          Nat.add_zero]
      · rw [if_neg heq, List.idxOf_cons_ne rest (Ne.symm heq)]
        by_cases hmem : id ∈ rest
        · rw [if_pos hmem, if_pos (List.mem_cons_of_mem _ hmem), Nat.succ_eq_add_one,
            Nat.add_right_comm, Nat.add_assoc]
        · rw [if_neg hmem, if_neg fun h => hmem ((List.mem_cons.mp h).resolve_left heq)]

theorem lookup_range' {start count offset : Nat} (next : Nat) (h : offset < count) :
    ((List.range' start count).zipIdx next).lookup (start + offset) = some (next + offset) := by
  induction count generalizing start next offset with
  | zero => cases h
  | succ count ih =>
      rw [List.range'_succ, List.zipIdx_cons, lookup_cons_ite]
      cases offset with
      | zero => exact if_pos rfl
      | succ offset =>
          rw [if_neg (by omega)]
          have hrest := @ih (start + 1) offset (next + 1) (Nat.lt_of_succ_lt_succ h)
          rwa [Nat.add_right_comm, Nat.add_right_comm next] at hrest

/-- The parameters of a type come before the first free one. -/
theorem lt_firstFreeParameter {ty : TypeDescriptor} {first id : Nat}
    (h : firstFreeParameter ty = some first) (hid : id ∈ ty.boundLeaves) : id < first := by
  have hmem : id ∈ ty.collectBoundParameters := List.mem_eraseDups.mpr hid
  unfold firstFreeParameter at h
  split at h
  · rename_i hnone
    rw [List.max?_eq_none_iff.mp hnone] at hmem
    cases hmem
  · rename_i last hlast
    split at h
    · have hle := (List.max?_eq_some_iff.mp hlast).2 id hmem
      rw [← Option.some.inj h]
      omega
    · cases h

theorem freshPairs_run (parameters : List Nat) (s : InferState) :
    freshPairs parameters s = (.ok (parameters.zipIdx s.nextVariable),
      { s with nextVariable := s.nextVariable + parameters.length }) := by
  induction parameters generalizing s with
  | nil => rfl
  | cons parameter rest ih =>
      have hrest := ih { s with nextVariable := s.nextVariable + 1 }
      have hfirst : (do return (parameter, ← freshId) : Infer (Nat × Nat)) s =
          (.ok (parameter, s.nextVariable), { s with nextVariable := s.nextVariable + 1 }) := rfl
      unfold freshPairs at hrest ⊢
      rw [List.mapM'_cons, Discipline.bind_run, hfirst]
      simp only [Discipline.bind_run, hrest, pure_run, List.zipIdx_cons, List.length_cons]
      rw [Nat.add_assoc, Nat.add_comm 1]

theorem generalization_eq_some {numericVariables : List Nat} {ty : TypeDescriptor} {first : Nat}
    {location : Loc} {scheme : TypeScheme}
    (h : generalization numericVariables ty first location = some scheme) :
    ∃ firstParameter, firstFreeParameter ty = some firstParameter ∧ owned ty first ≠ [] ∧
      scheme.parameters.map (·.id) = List.range' firstParameter (owned ty first).length ∧
      scheme.body = ty.bindInferenceVariables ((owned ty first).zipIdx firstParameter) := by
  unfold generalization at h
  simp only at h
  split at h
  · cases h
  · rename_i hguard
    obtain ⟨firstParameter, hfirst, rfl⟩ := Option.map_eq_some_iff.mp h
    refine ⟨firstParameter, hfirst, fun hempty => hguard ?_, ?_, rfl⟩
    · rw [Bool.or_eq_true]
      exact .inl (List.isEmpty_iff.mpr hempty)
    · refine List.ext_getElem (by simp [owned]) fun index hindex hindex' => ?_
      simp

/-- To generalise a closure's type and to make an instance of the scheme gives the resolved
type back, with fresh variables for those that the closure owns. -/
theorem instantiate_generalized {ty : TypeDescriptor} {first : Nat} {location : Loc}
    {s : InferState} {scheme : TypeScheme}
    (h : (generalizeLocalClosure context ty first location s).1 = .ok (some scheme))
    (later : InferState) :
    ∃ resolved, s.substitutions.resolve context.debugText ty = some resolved ∧
      (first ≤ later.nextVariable → Set.InjOn (renewed resolved first later.nextVariable)
        {id | id ∈ resolved.inferenceLeaves}) ∧
      instantiate scheme later =
        (.ok (resolved.rebuild .bound
          (fun id => .inference (renewed resolved first later.nextVariable id)) .union),
        { later with nextVariable := later.nextVariable + (owned resolved first).length }) := by
  rw [generalizeLocalClosure, Discipline.bind_run, resolve_run] at h
  cases hresolve : s.substitutions.resolve context.debugText ty with
  | none =>
      rw [hresolve] at h
      cases h
  | some resolved =>
      rw [hresolve] at h
      have hscheme : generalization s.numericVariables resolved first location = some scheme :=
        Except.ok.inj h
      obtain ⟨firstParameter, hfirst, howned, hparameters, hbody⟩ := generalization_eq_some hscheme
      refine ⟨resolved, rfl, renewed_injOn, ?_⟩
      have hnonempty : scheme.parameters ≠ [] := by
        intro hempty
        rw [hempty] at hparameters
        have hlength := congrArg List.length hparameters
        rw [List.length_range'] at hlength
        exact howned (List.length_eq_zero_iff.mp hlength.symm)
      have htype : scheme.body.instantiateWith
          ((List.range' firstParameter (owned resolved first).length).zipIdx later.nextVariable) =
            resolved.rebuild .bound
              (fun id => .inference (renewed resolved first later.nextVariable id)) .union := by
        rw [hbody, instantiateWith, bindInferenceVariables, rebuild_rebuild]
        refine rebuild_congr (fun id hid => ?_) fun id hid => ?_
        · have hlt := lt_firstFreeParameter hfirst hid
          rw [rebuild, lookup_zipIdx, if_neg fun hmem => ?_]
          · rfl
          · have := (List.mem_range'_1.mp hmem).1
            omega
        · rw [lookup_zipIdx, renewed]
          by_cases hmem : id ∈ owned resolved first
          · rw [if_pos hmem, if_pos hmem, Option.elim_some, rebuild,
              lookup_range' _ (List.idxOf_lt_length_iff.mpr hmem), Option.elim_some]
          · rw [if_neg hmem, if_neg hmem, Option.elim_none, rebuild]
      rw [instantiate, Discipline.bind_run, if_neg hnonempty, hparameters, freshPairs_run]
      simp only [pure_run, List.length_range', htype]

/-- The type of a closure that returns its argument. -/
def identityType : TypeDescriptor := .function [.inference 0] (.inference 0)

def identityScheme : TypeScheme := ⟨[⟨0, "A", ⟨0, 0, 0⟩⟩], .function [.bound 0] (.bound 0)⟩

theorem instantiate_generalized_identity :
    (instantiate identityScheme { nextVariable := 3 }).1 =
      .ok (identityType.rebuild .bound (fun id => .inference (renewed identityType 0 3 id))
        .union) := by
  have hgeneralized : (generalizeLocalClosure bareContext identityType 0 ⟨0, 0, 0⟩
      { nextVariable := 1 }).1 = .ok (some identityScheme) := rfl
  obtain ⟨resolved, hresolve, -, hinstance⟩ :=
    instantiate_generalized hgeneralized { nextVariable := 3 }
  have hresolved : identityType = resolved := Option.some.inj hresolve
  subst hresolved
  exact congrArg Prod.fst hinstance

end Infer

end Telora
