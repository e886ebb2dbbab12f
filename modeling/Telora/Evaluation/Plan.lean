import Mathlib.Logic.Relation
import Telora.Value.Basic

/-!
# Evaluation plans

A plan lists the units of a module in source order. A unit depends on earlier units only,
named once each and in order, and the last unit is the one module result.
-/

namespace Telora

inductive FailureOperation where
  | unary
  | binary
  | field
  | index
  | call
  | nativeCall
  | condition
  | match_
  | array
  | tuple
  | tagged
  | dict
  | interpolation
  | binding
  | moduleResult
  | other
  deriving DecidableEq, Repr

abbrev EvaluationUnitId := Nat

inductive EvaluationUnitKind where
  | binding
  | definitionGroup
  | containerChild
  | moduleResult
  | metadata
  deriving DecidableEq, Repr

def EvaluationUnitKind.failureOperation : EvaluationUnitKind → FailureOperation
  | binding | definitionGroup | metadata => .binding
  | containerChild => .other
  | moduleResult => .moduleResult

structure EvaluationUnit where
  id : EvaluationUnitId
  kind : EvaluationUnitKind
  location : Loc
  dependencies : List EvaluationUnitId
  deriving DecidableEq, Repr

inductive EvaluationPlanError where
  | empty
  | nonSequentialId
  | dependencyNotPrior
  | duplicateDependency
  | dependencyNotOrdered
  | missingModuleResult
  | multipleModuleResults
  | moduleResultNotLast
  deriving DecidableEq, Repr

namespace EvaluationPlan

/-- The dependencies of the unit at an index, after the one checked before them. -/
def checkDependencies (index : Nat) :
    Option EvaluationUnitId → List EvaluationUnitId → Except EvaluationPlanError Unit
  | _, [] => .ok ()
  | none, dependency :: rest =>
      if index ≤ dependency then .error .dependencyNotPrior
      else checkDependencies index (some dependency) rest
  | some previous, dependency :: rest =>
      if index ≤ dependency then .error .dependencyNotPrior
      else if previous = dependency then .error .duplicateDependency
      else if dependency < previous then .error .dependencyNotOrdered
      else checkDependencies index (some dependency) rest

/-- Check the units from an index on; the answer is the index of the module result. -/
def checkUnits (index : Nat) (moduleResult : Option Nat) :
    List EvaluationUnit → Except EvaluationPlanError (Option Nat)
  | [] => .ok moduleResult
  | unit :: rest =>
      if unit.id ≠ index then .error .nonSequentialId
      else
        match checkDependencies index none unit.dependencies with
        | .error error => .error error
        | .ok () =>
            if unit.kind = .moduleResult then
              if moduleResult.isSome then .error .multipleModuleResults
              else checkUnits (index + 1) (some index) rest
            else checkUnits (index + 1) moduleResult rest

def validate (units : List EvaluationUnit) : Except EvaluationPlanError Unit :=
  if units = [] then .error .empty
  else
    match checkUnits 0 none units with
    | .error error => .error error
    | .ok none => .error .missingModuleResult
    | .ok (some moduleResult) =>
        if moduleResult + 1 ≠ units.length then .error .moduleResultNotLast else .ok ()

end EvaluationPlan

/-- The units of a module, each in the place its id says and after what it depends on. -/
structure EvaluationPlan where
  units : List EvaluationUnit
  idsSequential : ∀ index (unit : EvaluationUnit), units[index]? = some unit → unit.id = index
  dependenciesPrior : ∀ unit ∈ units, ∀ dependency ∈ unit.dependencies, dependency < unit.id
  dependenciesOrdered : ∀ unit ∈ units, unit.dependencies.Pairwise (· < ·)
  endsWithResult : ∃ first last, units = first ++ [last] ∧ last.kind = .moduleResult ∧
    ∀ unit ∈ first, unit.kind ≠ .moduleResult

namespace EvaluationPlan

theorem prior_of_checkDependencies {index : Nat} {previous : Option EvaluationUnitId}
    {dependencies : List EvaluationUnitId}
    (h : checkDependencies index previous dependencies = .ok ()) :
    (∀ dependency ∈ dependencies, dependency < index) ∧
      (previous.toList ++ dependencies).Pairwise (· < ·) := by
  induction dependencies generalizing previous with
  | nil => cases previous <;> simp
  | cons dependency rest ih =>
      cases previous with
      | none =>
          simp only [checkDependencies] at h
          split at h
          · cases h
          · rename_i hprior
            obtain ⟨hrest, hordered⟩ := ih h
            exact ⟨List.forall_mem_cons.mpr ⟨Nat.lt_of_not_le hprior, hrest⟩, hordered⟩
      | some previous =>
          simp only [checkDependencies] at h
          split at h
          · cases h
          · rename_i hprior
            split at h
            · cases h
            · rename_i hduplicate
              split at h
              · cases h
              · rename_i hordered'
                obtain ⟨hrest, hordered⟩ := ih h
                refine ⟨List.forall_mem_cons.mpr ⟨Nat.lt_of_not_le hprior, hrest⟩, ?_⟩
                have hless : previous < dependency :=
                  Nat.lt_of_le_of_ne (Nat.le_of_not_lt hordered') hduplicate
                have hafter := (List.pairwise_cons.mp hordered).1
                exact List.pairwise_cons.mpr ⟨List.forall_mem_cons.mpr
                  ⟨hless, fun later hlater => Nat.lt_trans hless (hafter later hlater)⟩, hordered⟩

/-- What the checks of the units from an index on establish. -/
structure Checked (index : Nat) (units : List EvaluationUnit) : Prop where
  ids : ∀ offset unit, units[offset]? = some unit → unit.id = index + offset
  prior : ∀ unit ∈ units, ∀ dependency ∈ unit.dependencies, dependency < unit.id
  ordered : ∀ unit ∈ units, unit.dependencies.Pairwise (· < ·)

theorem Checked.cons {index : Nat} {unit : EvaluationUnit} {rest : List EvaluationUnit}
    (hid : unit.id = index) (hdependencies : checkDependencies index none unit.dependencies = .ok ())
    (hrest : Checked (index + 1) rest) : Checked index (unit :: rest) where
  ids
    | 0, first, h => by simpa [hid] using congrArg EvaluationUnit.id (Option.some.inj h.symm)
    | offset + 1, later, h => by
        have := hrest.ids offset later h
        omega
  prior := List.forall_mem_cons.mpr
    ⟨hid ▸ (prior_of_checkDependencies hdependencies).1, hrest.prior⟩
  ordered := List.forall_mem_cons.mpr
    ⟨(prior_of_checkDependencies hdependencies).2, hrest.ordered⟩

theorem checked_of_checkUnits {units : List EvaluationUnit} {index : Nat}
    {found : Option Nat} {result : Option Nat} (h : checkUnits index found units = .ok result) :
    Checked index units := by
  induction units generalizing index found with
  | nil => exact ⟨by simp, by simp, by simp⟩
  | cons unit rest ih =>
      rw [checkUnits] at h
      split at h
      · cases h
      · rename_i hid
        split at h
        · cases h
        · rename_i hdependencies
          refine .cons (not_not.mp hid) hdependencies ?_
          split at h
          · split at h
            · cases h
            · exact ih h
          · exact ih h

/-- The module result is the only unit of its kind, and it is where the check found it. -/
theorem result_of_checkUnits {units : List EvaluationUnit} {index : Nat}
    {found : Option Nat} {result : Option Nat} (h : checkUnits index found units = .ok result) :
    (∃ place, found = some place ∧ result = some place ∧ ∀ unit ∈ units, unit.kind ≠ .moduleResult) ∨
    found = none ∧ ((result = none ∧ ∀ unit ∈ units, unit.kind ≠ .moduleResult) ∨
      ∃ before unit after, units = before ++ unit :: after ∧ unit.kind = .moduleResult ∧
        result = some (index + before.length) ∧
        ∀ other ∈ before ++ after, other.kind ≠ .moduleResult) := by
  induction units generalizing index found with
  | nil =>
      simp only [checkUnits, Except.ok.injEq] at h
      cases found <;> simp [← h]
  | cons unit rest ih =>
      rw [checkUnits] at h
      split at h
      · cases h
      · split at h
        · cases h
        · split at h
          · rename_i hkind
            split at h
            · cases h
            · rename_i hnone
              rcases ih h with ⟨place, hplace, hresult, hothers⟩ | ⟨hfalse, _⟩
              · refine .inr ⟨by simpa using hnone, .inr ⟨[], unit, rest, rfl, hkind, ?_, ?_⟩⟩
                · simpa using hresult.trans hplace.symm
                · simpa using hothers
              · cases hfalse
          · rename_i hkind
            rcases ih h with ⟨place, hplace, hresult, hothers⟩ | ⟨hnone, hfound⟩
            · exact .inl ⟨place, hplace, hresult, List.forall_mem_cons.mpr ⟨hkind, hothers⟩⟩
            · refine .inr ⟨hnone, ?_⟩
              rcases hfound with ⟨hresult, hothers⟩ |
                ⟨before, found, after, rfl, hfound, hresult, hothers⟩
              · exact .inl ⟨hresult, List.forall_mem_cons.mpr ⟨hkind, hothers⟩⟩
              · refine .inr ⟨unit :: before, found, after, rfl, hfound, ?_, ?_⟩
                · rw [hresult, List.length_cons]
                  congr 1
                  omega
                · exact List.forall_mem_cons.mpr ⟨hkind, hothers⟩

theorem result_of_validate {units : List EvaluationUnit} (h : validate units = .ok ()) :
    Checked 0 units ∧ ∃ first last, units = first ++ [last] ∧ last.kind = .moduleResult ∧
      ∀ unit ∈ first, unit.kind ≠ .moduleResult := by
  rw [validate] at h
  split at h
  · cases h
  · split at h
    · cases h
    · cases h
    · rename_i place hplace
      split at h
      · cases h
      · rename_i hlast
        refine ⟨checked_of_checkUnits hplace, ?_⟩
        rcases result_of_checkUnits hplace with ⟨_, hnone, _⟩ | ⟨_, ⟨hnone, _⟩ | hfound⟩
        · cases hnone
        · cases hnone
        · obtain ⟨before, unit, after, rfl, hkind, hresult, hothers⟩ := hfound
          have hafter : after.length = 0 := by
            simp only [Option.some.injEq, List.length_append, List.length_cons, not_not] at hresult hlast
            omega
          obtain rfl := List.eq_nil_of_length_eq_zero hafter
          exact ⟨before, unit, rfl, hkind, by simpa using hothers⟩

theorem checkDependencies_of_prior {index : Nat} {previous : Option EvaluationUnitId}
    {dependencies : List EvaluationUnitId}
    (hprior : ∀ dependency ∈ dependencies, dependency < index)
    (hordered : (previous.toList ++ dependencies).Pairwise (· < ·)) :
    checkDependencies index previous dependencies = .ok () := by
  induction dependencies generalizing previous with
  | nil => cases previous <;> rfl
  | cons dependency rest ih =>
      obtain ⟨hless, hrest⟩ := List.forall_mem_cons.mp hprior
      cases previous with
      | none =>
          rw [checkDependencies, if_neg (Nat.not_le.mpr hless)]
          exact ih hrest hordered
      | some previous =>
          obtain ⟨hafter, htail⟩ := List.pairwise_cons.mp hordered
          have hstep := hafter dependency List.mem_cons_self
          rw [checkDependencies, if_neg (Nat.not_le.mpr hless), if_neg (Nat.ne_of_lt hstep),
            if_neg (Nat.lt_asymm hstep)]
          exact ih hrest htail

theorem Checked.uncons {index : Nat} {unit : EvaluationUnit} {rest : List EvaluationUnit}
    (h : Checked index (unit :: rest)) :
    unit.id = index ∧ checkDependencies index none unit.dependencies = .ok () ∧
      Checked (index + 1) rest := by
  have hid : unit.id = index := h.ids 0 unit rfl
  obtain ⟨hprior, hpriorRest⟩ := List.forall_mem_cons.mp h.prior
  obtain ⟨hordered, horderedRest⟩ := List.forall_mem_cons.mp h.ordered
  refine ⟨hid, checkDependencies_of_prior (hid ▸ hprior) hordered, ?_, hpriorRest, horderedRest⟩
  intro offset later hlater
  rw [h.ids (offset + 1) later hlater, Nat.add_assoc, Nat.add_comm 1]

theorem checkUnits_append_result {first : List EvaluationUnit} {last : EvaluationUnit} {index : Nat}
    (h : Checked index (first ++ [last])) (hlast : last.kind = .moduleResult)
    (hfirst : ∀ unit ∈ first, unit.kind ≠ .moduleResult) :
    checkUnits index none (first ++ [last]) = .ok (some (index + first.length)) := by
  induction first generalizing index with
  | nil =>
      obtain ⟨hid, hdependencies, -⟩ := h.uncons
      rw [List.nil_append, checkUnits, if_neg (not_not.mpr hid), hdependencies]
      simp [hlast, checkUnits]
  | cons unit rest ih =>
      obtain ⟨hid, hdependencies, hrest⟩ := h.uncons
      obtain ⟨hkind, hothers⟩ := List.forall_mem_cons.mp hfirst
      rw [List.cons_append, checkUnits, if_neg (not_not.mpr hid), hdependencies]
      simp only [if_neg hkind]
      rw [ih hrest hothers, List.length_cons]
      congr 2
      omega

/-- The units of a plan are accepted exactly when each stands in the place of its id, after
what it depends on, once each and in order, and the one module result stands last. -/
theorem validate_plan_iff (units : List EvaluationUnit) :
    validate units = .ok () ↔
      (∀ index (unit : EvaluationUnit), units[index]? = some unit → unit.id = index ∧
        (∀ dependency ∈ unit.dependencies, dependency < index) ∧
        unit.dependencies.Pairwise (· < ·)) ∧
      ∃ first last, units = first ++ [last] ∧ last.kind = .moduleResult ∧
        ∀ unit ∈ first, unit.kind ≠ .moduleResult := by
  constructor
  · intro h
    obtain ⟨hchecked, hresult⟩ := result_of_validate h
    refine ⟨fun index unit hunit => ?_, hresult⟩
    have hid : unit.id = index := (hchecked.ids index unit hunit).trans (Nat.zero_add index)
    have hmem := List.mem_of_getElem? hunit
    exact ⟨hid, hid ▸ hchecked.prior unit hmem, hchecked.ordered unit hmem⟩
  · rintro ⟨hunits, first, last, rfl, hlast, hfirst⟩
    have hchecked : Checked 0 (first ++ [last]) := by
      refine ⟨fun offset unit hunit => ?_, fun unit hmem => ?_, fun unit hmem => ?_⟩
      · rw [(hunits offset unit hunit).1, Nat.zero_add]
      · obtain ⟨index, hindex⟩ := List.mem_iff_getElem?.mp hmem
        obtain ⟨hid, hprior, -⟩ := hunits index unit hindex
        exact hid ▸ hprior
      · obtain ⟨index, hindex⟩ := List.mem_iff_getElem?.mp hmem
        exact (hunits index unit hindex).2.2
    rw [validate, if_neg (by simp), checkUnits_append_result hchecked hlast hfirst]
    simp

/-- A plan of the units, when they pass the checks. -/
def new (units : List EvaluationUnit) : Except EvaluationPlanError EvaluationPlan :=
  match h : validate units with
  | .error error => .error error
  | .ok () => .ok
      { units
        idsSequential := fun index unit hunit => by
          simpa using (result_of_validate h).1.ids index unit hunit
        dependenciesPrior := (result_of_validate h).1.prior
        dependenciesOrdered := (result_of_validate h).1.ordered
        endsWithResult := (result_of_validate h).2 }

theorem getElem?_id (plan : EvaluationPlan) {unit : EvaluationUnit} (h : unit ∈ plan.units) :
    plan.units[unit.id]? = some unit := by
  obtain ⟨index, hindex⟩ := List.mem_iff_getElem?.mp h
  rw [plan.idsSequential index unit hindex, hindex]

/-- The id of a unit is its own. -/
theorem unit_unique (plan : EvaluationPlan) {unit unit' : EvaluationUnit} (h : unit ∈ plan.units)
    (h' : unit' ∈ plan.units) (hid : unit.id = unit'.id) : unit = unit' := by
  have hsame := plan.getElem?_id h
  rw [hid, plan.getElem?_id h'] at hsame
  exact (Option.some.inj hsame).symm

/-- A unit depends on another directly. -/
def DependsOn (plan : EvaluationPlan) (dependent dependency : EvaluationUnitId) : Prop :=
  ∃ unit ∈ plan.units, unit.id = dependent ∧ dependency ∈ unit.dependencies

/-- The unit itself, or one that it depends on directly or transitively. -/
def Involves (plan : EvaluationPlan) : EvaluationUnitId → EvaluationUnitId → Prop :=
  Relation.ReflTransGen plan.DependsOn

end EvaluationPlan

end Telora
