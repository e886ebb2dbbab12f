import Telora.Evaluation.Lineage

/-!
# Best-effort runs against their plan

A run that is not stopped by its host leaves every unit settled. Without a failure it is a
strict evaluation; with one it has no output. The lineage of a failed unit ends in a failure
of that unit or of one it involves, unless it goes through the shared truncated node: then
it ends in a failure that the unit truncated first involves.
-/

namespace Telora.BestEffortSession

variable {σ V R : Type} {plan : EvaluationPlan} {host : Host σ V R} {maxRootFailures : Nat}
  {session session' final : BestEffortSession V R} {s s' s'' : σ}
  {calls calls' added : List (UnitCall V R)} {unit : EvaluationUnit} {rest : List EvaluationUnit}
  {limits : FailureLimits}

/-- A session that has come to the rest of the units. -/
structure Underway (plan : EvaluationPlan) (session : BestEffortSession V R)
    (calls : List (UnitCall V R)) (rest : List EvaluationUnit) : Prop where
  accounted : Accounted plan session calls
  units : ∃ past, plan.units = past ++ rest ∧ past.length = session.states.length
  limit : 1 ≤ session.arena.limits.maxCausesPerNode
  going : session.rootBudgetExhausted = false

theorem Step.states_length (h : Step host maxRootFailures unit session s added session' s') :
    session'.states.length = session.states.length + 1 := by
  cases h <;> exact List.length_append

theorem Step.exhausted_eq (h : Step host maxRootFailures unit session s added session' s') :
    session'.rootBudgetExhausted = session.rootBudgetExhausted := by
  cases h <;> rfl

theorem underway_new {limits : FailureLimits} (h : 1 ≤ limits.maxCausesPerNode) :
    Underway plan (new limits : BestEffortSession V R) [] plan.units where
  accounted := ⟨FailureArena.wellKept_new limits, by simp [new], by simp, .nil, by simp [new],
    by simp [new, FailureArena.new]⟩
  units := ⟨[], rfl, rfl⟩
  limit := h
  going := rfl

namespace Underway

theorem unit_mem (h : Underway plan session calls (unit :: rest)) :
    unit ∈ plan.units ∧ unit.id = session.states.length := by
  obtain ⟨past, hunits, hlength⟩ := h.units
  constructor
  · rw [hunits]
    exact List.mem_append_right _ List.mem_cons_self
  · refine plan.idsSequential _ unit ?_
    rw [hunits, ← hlength, List.getElem?_append_right (Nat.le_refl _), Nat.sub_self,
      List.getElem?_cons_zero]

theorem step (h : Underway plan session calls (unit :: rest))
    (hstep : Step host maxRootFailures unit session s added session' s') :
    Underway plan session' (calls ++ added) rest := by
  obtain ⟨hunit, hid⟩ := h.unit_mem
  obtain ⟨hgrows, haccounted⟩ := hstep.accounted hunit hid h.limit h.accounted
  obtain ⟨past, hunits, hlength⟩ := h.units
  refine ⟨haccounted, ⟨past ++ [unit], by simp [hunits], ?_⟩, ?_, ?_⟩
  · rw [hstep.states_length, List.length_append, hlength, List.length_singleton]
  · rw [hgrows.arena.limits]
    exact h.limit
  · rw [hstep.exhausted_eq, h.going]

/-- The dependencies of the next unit are behind it, so none of them is pending. -/
theorem dependencies (h : Underway plan session calls (unit :: rest)) :
    ∃ values failed, session.dependencyOutcomes unit.dependencies = some (values, failed) := by
  obtain ⟨hunit, hid⟩ := h.unit_mem
  refine dependencyOutcomes_total fun dependency hdependency => ?_
  have hbound := plan.dependenciesPrior unit hunit dependency hdependency
  rw [hid] at hbound
  refine ⟨_, List.getElem?_eq_getElem hbound, fun hpending => ?_⟩
  have hsettled := h.accounted.settled dependency _ (List.getElem?_eq_getElem hbound)
  rw [hpending] at hsettled
  cases hsettled with
  | skipped hexhausted => cases h.going.symm.trans hexhausted

/-- The loop never meets a failed assertion. -/
theorem runUnits_total (h : Underway plan session calls rest) (host : Host σ V R)
    (unitCount maxRootFailures : Nat) (s : σ) :
    ∃ outcome, runUnits host unitCount maxRootFailures rest session s = some outcome ∧
      ∀ final s', outcome = .ok (final, s') →
        ∃ added, Ran host unitCount maxRootFailures rest session s added final s' := by
  induction rest generalizing session s calls with
  | nil =>
      refine ⟨_, rfl, fun final s' hfinal => ?_⟩
      cases hfinal
      exact ⟨[], .done⟩
  | cons unit rest ih =>
      obtain ⟨values, failed, hdependencies⟩ := h.dependencies
      have hpropagate : ∀ cause causes, failed = cause :: causes → ∃ id arena,
          session.arena.propagateCauses unit.kind.failureOperation (some unit.location)
            (cause :: causes) = some (id, arena) := by
        intro cause causes _
        obtain ⟨id, arena, hnode, _⟩ := h.accounted.arena.propagateCauses h.limit
          unit.kind.failureOperation (some unit.location) cause causes
        exact ⟨id, arena, hnode⟩
      rcases runUnits_cons host unitCount maxRootFailures s rest hdependencies hpropagate with
        ⟨failure, hrun⟩ | ⟨s', hrun, hran⟩ | ⟨added, session', s', hstep⟩
      · exact ⟨_, hrun, nofun⟩
      · refine ⟨_, hrun, fun final s'' hfinal => ?_⟩
        cases hfinal
        exact ⟨[], hran⟩
      · obtain ⟨outcome, hrun, hran⟩ := ih (h.step hstep) s'
        rw [hstep.runUnits_eq, hrun]
        refine ⟨outcome, rfl, fun final s'' hfinal => ?_⟩
        obtain ⟨later, hlater⟩ := hran final s'' hfinal
        exact ⟨added ++ later, .step hstep hlater⟩

end Underway

/-- A run over the rest of the units settles every unit of the plan. -/
theorem Ran.accounted (h : Ran host plan.units.length maxRootFailures rest session s added final s')
    (hunderway : Underway plan session calls rest) :
    Accounted plan final (calls ++ added) ∧ final.states.length = plan.units.length := by
  induction h generalizing calls with
  | done =>
      obtain ⟨past, hunits, hlength⟩ := hunderway.units
      rw [List.append_nil] at hunits ⊢
      exact ⟨hunderway.accounted, by rw [hunits, hlength]⟩
  | exhausted =>
      rw [List.append_nil]
      refine ⟨hunderway.accounted.exhaust _, ?_⟩
      obtain ⟨past, hunits, hlength⟩ := hunderway.units
      rw [exhaust, List.length_append, List.length_replicate, hunits, List.length_append]
      omega
  | step hstep _ ih =>
      rw [← List.append_assoc]
      exact ih (hunderway.step hstep)

theorem dependencyOutcomes_of_values {values : List V}
    (h : session.states = values.map .value) (dependencies : List EvaluationUnitId) :
    session.dependencyOutcomes dependencies =
      (dependencies.mapM fun dependency => values[dependency]?).map fun arguments =>
        (arguments, []) := by
  induction dependencies with
  | nil => rfl
  | cons dependency rest ih =>
      rw [dependencyOutcomes, ih, h, List.getElem?_map, List.mapM_cons]
      cases values[dependency]? with
      | none => rfl
      | some value =>
          cases rest.mapM fun dependency => values[dependency]? <;> rfl

theorem Ran.rootFailures_grow {unitCount : Nat}
    (h : Ran host unitCount maxRootFailures rest session s added final s')
    (hroots : session.rootFailures ≠ []) : final.rootFailures ≠ [] := by
  induction h with
  | done => exact hroots
  | exhausted => exact hroots
  | step hstep _ ih =>
      refine ih ?_
      cases hstep with
      | blocked => exact hroots
      | succeeded => exact hroots
      | failed => exact List.append_ne_nil_of_left_ne_nil hroots _

/-- A run that finds no failure is a strict evaluation. -/
theorem Ran.strict {unitCount : Nat}
    (h : Ran host unitCount maxRootFailures rest session s added final s') (values : List V)
    (hvalues : session.states = values.map .value) (hroots : final.rootFailures = [])
    (hbudget : final.rootBudgetExhausted = false) :
    ∃ values', strictUnits host rest values s = some (.ok (values', s')) ∧
      final.states = values'.map .value := by
  induction h generalizing values with
  | done => exact ⟨values, rfl, hvalues⟩
  | exhausted => cases hbudget
  | step hstep hran ih =>
      cases hstep with
      | blocked _ hdependencies _ =>
          rw [dependencyOutcomes_of_values hvalues] at hdependencies
          obtain ⟨_, _, hnone⟩ := Option.map_eq_some_iff.mp hdependencies
          cases (Prod.mk.inj hnone).2
      | succeeded hcheckpoint hdependencies _ hexecute =>
          rename_i value _
          rw [dependencyOutcomes_of_values hvalues] at hdependencies
          obtain ⟨_, harguments, hsame⟩ := Option.map_eq_some_iff.mp hdependencies
          obtain rfl := (Prod.mk.inj hsame).1
          obtain ⟨values', hstrict, hfinal⟩ := ih (values ++ [value])
            (by rw [pushState, hvalues, List.map_append]; rfl) hroots hbudget
          refine ⟨values', ?_, hfinal⟩
          rw [strictUnits, hcheckpoint]
          simp only [harguments, hexecute, hstrict]
      | failed =>
          refine absurd hroots (hran.rootFailures_grow ?_)
          exact List.append_ne_nil_of_right_ne_nil _ (by simp)

/-- A root failure shown for a unit after some steps of its lineage is a true cause: the
failure of the unit or of one it involves. Behind a truncation it is a true cause of the
unit that was truncated first. -/
def TrueCause (plan : EvaluationPlan) (session : BestEffortSession V R)
    (calls : List (UnitCall V R)) (id : EvaluationUnitId) (before : List (LineageStep R))
    (root : R) : Prop :=
  (∃ cause, plan.Involves id cause ∧ FailedWith calls cause root) ∨
    (.truncated ∈ before ∧ ∃ first cause, session.FirstTruncated first ∧
      plan.Involves first cause ∧ FailedWith calls cause root)

theorem TrueCause.blocked {id dependency : EvaluationUnitId} {before : List (LineageStep R)}
    {root : R} (h : TrueCause plan session calls dependency before root)
    (hdepends : plan.DependsOn id dependency) (step : LineageStep R) :
    TrueCause plan session calls id (step :: before) root := by
  rcases h with ⟨cause, hinvolves, hfailed⟩ | ⟨htruncated, hfirst⟩
  · exact .inl ⟨cause, hinvolves.head hdepends, hfailed⟩
  · exact .inr ⟨List.mem_cons_of_mem _ htruncated, hfirst⟩

theorem TrueCause.truncated {first dependency : EvaluationUnitId}
    {before : List (LineageStep R)} {root : R}
    (h : TrueCause plan session calls dependency before root)
    (hfirst : session.FirstTruncated first) (hdepends : plan.DependsOn first dependency)
    (id : EvaluationUnitId) : TrueCause plan session calls id (.truncated :: before) root := by
  rcases h with ⟨cause, hinvolves, hfailed⟩ | ⟨_, htruncated⟩
  · exact .inr ⟨List.mem_cons_self, first, cause, hfirst, hinvolves.head hdepends, hfailed⟩
  · exact .inr ⟨List.mem_cons_self, htruncated⟩

theorem Accounted.lineageFrom (h : Accounted plan session calls) {depth : Nat}
    {id : EvaluationUnitId} {failure : FailureId}
    (hstate : session.states[id]? = some (.never failure)) {before after : List (LineageStep R)}
    {root : R}
    (hshown : session.arena.lineageFrom depth failure = before ++ .root root :: after) :
    TrueCause plan session calls id before root := by
  induction depth generalizing id failure before with
  | zero =>
      cases before with
      | nil => cases hshown
      | cons _ rest => cases rest <;> cases hshown
  | succ depth ih =>
      rw [FailureArena.lineageFrom] at hshown
      cases h.settled _ _ hstate with
      | never hexplained _ =>
          cases hexplained with
          | failed hnode hfailed =>
              rw [hnode] at hshown
              cases before with
              | nil =>
                  cases hshown
                  exact .inl ⟨id, .refl, hfailed⟩
              | cons _ rest => cases rest <;> cases hshown
          | blocked hnode hdepends hdependency =>
              rw [hnode] at hshown
              cases before with
              | nil => cases hshown
              | cons step rest =>
                  exact (ih hdependency (List.cons.inj hshown).2).blocked hdepends step
          | truncated htruncated =>
              obtain ⟨first, dependency, cause, others, hfirst, hnode, hdepends, hdependency⟩ :=
                h.truncated failure htruncated
              rw [hnode] at hshown
              cases before with
              | nil => cases hshown
              | cons step rest =>
                  obtain ⟨rfl, hrest⟩ := List.cons.inj hshown
                  exact (ih hdependency hrest).truncated hfirst hdepends id

/-- The units were executed as their plan says, and the output is that of strict evaluation. -/
structure FollowsPlan (plan : EvaluationPlan) (host : Host σ V R) (s s' : σ)
    (session : BestEffortSession V R) (calls : List (UnitCall V R)) : Prop where
  settled : session.states.length = plan.units.length
  skipped : ∀ id : EvaluationUnitId, session.states[id]? = some .pending →
    session.rootBudgetExhausted = true
  values : ∀ unit ∈ plan.units, ∀ value,
    session.states[unit.id]? = some (.value value) ↔
      (∀ dependency ∈ unit.dependencies, ∃ found, session.value? dependency = some found) ∧
        ∃ call ∈ calls, call.unit = unit.id ∧ call.outcome = .ok value
  executed : ∀ unit ∈ plan.units, session.states[unit.id]? ≠ some .pending →
    ((∃ call ∈ calls, call.unit = unit.id) ↔
      ∀ dependency ∈ unit.dependencies, ∃ found, session.value? dependency = some found)
  once : (calls.map UnitCall.unit).Nodup
  arguments : ∀ call ∈ calls, ∃ unit ∈ plan.units, unit.id = call.unit ∧
    unit.dependencies.map session.value? = call.arguments.map some
  clean : session.rootBudgetExhausted = false →
    (∀ call ∈ calls, ∃ value, call.outcome = .ok value) →
      session.output.isSome ∧ strictRun plan host s = some (.ok (session.output, s'))
  failing : (∃ call ∈ calls, ∃ failure, call.outcome = .error failure) → session.output = none

theorem CallAccounted.dependency_values {call : UnitCall V R}
    (h : CallAccounted plan session call) (hunit : unit ∈ plan.units) (hid : call.unit = unit.id) :
    ∀ dependency ∈ unit.dependencies, ∃ found, session.value? dependency = some found := by
  obtain ⟨unit', hunit', hid', harguments⟩ := h.arguments
  obtain rfl := plan.unit_unique hunit hunit' (hid.symm.trans hid'.symm)
  intro dependency hdependency
  have hvalue := List.mem_map_of_mem (f := session.value?) hdependency
  rw [harguments] at hvalue
  obtain ⟨found, _, hfound⟩ := List.mem_map.mp hvalue
  exact ⟨found, hfound.symm⟩

theorem Accounted.executed_iff (h : Accounted plan session calls)
    (hlength : session.states.length = plan.units.length) (hunit : unit ∈ plan.units)
    (hpending : session.states[unit.id]? ≠ some .pending) :
    (∃ call ∈ calls, call.unit = unit.id) ↔
      ∀ dependency ∈ unit.dependencies, ∃ found, session.value? dependency = some found := by
  constructor
  · rintro ⟨call, hcall, hid⟩
    exact (h.executed call hcall).dependency_values hunit hid
  · intro hdependencies
    have hbound : unit.id < session.states.length := by
      rw [hlength]
      exact (List.getElem?_eq_some_iff.mp (plan.getElem?_id hunit)).1
    have hstate := List.getElem?_eq_getElem hbound
    rw [hstate] at hpending
    have hsettled := h.settled unit.id _ hstate
    generalize session.states[unit.id] = state at hstate hpending hsettled
    cases hsettled with
    | value hcall =>
        obtain ⟨call, hcall, hid, _⟩ := hcall
        exact ⟨call, hcall, hid⟩
    | never _ hwhy =>
        rcases hwhy with hcall | ⟨dependency, ⟨unit', hunit', hid, hdependency⟩, blocking, hnever⟩
        · exact hcall
        · obtain rfl := plan.unit_unique hunit hunit' hid.symm
          obtain ⟨found, hfound⟩ := hdependencies dependency hdependency
          cases hnever.symm.trans (value?_eq_some.mp hfound)
    | skipped => exact absurd rfl hpending

/-- A session whose states are all values has the value of the last unit as its output. -/
theorem output_of_values {values : List V} (hvalues : session.states = values.map .value)
    (hroots : session.rootFailures = []) (hbudget : session.rootBudgetExhausted = false) :
    session.output = values.getLast? := by
  rw [output, if_neg (by simp [hroots, hbudget]), hvalues, List.getLast?_map]
  cases values.getLast? <;> rfl

theorem followsPlan (haccounted : Accounted plan session calls)
    (hlength : session.states.length = plan.units.length)
    (hran : Ran host plan.units.length maxRootFailures plan.units (.new limits) s calls session s')
    (hcheckpoint : host.checkpoint s' = .ok s'') :
    FollowsPlan plan host s s'' session calls where
  settled := hlength
  skipped id hpending := by
    cases haccounted.settled id _ hpending with
    | skipped hexhausted => exact hexhausted
  values unit hunit value := by
    constructor
    · intro hstate
      cases haccounted.settled _ _ hstate with
      | value hcall =>
          obtain ⟨call, hcall, hid, houtcome⟩ := hcall
          exact ⟨(haccounted.executed call hcall).dependency_values hunit hid,
            call, hcall, hid, houtcome⟩
    · rintro ⟨_, call, hcall, hid, houtcome⟩
      exact hid ▸ (haccounted.executed call hcall).succeeded value houtcome
  executed unit hunit hpending := haccounted.executed_iff hlength hunit hpending
  once := by
    rw [List.Nodup, List.pairwise_map]
    exact haccounted.once.imp Nat.ne_of_lt
  arguments call hcall := (haccounted.executed call hcall).arguments
  clean hbudget hclean := by
    have hroots : session.rootFailures = [] := by
      by_contra hroots
      obtain ⟨call, hcall, failure, hfailed⟩ := haccounted.roots hroots
      obtain ⟨value, hvalue⟩ := hclean call hcall
      cases hfailed.symm.trans hvalue
    obtain ⟨values, hstrict, hvalues⟩ := hran.strict [] rfl hroots hbudget
    have houtput := output_of_values hvalues hroots hbudget
    constructor
    · obtain ⟨first, last, hunits, _, _⟩ := plan.endsWithResult
      rw [houtput, List.getLast?_isSome]
      rintro rfl
      rw [hvalues, hunits] at hlength
      simp at hlength
    · rw [strictRun, hstrict, houtput]
      simp only [hcheckpoint]
  failing := by
    rintro ⟨call, hcall, failure, hfailed⟩
    rw [output, if_pos (.inl ((haccounted.executed call hcall).failed failure hfailed).2.1)]

/-- **Best-effort evaluation.** A session with room for one cause a node ends as its plan
and the outcomes of its units say, and blames each failed unit on a true cause. -/
theorem run_blames_true_causes (plan : EvaluationPlan) (limits : FailureLimits)
    (hcauses : 1 ≤ limits.maxCausesPerNode) (maxRootFailures : Nat) (host : Host σ V R) (s : σ) :
    ∃ outcome, run plan limits maxRootFailures host s = some outcome ∧
      ∀ session s', outcome = .ok (session, s') →
        ∃ calls,
          run plan limits maxRootFailures host.recording (s, []) =
            some (.ok (session, (s', calls))) ∧
          FollowsPlan plan host s s' session calls ∧
          ∀ (id : EvaluationUnitId) failure, session.states[id]? = some (.never failure) →
            ∀ before root after,
              session.arena.lineage failure = before ++ .root root :: after →
                TrueCause plan session calls id before root := by
  have hunderway : Underway plan (new limits : BestEffortSession V R) [] plan.units :=
    underway_new hcauses
  obtain ⟨outcome, hrun, hran⟩ :=
    hunderway.runUnits_total host plan.units.length maxRootFailures s
  cases outcome with
  | error failure => exact ⟨.error failure, by simp only [run, hrun], nofun⟩
  | ok result =>
      obtain ⟨session, s'⟩ := result
      cases hcheckpoint : host.checkpoint s' with
      | error failure => exact ⟨.error failure, by simp only [run, hrun, hcheckpoint], nofun⟩
      | ok s'' =>
          refine ⟨.ok (session, s''), by simp only [run, hrun, hcheckpoint], ?_⟩
          intro final last hfinal
          cases hfinal
          obtain ⟨calls, hran⟩ := hran session s' rfl
          obtain ⟨haccounted, hlength⟩ := hran.accounted hunderway
          rw [List.nil_append] at haccounted
          refine ⟨calls, ?_, followsPlan haccounted hlength hran hcheckpoint, ?_⟩
          · have hrecorded := hran.recording []
            rw [List.nil_append] at hrecorded
            simp only [run, hrecorded, recording_checkpoint hcheckpoint]
          · intro id failure hstate before root after hshown
            exact haccounted.lineageFrom hstate hshown

section Shared

private def sharedUnit (id : Nat) (kind : EvaluationUnitKind)
    (dependencies : List EvaluationUnitId) : EvaluationUnit :=
  ⟨id, kind, ⟨0, id, id + 1⟩, dependencies⟩

/-- Two bindings, a child that needs the first, and a result that needs the second. -/
def sharedPlan : EvaluationPlan where
  units := [sharedUnit 0 .binding [], sharedUnit 1 .binding [],
    sharedUnit 2 .containerChild [0], sharedUnit 3 .moduleResult [1]]
  idsSequential := by
    rintro (_ | _ | _ | _ | index) unit h <;> simp at h <;> rw [← h] <;> rfl
  dependenciesPrior := by decide
  dependenciesOrdered := by decide
  endsWithResult := ⟨[sharedUnit 0 .binding [], sharedUnit 1 .binding [],
    sharedUnit 2 .containerChild [0]], sharedUnit 3 .moduleResult [1], rfl, rfl, by decide⟩

/-- Every unit that is entered fails, the first with one message and the others with another. -/
def failingHost : Host Unit Nat String where
  checkpoint := .ok
  execute unit _ s :=
    (.error ⟨.recoverable, if unit.id = 0 then "bad zero" else "bad one"⟩, s)

/-- Every unit has its id as its value. -/
def cleanHost : Host Unit Nat String where
  checkpoint := .ok
  execute unit _ s := (.ok unit.id, s)

theorem sharedPlan_involves {cause : EvaluationUnitId} (h : sharedPlan.Involves 3 cause) :
    cause = 3 ∨ cause = 1 := by
  induction h with
  | refl => exact .inl rfl
  | tail _ hdepends ih =>
      obtain ⟨unit, hunit, hid, hdependency⟩ := hdepends
      simp only [sharedPlan, List.mem_cons, List.not_mem_nil, or_false] at hunit
      rcases ih with rfl | rfl <;> rcases hunit with rfl | rfl | rfl | rfl <;>
        simp_all [sharedUnit]

/-- With room for no propagated node, the result is blamed on a binding that it does not
involve; and with no root budget a run without any failure has no output. -/
theorem truncated_node_blames_another_unit :
    (∃ session calls,
      run sharedPlan ⟨0, 1, 8⟩ 2 failingHost.recording ((), []) =
        some (.ok (session, ((), calls))) ∧
      ∃ failure, session.states[3]? = some (.never failure) ∧
        session.arena.lineage failure = [.truncated, .root "bad zero"] ∧
        ¬∃ cause, sharedPlan.Involves 3 cause ∧ FailedWith calls cause "bad zero") ∧
    ∃ session, run sharedPlan ⟨0, 1, 8⟩ 0 cleanHost.recording ((), []) =
        some (.ok (session, ((), []))) ∧
      session.output = none ∧ strictRun sharedPlan cleanHost () = some (.ok (some 3, ())) := by
  refine ⟨⟨_, _, rfl, 2, rfl, rfl, ?_⟩, _, rfl, rfl, rfl⟩
  rintro ⟨cause, hinvolves, call, hcall, hid, houtcome⟩
  rcases List.mem_cons.mp hcall with rfl | hcall
  · rcases sharedPlan_involves hinvolves with rfl | rfl <;> cases hid
  · obtain rfl := List.mem_singleton.mp hcall
    exact absurd houtcome (by decide)

/-- The theorem at the shared plan, with room for one cause a node. -/
theorem run_blames_true_causes_shared :
    ∃ outcome, run sharedPlan ⟨0, 1, 8⟩ 2 failingHost () = some outcome ∧
      ∀ session s', outcome = .ok (session, s') →
        ∃ calls,
          run sharedPlan ⟨0, 1, 8⟩ 2 failingHost.recording ((), []) =
            some (.ok (session, (s', calls))) ∧
          FollowsPlan sharedPlan failingHost () s' session calls ∧
          ∀ (id : EvaluationUnitId) failure, session.states[id]? = some (.never failure) →
            ∀ before root after,
              session.arena.lineage failure = before ++ .root root :: after →
                TrueCause sharedPlan session calls id before root :=
  run_blames_true_causes sharedPlan ⟨0, 1, 8⟩ (by decide) 2 failingHost ()

end Shared

end Telora.BestEffortSession
