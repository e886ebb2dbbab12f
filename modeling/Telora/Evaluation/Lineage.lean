import Telora.Evaluation.BestEffort

/-!
# What a session accounts for

Every state that a session leaves behind is explained: a value by an execution that
succeeded, a failure by an execution that failed or by the failure of a dependency. The
lineage of a failure follows these explanations, except through the truncated node, whose
causes are those of the unit that was truncated first.
-/

namespace Telora.BestEffortSession

variable {σ V R : Type} {plan : EvaluationPlan} {host : Host σ V R} {maxRootFailures : Nat}
  {session session' final : BestEffortSession V R} {s s' : σ}
  {calls calls' : List (UnitCall V R)} {unit : EvaluationUnit}

/-- The execution of the unit ended in a recoverable failure. -/
def FailedWith (calls : List (UnitCall V R)) (id : EvaluationUnitId) (failure : R) : Prop :=
  ∃ call ∈ calls, call.unit = id ∧ call.outcome = .error ⟨.recoverable, failure⟩

/-- The unit whose propagation made the truncated node: the first one that has it. -/
def FirstTruncated (session : BestEffortSession V R) (id : EvaluationUnitId) : Prop :=
  ∃ failure, session.arena.truncated = some failure ∧
    session.states[id]? = some (.never failure) ∧
    ∀ earlier < id, session.states[earlier]? ≠ some (.never failure)

/-- Why a unit has a failure. -/
inductive Explained (plan : EvaluationPlan) (session : BestEffortSession V R)
    (calls : List (UnitCall V R)) (id : EvaluationUnitId) (failure : FailureId) : Prop where
  | failed {root} : session.arena.node failure = some (.root root) → FailedWith calls id root →
      Explained plan session calls id failure
  | blocked {operation location cause others dependency} :
      session.arena.node failure = some (.propagated operation location (cause :: others)) →
      plan.DependsOn id dependency → session.states[dependency]? = some (.never cause) →
      Explained plan session calls id failure
  | truncated : session.arena.truncated = some failure → Explained plan session calls id failure

/-- Why a unit is in its state. -/
inductive Settled (plan : EvaluationPlan) (session : BestEffortSession V R)
    (calls : List (UnitCall V R)) (id : EvaluationUnitId) : EvaluationUnitState V → Prop where
  | value {value} : (∃ call ∈ calls, call.unit = id ∧ call.outcome = .ok value) →
      Settled plan session calls id (.value value)
  | never {failure} : Explained plan session calls id failure →
      ((∃ call ∈ calls, call.unit = id) ∨ ∃ dependency, plan.DependsOn id dependency ∧
        ∃ blocking, session.states[dependency]? = some (.never blocking)) →
      Settled plan session calls id (.never failure)
  | skipped : session.rootBudgetExhausted = true → Settled plan session calls id .pending

/-- The execution had the values of exactly the dependencies, and its outcome is recorded. -/
structure CallAccounted (plan : EvaluationPlan) (session : BestEffortSession V R)
    (call : UnitCall V R) : Prop where
  arguments : ∃ unit ∈ plan.units, unit.id = call.unit ∧
    unit.dependencies.map session.value? = call.arguments.map some
  succeeded : ∀ value, call.outcome = .ok value →
    session.states[call.unit]? = some (.value value)
  failed : ∀ unitFailure, call.outcome = .error unitFailure →
    unitFailure.failureClass = .recoverable ∧ session.rootFailures ≠ [] ∧
      ∃ failure, session.states[call.unit]? = some (.never failure)

structure Accounted (plan : EvaluationPlan) (session : BestEffortSession V R)
    (calls : List (UnitCall V R)) : Prop where
  arena : session.arena.WellKept
  settled : ∀ id state, session.states[id]? = some state → Settled plan session calls id state
  executed : ∀ call ∈ calls, CallAccounted plan session call
  once : calls.Pairwise fun earlier later => earlier.unit < later.unit
  roots : session.rootFailures ≠ [] → ∃ call ∈ calls, ∃ failure, call.outcome = .error failure
  truncated : ∀ failure, session.arena.truncated = some failure →
    ∃ first dependency cause others, FirstTruncated session first ∧
      session.arena.node failure = some (.truncated (cause :: others)) ∧
      plan.DependsOn first dependency ∧ session.states[dependency]? = some (.never cause)

/-- A later session keeps what an earlier one has. -/
structure Grows (session : BestEffortSession V R) (calls : List (UnitCall V R))
    (session' : BestEffortSession V R) (calls' : List (UnitCall V R)) : Prop where
  settled : ∀ (id : EvaluationUnitId) (state : EvaluationUnitState V),
    session.states[id]? = some state → session'.states[id]? = some state
  arena : session.arena.Grows session'.arena
  executed : ∀ call ∈ calls, call ∈ calls'
  roots : session.rootFailures ≠ [] → session'.rootFailures ≠ []
  exhausted : session.rootBudgetExhausted = true → session'.rootBudgetExhausted = true

section Growing

variable (hgrows : session.Grows calls session' calls')
include hgrows

theorem FailedWith.grows {id : EvaluationUnitId} {failure : R} (h : FailedWith calls id failure) :
    FailedWith calls' id failure := by
  obtain ⟨call, hcall, hended⟩ := h
  exact ⟨call, hgrows.executed call hcall, hended⟩

theorem FirstTruncated.grows {id : EvaluationUnitId} (h : session.FirstTruncated id) :
    session'.FirstTruncated id := by
  obtain ⟨failure, htruncated, hstate, hfirst⟩ := h
  refine ⟨failure, hgrows.arena.truncated _ htruncated, hgrows.settled _ _ hstate, ?_⟩
  intro earlier hearlier hlater
  have hbound := Nat.lt_trans hearlier (List.getElem?_eq_some_iff.mp hstate).1
  have hsame := hgrows.settled _ _ (List.getElem?_eq_getElem hbound)
  rw [hsame] at hlater
  exact hfirst earlier hearlier (by rw [List.getElem?_eq_getElem hbound, hlater])

theorem Explained.grows {id : EvaluationUnitId} {failure : FailureId}
    (h : Explained plan session calls id failure) : Explained plan session' calls' id failure := by
  cases h with
  | failed hnode hfailed => exact .failed (hgrows.arena.node _ _ hnode) (hfailed.grows hgrows)
  | blocked hnode hdepends hstate =>
      exact .blocked (hgrows.arena.node _ _ hnode) hdepends (hgrows.settled _ _ hstate)
  | truncated htruncated => exact .truncated (hgrows.arena.truncated _ htruncated)

theorem Settled.grows {id : EvaluationUnitId} {state : EvaluationUnitState V}
    (h : Settled plan session calls id state) : Settled plan session' calls' id state := by
  cases h with
  | value hcall =>
      obtain ⟨call, hcall, hended⟩ := hcall
      exact .value ⟨call, hgrows.executed call hcall, hended⟩
  | never hexplained hwhy =>
      refine .never (hexplained.grows hgrows) (hwhy.imp ?_ ?_)
      · exact fun ⟨call, hcall, hunit⟩ => ⟨call, hgrows.executed call hcall, hunit⟩
      · exact fun ⟨dependency, hdepends, blocking, hstate⟩ =>
          ⟨dependency, hdepends, blocking, hgrows.settled _ _ hstate⟩
  | skipped hexhausted => exact .skipped (hgrows.exhausted hexhausted)

end Growing

theorem value?_eq_some {id : EvaluationUnitId} {value : V} :
    session.value? id = some value ↔ session.states[id]? = some (.value value) := by
  rw [value?]
  cases session.states[id]? with
  | none => simp
  | some state => cases state <;> simp

theorem arguments_grow (hgrows : session.Grows calls session' calls')
    {dependencies : List EvaluationUnitId} {arguments : List V}
    (h : dependencies.map session.value? = arguments.map some) :
    dependencies.map session'.value? = arguments.map some := by
  rw [← h]
  refine List.map_congr_left fun dependency hdependency => ?_
  have hvalue := List.mem_map_of_mem (f := session.value?) hdependency
  rw [h] at hvalue
  obtain ⟨value, _, hvalue⟩ := List.mem_map.mp hvalue
  rw [← hvalue]
  exact value?_eq_some.mpr (hgrows.settled _ _ (value?_eq_some.mp hvalue.symm))

theorem CallAccounted.grows {call : UnitCall V R} (hgrows : session.Grows calls session' calls')
    (h : CallAccounted plan session call) : CallAccounted plan session' call where
  arguments := by
    obtain ⟨unit, hunit, hid, harguments⟩ := h.arguments
    exact ⟨unit, hunit, hid, arguments_grow hgrows harguments⟩
  succeeded value houtcome := hgrows.settled _ _ (h.succeeded value houtcome)
  failed unitFailure houtcome := by
    obtain ⟨hclass, hroots, failure, hstate⟩ := h.failed unitFailure houtcome
    exact ⟨hclass, hgrows.roots hroots, failure, hgrows.settled _ _ hstate⟩

theorem CallAccounted.unit_lt {call : UnitCall V R} (h : CallAccounted plan session call) :
    call.unit < session.states.length := by
  cases houtcome : call.outcome with
  | ok value => exact (List.getElem?_eq_some_iff.mp (h.succeeded value houtcome)).1
  | error unitFailure =>
      obtain ⟨_, _, failure, hstate⟩ := h.failed unitFailure houtcome
      exact (List.getElem?_eq_some_iff.mp hstate).1

theorem Accounted.truncated_grows (h : Accounted plan session calls)
    (hgrows : session.Grows calls session' calls')
    (hsame : session'.arena.truncated = session.arena.truncated) :
    ∀ failure, session'.arena.truncated = some failure →
      ∃ first dependency cause others, session'.FirstTruncated first ∧
        session'.arena.node failure = some (.truncated (cause :: others)) ∧
        plan.DependsOn first dependency ∧ session'.states[dependency]? = some (.never cause) := by
  intro failure htruncated
  obtain ⟨first, dependency, cause, others, hfirst, hnode, hdepends, hstate⟩ :=
    h.truncated failure (hsame ▸ htruncated)
  exact ⟨first, dependency, cause, others, hfirst.grows hgrows, hgrows.arena.node _ _ hnode,
    hdepends, hgrows.settled _ _ hstate⟩

theorem dependencyOutcomes_total {dependencies : List EvaluationUnitId}
    (h : ∀ dependency ∈ dependencies, ∃ state, session.states[dependency]? = some state ∧
      state ≠ .pending) :
    ∃ values failed, session.dependencyOutcomes dependencies = some (values, failed) := by
  induction dependencies with
  | nil => exact ⟨[], [], rfl⟩
  | cons dependency rest ih =>
      obtain ⟨state, hstate, hpending⟩ := h dependency List.mem_cons_self
      obtain ⟨values, failed, hrest⟩ := ih fun other hother =>
        h other (List.mem_cons_of_mem _ hother)
      cases state with
      | pending => exact absurd rfl hpending
      | value value => exact ⟨value :: values, failed, by simp [dependencyOutcomes, hstate, hrest]⟩
      | never failure => exact ⟨values, failure :: failed, by
          simp [dependencyOutcomes, hstate, hrest]⟩

/-- What the outcomes say of the dependencies. -/
theorem of_dependencyOutcomes {dependencies : List EvaluationUnitId} {values : List V}
    {failed : List FailureId}
    (h : session.dependencyOutcomes dependencies = some (values, failed)) :
    (∀ failure ∈ failed, ∃ dependency ∈ dependencies,
      session.states[dependency]? = some (.never failure)) ∧
    (failed = [] → dependencies.map session.value? = values.map some) := by
  induction dependencies generalizing values failed with
  | nil =>
      simp only [dependencyOutcomes, Option.some.injEq, Prod.mk.injEq] at h
      obtain ⟨rfl, rfl⟩ := h
      simp
  | cons dependency rest ih =>
      rw [dependencyOutcomes] at h
      split at h
      · rename_i value restValues restFailed hstate hrest
        cases h
        obtain ⟨hfailed, hvalues⟩ := ih hrest
        constructor
        · intro failure hfailure
          obtain ⟨other, hother, hnever⟩ := hfailed failure hfailure
          exact ⟨other, List.mem_cons_of_mem _ hother, hnever⟩
        · intro hnone
          rw [List.map_cons, List.map_cons, hvalues hnone, value?_eq_some.mpr hstate]
      · rename_i failure restValues restFailed hstate hrest
        cases h
        refine ⟨List.forall_mem_cons.mpr ⟨⟨dependency, List.mem_cons_self, hstate⟩, ?_⟩, nofun⟩
        intro other hother
        obtain ⟨found, hfound, hnever⟩ := (ih hrest).1 other hother
        exact ⟨found, List.mem_cons_of_mem _ hfound, hnever⟩
      · cases h

section OneStep

theorem getElem?_pushed {states : List (EvaluationUnitState V)} {added state : EvaluationUnitState V}
    {id : EvaluationUnitId} (h : (states ++ [added])[id]? = some state) :
    states[id]? = some state ∨ id = states.length ∧ state = added := by
  rcases Nat.lt_trichotomy id states.length with hlt | rfl | hgt
  · rw [List.getElem?_append_left hlt] at h
    exact .inl h
  · rw [List.getElem?_concat_length] at h
    exact .inr ⟨rfl, (Option.some.inj h).symm⟩
  · rw [List.getElem?_eq_none (by simp; omega)] at h
    cases h

theorem getElem?_kept {states : List (EvaluationUnitState V)} (added : List (EvaluationUnitState V))
    {id : EvaluationUnitId} {state : EvaluationUnitState V} (h : states[id]? = some state) :
    (states ++ added)[id]? = some state := by
  rw [List.getElem?_append_left (List.getElem?_eq_some_iff.mp h).1, h]

/-- What is left to show of a session that has gone one unit further. -/
theorem Accounted.extend (h : Accounted plan session calls) {state : EvaluationUnitState V}
    {added : List (UnitCall V R)} (hgrows : session.Grows calls session' (calls ++ added))
    (hstates : session'.states = session.states ++ [state])
    (hkept : session'.arena.WellKept)
    (hsettled : Settled plan session' (calls ++ added) session.states.length state)
    (hadded : ∀ call ∈ added, call.unit = session.states.length ∧ CallAccounted plan session' call)
    (honce : added.Pairwise fun earlier later => earlier.unit < later.unit)
    (hroots : session'.rootFailures ≠ [] → session.rootFailures ≠ [] ∨
      ∃ call ∈ added, ∃ failure, call.outcome = .error failure)
    (htruncated : ∀ failure, session'.arena.truncated = some failure →
      ∃ first dependency cause others, session'.FirstTruncated first ∧
        session'.arena.node failure = some (.truncated (cause :: others)) ∧
        plan.DependsOn first dependency ∧ session'.states[dependency]? = some (.never cause)) :
    Accounted plan session' (calls ++ added) where
  arena := hkept
  settled id found hfound := by
    rw [hstates] at hfound
    rcases getElem?_pushed hfound with hold | ⟨rfl, rfl⟩
    · exact (h.settled id found hold).grows hgrows
    · exact hsettled
  executed call hcall := by
    rcases List.mem_append.mp hcall with hold | hnew
    · exact (h.executed call hold).grows hgrows
    · exact (hadded call hnew).2
  once := by
    refine List.pairwise_append.mpr ⟨h.once, honce, ?_⟩
    intro earlier hearlier later hlater
    rw [(hadded later hlater).1]
    exact (h.executed earlier hearlier).unit_lt
  roots hnonempty := by
    rcases hroots hnonempty with hold | ⟨call, hcall, hfailed⟩
    · obtain ⟨call, hcall, hfailed⟩ := h.roots hold
      exact ⟨call, List.mem_append_left _ hcall, hfailed⟩
    · exact ⟨call, List.mem_append_right _ hcall, hfailed⟩
  truncated := htruncated

/-- The failure of a unit is explained once its propagation is in the arena. -/
theorem Accounted.block (h : Accounted plan session calls) {cause id : FailureId}
    {arena : FailureArena R} (hpropagates : session.arena.Propagates arena cause id)
    {dependency : EvaluationUnitId} (hdepends : plan.DependsOn session.states.length dependency)
    (hstate : session.states[dependency]? = some (.never cause)) :
    session.Grows calls (session.block id arena) calls ∧
      Accounted plan (session.block id arena) calls := by
  have hgrows : session.Grows calls (session.block id arena) (calls ++ []) :=
    ⟨fun _ _ => getElem?_kept _, hpropagates.grows, by simp, fun h => h, fun h => h⟩
  have hstate' := hgrows.settled _ _ hstate
  have hwhy : (∃ call ∈ calls ++ [], call.unit = session.states.length) ∨
      ∃ dependency, plan.DependsOn session.states.length dependency ∧
        ∃ blocking, (session.block id arena).states[dependency]? = some (.never blocking) :=
    .inr ⟨dependency, hdepends, cause, hstate'⟩
  rw [← List.append_nil calls]
  refine ⟨by simpa using hgrows, ?_⟩
  rcases hpropagates.node with ⟨operation, location, others, hnode, hsame⟩ | ⟨htruncated, hsame⟩ |
    ⟨hnone, hid, htruncated, others, hnode⟩
  · exact h.extend hgrows rfl hpropagates.kept
      (.never (.blocked hnode hdepends hstate') hwhy) (by simp) .nil .inl
      (h.truncated_grows hgrows hsame)
  · exact h.extend hgrows rfl hpropagates.kept
      (.never (.truncated (hpropagates.grows.truncated _ htruncated)) hwhy) (by simp) .nil .inl
      (h.truncated_grows hgrows (by rw [BestEffortSession.block, hsame]))
  · refine h.extend hgrows rfl hpropagates.kept (.never (.truncated htruncated) hwhy)
      (by simp) .nil .inl ?_
    intro failure hfailure
    obtain rfl : id = failure := Option.some.inj (htruncated.symm.trans hfailure)
    refine ⟨session.states.length, dependency, cause, others,
      ⟨id, htruncated, List.getElem?_concat_length .., ?_⟩, hnode, hdepends, hstate'⟩
    intro earlier hearlier hnever
    -- an earlier unit cannot have the node that is only made now
    rw [BestEffortSession.block, List.getElem?_append_left hearlier] at hnever
    have habsent : session.arena.node id = none := by
      rw [hid]
      exact List.getElem?_eq_none (Nat.le_refl _)
    cases h.settled _ _ hnever with
    | never hexplained _ =>
        cases hexplained with
        | failed hnode _ => cases habsent.symm.trans hnode
        | blocked hnode _ _ => cases habsent.symm.trans hnode
        | truncated htruncated => cases hnone.symm.trans htruncated

/-- A step keeps the account. -/
theorem Step.accounted {added : List (UnitCall V R)}
    (h : Step host maxRootFailures unit session s added session' s')
    (hunit : unit ∈ plan.units) (hid : unit.id = session.states.length)
    (hlimit : 1 ≤ session.arena.limits.maxCausesPerNode)
    (haccounted : Accounted plan session calls) :
    session.Grows calls session' (calls ++ added) ∧ Accounted plan session' (calls ++ added) := by
  cases h with
  | blocked _ hdependencies hpropagate =>
      rename_i cause causes id arena _
      obtain ⟨id', arena', hpropagate', hpropagates⟩ := haccounted.arena.propagateCauses hlimit
        unit.kind.failureOperation (some unit.location) cause causes
      obtain ⟨rfl, rfl⟩ := Prod.mk.inj (Option.some.inj (hpropagate'.symm.trans hpropagate))
      obtain ⟨dependency, hdependency, hstate⟩ :=
        (of_dependencyOutcomes hdependencies).1 cause List.mem_cons_self
      rw [List.append_nil]
      exact haccounted.block hpropagates ⟨unit, hunit, hid, hdependency⟩ hstate
  | succeeded _ hdependencies _ _ =>
      rename_i values value _ _ _
      have hgrows : session.Grows calls (session.pushState (.value value))
          (calls ++ [⟨unit.id, values, .ok value⟩]) :=
        ⟨fun _ _ => getElem?_kept _, .refl _, fun _ => List.mem_append_left _, fun h => h,
          fun h => h⟩
      refine ⟨hgrows, haccounted.extend hgrows rfl haccounted.arena ?_ ?_
        (List.pairwise_singleton ..) .inl (haccounted.truncated_grows hgrows rfl)⟩
      · exact .value ⟨_, List.mem_append_right _ List.mem_cons_self, hid, rfl⟩
      · refine List.forall_mem_singleton.mpr ⟨hid, ⟨unit, hunit, rfl, ?_⟩, ?_, nofun⟩
        · exact arguments_grow hgrows ((of_dependencyOutcomes hdependencies).2 rfl)
        · intro found hfound
          obtain rfl := Except.ok.inj hfound
          rw [hid]
          exact List.getElem?_concat_length ..
  | failed _ hdependencies _ _ hroot =>
      rename_i values unitFailure id arena _ _ _
      obtain ⟨hkept, harena, hnode, hsame⟩ := haccounted.arena.root hroot
      have hclass := (FailureArena.root_eq_ok hroot).1
      have hgrows : session.Grows calls (session.fail id arena)
          (calls ++ [⟨unit.id, values, .error unitFailure⟩]) :=
        ⟨fun _ _ => getElem?_kept _, harena, fun _ => List.mem_append_left _,
          fun _ => by simp [BestEffortSession.fail], fun h => h⟩
      refine ⟨hgrows, haccounted.extend hgrows rfl hkept ?_ ?_ (List.pairwise_singleton ..)
        (fun _ => .inr ⟨_, List.mem_cons_self, unitFailure, rfl⟩)
        (haccounted.truncated_grows hgrows hsame)⟩
      · refine .never (.failed hnode ⟨_, List.mem_append_right _ List.mem_cons_self, hid, ?_⟩)
          (.inl ⟨_, List.mem_append_right _ List.mem_cons_self, hid⟩)
        rw [← hclass]
      · refine List.forall_mem_singleton.mpr ⟨hid, ⟨unit, hunit, rfl, ?_⟩, nofun, ?_⟩
        · exact arguments_grow hgrows ((of_dependencyOutcomes hdependencies).2 rfl)
        · intro found hfound
          obtain rfl := Except.error.inj hfound
          refine ⟨hclass, by simp [BestEffortSession.fail], id, ?_⟩
          rw [hid]
          exact List.getElem?_concat_length ..

/-- A session that stops leaves the units it skips pending. -/
theorem Accounted.exhaust (h : Accounted plan session calls) (unitCount : Nat) :
    Accounted plan (session.exhaust unitCount) calls := by
  have hgrows : session.Grows calls (session.exhaust unitCount) calls :=
    ⟨fun _ _ => getElem?_kept _, .refl _, fun _ h => h, fun h => h, fun _ => rfl⟩
  refine ⟨h.arena, ?_, fun call hcall => (h.executed call hcall).grows hgrows, h.once, h.roots,
    h.truncated_grows hgrows rfl⟩
  intro id state hstate
  rcases Nat.lt_or_ge id session.states.length with hlt | hge
  · rw [BestEffortSession.exhaust, List.getElem?_append_left hlt] at hstate
    exact (h.settled id state hstate).grows hgrows
  · rw [BestEffortSession.exhaust, List.getElem?_append_right hge] at hstate
    obtain rfl := (List.mem_replicate.mp (List.mem_of_getElem? hstate)).2
    exact .skipped rfl

end OneStep

end Telora.BestEffortSession
