import Telora.Evaluation.FailureArena

/-!
# Best-effort sessions

A session goes through the units of a plan in order. A unit whose dependencies all have
values is executed once; one with a failed dependency is not entered and its failure is a
propagation. The session keeps going after a recoverable failure, up to the root budget.
-/

namespace Telora

structure UnitFailure (R : Type) where
  failureClass : FailureClass
  failure : R
  deriving DecidableEq, Repr

inductive EvaluationUnitState (V : Type) where
  | pending
  | value (value : V)
  | never (failure : FailureId)
  deriving DecidableEq, Repr

structure BestEffortSession (V R : Type) where
  states : List (EvaluationUnitState V)
  rootFailures : List FailureId
  arena : FailureArena R
  rootBudgetExhausted : Bool
  deriving DecidableEq, Repr

/-- The callbacks of a session, on the state `σ` that they share. -/
structure Host (σ V R : Type) where
  checkpoint : σ → Except R σ
  execute : EvaluationUnit → List V → σ → Except (UnitFailure R) V × σ

variable {σ V R : Type}

namespace BestEffortSession

def new (limits : FailureLimits) : BestEffortSession V R := ⟨[], [], .new limits, false⟩

/-- The values and the failures of the dependencies, each in order; `none` is unreachable. -/
def dependencyOutcomes (session : BestEffortSession V R) :
    List EvaluationUnitId → Option (List V × List FailureId)
  | [] => some ([], [])
  | dependency :: rest =>
      match session.states[dependency]?, session.dependencyOutcomes rest with
      | some (.value value), some (values, failed) => some (value :: values, failed)
      | some (.never failure), some (values, failed) => some (values, failure :: failed)
      | _, _ => none

def pushState (session : BestEffortSession V R) (state : EvaluationUnitState V) :
    BestEffortSession V R :=
  { session with states := session.states ++ [state] }

/-- A blocked unit, with the arena that holds its propagation. -/
def block (session : BestEffortSession V R) (failure : FailureId) (arena : FailureArena R) :
    BestEffortSession V R :=
  { session with arena, states := session.states ++ [.never failure] }

/-- A unit that failed itself. -/
def fail (session : BestEffortSession V R) (id : FailureId) (arena : FailureArena R) :
    BestEffortSession V R :=
  { session with
    arena
    rootFailures := session.rootFailures ++ [id]
    states := session.states ++ [.never id] }

/-- The session that stops for its root budget, with the units from here on left pending. -/
def exhaust (session : BestEffortSession V R) (unitCount : Nat) : BestEffortSession V R :=
  { session with
    rootBudgetExhausted := true
    states := session.states ++
      List.replicate (unitCount - session.states.length) .pending }

/-- The loop over the units; `none` is a failed assertion of the code. -/
def runUnits (host : Host σ V R) (unitCount maxRootFailures : Nat) :
    List EvaluationUnit → BestEffortSession V R → σ → Option (Except R (BestEffortSession V R × σ))
  | [], session, s => some (.ok (session, s))
  | unit :: rest, session, s =>
      match host.checkpoint s with
      | .error failure => some (.error failure)
      | .ok s =>
          match session.dependencyOutcomes unit.dependencies with
          | none => none
          | some (_, cause :: causes) =>
              match session.arena.propagateCauses unit.kind.failureOperation (some unit.location)
                  (cause :: causes) with
              | none => none
              | some (failure, arena) =>
                  runUnits host unitCount maxRootFailures rest (session.block failure arena) s
          | some (values, []) =>
              if maxRootFailures ≤ session.rootFailures.length then
                some (.ok (session.exhaust unitCount, s))
              else
                match host.execute unit values s with
                | (.ok value, s) =>
                    runUnits host unitCount maxRootFailures rest (session.pushState (.value value)) s
                | (.error unitFailure, s) =>
                    match session.arena.root unitFailure.failureClass unitFailure.failure with
                    | .error failure => some (.error failure)
                    | .ok (id, arena) =>
                        runUnits host unitCount maxRootFailures rest (session.fail id arena) s

def run (plan : EvaluationPlan) (limits : FailureLimits) (maxRootFailures : Nat)
    (host : Host σ V R) (s : σ) : Option (Except R (BestEffortSession V R × σ)) :=
  match runUnits host plan.units.length maxRootFailures plan.units (.new limits) s with
  | some (.ok (session, s)) =>
      match host.checkpoint s with
      | .error failure => some (.error failure)
      | .ok s => some (.ok (session, s))
  | outcome => outcome

def value? (session : BestEffortSession V R) (id : EvaluationUnitId) : Option V :=
  match session.states[id]? with
  | some (.value value) => some value
  | _ => none

def output (session : BestEffortSession V R) : Option V :=
  if session.rootFailures ≠ [] ∨ session.rootBudgetExhausted = true then none
  else
    match session.states.getLast? with
    | some (.value value) => some value
    | _ => none

end BestEffortSession

/-- Strict evaluation: the units in order, each with the values of its dependencies, up to
the first failure of any kind. -/
def strictUnits (host : Host σ V R) :
    List EvaluationUnit → List V → σ → Option (Except R (List V × σ))
  | [], values, s => some (.ok (values, s))
  | unit :: rest, values, s =>
      match host.checkpoint s with
      | .error failure => some (.error failure)
      | .ok s =>
          match unit.dependencies.mapM fun dependency => values[dependency]? with
          | none => none
          | some arguments =>
              match host.execute unit arguments s with
              | (.ok value, s) => strictUnits host rest (values ++ [value]) s
              | (.error unitFailure, _) => some (.error unitFailure.failure)

/-- The value of the last unit. -/
def strictRun (plan : EvaluationPlan) (host : Host σ V R) (s : σ) :
    Option (Except R (Option V × σ)) :=
  match strictUnits host plan.units [] s with
  | none => none
  | some (.error failure) => some (.error failure)
  | some (.ok (values, s)) =>
      match host.checkpoint s with
      | .error failure => some (.error failure)
      | .ok s => some (.ok (values.getLast?, s))

/-- One execution of a unit: its arguments and how it ended. -/
structure UnitCall (V R : Type) where
  unit : EvaluationUnitId
  arguments : List V
  outcome : Except (UnitFailure R) V

/-- The same host, which also records the executions. -/
def Host.recording (host : Host σ V R) : Host (σ × List (UnitCall V R)) V R where
  checkpoint := fun (s, calls) => (host.checkpoint s).map fun s => (s, calls)
  execute := fun unit values (s, calls) =>
    let (outcome, s) := host.execute unit values s
    (outcome, (s, calls ++ [⟨unit.id, values, outcome⟩]))

namespace BestEffortSession

/-- What a session does with one unit, and the executions it makes for it. -/
inductive Step (host : Host σ V R) (maxRootFailures : Nat) (unit : EvaluationUnit) :
    BestEffortSession V R → σ → List (UnitCall V R) → BestEffortSession V R → σ → Prop where
  | blocked {session s s' values cause causes failure arena} :
      host.checkpoint s = .ok s' →
      session.dependencyOutcomes unit.dependencies = some (values, cause :: causes) →
      session.arena.propagateCauses unit.kind.failureOperation (some unit.location)
        (cause :: causes) = some (failure, arena) →
      Step host maxRootFailures unit session s [] (session.block failure arena) s'
  | succeeded {session s s' s'' values value} :
      host.checkpoint s = .ok s' →
      session.dependencyOutcomes unit.dependencies = some (values, []) →
      session.rootFailures.length < maxRootFailures →
      host.execute unit values s' = (.ok value, s'') →
      Step host maxRootFailures unit session s [⟨unit.id, values, .ok value⟩]
        (session.pushState (.value value)) s''
  | failed {session s s' s'' values unitFailure id arena} :
      host.checkpoint s = .ok s' →
      session.dependencyOutcomes unit.dependencies = some (values, []) →
      session.rootFailures.length < maxRootFailures →
      host.execute unit values s' = (.error unitFailure, s'') →
      session.arena.root unitFailure.failureClass unitFailure.failure = .ok (id, arena) →
      Step host maxRootFailures unit session s [⟨unit.id, values, .error unitFailure⟩]
        (session.fail id arena) s''

/-- A run over units that came to its end, or to the end of its root budget. -/
inductive Ran (host : Host σ V R) (unitCount maxRootFailures : Nat) :
    List EvaluationUnit → BestEffortSession V R → σ → List (UnitCall V R) →
      BestEffortSession V R → σ → Prop where
  | done {session s} : Ran host unitCount maxRootFailures [] session s [] session s
  | exhausted {unit rest session s s' values} :
      host.checkpoint s = .ok s' →
      session.dependencyOutcomes unit.dependencies = some (values, []) →
      maxRootFailures ≤ session.rootFailures.length →
      Ran host unitCount maxRootFailures (unit :: rest) session s []
        (session.exhaust unitCount) s'
  | step {unit rest session s calls session' s' calls' final s''} :
      Step host maxRootFailures unit session s calls session' s' →
      Ran host unitCount maxRootFailures rest session' s' calls' final s'' →
      Ran host unitCount maxRootFailures (unit :: rest) session s (calls ++ calls') final s''

variable {host : Host σ V R} {unitCount maxRootFailures : Nat} {unit : EvaluationUnit}
  {session session' final : BestEffortSession V R} {s s' : σ} {calls calls' : List (UnitCall V R)}

theorem Step.runUnits_eq (h : Step host maxRootFailures unit session s calls session' s')
    (rest : List EvaluationUnit) :
    runUnits host unitCount maxRootFailures (unit :: rest) session s =
      runUnits host unitCount maxRootFailures rest session' s' := by
  cases h with
  | blocked hcheckpoint hdependencies hpropagate =>
      simp only [runUnits, hcheckpoint, hdependencies, hpropagate]
  | succeeded hcheckpoint hdependencies hbudget hexecute =>
      simp only [runUnits, hcheckpoint, hdependencies, if_neg (Nat.not_le.mpr hbudget), hexecute]
  | failed hcheckpoint hdependencies hbudget hexecute hroot =>
      simp only [runUnits, hcheckpoint, hdependencies, if_neg (Nat.not_le.mpr hbudget), hexecute,
        hroot]

/-- A session that can read the dependencies of a unit stops there or takes the step. -/
theorem runUnits_cons (host : Host σ V R) (unitCount maxRootFailures : Nat) (s : σ)
    (rest : List EvaluationUnit) {values : List V} {failed : List FailureId}
    (hdependencies : session.dependencyOutcomes unit.dependencies = some (values, failed))
    (hpropagate : ∀ cause causes, failed = cause :: causes → ∃ id arena,
      session.arena.propagateCauses unit.kind.failureOperation (some unit.location)
        (cause :: causes) = some (id, arena)) :
    (∃ failure, runUnits host unitCount maxRootFailures (unit :: rest) session s =
      some (.error failure)) ∨
    (∃ s', runUnits host unitCount maxRootFailures (unit :: rest) session s =
        some (.ok (session.exhaust unitCount, s')) ∧
      Ran host unitCount maxRootFailures (unit :: rest) session s [] (session.exhaust unitCount) s') ∨
    ∃ calls session' s', Step host maxRootFailures unit session s calls session' s' := by
  cases hcheckpoint : host.checkpoint s with
  | error failure => exact .inl ⟨failure, by simp only [runUnits, hcheckpoint]⟩
  | ok s' =>
      cases failed with
      | cons cause causes =>
          obtain ⟨id, arena, hnode⟩ := hpropagate cause causes rfl
          exact .inr (.inr ⟨_, _, _, .blocked hcheckpoint hdependencies hnode⟩)
      | nil =>
          by_cases hbudget : maxRootFailures ≤ session.rootFailures.length
          · refine .inr (.inl ⟨s', ?_, .exhausted hcheckpoint hdependencies hbudget⟩)
            simp only [runUnits, hcheckpoint, hdependencies, if_pos hbudget]
          · have hbelow := Nat.not_le.mp hbudget
            rcases hexecute : host.execute unit values s' with ⟨outcome, s''⟩
            cases outcome with
            | ok value =>
                exact .inr (.inr ⟨_, _, _, .succeeded hcheckpoint hdependencies hbelow hexecute⟩)
            | error unitFailure =>
                cases hroot : session.arena.root unitFailure.failureClass unitFailure.failure with
                | error failure =>
                    refine .inl ⟨failure, ?_⟩
                    simp only [runUnits, hcheckpoint, hdependencies, if_neg hbudget, hexecute, hroot]
                | ok added =>
                    exact .inr (.inr ⟨_, _, _,
                      .failed hcheckpoint hdependencies hbelow hexecute hroot⟩)

theorem recording_checkpoint (h : host.checkpoint s = .ok s') (before : List (UnitCall V R)) :
    host.recording.checkpoint (s, before) = .ok (s', before) := by
  simp only [Host.recording, h]
  rfl

/-- Recording the executions changes nothing else. -/
theorem Step.recording (h : Step host maxRootFailures unit session s calls session' s')
    (before : List (UnitCall V R)) :
    Step host.recording maxRootFailures unit session (s, before) calls session'
      (s', before ++ calls) := by
  cases h with
  | blocked hcheckpoint hdependencies hpropagate =>
      rw [List.append_nil]
      exact .blocked (recording_checkpoint hcheckpoint before) hdependencies hpropagate
  | succeeded hcheckpoint hdependencies hbudget hexecute =>
      refine .succeeded (recording_checkpoint hcheckpoint before) hdependencies hbudget ?_
      simp only [Host.recording, hexecute]
  | failed hcheckpoint hdependencies hbudget hexecute hroot =>
      refine .failed (recording_checkpoint hcheckpoint before) hdependencies hbudget ?_ hroot
      simp only [Host.recording, hexecute]

theorem Ran.recording {units : List EvaluationUnit}
    (h : Ran host unitCount maxRootFailures units session s calls final s')
    (before : List (UnitCall V R)) :
    runUnits host.recording unitCount maxRootFailures units session (s, before) =
      some (.ok (final, (s', before ++ calls))) := by
  induction h generalizing before with
  | done => rw [List.append_nil]; rfl
  | exhausted hcheckpoint hdependencies hbudget =>
      simp only [runUnits, Host.recording, hcheckpoint, Except.map, hdependencies, if_pos hbudget,
        List.append_nil]
  | step hstep _ ih =>
      rw [(hstep.recording before).runUnits_eq, ih, List.append_assoc]

end BestEffortSession

end Telora
