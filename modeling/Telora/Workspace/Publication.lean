import Mathlib.Logic.Function.Basic
import Telora.Library.Machine
import Telora.Workspace.Documents

/-!
# Publication of workspace snapshots

Clients change documents, rebuild the workspace and query published snapshots, and their
steps interleave in any way. A change holds the write lock from the change of the overlays to
the advance of the revision. A rebuild reads the overlays once, and once more takes the lock
and looks at its context before it publishes. What a context is looked at for are two loads,
of its cancellation and of the clock.
-/

namespace Telora.Workspace

open Library

variable {Text Edit Content : Type}

/-- A revision that is asked about, and the token that cancels the asking. -/
structure QueryContext where
  revision : Nat
  token : Nat

/-- A snapshot carries a revision; `overlays` are those it was computed from. -/
structure WorkspaceSnapshot (Text Content : Type) where
  revision : Nat
  overlays : Overlays Text
  content : Content

inductive Load where
  | cancellation
  | clock

def check : List Load := [.cancellation, .clock]

/-- Two checks around a yield. -/
def checkpoint : List Load := check ++ check

inductive RebuildPhase (Text Content : Type) where
  /-- The first checkpoint, with the loads still to do. -/
  | entering (loads : List Load)
  | reading
  | recovering (overlays : Overlays Text)
  /-- The second checkpoint. -/
  | leaving (loads : List Load) (overlays : Overlays Text) (content : Content)
  | locking (overlays : Overlays Text) (content : Content)
  /-- The check under the write lock. -/
  | publishing (loads : List Load) (overlays : Overlays Text) (content : Content)

inductive QueryStep where
  | load (load : Load)
  | ensureRevision

/-- A look at the context and then at the revision of the snapshot. -/
def ensureSnapshot : List QueryStep := check.map .load ++ [.ensureRevision]

def queryCheckpoint : List QueryStep := checkpoint.map .load

/-- How far the completion at a place goes: there is none, it has no receiver, or the members of
a module or of a type are listed, with a checkpoint for each block of them. -/
inductive CompletionRoute where
  | noContext
  | noReceiver
  | moduleExports (blocks : Nat)
  | structFields (blocks : Nat)

inductive Query where
  | definitionAt
  | referenceAt
  | typeAt
  | diagnostics
  | exportsOf
  | referencesOf (blocks : Nat)
  | completionAt (route : CompletionRoute)

def queryExportsOf : List QueryStep := queryCheckpoint ++ ensureSnapshot ++ ensureSnapshot

/-- What a query looks at before it answers from its snapshot. -/
def Query.steps : Query → List QueryStep
  | .definitionAt | .referenceAt | .typeAt | .diagnostics => queryCheckpoint ++ ensureSnapshot
  | .exportsOf => queryExportsOf
  | .referencesOf blocks =>
      queryCheckpoint ++ ensureSnapshot ++ (List.replicate blocks queryCheckpoint).flatten ++
        ensureSnapshot
  | .completionAt route =>
      queryCheckpoint ++ ensureSnapshot ++
        match route with
        | .noContext => []
        | .noReceiver => queryCheckpoint
        | .moduleExports blocks =>
            queryCheckpoint ++ queryExportsOf ++
              (List.replicate blocks queryCheckpoint).flatten ++ ensureSnapshot
        | .structFields blocks =>
            queryCheckpoint ++ (List.replicate blocks queryCheckpoint).flatten ++ ensureSnapshot

inductive Job (Text Content : Type) where
  | rebuild (phase : RebuildPhase Text Content)
  /-- `looked` is the revision the clock showed when the query last looked at it. -/
  | query (snapshot : WorkspaceSnapshot Text Content) (steps : List QueryStep)
      (looked : Option Nat)

structure Task (Text Content : Type) where
  context : QueryContext
  job : Job Text Content

inductive WriteLock where
  | free
  | changing
  | publishing (task : Nat)
  deriving DecidableEq

/-- An answer of a query, with the revision of its snapshot and the revision the clock showed
when the query last looked at it. -/
structure Answer where
  snapshot : Nat
  looked : Option Nat

/-- The state of a workspace and of the calls to it. The last three fields only remember what
happened: the overlays of each revision, the published snapshots and the answers, newest
first. -/
structure WorkspaceState (Text Content : Type) where
  clock : Nat := 0
  overlays : Overlays Text := []
  lock : WriteLock := .free
  published : Option (WorkspaceSnapshot Text Content) := none
  cancelled : List Nat := []
  contexts : List QueryContext := []
  tasks : Nat → Option (Task Text Content) := fun _ => none
  inForce : Nat → Overlays Text := fun _ => []
  publications : List (WorkspaceSnapshot Text Content) := []
  answers : List Answer := []

/-- A step of one of the parties. -/
inductive WorkspaceEvent (Text Edit Content : Type) where
  | beginChange (change : DocumentChange Text Edit)
  | finishChange
  | createContext (token : Nat)
  | cancel (token : Nat)
  | startRebuild (task : Nat) (context : QueryContext)
  | startQuery (task : Nat) (context : QueryContext)
      (snapshot : WorkspaceSnapshot Text Content) (query : Query)
  /-- A task goes on; the recovery of a rebuild has a content or fails. -/
  | proceed (task : Nat) (recovered : Option Content)

namespace WorkspaceState

variable (s : WorkspaceState Text Content)

/-- Whether a load of a context lets the task go on. -/
def passes (context : QueryContext) : Load → Bool
  | .cancellation => !s.cancelled.contains context.token
  | .clock => s.clock == context.revision

def setTask (id : Nat) (task : Option (Task Text Content)) : WorkspaceState Text Content :=
  { s with tasks := Function.update s.tasks id task }

/-- A task that ends gives its lock back. -/
def stop (id : Nat) : WorkspaceState Text Content :=
  { s.setTask id none with lock := if s.lock = .publishing id then .free else s.lock }

def setPhase (id : Nat) (context : QueryContext) (phase : RebuildPhase Text Content) :
    WorkspaceState Text Content :=
  s.setTask id (some ⟨context, .rebuild phase⟩)

/-- The snapshot becomes the published one, the rebuild ends, and the lock is free. -/
def publish (id : Nat) (snapshot : WorkspaceSnapshot Text Content) :
    WorkspaceState Text Content :=
  { s.setTask id none with
    lock := .free
    published := some snapshot
    publications := snapshot :: s.publications }

/-- One step of a rebuild; a step that has to wait for the lock leaves everything as it is. -/
def proceedRebuild (id : Nat) (context : QueryContext) (recovered : Option Content) :
    RebuildPhase Text Content → WorkspaceState Text Content
  | .entering (load :: loads) =>
      if s.passes context load then s.setPhase id context (.entering loads) else s.stop id
  | .entering [] => s.setPhase id context .reading
  | .reading =>
      if s.lock = .free then s.setPhase id context (.recovering s.overlays) else s
  | .recovering overlays =>
      match recovered with
      | some content => s.setPhase id context (.leaving checkpoint overlays content)
      | none => s.stop id
  | .leaving (load :: loads) overlays content =>
      if s.passes context load then s.setPhase id context (.leaving loads overlays content)
      else s.stop id
  | .leaving [] overlays content => s.setPhase id context (.locking overlays content)
  | .locking overlays content =>
      if s.lock = .free then
        { s.setPhase id context (.publishing check overlays content) with lock := .publishing id }
      else s
  | .publishing (load :: loads) overlays content =>
      if s.passes context load then s.setPhase id context (.publishing loads overlays content)
      else s.stop id
  | .publishing [] overlays content => s.publish id ⟨context.revision, overlays, content⟩

def proceedQuery (id : Nat) (context : QueryContext)
    (snapshot : WorkspaceSnapshot Text Content) (looked : Option Nat) :
    List QueryStep → WorkspaceState Text Content
  | [] => { s.stop id with answers := ⟨snapshot.revision, looked⟩ :: s.answers }
  | .load load :: steps =>
      if s.passes context load then
        s.setTask id (some ⟨context, .query snapshot steps
          (match load with | .clock => some s.clock | .cancellation => looked)⟩)
      else s.stop id
  | .ensureRevision :: steps =>
      if snapshot.revision = context.revision then
        s.setTask id (some ⟨context, .query snapshot steps looked⟩)
      else s.stop id

end WorkspaceState

section System

variable (applyEdits : Text → List Edit → Except String Text)

-- what a recovery may make of the overlays and of the files beside them
variable (Recovers : Overlays Text → Content → Prop)

inductive WorkspaceStep (s : WorkspaceState Text Content) :
    WorkspaceEvent Text Edit Content → WorkspaceState Text Content → Prop
  | changeFails {change error} : s.lock = .free → s.overlays.apply applyEdits change = .error error →
      WorkspaceStep s (.beginChange change) s
  | changes {change overlays} : s.lock = .free → s.overlays.apply applyEdits change = .ok overlays →
      WorkspaceStep s (.beginChange change) { s with overlays := overlays, lock := .changing }
  | advances : s.lock = .changing →
      WorkspaceStep s .finishChange
        { s with
          clock := s.clock + 1
          lock := .free
          inForce := Function.update s.inForce (s.clock + 1) s.overlays }
  | createsContext {token} :
      WorkspaceStep s (.createContext token)
        { s with contexts := ⟨s.clock, token⟩ :: s.contexts }
  | cancels {token} :
      WorkspaceStep s (.cancel token) { s with cancelled := token :: s.cancelled }
  | startsRebuild {id context} : context ∈ s.contexts → s.tasks id = none →
      WorkspaceStep s (.startRebuild id context)
        (s.setPhase id context (.entering checkpoint))
  | startsQuery {id context snapshot query} : context ∈ s.contexts →
      snapshot ∈ s.publications → s.tasks id = none →
      WorkspaceStep s (.startQuery id context snapshot query)
        (s.setTask id (some ⟨context, .query snapshot query.steps none⟩))
  | rebuilds {id context phase recovered} : s.tasks id = some ⟨context, .rebuild phase⟩ →
      (∀ overlays content, phase = .recovering overlays → recovered = some content →
        Recovers overlays content) →
      WorkspaceStep s (.proceed id recovered) (s.proceedRebuild id context recovered phase)
  | queries {id context snapshot steps looked recovered} :
      s.tasks id = some ⟨context, .query snapshot steps looked⟩ →
      WorkspaceStep s (.proceed id recovered) (s.proceedQuery id context snapshot looked steps)

def workspace : TransitionSystem (WorkspaceState Text Content)
    (WorkspaceEvent Text Edit Content) where
  initial s := s = {}
  step := WorkspaceStep applyEdits Recovers

/-- The overlays of a revision since the context was made. -/
def OfRevision (s : WorkspaceState Text Content) (context : QueryContext)
    (overlays : Overlays Text) : Prop :=
  ∃ revision, context.revision ≤ revision ∧ revision ≤ s.clock ∧
    overlays = s.inForce revision

def PhaseFits (s : WorkspaceState Text Content) (id : Nat) (context : QueryContext) :
    RebuildPhase Text Content → Prop
  | .entering _ | .reading => True
  | .recovering overlays => OfRevision s context overlays
  | .leaving _ overlays content | .locking overlays content =>
      OfRevision s context overlays ∧ Recovers overlays content
  | .publishing loads overlays content =>
      OfRevision s context overlays ∧ Recovers overlays content ∧ s.lock = .publishing id ∧
        (.clock ∈ loads ∨ s.clock = context.revision)

def JobFits (s : WorkspaceState Text Content) (id : Nat) (context : QueryContext) :
    Job Text Content → Prop
  | .rebuild phase => PhaseFits Recovers s id context phase
  | .query snapshot steps looked =>
      (.ensureRevision ∈ steps ∨ snapshot.revision = context.revision) ∧
        (.load .clock ∈ steps ∨ looked = some context.revision)

/-- What a published snapshot keeps: the overlays of its revision, and its content. -/
def SnapshotFits (s : WorkspaceState Text Content) (snapshot : WorkspaceSnapshot Text Content) :
    Prop :=
  snapshot.revision ≤ s.clock ∧ snapshot.overlays = s.inForce snapshot.revision ∧
    Recovers snapshot.overlays snapshot.content

structure WorkspaceInv (s : WorkspaceState Text Content) : Prop where
  current : s.lock ≠ .changing → s.overlays = s.inForce s.clock
  contexts : ∀ context ∈ s.contexts, context.revision ≤ s.clock
  tasks : ∀ id task, s.tasks id = some task →
    task.context.revision ≤ s.clock ∧ JobFits Recovers s id task.context task.job
  publications : ∀ snapshot ∈ s.publications, SnapshotFits Recovers s snapshot
  ordered : s.publications.Pairwise fun newer older => older.revision ≤ newer.revision
  latest : s.published = s.publications.head?
  answers : ∀ answer ∈ s.answers, answer.looked = some answer.snapshot

variable {Recovers} {s s' : WorkspaceState Text Content}

/-- What a job needs of the state is the revisions so far and the lock it holds. -/
theorem JobFits.congr {id : Nat} {context : QueryContext} {job : Job Text Content}
    (h : JobFits Recovers s id context job) (hclock : s'.clock = s.clock)
    (hinForce : s'.inForce = s.inForce)
    (hlock : s.lock = .publishing id → s'.lock = .publishing id) :
    JobFits Recovers s' id context job := by
  cases job with
  | query => exact h
  | rebuild phase =>
      cases phase with
      | entering | reading => trivial
      | recovering overlays =>
          simp only [JobFits, PhaseFits, OfRevision, hclock, hinForce] at h ⊢
          exact h
      | leaving | locking =>
          simp only [JobFits, PhaseFits, OfRevision, hclock, hinForce] at h ⊢
          exact h
      | publishing loads overlays content =>
          simp only [JobFits, PhaseFits, OfRevision, hclock, hinForce] at h ⊢
          obtain ⟨hoverlays, hcontent, hheld, hloads⟩ := h
          exact ⟨hoverlays, hcontent, hlock hheld, hloads⟩

/-- A task that goes on or ends keeps the invariant, if its new job fits and it touches no lock
but its own. -/
theorem WorkspaceInv.setTask (h : WorkspaceInv Recovers s) {id : Nat}
    {task : Option (Task Text Content)} {lock : WriteLock}
    (hchanging : lock ≠ .changing → s.lock ≠ .changing)
    (hothers : ∀ other, other ≠ id → s.lock = .publishing other → lock = .publishing other)
    (htask : ∀ t, task = some t → t.context.revision ≤ s.clock ∧
      JobFits Recovers { s.setTask id task with lock := lock } id t.context t.job) :
    WorkspaceInv Recovers { s.setTask id task with lock := lock } := by
  refine { h with current := fun hne => h.current (hchanging hne), tasks := fun other t ht => ?_ }
  change Function.update s.tasks id task other = some t at ht
  by_cases hother : other = id
  · subst hother
    rw [Function.update_self] at ht
    exact htask t ht
  · rw [Function.update_of_ne hother] at ht
    obtain ⟨hrevision, hjob⟩ := h.tasks other t ht
    exact ⟨hrevision, hjob.congr rfl rfl (hothers other hother)⟩

theorem WorkspaceInv.stop (h : WorkspaceInv Recovers s) (id : Nat) :
    WorkspaceInv Recovers (s.stop id) := by
  refine h.setTask (fun hne => ?_) (fun other hother hlock => ?_) fun t ht => by cases ht
  · intro hchanging
    rw [hchanging] at hne
    simp at hne
  · rw [if_neg, hlock]
    rw [hlock]
    intro heq
    exact hother (WriteLock.publishing.inj heq)

theorem WorkspaceInv.setJob (h : WorkspaceInv Recovers s) {id : Nat} {context : QueryContext}
    (hrevision : context.revision ≤ s.clock) {job : Job Text Content}
    (hjob : JobFits Recovers s id context job) :
    WorkspaceInv Recovers (s.setTask id (some ⟨context, job⟩)) := by
  have hset : WorkspaceInv Recovers
      { s.setTask id (some ⟨context, job⟩) with lock := s.lock } := by
    refine h.setTask (fun hne => hne) (fun _ _ hlock => hlock) fun t ht => ?_
    obtain rfl := Option.some.inj ht
    exact ⟨hrevision, hjob.congr rfl rfl fun hlock => hlock⟩
  exact hset

/-- Under the lock the clock stands still, so the snapshot is one of the current revision. -/
theorem WorkspaceInv.publish (h : WorkspaceInv Recovers s) {id : Nat} {context : QueryContext}
    {overlays : Overlays Text} {content : Content} (hoverlays : OfRevision s context overlays)
    (hcontent : Recovers overlays content) (hlock : s.lock = .publishing id)
    (hclock : s.clock = context.revision) :
    WorkspaceInv Recovers (s.publish id ⟨context.revision, overlays, content⟩) := by
  have hfree : WorkspaceInv Recovers { s.setTask id none with lock := .free } := by
    refine h.setTask (fun _ hchanging => ?_) (fun other hother hheld => ?_) fun t ht => by cases ht
    · rw [hlock] at hchanging
      cases hchanging
    · rw [hlock] at hheld
      exact absurd (WriteLock.publishing.inj hheld).symm hother
  have hsame : overlays = s.inForce context.revision := by
    obtain ⟨revision, hle, hge, heq⟩ := hoverlays
    rw [heq, Nat.le_antisymm (hclock ▸ hge) hle]
  refine { hfree with
    publications := fun snapshot hmem => ?_
    ordered := List.pairwise_cons.mpr ⟨fun older hmem => ?_, h.ordered⟩
    latest := rfl
    tasks := hfree.tasks }
  · rcases List.mem_cons.mp hmem with rfl | hmem
    · exact ⟨hclock ▸ le_rfl, hsame, hcontent⟩
    · exact h.publications snapshot hmem
  · exact hclock ▸ (h.publications older hmem).1

theorem WorkspaceInv.proceedRebuild (h : WorkspaceInv Recovers s) {id : Nat}
    {context : QueryContext} {phase : RebuildPhase Text Content} {recovered : Option Content}
    (htask : s.tasks id = some ⟨context, .rebuild phase⟩)
    (hrecovers : ∀ overlays content, phase = .recovering overlays → recovered = some content →
      Recovers overlays content) :
    WorkspaceInv Recovers (s.proceedRebuild id context recovered phase) := by
  obtain ⟨hrevision, hfits⟩ := h.tasks id _ htask
  change context.revision ≤ s.clock at hrevision
  have go {next : RebuildPhase Text Content} (hnext : PhaseFits Recovers s id context next) :
      WorkspaceInv Recovers (s.setPhase id context next) := h.setJob hrevision hnext
  cases phase with
  | entering loads =>
      cases loads with
      | nil => exact go trivial
      | cons load loads =>
          rw [WorkspaceState.proceedRebuild]
          split
          · exact go trivial
          · exact h.stop id
  | reading =>
      rw [WorkspaceState.proceedRebuild]
      split
      · rename_i hfree
        refine go ⟨s.clock, hrevision, le_rfl, h.current fun hchanging => ?_⟩
        rw [hfree] at hchanging
        cases hchanging
      · exact h
  | recovering overlays =>
      cases recovered with
      | none => exact h.stop id
      | some content => exact go ⟨hfits, hrecovers overlays content rfl rfl⟩
  | leaving loads overlays content =>
      cases loads with
      | nil => exact go hfits
      | cons load loads =>
          rw [WorkspaceState.proceedRebuild]
          split
          · exact go hfits
          · exact h.stop id
  | locking overlays content =>
      obtain ⟨hoverlays, hcontent⟩ := hfits
      rw [WorkspaceState.proceedRebuild]
      split
      · rename_i hfree
        refine h.setTask (fun _ hchanging => ?_) (fun other _ hheld => ?_) fun t ht => ?_
        · rw [hfree] at hchanging
          cases hchanging
        · rw [hfree] at hheld
          cases hheld
        · obtain rfl := Option.some.inj ht
          exact ⟨hrevision, hoverlays, hcontent, rfl, .inl (by simp [check])⟩
      · exact h
  | publishing loads overlays content =>
      obtain ⟨hoverlays, hcontent, hlock, hloads⟩ := hfits
      cases loads with
      | nil =>
          refine h.publish hoverlays hcontent hlock (hloads.resolve_left List.not_mem_nil)
      | cons load loads =>
          rw [WorkspaceState.proceedRebuild]
          split
          · rename_i hpasses
            refine go ⟨hoverlays, hcontent, hlock, ?_⟩
            rcases hloads with hmem | hclock
            · rcases List.mem_cons.mp hmem with rfl | hmem
              · exact .inr (beq_iff_eq.mp hpasses)
              · exact .inl hmem
            · exact .inr hclock
          · exact h.stop id

/-- A query has looked at the clock and at the revision of its snapshot before it answers. -/
theorem WorkspaceInv.proceedQuery (h : WorkspaceInv Recovers s) {id : Nat}
    {context : QueryContext} {snapshot : WorkspaceSnapshot Text Content}
    {steps : List QueryStep} {looked : Option Nat}
    (htask : s.tasks id = some ⟨context, .query snapshot steps looked⟩) :
    WorkspaceInv Recovers (s.proceedQuery id context snapshot looked steps) := by
  obtain ⟨hrevision, hensured, hlooked⟩ := h.tasks id _ htask
  change context.revision ≤ s.clock at hrevision
  have mem_rest {step first : QueryStep} {rest : List QueryStep} (hne : step ≠ first)
      (hmem : step ∈ first :: rest) : step ∈ rest := (List.mem_cons.mp hmem).resolve_left hne
  cases steps with
  | nil =>
      have hstop := h.stop id
      refine { hstop with answers := fun answer hmem => ?_ }
      rcases List.mem_cons.mp hmem with rfl | hmem
      · have hsnapshot : snapshot.revision = context.revision :=
          hensured.resolve_left List.not_mem_nil
        exact (hlooked.resolve_left List.not_mem_nil).trans (congrArg some hsnapshot.symm)
      · exact h.answers answer hmem
  | cons step rest =>
      cases step with
      | load load =>
          simp only [WorkspaceState.proceedQuery]
          split
          · rename_i hpasses
            refine h.setJob hrevision ⟨hensured.imp_left (mem_rest (by simp)), ?_⟩
            cases load with
            | clock => exact .inr (congrArg some (beq_iff_eq.mp hpasses))
            | cancellation => exact hlooked.imp_left (mem_rest (by simp))
          · exact h.stop id
      | ensureRevision =>
          simp only [WorkspaceState.proceedQuery]
          split
          · rename_i hsnapshot
            exact h.setJob hrevision ⟨.inr hsnapshot, hlooked.imp_left (mem_rest (by simp))⟩
          · exact h.stop id

theorem query_looks (query : Query) :
    .ensureRevision ∈ query.steps ∧ .load .clock ∈ query.steps := by
  have hensure : QueryStep.ensureRevision ∈ ensureSnapshot ∧
      QueryStep.load .clock ∈ ensureSnapshot := by simp [ensureSnapshot, check]
  cases query with
  | definitionAt | referenceAt | typeAt | diagnostics | exportsOf | referencesOf =>
      simp [Query.steps, queryExportsOf, hensure]
  | completionAt route => cases route <;> simp [Query.steps, hensure]

/-- The overlays of the revisions so far stay what they were, and nothing is being published. -/
theorem WorkspaceInv.advance (h : WorkspaceInv Recovers s) (hchanging : s.lock = .changing) :
    WorkspaceInv Recovers
      { s with
        clock := s.clock + 1
        lock := .free
        inForce := Function.update s.inForce (s.clock + 1) s.overlays } := by
  have older {revision : Nat} (hle : revision ≤ s.clock) :
      s.inForce revision = Function.update s.inForce (s.clock + 1) s.overlays revision :=
    (Function.update_of_ne (by omega) _ _).symm
  have ofRevision {context : QueryContext} {overlays : Overlays Text}
      (hoverlays : OfRevision s context overlays) :
      OfRevision { s with
        clock := s.clock + 1
        lock := .free
        inForce := Function.update s.inForce (s.clock + 1) s.overlays } context overlays := by
    obtain ⟨revision, hfirst, hlast, heq⟩ := hoverlays
    exact ⟨revision, hfirst, Nat.le_succ_of_le hlast, heq.trans (older hlast)⟩
  constructor
  · intro _
    change s.overlays = Function.update s.inForce (s.clock + 1) s.overlays (s.clock + 1)
    rw [Function.update_self]
  · exact fun context hmem => Nat.le_succ_of_le (h.contexts context hmem)
  · intro id task htask
    obtain ⟨hrevision, hjob⟩ := h.tasks id task htask
    refine ⟨Nat.le_succ_of_le hrevision, ?_⟩
    obtain ⟨context, job⟩ := task
    cases job with
    | query => exact hjob
    | rebuild phase =>
        cases phase with
        | entering | reading => trivial
        | recovering overlays => exact ofRevision hjob
        | leaving | locking => exact ⟨ofRevision hjob.1, hjob.2⟩
        | publishing loads overlays content =>
            have hheld : s.lock = .publishing id := hjob.2.2.1
            rw [hchanging] at hheld
            cases hheld
  · intro snapshot hmem
    obtain ⟨hrevision, hoverlays, hcontent⟩ := h.publications snapshot hmem
    exact ⟨Nat.le_succ_of_le hrevision, hoverlays.trans (older hrevision), hcontent⟩
  · exact h.ordered
  · exact h.latest
  · exact h.answers

theorem WorkspaceInv.step (h : WorkspaceInv Recovers s)
    {applyEdits : Text → List Edit → Except String Text} {event : WorkspaceEvent Text Edit Content}
    (hstep : WorkspaceStep applyEdits Recovers s event s') : WorkspaceInv Recovers s' := by
  cases hstep with
  | changeFails => exact h
  | changes hfree _ =>
      refine { h with
        current := fun hne => absurd rfl hne
        tasks := fun id task htask => ?_ }
      obtain ⟨hrevision, hjob⟩ := h.tasks id task htask
      refine ⟨hrevision, hjob.congr rfl rfl fun hheld => ?_⟩
      rw [hfree] at hheld
      cases hheld
  | advances hchanging => exact h.advance hchanging
  | createsContext =>
      refine { h with contexts := fun context hmem => ?_ }
      rcases List.mem_cons.mp hmem with rfl | hmem
      · exact le_rfl
      · exact h.contexts context hmem
  | cancels =>
      refine { h with tasks := fun id task htask => ?_ }
      obtain ⟨hrevision, hjob⟩ := h.tasks id task htask
      exact ⟨hrevision, hjob.congr rfl rfl fun hheld => hheld⟩
  | startsRebuild hcontext _ => exact h.setJob (h.contexts _ hcontext) trivial
  | startsQuery hcontext _ _ =>
      exact h.setJob (h.contexts _ hcontext) ((query_looks _).imp .inl .inl)
  | rebuilds htask hrecovers => exact h.proceedRebuild htask hrecovers
  | queries htask => exact h.proceedQuery htask

variable (Recovers) in
/-- What was published and answered so far. -/
structure Consistent (s : WorkspaceState Text Content) : Prop where
  computed : ∀ snapshot ∈ s.publications,
    snapshot.overlays = s.inForce snapshot.revision ∧
      Recovers snapshot.overlays snapshot.content
  ordered : s.publications.Pairwise fun newer older => older.revision ≤ newer.revision
  latest : s.published = s.publications.head?
  answered : ∀ answer ∈ s.answers, answer.looked = some answer.snapshot

/-- What a step must not do: a change that fails leaves everything as it is, a rebuild that is
cancelled or stale when it comes to publish ends and publishes nothing, and what is published
is of the current revision. -/
structure StepSafe (applyEdits : Text → List Edit → Except String Text)
    (s : WorkspaceState Text Content) (event : WorkspaceEvent Text Edit Content)
    (s' : WorkspaceState Text Content) : Prop where
  failedChange : ∀ change error, event = .beginChange change →
    s.overlays.apply applyEdits change = .error error → s' = s
  withheld : ∀ id recovered context load loads overlays content, event = .proceed id recovered →
    s.tasks id = some ⟨context, .rebuild (.publishing (load :: loads) overlays content)⟩ →
    s.passes context load = false →
    s'.tasks id = none ∧ s'.published = s.published ∧ s'.publications = s.publications
  published : ∀ snapshot, s'.publications = snapshot :: s.publications →
    snapshot.revision = s'.clock ∧ s'.clock = s.clock

/-- A rebuild that has not begun the check under the lock. -/
def RebuildPhase.BeforeCheck : RebuildPhase Text Content → Prop
  | .publishing loads _ _ => loads = check
  | _ => True

def WorkspaceEvent.Starts (id : Nat) : WorkspaceEvent Text Edit Content → Prop
  | .startRebuild task _ | .startQuery task _ _ _ => task = id
  | _ => False

variable (Recovers) in
/-- Whatever happens from a state on, a task publishes nothing, until its number is given to
another call. -/
def Withheld (applyEdits : Text → List Edit → Except String Text)
    (s : WorkspaceState Text Content) (id : Nat) : Prop :=
  ∀ before, ((workspace applyEdits Recovers).startedIn s).ReachableBy
    (fun _ event => ¬event.Starts id) before →
    ∀ recovered after, WorkspaceStep applyEdits Recovers before (.proceed id recovered) after →
      after.published = before.published ∧ after.publications = before.publications

variable (Recovers) in
/-- A rebuild that is cancelled or stale when it comes to publish, or before, never does. -/
def RefusalSafe (applyEdits : Text → List Edit → Except String Text)
    (s : WorkspaceState Text Content) : Prop :=
  ∀ id context phase, s.tasks id = some ⟨context, .rebuild phase⟩ → phase.BeforeCheck →
    context.token ∈ s.cancelled ∨ context.revision ≠ s.clock → Withheld Recovers applyEdits s id

theorem stop_tasks (s : WorkspaceState Text Content) (id : Nat) : (s.stop id).tasks id = none :=
  Function.update_self _ _ _

/-- What a task leaves alone when it goes on: the contexts, the other tasks and, but for the last
step of a rebuild, what is published. -/
structure Aside (s : WorkspaceState Text Content) (id : Nat) (s' : WorkspaceState Text Content) :
    Prop where
  clock : s'.clock = s.clock
  cancelled : s'.cancelled = s.cancelled
  tasks : ∀ other, other ≠ id → s'.tasks other = s.tasks other

theorem Aside.update (id : Nat) (task : Option (Task Text Content)) (hclock : s'.clock = s.clock)
    (hcancelled : s'.cancelled = s.cancelled)
    (htasks : s'.tasks = Function.update s.tasks id task) : Aside s id s' := by
  refine ⟨hclock, hcancelled, fun other hne => ?_⟩
  rw [htasks, Function.update_of_ne hne]

theorem Aside.stop (id : Nat) : Aside s id (s.stop id) := .update id none rfl rfl rfl

theorem Aside.setPhase (id : Nat) (context : QueryContext) (phase : RebuildPhase Text Content) :
    Aside s id (s.setPhase id context phase) := .update id _ rfl rfl rfl

theorem Aside.refl (id : Nat) : Aside s id s := ⟨rfl, rfl, fun _ _ => rfl⟩

/-- Only the last step of a rebuild publishes. -/
theorem proceedRebuild_publications (id : Nat) (context : QueryContext)
    (recovered : Option Content) (phase : RebuildPhase Text Content) :
    ((s.proceedRebuild id context recovered phase).published = s.published ∧
      (s.proceedRebuild id context recovered phase).publications = s.publications) ∨
      ∃ overlays content, phase = .publishing [] overlays content := by
  cases phase with
  | entering loads =>
      cases loads with
      | nil => exact .inl ⟨rfl, rfl⟩
      | cons => rw [WorkspaceState.proceedRebuild]; split <;> exact .inl ⟨rfl, rfl⟩
  | reading => rw [WorkspaceState.proceedRebuild]; split <;> exact .inl ⟨rfl, rfl⟩
  | recovering => cases recovered <;> exact .inl ⟨rfl, rfl⟩
  | leaving loads =>
      cases loads with
      | nil => exact .inl ⟨rfl, rfl⟩
      | cons => rw [WorkspaceState.proceedRebuild]; split <;> exact .inl ⟨rfl, rfl⟩
  | locking => rw [WorkspaceState.proceedRebuild]; split <;> exact .inl ⟨rfl, rfl⟩
  | publishing loads overlays content =>
      cases loads with
      | nil => exact .inr ⟨overlays, content, rfl⟩
      | cons => rw [WorkspaceState.proceedRebuild]; split <;> exact .inl ⟨rfl, rfl⟩

theorem Aside.proceedRebuild (id : Nat) (context : QueryContext) (recovered : Option Content)
    (phase : RebuildPhase Text Content) :
    Aside s id (s.proceedRebuild id context recovered phase) := by
  cases phase with
  | entering loads | leaving loads =>
      cases loads with
      | nil => exact .setPhase ..
      | cons =>
          rw [WorkspaceState.proceedRebuild]
          split
          · exact .setPhase ..
          · exact .stop id
  | reading =>
      rw [WorkspaceState.proceedRebuild]
      split
      · exact .setPhase ..
      · exact .refl id
  | recovering =>
      cases recovered with
      | none => exact .stop id
      | some => exact .setPhase ..
  | locking =>
      rw [WorkspaceState.proceedRebuild]
      split
      · exact .update _ _ rfl rfl rfl
      · exact .refl id
  | publishing loads =>
      cases loads with
      | nil => exact .update _ none rfl rfl rfl
      | cons =>
          rw [WorkspaceState.proceedRebuild]
          split
          · exact .setPhase ..
          · exact .stop id

theorem proceedQuery_publications {id : Nat} {context : QueryContext}
    {snapshot : WorkspaceSnapshot Text Content} {looked : Option Nat} (steps : List QueryStep) :
    (s.proceedQuery id context snapshot looked steps).publications = s.publications := by
  cases steps with
  | nil => rfl
  | cons step rest =>
      cases step <;> simp only [WorkspaceState.proceedQuery] <;> split <;> rfl

theorem Aside.proceedQuery {id : Nat} {context : QueryContext}
    {snapshot : WorkspaceSnapshot Text Content} {looked : Option Nat} (steps : List QueryStep) :
    Aside s id (s.proceedQuery id context snapshot looked steps) := by
  cases steps with
  | nil => exact .update _ none rfl rfl rfl
  | cons step rest =>
      cases step <;> simp only [WorkspaceState.proceedQuery] <;> split <;>
        exact .update _ _ rfl rfl rfl

/-- Whether a rebuild looks at its context in a given way before it publishes. -/
def RebuildPhase.Looks (load : Load) : RebuildPhase Text Content → Prop
  | .publishing loads _ _ => load ∈ loads
  | _ => True

/-- A rebuild has still to look at what stops it. -/
def Stops (s : WorkspaceState Text Content) (context : QueryContext)
    (phase : RebuildPhase Text Content) : Prop :=
  phase.Looks .cancellation ∧ context.token ∈ s.cancelled ∨
    phase.Looks .clock ∧ context.revision < s.clock

/-- A task that publishes nothing any more: it has ended, or is a rebuild that will be stopped. -/
def Doomed (s : WorkspaceState Text Content) (id : Nat) : Prop :=
  ∀ task, s.tasks id = some task → ∃ phase, task.job = .rebuild phase ∧ Stops s task.context phase

theorem Stops.of_looks {context : QueryContext} {phase next : RebuildPhase Text Content}
    (h : Stops s context phase) (hlooks : ∀ load, next.Looks load) : Stops s context next :=
  h.imp (fun hstop => ⟨hlooks _, hstop.2⟩) fun hstop => ⟨hlooks _, hstop.2⟩

/-- A load that lets the rebuild go on is not the one that stops it. -/
theorem Stops.pass {context : QueryContext} {load : Load} {loads : List Load}
    {overlays : Overlays Text} {content : Content}
    (h : Stops s context (.publishing (load :: loads) overlays content))
    (hpasses : s.passes context load = true) :
    Stops s context (.publishing loads overlays content) := by
  rcases h with ⟨hmem, hcancelled⟩ | ⟨hmem, hstale⟩
  · rcases List.mem_cons.mp hmem with rfl | hmem
    · simp [WorkspaceState.passes, hcancelled] at hpasses
    · exact .inl ⟨hmem, hcancelled⟩
  · rcases List.mem_cons.mp hmem with rfl | hmem
    · exact absurd (beq_iff_eq.mp hpasses) hstale.ne'
    · exact .inr ⟨hmem, hstale⟩

theorem Doomed.keep {id : Nat} (h : Doomed s id) (htasks : s'.tasks id = s.tasks id)
    (hcancelled : s.cancelled ⊆ s'.cancelled) (hclock : s.clock ≤ s'.clock) : Doomed s' id := by
  intro task htask
  obtain ⟨phase, hjob, hstops⟩ := h task (htasks ▸ htask)
  exact ⟨phase, hjob, hstops.imp (And.imp_right fun hmem => hcancelled hmem)
    (And.imp_right fun hlt => hlt.trans_le hclock)⟩

theorem Doomed.aside {id other : Nat} (h : Doomed s id) (haside : Aside s other s')
    (hne : id ≠ other) : Doomed s' id :=
  h.keep (haside.tasks id hne) (haside.cancelled ▸ List.Subset.refl _) haside.clock.ge

theorem doomed_stop (id : Nat) : Doomed (s.stop id) id := by
  intro task htask
  rw [stop_tasks] at htask
  cases htask

theorem doomed_setPhase {id : Nat} {context : QueryContext} {next : RebuildPhase Text Content}
    (hstops : Stops s context next) : Doomed (s.setPhase id context next) id := by
  intro task htask
  obtain rfl := Option.some.inj ((Function.update_self id _ s.tasks).symm.trans htask)
  exact ⟨next, rfl, hstops⟩

/-- A doomed rebuild does not come to the step that publishes. -/
theorem Doomed.not_publishing {id : Nat} {context : QueryContext}
    {phase : RebuildPhase Text Content} (h : Doomed s id)
    (htask : s.tasks id = some ⟨context, .rebuild phase⟩) (overlays : Overlays Text)
    (content : Content) : phase ≠ .publishing [] overlays content := by
  rintro rfl
  obtain ⟨_, heq, hstops⟩ := h _ htask
  obtain rfl := Job.rebuild.inj heq
  rcases hstops with ⟨hlooks, _⟩ | ⟨hlooks, _⟩
  · exact absurd hlooks List.not_mem_nil
  · exact absurd hlooks List.not_mem_nil

/-- A doomed rebuild that goes on stays doomed. -/
theorem Doomed.proceedRebuild {id : Nat} {context : QueryContext} {recovered : Option Content}
    {phase : RebuildPhase Text Content} (h : Doomed s id)
    (htask : s.tasks id = some ⟨context, .rebuild phase⟩) :
    Doomed (s.proceedRebuild id context recovered phase) id := by
  obtain ⟨_, heq, hstops⟩ := h _ htask
  obtain rfl := Job.rebuild.inj heq
  change Stops s context phase at hstops
  have hgoes {next : RebuildPhase Text Content} (hlooks : ∀ load, next.Looks load) :
      Doomed (s.setPhase id context next) id := doomed_setPhase (hstops.of_looks hlooks)
  cases phase with
  | entering loads | leaving loads =>
      cases loads with
      | nil => exact hgoes fun _ => trivial
      | cons load loads =>
          rw [WorkspaceState.proceedRebuild]
          split
          · exact hgoes fun _ => trivial
          · exact doomed_stop id
  | reading =>
      rw [WorkspaceState.proceedRebuild]
      split
      · exact hgoes fun _ => trivial
      · exact h
  | recovering overlays =>
      cases recovered with
      | none => exact doomed_stop id
      | some content => exact hgoes fun _ => trivial
  | locking overlays content =>
      rw [WorkspaceState.proceedRebuild]
      split
      · refine Doomed.keep (hgoes fun load => ?_) rfl (List.Subset.refl _) le_rfl
        -- both loads are in the check
        cases load <;> simp [RebuildPhase.Looks, check]
      · exact h
  | publishing loads overlays content =>
      cases loads with
      | nil => exact absurd rfl (h.not_publishing htask overlays content)
      | cons load loads =>
          rw [WorkspaceState.proceedRebuild]
          split
          · rename_i hpasses
            exact doomed_setPhase (hstops.pass hpasses)
          · exact doomed_stop id

theorem Doomed.step {applyEdits : Text → List Edit → Except String Text}
    {event : WorkspaceEvent Text Edit Content} {id : Nat} (h : Doomed s id)
    (hstep : WorkspaceStep applyEdits Recovers s event s') (hstarts : ¬event.Starts id) :
    Doomed s' id := by
  cases hstep with
  | changeFails => exact h
  | changes | createsContext => exact h.keep rfl (List.Subset.refl _) le_rfl
  | advances => exact h.keep rfl (List.Subset.refl _) (Nat.le_succ _)
  | cancels => exact h.keep rfl (List.subset_cons_self ..) le_rfl
  | @startsRebuild other =>
      exact h.aside (.setPhase other ..) fun heq => hstarts heq.symm
  | @startsQuery other =>
      exact h.aside (.update other _ rfl rfl rfl) fun heq => hstarts heq.symm
  | @rebuilds other context phase recovered htask =>
      by_cases heq : id = other
      · subst heq
        exact h.proceedRebuild htask
      · exact h.aside (.proceedRebuild ..) heq
  | @queries other context snapshot steps looked recovered htask =>
      by_cases heq : id = other
      · subst heq
        obtain ⟨_, hjob, _⟩ := h _ htask
        cases hjob
      · exact h.aside (.proceedQuery _) heq

theorem Doomed.withheld {id : Nat} (h : Doomed s id)
    (applyEdits : Text → List Edit → Except String Text) : Withheld Recovers applyEdits s id := by
  intro before hreach recovered after hstep
  have hdoomed : Doomed before id := by
    clear hstep
    induction hreach with
    | initial hinitial => exact hinitial ▸ h
    | step _ hstarts hstep ih => exact ih.step hstep hstarts
  cases hstep with
  | rebuilds htask =>
      exact (proceedRebuild_publications ..).resolve_right fun ⟨overlays, content, hphase⟩ =>
        hdoomed.not_publishing htask overlays content hphase
  | queries htask =>
      obtain ⟨_, hjob, _⟩ := hdoomed _ htask
      cases hjob

theorem WorkspaceInv.refusalSafe (h : WorkspaceInv Recovers s)
    (applyEdits : Text → List Edit → Except String Text) : RefusalSafe Recovers applyEdits s := by
  intro id context phase htask hbefore hrefused
  refine Doomed.withheld (fun task hfound => ?_) applyEdits
  obtain rfl := Option.some.inj (htask.symm.trans hfound)
  have hlooks (load : Load) : phase.Looks load := by
    cases phase with
    | publishing loads =>
        have hloads : loads = check := hbefore
        cases load <;> simp [RebuildPhase.Looks, hloads, check]
    | _ => trivial
  refine ⟨phase, rfl, hrefused.imp (⟨hlooks _, ·⟩) fun hne => ⟨hlooks _, ?_⟩⟩
  exact (h.tasks id _ htask).1.lt_of_ne hne

theorem WorkspaceInv.stepSafe (h : WorkspaceInv Recovers s)
    {applyEdits : Text → List Edit → Except String Text} {event : WorkspaceEvent Text Edit Content}
    (hstep : WorkspaceStep applyEdits Recovers s event s') : StepSafe applyEdits s event s' := by
  have keeps {snapshot : WorkspaceSnapshot Text Content} {publications : List _}
      (heq : publications = s.publications) : publications ≠ snapshot :: s.publications := by
    intro hcons
    exact List.cons_ne_self _ _ (hcons.symm.trans heq)
  constructor
  · rintro change error rfl herror
    cases hstep with
    | changeFails => rfl
    | changes _ hok =>
        rw [herror] at hok
        cases hok
  · rintro id recovered context load loads overlays content rfl htask hpasses
    cases hstep with
    | rebuilds htask' _ =>
        obtain ⟨rfl, heq⟩ := Task.mk.inj (Option.some.inj (htask.symm.trans htask'))
        obtain rfl := Job.rebuild.inj heq
        rw [WorkspaceState.proceedRebuild, hpasses]
        exact ⟨stop_tasks s id, rfl, rfl⟩
    | queries htask' =>
        obtain ⟨_, heq⟩ := Task.mk.inj (Option.some.inj (htask.symm.trans htask'))
        cases heq
  · intro snapshot hpublished
    cases hstep with
    | @rebuilds id context phase recovered htask _ =>
        rcases proceedRebuild_publications id context recovered phase with
          heq | ⟨overlays, content, rfl⟩
        · exact absurd hpublished (keeps heq.2)
        · obtain ⟨_, _, _, _, hclock⟩ := h.tasks id _ htask
          obtain ⟨rfl, _⟩ := List.cons.inj hpublished
          exact ⟨(hclock.resolve_left List.not_mem_nil).symm, rfl⟩
    | queries _ => exact absurd hpublished (keeps (proceedQuery_publications _))
    | _ => exact absurd hpublished (keeps rfl)

end System

/-- Whatever the parties do and in whatever order: a published snapshot carries its revision and
the overlays of that revision, revisions of published snapshots do not go back, a rebuild that
is cancelled or stale when it comes to publish publishes nothing, and queries answer from the
revision the clock shows when they last look. -/
theorem publication_consistent (applyEdits : Text → List Edit → Except String Text)
    (Recovers : Overlays Text → Content → Prop) {s : WorkspaceState Text Content}
    (h : (workspace applyEdits Recovers).Reachable s) :
    Consistent Recovers s ∧
      (∀ event s', (workspace applyEdits Recovers).step s event s' →
        StepSafe applyEdits s event s') ∧
      RefusalSafe Recovers applyEdits s := by
  have hinv : WorkspaceInv Recovers s := by
    refine h.invariant ?_ fun before event after hbefore hstep => hbefore.step hstep
    rintro _ rfl
    constructor
    · exact fun _ => rfl
    · exact fun _ hmem => absurd hmem List.not_mem_nil
    · intro id task htask
      cases htask
    · exact fun _ hmem => absurd hmem List.not_mem_nil
    · exact .nil
    · rfl
    · exact fun _ hmem => absurd hmem List.not_mem_nil
  refine ⟨⟨fun snapshot hmem => (hinv.publications snapshot hmem).2, hinv.ordered, hinv.latest,
    hinv.answers⟩, fun event s' hstep => hinv.stepSafe hstep, hinv.refusalSafe applyEdits⟩

/-- A workspace in which one document was opened. -/
def openedWorkspace : WorkspaceState String Unit :=
  { clock := 1
    overlays := [("/main.telora", ⟨1, "1"⟩)]
    inForce := Function.update (fun _ => []) 1 [("/main.telora", ⟨1, "1"⟩)] }

/-- Then a rebuild was started, and its token cancelled. -/
def cancelledWorkspace : WorkspaceState String Unit :=
  { { openedWorkspace with contexts := [⟨1, 0⟩] }.setPhase 0 ⟨1, 0⟩ (.entering checkpoint) with
    cancelled := [0] }

theorem publication_consistent_cancelled :
    let keepText : String → List Unit → Except String String := fun text _ => .ok text
    let recovers : Overlays String → Unit → Prop := fun _ _ => True
    Consistent recovers cancelledWorkspace ∧
      (∀ event s', (workspace keepText recovers).step cancelledWorkspace event s' →
        StepSafe keepText cancelledWorkspace event s') ∧
      RefusalSafe recovers keepText cancelledWorkspace := by
  intro keepText recovers
  have hopen : (workspace keepText recovers).step {}
      (.beginChange (.open (.ok "/main.telora") 1 "1"))
      { overlays := [("/main.telora", ⟨1, "1"⟩)], lock := .changing } := .changes rfl rfl
  have hadvance : (workspace keepText recovers).step
      { overlays := [("/main.telora", ⟨1, "1"⟩)], lock := .changing } .finishChange
      openedWorkspace := .advances rfl
  have hcontext : (workspace keepText recovers).step openedWorkspace (.createContext 0)
      { openedWorkspace with contexts := [⟨1, 0⟩] } := .createsContext
  have hstart : (workspace keepText recovers).step { openedWorkspace with contexts := [⟨1, 0⟩] }
      (.startRebuild 0 ⟨1, 0⟩) _ := .startsRebuild (by simp) rfl
  have hcancel : (workspace keepText recovers).step _ (.cancel 0) cancelledWorkspace := .cancels
  exact publication_consistent keepText recovers
    (((((TransitionSystem.ReachableBy.initial rfl).step trivial hopen).step trivial
      hadvance).step trivial hcontext |>.step trivial hstart).step trivial hcancel)

end Telora.Workspace
