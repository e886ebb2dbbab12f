import Telora.Evaluation.Plan
import Telora.Library.Lists

/-!
# The failure arena

Every failure of a session is a node: the root failure of a unit, a propagation of earlier
nodes, or the one truncated node that stands for all propagations past the limit. Equal
propagations are one node. The lineage of a node follows first causes.
-/

namespace Telora

abbrev FailureId := Nat

inductive FailureClass where
  | recoverable
  | terminal
  deriving DecidableEq, Repr

structure FailureLimits where
  maxPropagatedNodes : Nat
  maxCausesPerNode : Nat
  maxRenderDepth : Nat
  deriving DecidableEq, Repr

inductive FailureNode (R : Type) where
  | root (failure : R)
  | propagated (operation : FailureOperation) (location : Option Loc) (causes : List FailureId)
  | truncated (causes : List FailureId)
  deriving DecidableEq, Repr

structure PropagationKey where
  operation : FailureOperation
  location : Option Loc
  causes : List FailureId
  deriving DecidableEq, Repr

inductive LineageStep (R : Type) where
  | root (failure : R)
  | propagated (operation : FailureOperation) (location : Option Loc)
  | truncated
  deriving DecidableEq, Repr

structure FailureArena (R : Type) where
  nodes : List (FailureNode R)
  propagated : List (PropagationKey × FailureId)
  propagatedCount : Nat
  truncated : Option FailureId
  limits : FailureLimits
  deriving DecidableEq, Repr

/-- The distinct causes in order, up to the limit. -/
def normalizeCauses (limit : Nat) (normalized : List FailureId) : List FailureId → List FailureId
  | [] => normalized
  | cause :: rest =>
      if cause ∈ normalized then normalizeCauses limit normalized rest
      else if normalized.length = limit then normalized
      else normalizeCauses limit (normalized ++ [cause]) rest

namespace FailureArena

variable {R : Type}

def new (limits : FailureLimits) : FailureArena R := ⟨[], [], 0, none, limits⟩

def node (arena : FailureArena R) (id : FailureId) : Option (FailureNode R) := arena.nodes[id]?

def push (arena : FailureArena R) (added : FailureNode R) : FailureId × FailureArena R :=
  (arena.nodes.length, { arena with nodes := arena.nodes ++ [added] })

/-- A recoverable failure enters the arena, a terminal one is handed back. -/
def root (arena : FailureArena R) (failureClass : FailureClass) (failure : R) :
    Except R (FailureId × FailureArena R) :=
  match failureClass with
  | .terminal => .error failure
  | .recoverable => .ok (arena.push (.root failure))

/-- The node of a propagation; `none` is the failed assertion that there is a cause. -/
def propagateCauses (arena : FailureArena R) (operation : FailureOperation)
    (location : Option Loc) (causes : List FailureId) : Option (FailureId × FailureArena R) :=
  let causes := normalizeCauses arena.limits.maxCausesPerNode [] causes
  if causes = [] then none
  else
    let key : PropagationKey := ⟨operation, location, causes⟩
    match arena.propagated.find? fun entry => entry.1 = key with
    | some (_, id) => some (id, arena)
    | none =>
        if arena.limits.maxPropagatedNodes ≤ arena.propagatedCount then
          match arena.truncated with
          | some id => some (id, arena)
          | none =>
              let (id, arena) := arena.push (.truncated causes)
              some (id, { arena with truncated := some id })
        else
          let (id, arena) := arena.push (.propagated operation location causes)
          some (id, { arena with
            propagated := arena.propagated ++ [(key, id)]
            propagatedCount := arena.propagatedCount + 1 })

def lineageFrom (arena : FailureArena R) : Nat → FailureId → List (LineageStep R)
  | 0, _ => [.truncated]
  | depth + 1, current =>
      match arena.node current with
      | some (.root failure) => [.root failure]
      | some (.propagated operation location causes) =>
          .propagated operation location ::
            match causes.head? with
            | none => [.truncated]
            | some next => lineageFrom arena depth next
      | some (.truncated causes) =>
          .truncated ::
            match causes.head? with
            | none => []
            | some next => lineageFrom arena depth next
      | none => [.truncated]

def lineage (arena : FailureArena R) (start : FailureId) : List (LineageStep R) :=
  arena.lineageFrom arena.limits.maxRenderDepth start

end FailureArena

/-- The first cause survives the normalization. -/
theorem head_normalizeCauses (limit : Nat) (normalized causes : List FailureId)
    (h : normalized ≠ []) :
    (normalizeCauses limit normalized causes).head? = normalized.head? := by
  induction causes generalizing normalized with
  | nil => rfl
  | cons cause rest ih =>
      rw [normalizeCauses]
      split
      · exact ih normalized h
      · split
        · rfl
        · rw [ih _ (by simp), List.head?_append_of_ne_nil _ h]

theorem normalizeCauses_cons {limit : Nat} (hlimit : 1 ≤ limit) (cause : FailureId)
    (rest : List FailureId) :
    ∃ others, normalizeCauses limit [] (cause :: rest) = cause :: others := by
  have hstep : normalizeCauses limit [] (cause :: rest) = normalizeCauses limit [cause] rest := by
    rw [normalizeCauses, if_neg (by simp), if_neg (by simp; omega)]
    rfl
  have hhead := head_normalizeCauses limit [cause] rest (by simp)
  rw [hstep]
  cases hcauses : normalizeCauses limit [cause] rest with
  | nil => rw [hcauses] at hhead; cases hhead
  | cons first others =>
      rw [hcauses] at hhead
      exact ⟨others, by rw [Option.some.inj hhead]⟩

namespace FailureArena

variable {R : Type} {arena arena' : FailureArena R}

/-- The interned propagations and the truncated node are where the arena says they are. -/
structure WellKept (arena : FailureArena R) : Prop where
  interned : ∀ entry ∈ arena.propagated, arena.node entry.2 =
    some (.propagated entry.1.operation entry.1.location entry.1.causes)
  oneTruncated : ∀ id causes, arena.node id = some (.truncated causes) → arena.truncated = some id

/-- Nodes are only added, and the truncated node is chosen once. -/
structure Grows (arena arena' : FailureArena R) : Prop where
  node : ∀ id found, arena.node id = some found → arena'.node id = some found
  truncated : ∀ id, arena.truncated = some id → arena'.truncated = some id
  limits : arena'.limits = arena.limits

theorem Grows.refl (arena : FailureArena R) : arena.Grows arena :=
  ⟨fun _ _ h => h, fun _ h => h, rfl⟩

theorem node_append {nodes : List (FailureNode R)} {added : FailureNode R} {id : FailureId}
    {found : FailureNode R} (h : (nodes ++ [added])[id]? = some found) :
    nodes[id]? = some found ∨ id = nodes.length ∧ added = found := by
  rcases Nat.lt_trichotomy id nodes.length with hlt | rfl | hgt
  · rw [List.getElem?_append_left hlt] at h
    exact .inl h
  · rw [List.getElem?_concat_length] at h
    exact .inr ⟨rfl, Option.some.inj h⟩
  · rw [List.getElem?_eq_none (by simp; omega)] at h
    cases h

theorem node_kept {nodes : List (FailureNode R)} (added : FailureNode R) {id : FailureId}
    {found : FailureNode R} (h : nodes[id]? = some found) :
    (nodes ++ [added])[id]? = some found := by
  rw [List.getElem?_append_left (List.getElem?_eq_some_iff.mp h).1, h]

theorem wellKept_new (limits : FailureLimits) : (new limits : FailureArena R).WellKept :=
  ⟨by simp [new], by simp [new, node]⟩

/-- A root failure is a new node. -/
theorem root_eq_ok {failureClass : FailureClass} {failure : R} {id : FailureId}
    (h : arena.root failureClass failure = .ok (id, arena')) :
    failureClass = .recoverable ∧ id = arena.nodes.length ∧
      arena' = { arena with nodes := arena.nodes ++ [.root failure] } := by
  cases failureClass with
  | terminal => cases h
  | recoverable =>
      simp only [root, push, Except.ok.injEq, Prod.mk.injEq] at h
      exact ⟨rfl, h.1.symm, h.2.symm⟩

theorem WellKept.root {failureClass : FailureClass} {failure : R} {id : FailureId}
    (hkept : arena.WellKept) (h : arena.root failureClass failure = .ok (id, arena')) :
    arena'.WellKept ∧ arena.Grows arena' ∧ arena'.node id = some (.root failure) ∧
      arena'.truncated = arena.truncated := by
  obtain ⟨_, rfl, rfl⟩ := root_eq_ok h
  refine ⟨⟨fun entry hentry => node_kept _ (hkept.interned entry hentry), ?_⟩,
    ⟨fun _ _ => node_kept _, fun _ h => h, rfl⟩, List.getElem?_concat_length .., rfl⟩
  intro id causes hnode
  rcases node_append hnode with hold | ⟨_, hnew⟩
  · exact hkept.oneTruncated id causes hold
  · cases hnew

/-- A propagation is a node whose first cause is the first one given, or it is the
truncated node, which is new only where there was none. -/
structure Propagates (arena arena' : FailureArena R) (cause id : FailureId) : Prop where
  kept : arena'.WellKept
  grows : arena.Grows arena'
  node : (∃ operation location others, arena'.node id =
      some (.propagated operation location (cause :: others)) ∧ arena'.truncated = arena.truncated) ∨
    (arena.truncated = some id ∧ arena' = arena) ∨
    (arena.truncated = none ∧ id = arena.nodes.length ∧ arena'.truncated = some id ∧
      ∃ others, arena'.node id = some (.truncated (cause :: others)))

theorem WellKept.propagateCauses (hkept : arena.WellKept)
    (hlimit : 1 ≤ arena.limits.maxCausesPerNode) (operation : FailureOperation)
    (location : Option Loc) (cause : FailureId) (rest : List FailureId) :
    ∃ id arena', arena.propagateCauses operation location (cause :: rest) = some (id, arena') ∧
      arena.Propagates arena' cause id := by
  obtain ⟨others, hcauses⟩ := normalizeCauses_cons hlimit cause rest
  simp only [FailureArena.propagateCauses, hcauses, reduceCtorEq, if_false]
  cases hfound : arena.propagated.find? fun entry => entry.1 = ⟨operation, location, cause :: others⟩ with
  | some entry =>
      obtain ⟨key, id⟩ := entry
      have hkey : key = ⟨operation, location, cause :: others⟩ := by
        simpa using List.find?_some hfound
      have hnode := hkept.interned _ (List.mem_of_find?_eq_some hfound)
      exact ⟨id, arena, rfl, hkept, .refl arena,
        .inl ⟨operation, location, others, by rw [hnode, hkey], rfl⟩⟩
  | none =>
      simp only
      split
      · cases htruncated : arena.truncated with
        | some id => exact ⟨id, arena, rfl, hkept, .refl arena, .inr (.inl ⟨htruncated, rfl⟩)⟩
        | none =>
            refine ⟨_, _, rfl, ⟨fun entry hentry => node_kept _ (hkept.interned entry hentry), ?_⟩,
              ⟨fun _ _ => node_kept _, fun id h => ?_, rfl⟩,
              .inr (.inr ⟨htruncated, rfl, rfl, others, List.getElem?_concat_length ..⟩)⟩
            · intro id causes hnode
              rcases node_append hnode with hold | ⟨hid, _⟩
              · cases htruncated.symm.trans (hkept.oneTruncated id causes hold)
              · exact congrArg some hid.symm
            · cases htruncated.symm.trans h
      · refine ⟨_, _, rfl, ⟨?_, ?_⟩, ⟨fun _ _ => node_kept _, fun _ h => h, rfl⟩,
          .inl ⟨operation, location, others, List.getElem?_concat_length .., rfl⟩⟩
        · intro entry hentry
          rcases List.mem_append.mp hentry with hold | hnew
          · exact node_kept _ (hkept.interned entry hold)
          · rw [List.mem_singleton.mp hnew]
            exact List.getElem?_concat_length ..
        · intro id causes hnode
          rcases node_append hnode with hold | ⟨_, hnew⟩
          · exact hkept.oneTruncated id causes hold
          · cases hnew

end FailureArena

end Telora
