import Mathlib.Data.List.Basic
import Mathlib.Data.List.Nodup
import Telora.Library.Lists
import Telora.Library.Machine

/-!
# Pending requests of the language server

The server keeps a table of the requests it has accepted, from the id the client chose to the
cancellation token of the handler. Requests arrive, handlers end, and notifications cancel,
in any order: a handler that waits lets every other party take steps.
-/

namespace Telora.Lsp

open Library

inductive RequestId where
  | number (number : Int)
  | string (string : String)
  deriving DecidableEq

inductive Lifecycle where
  | uninitialized
  | awaitingInitialized
  | running
  | shutdown
  deriving DecidableEq

inductive ErrorCode where
  | invalidRequest
  | serverNotInitialized
  deriving DecidableEq

/-- What comes of a request at once: an answer, an error, or a handler that will answer. -/
inductive Outcome where
  | answered
  | failed (code : ErrorCode) (message : String)
  | started
  deriving DecidableEq

/-- A handler that runs, with the id of its request and the token it checks. -/
structure Handler where
  id : RequestId
  token : Nat
  deriving DecidableEq

/-- Tokens are numbered in the order they are made; a cancelled one stays cancelled. -/
structure ServerState where
  lifecycle : Lifecycle := .uninitialized
  pending : List (RequestId × Nat) := []
  running : List Handler := []
  cancelled : List Nat := []
  nextToken : Nat := 0

namespace ServerState

variable (s : ServerState)

def cancelAll : ServerState :=
  { s with pending := [], cancelled := s.pending.map (·.2) ++ s.cancelled }

/-- The request to initialize; its parameters can be rejected. -/
def initializeRequest (valid : Bool) : Outcome × ServerState :=
  if s.lifecycle ≠ .uninitialized then (.failed .invalidRequest "already initialized", s)
  else if valid then (.answered, { s with lifecycle := .awaitingInitialized })
  else (.failed .invalidRequest "invalid parameters", s)

def shutdownRequest : Outcome × ServerState :=
  if s.lifecycle ≠ .running then (.failed .invalidRequest "server is not running", s)
  else (.answered, { s with lifecycle := .shutdown }.cancelAll)

/-- Any other request gets a token of its own and is entered under its id. -/
def dispatchRequest (id : RequestId) : Outcome × ServerState :=
  if s.lifecycle ≠ .running then
    (.failed .serverNotInitialized "server is not initialized", s)
  else if (s.pending.lookup id).isSome then
    (.failed .invalidRequest "duplicate request id", s)
  else
    (.started,
      { s with
        pending := (id, s.nextToken) :: s.pending
        running := ⟨id, s.nextToken⟩ :: s.running
        nextToken := s.nextToken + 1 })

/-- A handler ends, with whatever result, and takes the entry of its id out of the table. -/
def completeRequest (handler : Handler) : ServerState :=
  { s with
    pending := s.pending.filter fun entry => entry.1 ≠ handler.id
    running := s.running.erase handler }

def cancelNotification (id : RequestId) : ServerState :=
  match s.pending.lookup id with
  | some token =>
      { s with
        pending := s.pending.filter fun entry => entry.1 ≠ id
        cancelled := token :: s.cancelled }
  | none => s

def initializedNotification : ServerState :=
  if s.lifecycle = .awaitingInitialized then { s with lifecycle := .running } else s

end ServerState

inductive Event where
  | initialization (valid : Bool)
  | initialized
  | shutdown
  | exit
  | request (id : RequestId)
  | complete (handler : Handler)
  | cancel (id : RequestId)

namespace ServerState

def apply (s : ServerState) : Event → ServerState
  | .initialization valid => (s.initializeRequest valid).2
  | .initialized => s.initializedNotification
  | .shutdown => s.shutdownRequest.2
  | .exit => s.cancelAll
  | .request id => (s.dispatchRequest id).2
  | .complete handler => s.completeRequest handler
  | .cancel id => s.cancelNotification id

/-- Only a running handler can end. -/
def Enabled (s : ServerState) : Event → Prop
  | .complete handler => handler ∈ s.running
  | _ => True

end ServerState

def server : TransitionSystem ServerState Event where
  initial s := s = {}
  step s event s' := s.Enabled event ∧ s' = s.apply event

namespace ServerState

variable (s : ServerState)

/-- The table has the running handlers that are not cancelled, each under its id. -/
def Registered : Prop :=
  ∀ id token, s.pending.lookup id = some token ↔
    ⟨id, token⟩ ∈ s.running ∧ token ∉ s.cancelled

/-- Naming a running handler that is not cancelled cancels it. -/
def CancelReaches : Prop :=
  ∀ handler ∈ s.running, handler.token ∉ s.cancelled →
    handler.token ∈ (s.cancelNotification handler.id).cancelled ∧
    (s.lifecycle = .running → handler.token ∈ s.shutdownRequest.2.cancelled)

/-- A handler that ends leaves the entries and the tokens of all others alone. -/
def CompletionIsLocal : Prop :=
  ∀ handler ∈ s.running, ∀ other ∈ s.running, other ≠ handler →
    (s.completeRequest handler).pending.lookup other.id = s.pending.lookup other.id ∧
    other ∈ (s.completeRequest handler).running ∧
    (s.completeRequest handler).cancelled = s.cancelled

/-- What the table is for, in one state. -/
structure TableInStep : Prop where
  registered : s.Registered
  cancelReaches : s.CancelReaches
  completionIsLocal : s.CompletionIsLocal

/-- No request comes to the running server under the id of a cancelled request whose handler
still runs. A duplicate of a request that is not cancelled may come. -/
def FreshId : Event → Prop
  | .request id => s.lifecycle = .running →
      ∀ handler ∈ s.running, handler.token ∈ s.cancelled → handler.id ≠ id
  | _ => True

/-- The invariant: running handlers differ in id and token, and the table agrees with them. -/
structure Tracked : Prop where
  keys : (s.pending.map (·.1)).Nodup
  ids : (s.running.map (·.id)).Nodup
  tokens : (s.running.map (·.token)).Nodup
  older : ∀ handler ∈ s.running, handler.token < s.nextToken
  cancelledOlder : ∀ token ∈ s.cancelled, token < s.nextToken
  registered : s.Registered

variable {s}

theorem Tracked.eq_of_id (h : s.Tracked) {left right : Handler} (hleft : left ∈ s.running)
    (hright : right ∈ s.running) (hid : left.id = right.id) : left = right :=
  List.inj_on_of_nodup_map h.ids hleft hright hid

theorem Tracked.eq_of_token (h : s.Tracked) {left right : Handler} (hleft : left ∈ s.running)
    (hright : right ∈ s.running) (htoken : left.token = right.token) : left = right :=
  List.inj_on_of_nodup_map h.tokens hleft hright htoken

theorem Tracked.mem_pending (h : s.Tracked) {id : RequestId} {token : Nat} :
    (id, token) ∈ s.pending ↔ ⟨id, token⟩ ∈ s.running ∧ token ∉ s.cancelled := by
  rw [← h.registered]
  exact ⟨lookup_of_mem h.keys, mem_of_lookup⟩

/-- An id that the table does not have is that of cancelled handlers only. -/
theorem Tracked.cancelled_of_lookup (h : s.Tracked) {id : RequestId}
    (hnone : s.pending.lookup id = none) {handler : Handler} (hmem : handler ∈ s.running)
    (hid : handler.id = id) : handler.token ∈ s.cancelled := by
  subst hid
  by_contra hlive
  have hlookup := (h.registered handler.id handler.token).mpr ⟨hmem, hlive⟩
  rw [hnone] at hlookup
  cases hlookup

theorem Tracked.complete (h : s.Tracked) {handler : Handler} (hmem : handler ∈ s.running) :
    (s.completeRequest handler).Tracked where
  keys := h.keys.sublist (List.filter_sublist.map _)
  ids := h.ids.sublist ((List.erase_sublist).map _)
  tokens := h.tokens.sublist ((List.erase_sublist).map _)
  older other hother := h.older other (List.mem_of_mem_erase hother)
  cancelledOlder := h.cancelledOlder
  registered id token := by
    have hnodup : s.running.Nodup := h.ids.of_map
    change (s.pending.filter _).lookup id = some token ↔ ⟨id, token⟩ ∈ s.running.erase handler ∧ _
    rw [lookup_filter_ne, hnodup.mem_erase_iff]
    by_cases hid : id = handler.id
    · rw [if_pos hid]
      constructor
      · intro hnone
        cases hnone
      · rintro ⟨⟨hne, hrunning⟩, _⟩
        exact absurd (h.eq_of_id hrunning hmem hid) hne
    · have hne : (⟨id, token⟩ : Handler) ≠ handler := fun heq => hid (congrArg Handler.id heq)
      rw [if_neg hid, h.registered]
      exact and_congr_left' (and_iff_right hne).symm

theorem Tracked.dispatch (h : s.Tracked) {id : RequestId} (hfresh : s.FreshId (.request id)) :
    (s.dispatchRequest id).2.Tracked := by
  rw [dispatchRequest]
  split
  · exact h
  · rename_i hrunning
    split
    · exact h
    · rename_i hsome
      have hnone : s.pending.lookup id = none := Option.not_isSome_iff_eq_none.mp hsome
      have hfresh : ∀ handler ∈ s.running, handler.id ≠ id := fun handler hmem hid =>
        hfresh (not_not.mp hrunning) handler hmem (h.cancelled_of_lookup hnone hmem hid) hid
      constructor
      · refine List.nodup_cons.mpr ⟨fun hmem => ?_, h.keys⟩
        obtain ⟨entry, hentry, heq⟩ := List.mem_map.mp hmem
        have hkey : entry.1 = id := heq
        exact not_mem_keys_of_lookup hnone (hkey ▸ List.mem_map_of_mem hentry)
      · refine List.nodup_cons.mpr ⟨fun hmem => ?_, h.ids⟩
        obtain ⟨handler, hhandler, heq⟩ := List.mem_map.mp hmem
        exact hfresh handler hhandler heq
      · refine List.nodup_cons.mpr ⟨fun hmem => ?_, h.tokens⟩
        obtain ⟨handler, hhandler, heq⟩ := List.mem_map.mp hmem
        exact Nat.lt_irrefl _ (heq ▸ h.older handler hhandler)
      · intro handler hmem
        rcases List.mem_cons.mp hmem with rfl | hmem
        · exact Nat.lt_succ_self _
        · exact Nat.lt_succ_of_lt (h.older handler hmem)
      · exact fun token hmem => Nat.lt_succ_of_lt (h.cancelledOlder token hmem)
      · intro other token
        change List.lookup other ((id, s.nextToken) :: s.pending) = some token ↔
          ⟨other, token⟩ ∈ ⟨id, s.nextToken⟩ :: s.running ∧ token ∉ s.cancelled
        have hnext : s.nextToken ∉ s.cancelled := fun hmem =>
          Nat.lt_irrefl _ (h.cancelledOlder _ hmem)
        by_cases hid : other = id
        · subst hid
          rw [lookup_cons_self, List.mem_cons]
          constructor
          · intro heq
            obtain rfl := Option.some.inj heq
            exact ⟨.inl rfl, hnext⟩
          · rintro ⟨heq | hmem, _⟩
            · have htoken : token = s.nextToken := congrArg Handler.token heq
              rw [htoken]
            · exact absurd rfl (hfresh _ hmem)
        · have hne : (⟨other, token⟩ : Handler) ≠ ⟨id, s.nextToken⟩ := fun heq =>
            hid (congrArg Handler.id heq)
          rw [lookup_cons_ne hid, h.registered, List.mem_cons, or_iff_right hne]

theorem Tracked.cancel (h : s.Tracked) (id : RequestId) : (s.cancelNotification id).Tracked := by
  rw [cancelNotification]
  split
  · rename_i token hlookup
    obtain ⟨hmem, _⟩ := (h.registered id token).mp hlookup
    refine { h with
      keys := h.keys.sublist (List.filter_sublist.map _)
      cancelledOlder := fun other hother => ?_
      registered := fun other found => ?_ }
    · rcases List.mem_cons.mp hother with rfl | hother
      · exact h.older _ hmem
      · exact h.cancelledOlder other hother
    · change (s.pending.filter _).lookup other = some found ↔
        ⟨other, found⟩ ∈ s.running ∧ found ∉ token :: s.cancelled
      rw [lookup_filter_ne, List.mem_cons, not_or]
      by_cases hid : other = id
      · rw [if_pos hid]
        constructor
        · intro hnone
          cases hnone
        · rintro ⟨hfound, hne, _⟩
          exact absurd (congrArg Handler.token (h.eq_of_id hfound hmem hid)) hne
      · rw [if_neg hid, h.registered]
        refine and_congr_right fun hfound => ⟨fun hlive => ⟨fun heq => ?_, hlive⟩, And.right⟩
        exact hid (congrArg Handler.id (h.eq_of_token hfound hmem heq))
  · exact h

theorem Tracked.cancelAll (h : s.Tracked) : s.cancelAll.Tracked := by
  refine { h with
    keys := List.nodup_nil
    cancelledOlder := fun token hmem => ?_
    registered := fun id token => ?_ }
  · rcases List.mem_append.mp hmem with hmem | hmem
    · obtain ⟨⟨id, token⟩, hentry, rfl⟩ := List.mem_map.mp hmem
      exact h.older _ (h.mem_pending.mp hentry).1
    · exact h.cancelledOlder token hmem
  · constructor
    · intro hnone
      cases hnone
    · rintro ⟨hrunning, hlive⟩
      obtain ⟨hpending, hcancelled⟩ := not_or.mp fun h => hlive (List.mem_append.mpr h)
      have hentry := h.mem_pending.mpr ⟨hrunning, hcancelled⟩
      exact absurd (List.mem_map_of_mem hentry) hpending

theorem Tracked.step (h : s.Tracked) {event : Event} (hfresh : s.FreshId event)
    (henabled : s.Enabled event) : (s.apply event).Tracked := by
  cases event with
  | initialization valid =>
      rw [apply, initializeRequest]
      split
      · exact h
      · split
        · exact { h with }
        · exact h
  | initialized =>
      rw [apply, initializedNotification]
      split
      · exact { h with }
      · exact h
  | shutdown =>
      rw [apply, shutdownRequest]
      split
      · exact h
      · exact Tracked.cancelAll { h with }
  | exit => exact h.cancelAll
  | request id => exact h.dispatch hfresh
  | complete handler => exact h.complete henabled
  | cancel id => exact h.cancel id

theorem tracked_initial : Tracked {} where
  keys := List.nodup_nil
  ids := List.nodup_nil
  tokens := List.nodup_nil
  older _ hmem := absurd hmem List.not_mem_nil
  cancelledOlder _ hmem := absurd hmem List.not_mem_nil
  registered _ _ := by
    constructor
    · intro h
      cases h
    · exact fun h => absurd h.1 List.not_mem_nil

theorem Tracked.cancelReaches (h : s.Tracked) : s.CancelReaches := by
  intro handler hmem hlive
  have hlookup := (h.registered handler.id handler.token).mpr ⟨hmem, hlive⟩
  constructor
  · rw [cancelNotification, hlookup]
    exact List.mem_cons_self
  · intro hrunning
    rw [shutdownRequest, if_neg (not_not.mpr hrunning)]
    exact List.mem_append_left _ (List.mem_map_of_mem (mem_of_lookup hlookup))

theorem Tracked.completionIsLocal (h : s.Tracked) : s.CompletionIsLocal := by
  intro handler hmem other hother hne
  have hid : other.id ≠ handler.id := fun heq => hne (h.eq_of_id hother hmem heq)
  refine ⟨?_, (List.mem_erase_of_ne hne).mpr hother, rfl⟩
  exact (lookup_filter_ne s.pending).trans (if_neg hid)

theorem Tracked.tableInStep (h : s.Tracked) : s.TableInStep :=
  ⟨h.registered, h.cancelReaches, h.completionIsLocal⟩

/-- The request of a cancelled handler's id is taken up, and the end of that handler would take
its entry. -/
theorem Tracked.freshId_of_tableInStep (h : s.Tracked) {event : Event}
    (hstep : (s.apply event).TableInStep) : s.FreshId event := by
  cases event with
  | request id =>
      intro hrunning handler hmem hcancelled hid
      have hnone : s.pending.lookup id = none := by
        rw [Option.eq_none_iff_forall_ne_some]
        intro token hlookup
        obtain ⟨hfound, hlive⟩ := (h.registered id token).mp hlookup
        obtain rfl := h.eq_of_id hfound hmem hid.symm
        exact hlive hcancelled
      have hne : (⟨id, s.nextToken⟩ : Handler) ≠ handler := by
        rintro rfl
        exact Nat.lt_irrefl _ (h.older _ hmem)
      have htaken : s.apply (.request id) =
          { s with
            pending := (id, s.nextToken) :: s.pending
            running := ⟨id, s.nextToken⟩ :: s.running
            nextToken := s.nextToken + 1 } := by
        simp [apply, dispatchRequest, hrunning, hnone]
      rw [htaken] at hstep
      obtain ⟨hkept, _⟩ := hstep.completionIsLocal handler (List.mem_cons_of_mem _ hmem)
        ⟨id, s.nextToken⟩ List.mem_cons_self hne
      have hgone := (lookup_filter_ne ((id, s.nextToken) :: s.pending)).trans (if_pos hid.symm)
      rw [lookup_cons_self] at hkept
      cases hkept.symm.trans hgone
  | _ => trivial

end ServerState

/-- As long as no request comes to the running server under the id of a cancelled request whose
handler still runs, the table has exactly the running handlers that are not cancelled, and
cancelling reaches the right one. The first request that does puts the table out of step. -/
theorem table_in_step {s : ServerState}
    (h : server.ReachableBy (fun s event => s.FreshId event) s) :
    s.TableInStep ∧
      ∀ event, s.Enabled event → ((s.apply event).TableInStep ↔ s.FreshId event) := by
  have htracked : s.Tracked := by
    refine h.invariant ?_ ?_
    · rintro _ rfl
      exact ServerState.tracked_initial
    · rintro before event _ hbefore hfresh ⟨henabled, rfl⟩
      exact hbefore.step hfresh henabled
  refine ⟨htracked.tableInStep, fun event henabled => ⟨htracked.freshId_of_tableInStep, ?_⟩⟩
  exact fun hfresh => (htracked.step hfresh henabled).tableInStep

/-- A run of the server, with what every step needs. -/
def Follows (allowed : ServerState → Event → Prop) : ServerState → List Event → Prop
  | _, [] => True
  | s, event :: rest =>
      allowed s event ∧ s.Enabled event ∧ Follows allowed (s.apply event) rest

theorem reachableBy_of_follows {allowed : ServerState → Event → Prop} {s : ServerState}
    (hs : server.ReachableBy allowed s) (events : List Event) (h : Follows allowed s events) :
    server.ReachableBy allowed (events.foldl ServerState.apply s) := by
  induction events generalizing s with
  | nil => exact hs
  | cons event rest ih =>
      obtain ⟨hallowed, henabled, hrest⟩ := h
      exact ih (hs.step hallowed ⟨henabled, rfl⟩) hrest

/-- A duplicate of a request that waits is rejected, and its id is used again once the request
is cancelled and has answered. -/
theorem table_in_step_reused_id :
    let s : ServerState := { lifecycle := .running, pending := [(.number 1, 1)],
                             running := [⟨.number 1, 1⟩], cancelled := [0], nextToken := 2 }
    s.TableInStep ∧
      ∀ event, s.Enabled event → ((s.apply event).TableInStep ↔ s.FreshId event) :=
  table_in_step (reachableBy_of_follows (.initial rfl)
    [.initialization true, .initialized, .request (.number 1), .request (.number 1),
      .cancel (.number 1), .complete ⟨.number 1, 0⟩, .request (.number 1)]
    (by simp [Follows, ServerState.FreshId, ServerState.Enabled, ServerState.apply,
      ServerState.initializeRequest, ServerState.initializedNotification,
      ServerState.dispatchRequest, ServerState.cancelNotification, ServerState.completeRequest]))

/-- A request under the id of a cancelled one that has not answered yet loses its entry when
that one does, and then it cannot be cancelled. -/
theorem table_out_of_step : ¬∀ s, server.Reachable s → s.TableInStep := by
  intro h
  have hreach : server.Reachable _ := reachableBy_of_follows (.initial rfl)
    [.initialization true, .initialized, .request (.number 1), .cancel (.number 1),
      .request (.number 1), .complete ⟨.number 1, 0⟩]
    (by simp [Follows, ServerState.Enabled, ServerState.apply,
      ServerState.initializeRequest, ServerState.initializedNotification,
      ServerState.dispatchRequest, ServerState.cancelNotification])
  have hregistered := ((h _ hreach).registered (.number 1) 1).mpr (by decide)
  exact absurd hregistered (by decide)

end Telora.Lsp
