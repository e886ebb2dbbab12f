import Telora.Vm.NativeRuns
import Telora.Vm.Transition
import Mathlib.Data.Prod.Lex

/-!
# Executions within their quota

The stack is the windows of the running frames one on top of the other, and every
transition keeps it, the call depth and the charges within their limits. A step
spends fuel, or it leaves fuel alone and comes closer to the end of the frames and
natives that are left, or a native at work goes on. So an execution ends when the
natives that it invokes do.
-/

namespace Telora.Vm

open Bytecode Library

section Limits

/-- All frames, the executing one first. -/
def State.running (state : State) : List ExecutionFrame :=
  match state.phase with
  | .execute frame => frame :: state.frames
  | _ => state.frames

/-- Where the window of the top frame ends. -/
def top : List ExecutionFrame → Nat
  | [] => 0
  | frame :: _ => frame.stop

/-- Every frame's window starts where the one below ends. -/
def Stacked : List ExecutionFrame → Prop
  | [] => True
  | frame :: rest => frame.base = top rest ∧ Stacked rest

/-- The stack ends with the top frame's window, or with a native's window above it. -/
def Phase.Covers (running : List ExecutionFrame) (length : Nat) : Phase → Prop
  | .host call => call.base = top running ∧ top running ≤ length
  | _ => length = top running

/-- The invariant of an execution under a quota. -/
structure Within (quota : Quota) (state : State) : Prop where
  quota : state.store.account.quota = quota
  stacked : Stacked state.running
  covers : state.phase.Covers state.running state.store.stack.length
  limit : state.store.stack.length ≤ state.store.account.stackLimit
  depth : logicalDepth state.running ≤ maxCallDepth

variable {quota : Quota} {before after : State}

@[simp] theorem logicalDepth_cons (frame : ExecutionFrame) (frames : List ExecutionFrame) :
    logicalDepth (frame :: frames) =
      logicalDepth frames + frame.returnTarget.nativeDepth + 1 := by
  simp only [logicalDepth, List.length_cons, List.map_cons, List.sum_cons]
  omega

theorem length_le_logicalDepth (frames : List ExecutionFrame) :
    frames.length ≤ logicalDepth frames := Nat.le_add_right _ _

/-- A native that starts works above the top frame, within the limit. -/
theorem Within.of_started {returnTarget : ReturnTarget} {frames : List ExecutionFrame}
    {store later : Store} {phase : Phase} (hquota : store.account.quota = quota)
    (hstacked : Stacked frames) (hlength : store.stack.length = top frames)
    (hlimit : store.stack.length ≤ store.account.stackLimit)
    (hdepth : logicalDepth frames ≤ maxCallDepth)
    (h : Started returnTarget store phase later) : Within quota ⟨phase, frames, later⟩ := by
  cases h with
  | act kept target =>
      refine ⟨kept.quota.trans hquota, hstacked, kept.length.trans hlength, ?_, hdepth⟩
      rw [kept.toUnspent.stackLimit, kept.length]
      exact hlimit
  | host start unspent grown fits =>
      refine ⟨unspent.quota.trans hquota, hstacked, ⟨start.trans hlength, ?_⟩, ?_, hdepth⟩
      · exact hlength.symm.trans_le grown
      · rw [unspent.stackLimit]
        rcases fits with hsame | hfits
        · exact hsame.trans_le hlimit
        · exact hfits

/-- Every transition keeps the execution within its quota. -/
theorem Within.step (h : Within quota before) (hstep : Transition before after) :
    Within quota after := by
  obtain ⟨hquota, hstacked, hcovers, hlimit, hdepth⟩ := h
  cases hstep with
  | forward running ahead kept =>
      refine ⟨kept.quota.trans hquota, hstacked, kept.length.trans hcovers, ?_, hdepth⟩
      rw [kept.toUnspent.stackLimit, kept.length]
      exact hlimit
  | back spent length =>
      refine ⟨spent.quota.trans hquota, hstacked, length.trans hcovers, ?_, hdepth⟩
      rw [QuotaAccount.stackLimit, spent.quota, length]
      exact hlimit
  | call running kept =>
      refine ⟨kept.quota.trans hquota, hstacked, kept.length.trans hcovers, ?_, hdepth⟩
      rw [kept.toUnspent.stackLimit, kept.length]
      exact hlimit
  | leave running unspent length target =>
      rename_i frame frames action store later
      obtain ⟨hbase, hrest⟩ := hstacked
      have hcover : store.stack.length = frame.base + frame.function.registerCount := hcovers
      have hlength : later.stack.length = top frames := by
        rw [length, hcover, ← hbase]
        exact Nat.min_eq_left (Nat.le_add_right _ _)
      have hrunning : logicalDepth (frame :: frames) ≤ maxCallDepth := hdepth
      rw [logicalDepth_cons] at hrunning
      refine ⟨unspent.quota.trans hquota, hrest, hlength, ?_, show logicalDepth frames ≤ _ by omega⟩
      rw [unspent.stackLimit, length]
      exact (Nat.min_le_right _ _).trans hlimit
  | caller kept =>
      refine ⟨kept.quota.trans hquota, hstacked, kept.length.trans hcovers, ?_, hdepth⟩
      rw [kept.toUnspent.stackLimit, kept.length]
      exact hlimit
  | resume started => exact .of_started hquota hstacked hcovers hlimit hdepth started
  | invoke depth spent stack started =>
      rename_i request frames phase store middle later
      have hmiddle : middle.account.stackLimit = store.account.stackLimit := by
        simp only [QuotaAccount.stackLimit, spent.quota]
      have hlength : middle.stack.length = top frames := (congrArg List.length stack).trans hcovers
      have hfits : middle.stack.length ≤ middle.account.stackLimit := by
        rw [hmiddle, stack]
        exact hlimit
      rcases started with hstarted | hentered
      · exact .of_started (spent.quota.trans hquota) hstacked hlength hfits hdepth hstarted
      · cases hentered with
        | enter unspent base covers fits target =>
            refine ⟨unspent.quota.trans (spent.quota.trans hquota),
              ⟨base.trans hlength, hstacked⟩, covers, ?_, ?_⟩
            · rw [unspent.stackLimit]
              exact covers.trans_le fits
            · have hcall : logicalDepth frames + request.returnTarget.nativeDepth < maxCallDepth :=
                depth
              change logicalDepth (_ :: frames) ≤ _
              rw [logicalDepth_cons, target]
              omega
  | request unspent grown fits =>
      obtain ⟨hbase, hbelow⟩ := hcovers
      refine ⟨unspent.quota.trans hquota, hstacked, ⟨hbase, hbelow.trans grown⟩, ?_, hdepth⟩
      rw [unspent.stackLimit]
      rcases fits with hsame | hfits
      · exact hsame.trans_le hlimit
      · exact hfits
  | finish unspent length _ =>
      obtain ⟨hbase, hbelow⟩ := hcovers
      refine ⟨unspent.quota.trans hquota, hstacked, ?_, ?_, hdepth⟩
      · have hmin := Nat.min_eq_left (hbase.trans_le hbelow)
        exact length.trans (hmin.trans hbase)
      · rw [unspent.stackLimit, length]
        exact (Nat.min_le_right _ _).trans hlimit

end Limits

section Termination

/-- What is left of a frame: its instructions, its return, and the natives it returns to. -/
def ExecutionFrame.work (frame : ExecutionFrame) : Nat :=
  frame.function.instructions.length - frame.pc + 2 + 2 * frame.returnTarget.nativeDepth

def Phase.work : Phase → Nat
  | .execute frame => frame.work
  | .act (.call _) => 0
  | .act (.ret _ returnTarget) => 1 + 2 * returnTarget.nativeDepth
  | .host call => 2 + 2 * call.returnTarget.nativeDepth

/-- What can be done before the next call or backward jump. -/
def State.work (state : State) : Nat :=
  state.phase.work + (state.frames.map (·.work)).sum

/-- Fuel first, then the work of the frames. -/
def State.remaining (state : State) : ℕ ×ₗ ℕ :=
  toLex (state.store.account.remainingFuel, state.work)

/-- The native that was at work still is, after more answers. -/
def AtWork (before after : State) : Prop :=
  ∃ call answers, before.phase = .host call ∧ after.frames = before.frames ∧
    after.phase = .host { call with program := fun later => call.program (answers ++ later) }

variable {before after : State}

theorem remaining_lt_of_fuel
    (h : after.store.account.remainingFuel < before.store.account.remainingFuel) :
    after.remaining < before.remaining :=
  Prod.Lex.toLex_lt_toLex.mpr (.inl h)

theorem remaining_lt_of_work
    (hfuel : after.store.account.remainingFuel = before.store.account.remainingFuel)
    (hwork : after.work < before.work) : after.remaining < before.remaining :=
  Prod.Lex.toLex_lt_toLex.mpr (.inr ⟨hfuel, hwork⟩)

theorem work_ret (value : RichValue) (returnTarget : ReturnTarget) :
    (Phase.act (.ret value returnTarget)).work = 1 + 2 * returnTarget.nativeDepth := rfl

theorem VmAction.For.work_le {returnTarget : ReturnTarget} {action : VmAction}
    (h : action.For returnTarget) :
    (Phase.act action).work ≤ 1 + 2 * returnTarget.nativeDepth := by
  cases h <;> simp [Phase.work]

theorem Started.work_le {returnTarget : ReturnTarget} {store later : Store} {phase : Phase}
    (h : Started returnTarget store phase later) :
    phase.work ≤ 2 + 2 * returnTarget.nativeDepth := by
  cases h with
  | act kept target =>
      have := target.work_le
      omega
  | host => exact le_rfl

theorem AtWork.trans {a b c : State} (hab : AtWork a b) (hbc : AtWork b c) : AtWork a c := by
  obtain ⟨call, first, hphase, hframes, hlater⟩ := hab
  obtain ⟨_, second, hlater', hframes', hlast⟩ := hbc
  obtain rfl := Phase.host.inj (hlater.symm.trans hlater')
  refine ⟨call, first ++ second, hphase, hframes'.trans hframes, ?_⟩
  simpa only [List.append_assoc] using hlast

/-- Every transition decreases what remains, except the requests of a native at work. -/
theorem Transition.remaining_lt_or (h : Transition before after) :
    after.remaining < before.remaining ∨
      after.remaining = before.remaining ∧ AtWork before after := by
  cases h with
  | forward running ahead kept =>
      apply Or.inl
      apply remaining_lt_of_work kept.fuel
      simp only [State.work, Phase.work, ExecutionFrame.work]
      omega
  | back spent length =>
      apply Or.inl
      apply remaining_lt_of_fuel
      exact spent.fuel.symm ▸ Nat.lt_succ_self _
  | call running kept =>
      apply Or.inl
      apply remaining_lt_of_work kept.fuel
      simp only [State.work, Phase.work, ExecutionFrame.work, ExecutionFrame.advance,
        List.map_cons, List.sum_cons]
      omega
  | leave running unspent length target =>
      apply Or.inl
      apply remaining_lt_of_work unspent.fuel
      have hwork := target.work_le
      simp only [State.work, ExecutionFrame.work, Phase.work.eq_1]
      omega
  | caller kept =>
      apply Or.inl
      apply remaining_lt_of_work kept.fuel
      simp only [State.work, Phase.work, ReturnTarget.nativeDepth, List.map_cons, List.sum_cons]
      omega
  | resume started =>
      apply Or.inl
      apply remaining_lt_of_work started.unspent.fuel
      have hwork := started.work_le
      rw [State.work, State.work, work_ret, ReturnTarget.nativeDepth]
      dsimp only
      omega
  | invoke depth spent stack started =>
      apply Or.inl
      apply remaining_lt_of_fuel
      rcases started with hstarted | hentered
      · exact (spent.trans_unspent hstarted.unspent).fuel.symm ▸ Nat.lt_succ_self _
      · exact (spent.trans_unspent hentered.unspent).fuel.symm ▸ Nat.lt_succ_self _
  | @request call granted frames store later unspent grown fits =>
      refine .inr ⟨?_, call, [granted], rfl, rfl, rfl⟩
      have hfuel : later.account.remainingFuel = store.account.remainingFuel := unspent.fuel
      simp only [State.remaining, hfuel]
      rfl
  | finish unspent length target =>
      apply Or.inl
      apply remaining_lt_of_work unspent.fuel
      have hwork := target.work_le
      simp only [State.work, Phase.work.eq_4]
      omega

end Termination

section Executions

variable {env : Environment} {quota : Quota}

/-- A started execution is within the quota of its account. -/
theorem within_of_start {externals : String → Option RichValue} {function : FunctionRef}
    {arguments captures : List Value} {account : QuotaAccount} {initial : State}
    (h : start env externals function arguments captures account = .ok initial) :
    Within account.quota initial := by
  unfold start at h
  obtain ⟨⟨prototype, current₁⟩, -, h⟩ := bind_eq_ok.mp h
  obtain ⟨⟨arguments', current₂⟩, -, h⟩ := bind_eq_ok.mp h
  obtain ⟨⟨captures', current₃⟩, -, h⟩ := bind_eq_ok.mp h
  obtain ⟨⟨frame, stack⟩, hframe, h⟩ := bind_eq_ok.mp h
  obtain ⟨hmade, hlength, hfits⟩ := makeExecutionFrame_eq_ok hframe
  rw [← pure_eq_ok.mp h]
  have hone : logicalDepth [frame] ≤ maxCallDepth := by
    rw [hmade]
    simp [logicalDepth, ReturnTarget.nativeDepth, maxCallDepth]
  exact ⟨rfl, ⟨by rw [hmade]; rfl, trivial⟩, hlength, hlength.trans_le hfits, hone⟩

theorem Within.reaches {before after : State} (h : Reaches (Vm.step env) before after)
    (hwithin : Within quota before) : Within quota after :=
  h.invariant (fun _ _ hinv hstep => hinv.step (step_transition hstep)) hwithin

theorem remaining_lt_or_of_steps (before after : State) (h : Steps (Vm.step env) before after) :
    after.remaining < before.remaining ∨
      after.remaining = before.remaining ∧ AtWork before after :=
  (step_transition h).remaining_lt_or

/-- What a native at work does is a step of the machine. -/
theorem HostCall.Continues.step {frames : List ExecutionFrame} {call call' : HostCall}
    {store store' : Store} (h : Continues (call', store') (call, store)) :
    Steps (Vm.step env) ⟨.host call, frames, store⟩ ⟨.host call', frames, store'⟩ := by
  have hrun : (hostStep call).run store = .ok (.host call', store') := h
  simp only [Steps, Vm.step, proceed, StateT.run_bind, hrun]
  rfl

/-- A step that leaves a native at work is the native's. -/
theorem HostCall.Continues.of_step {frames frames' : List ExecutionFrame} {call call' : HostCall}
    {store store' : Store}
    (h : Steps (Vm.step env) ⟨.host call, frames, store⟩ ⟨.host call', frames', store'⟩) :
    Continues (call', store') (call, store) := by
  simp only [Steps, Vm.step, proceed, StateT.run_bind] at h
  cases hrun : (hostStep call).run store with
  | error error => rw [hrun] at h; cases h
  | ok result =>
      obtain ⟨phase, later⟩ := result
      rw [hrun] at h
      cases h
      exact hrun

/-- A native at work on a frame stack ends when it ends by itself. -/
theorem acc_atWork {state : State} (h : ∀ call, state.phase = .host call →
    call.EndsFrom state.store) :
    Acc (fun after before => Steps (Vm.step env) before after ∧ AtWork before after) state := by
  obtain ⟨phase, frames, store⟩ := state
  cases phase with
  | host call =>
      have hends : Acc HostCall.Continues (call, store) := h call rfl
      generalize hpair : (call, store) = pair at hends
      clear h
      induction hends generalizing call store with
      | intro pair _ ih =>
          subst hpair
          refine Acc.intro _ ?_
          rintro ⟨phase', frames', store'⟩ ⟨hstep, _, answers, hphase, hframes, hlater⟩
          obtain rfl : phase' = _ := hlater
          obtain rfl : frames' = frames := hframes
          exact ih _ (HostCall.Continues.of_step hstep) _ _ rfl
  | _ =>
      refine Acc.intro _ ?_
      rintro after ⟨-, call, answers, hphase, -⟩
      cases hphase

theorem halts_iff {initial : State} :
    Halts (Vm.step env) initial ↔ ∀ state, Reaches (Vm.step env) initial state →
      ∀ call, state.phase = .host call → call.EndsFrom state.store := by
  constructor
  · rintro hhalts ⟨phase, frames, store⟩ hreaches call rfl
    have hacc := hhalts.of_reaches hreaches
    generalize hstate : (⟨.host call, frames, store⟩ : State) = state at hacc
    unfold Halts at hacc
    induction hacc generalizing call store with
    | intro state _ ih =>
        subst hstate
        refine Acc.intro _ fun (call', store') hcontinues => ?_
        exact ih _ hcontinues.step _ _ (hreaches.tail hcontinues.step) rfl
  · intro hends
    exact halts_of_measure State.remaining remaining_lt_or_of_steps
      fun state hreaches => acc_atWork (hends state hreaches)

/-- The execution of a function ends exactly when the natives that it invokes end. While it
runs its frames, its stack and its charges are within their limits, and what remains of it
decreases whenever it does not merely wait for a native. -/
theorem execution_ends_within_quota (env : Environment) (externals : String → Option RichValue)
    (function : FunctionRef) (arguments captures : List Value) (account : QuotaAccount) :
    ((∃ steps halt,
        executeFrame env steps externals function arguments captures account = some halt) ↔
      ∀ initial, start env externals function arguments captures account = .ok initial →
        ∀ state, Reaches (step env) initial state →
          ∀ call, state.phase = .host call → call.EndsFrom state.store) ∧
    ∀ initial, start env externals function arguments captures account = .ok initial →
      ∀ state, Reaches (step env) initial state →
        state.running.length ≤ maxCallDepth ∧
        state.store.stack.length ≤ account.stackLimit ∧
        state.store.account.requestedAllocationBytes ≤ account.quota.allocationBytes ∧
        ∀ later, Progresses (step env) state later →
          later.remaining < state.remaining ∨
            later.remaining = state.remaining ∧ AtWork state later := by
  constructor
  · cases hstart : start env externals function arguments captures account with
    | error error =>
        refine iff_of_true ⟨0, .failure error, by simp [executeFrame, hstart]⟩ ?_
        intro initial hinitial
        cases hinitial
    | ok initial =>
        have hruns (steps : Nat) : executeFrame env steps externals function arguments captures
            account = runFor (step env) steps initial := by
          rw [executeFrame, hstart]
        simp only [hruns, Except.ok.injEq, forall_eq']
        exact exists_runFor_iff_halts.trans halts_iff
  · intro initial hstart state hreaches
    have hwithin := (within_of_start hstart).reaches hreaches
    refine ⟨(length_le_logicalDepth _).trans hwithin.depth, ?_, ?_, ?_⟩
    · rw [QuotaAccount.stackLimit, ← hwithin.quota]
      exact hwithin.limit
    · rw [← hwithin.quota]
      exact state.store.account.within
    · intro later hlater
      exact hlater.measure_lt_or State.remaining remaining_lt_or_of_steps AtWork.trans

def recursiveEnvironment : Environment := .withoutNatives HeapView.recursiveHeap

/-- `validate(T, [])`, where the type `T` is in the main heap. -/
def validateRecursive : FuncByteCode where
  name := "main"
  parameterCount := 0
  captureCount := 0
  registerCount := 3
  instructions := [.loadConst 0 0, .loadConst 1 1, .makeArray 2 [], .call 0 2, .ret 0]
  debugOrigins := []

/-- The function with its two links. -/
def validateRecursiveRef : FunctionRef :=
  .mk 0 (.mk validateRecursive [.func 0 (.native validateFunction) [], .int 0] [none, some "T"]
    [] [])

def recursiveExternals (_ : String) : Option RichValue := some (.unknown (.dict ⟨.main, 1⟩))

/-- The work heap at the call: the function, the closure of `validate` and the empty array. -/
def validateHeap : Heap where
  storage := .work
  objects := [
    .byteCodeProto validateRecursive
      [.unknown (.func ⟨.work, 1⟩), .unknown (.dict ⟨.main, 1⟩)] [] [],
    .closure 0 (.native validateFunction) [], .array []]
  text := .empty
  shapes := .empty

/-- The call reaches the native with the metadata of `T`. -/
theorem validateRecursive_reaches : ∃ initial call frames store,
    start recursiveEnvironment recursiveExternals validateRecursiveRef [] []
      (.new ⟨10, 10, 1000⟩) = .ok initial ∧
    Reaches (step recursiveEnvironment) initial ⟨.host call, frames, store⟩ ∧
    call.program = (nativeValidate recursiveEnvironment (.unknown (.dict ⟨.main, 1⟩))
      (.unknown (.array ⟨.work, 2⟩)) validateHeap).map (callbackResult validateFunction call.site) :=
  ⟨_, _, _, _, rfl, .tail (.tail (.tail (.tail (.tail .refl rfl) rfl) rfl) rfl) rfl, rfl⟩

/-- What `validate` reads there. -/
def validateView : HeapView := ⟨validateHeap, some HeapView.recursiveHeap⟩

theorem validateView_dictsOrdered : validateView.DictsOrdered := by
  intro handle shape values h
  obtain ⟨heap, hheap, hslot⟩ := HeapView.object_eq_ok.mp h
  cases hstorage : handle.storage <;> rw [hstorage] at hheap <;> cases hheap
  · have hmem := List.mem_of_getElem? hslot
    simp [validateView, validateHeap] at hmem
  · have hmem := List.mem_of_getElem? hslot
    simp only [HeapView.recursiveHeap, List.mem_cons, reduceCtorEq, Object.dict.injEq,
      List.not_mem_nil, or_false, false_or] at hmem
    obtain ⟨rfl, rfl⟩ := hmem
    exact ⟨["item", "kind"], by decide +kernel, rfl, by decide +kernel⟩

theorem validateView_decodes_never (depth : Nat) (path : String) :
    validateView.decodeTypeRef depth (.dict ⟨.main, 1⟩) path = .none := by
  have hentries : validateView.entries (.dict ⟨.main, 1⟩) =
      some [("item", .upLink ⟨.main, 0⟩), ("kind", .atom ⟨.main, 2⟩)] := by decide +kernel
  have hraw : validateView.RawLayer (.dict ⟨.main, 1⟩) (.array (.upLink ⟨.main, 0⟩)) :=
    .array hentries (by decide +kernel)
  have hlink : validateView.LinkTo (.upLink ⟨.main, 0⟩) (.dict ⟨.main, 1⟩) :=
    ⟨⟨.main, 0⟩, .unknown (.dict ⟨.main, 1⟩), rfl, rfl, rfl⟩
  exact HeapView.decodeTypeRef_eq_none validateView_dictsOrdered hraw hlink rfl depth path

/-- Validating against a type that refers to itself keeps an execution from ending. -/
theorem recursive_type_keeps_running :
    ¬∀ (env : Environment) (externals : String → Option RichValue) (function : FunctionRef)
      (arguments captures : List Value) (account : QuotaAccount), ∃ steps halt,
        executeFrame env steps externals function arguments captures account = some halt := by
  intro h
  obtain ⟨initial, call, frames, store, hstart, hreaches, hprogram⟩ := validateRecursive_reaches
  obtain ⟨steps, halt, hrun⟩ := h recursiveEnvironment recursiveExternals validateRecursiveRef
    [] [] (.new ⟨10, 10, 1000⟩)
  rw [executeFrame, hstart] at hrun
  have hhalts := exists_runFor_iff_halts.mp ⟨steps, halt, hrun⟩
  have hends : call.EndsFrom store := halts_iff.mp hhalts _ hreaches call rfl
  refine HostCall.not_endsFrom_of_works (fun answers => ?_) hends
  rw [hprogram]
  exact HostProgram.bind_works
    (nativeValidate_works fun depth => validateView_decodes_never depth "Type") answers

end Executions

end Telora.Vm
