import Telora.Vm.Step

/-!
# What a step can do

Every step of the machine is one of a few transitions. Each says which frames it
leaves, how the stack and the account change, and where a pending value goes; the
limits and the measure of the machine are read off it.
-/

namespace Telora.Vm

open Bytecode Library

/-- One unit of fuel was spent. -/
structure Spent (before after : Store) : Prop where
  quota : after.account.quota = before.account.quota
  fuel : before.account.remainingFuel = after.account.remainingFuel + 1

theorem Spent.trans_unspent {a b c : Store} (hab : Spent a b) (hbc : Unspent b c) : Spent a c :=
  ⟨hbc.quota.trans hab.quota, hab.fuel.trans (congrArg (· + 1) hbc.fuel.symm)⟩

theorem Unspent.trans_spent {a b c : Store} (hab : Unspent a b) (hbc : Spent b c) : Spent a c :=
  ⟨hbc.quota.trans hab.quota, hab.fuel.symm.trans hbc.fuel⟩

/-- An action that a native with a return target takes next: a call, or the return of
its value. -/
inductive VmAction.For (returnTarget : ReturnTarget) : VmAction → Prop
  | call (request : CallRequest) : VmAction.For returnTarget (.call request)
  | ret (value : RichValue) : VmAction.For returnTarget (.ret value returnTarget)

/-- The phases that a native with a return target goes on in. A native at work may have
opened a window on the stack, within the stack limit. -/
inductive Started (returnTarget : ReturnTarget) (before : Store) : Phase → Store → Prop
  | act {action : VmAction} {after : Store} (kept : Kept before after)
      (target : action.For returnTarget) : Started returnTarget before (.act action) after
  | host {program : CoreProgram} {base : Nat} {site : Site} {after : Store}
      (start : base = before.stack.length) (unspent : Unspent before after)
      (grown : before.stack.length ≤ after.stack.length)
      (fits : after.stack.length = before.stack.length ∨
        after.stack.length ≤ before.account.stackLimit) :
      Started returnTarget before (.host ⟨program, base, site, returnTarget⟩) after

/-- A bytecode function is entered on top of the stack, within the stack limit. -/
inductive Entered (returnTarget : ReturnTarget) (before : Store) : Phase → Store → Prop
  | enter {frame : ExecutionFrame} {after : Store} (unspent : Unspent before after)
      (base : frame.base = before.stack.length) (covers : after.stack.length = frame.stop)
      (fits : frame.stop ≤ before.account.stackLimit)
      (target : frame.returnTarget = returnTarget) :
      Entered returnTarget before (.execute frame) after

theorem Started.unspent {returnTarget : ReturnTarget} {before after : Store} {phase : Phase}
    (h : Started returnTarget before phase after) : Unspent before after := by
  cases h with
  | act kept => exact kept.toUnspent
  | host start unspent => exact unspent

theorem Entered.unspent {returnTarget : ReturnTarget} {before after : Store} {phase : Phase}
    (h : Entered returnTarget before phase after) : Unspent before after := by
  cases h with
  | enter unspent => exact unspent

/-- The steps that the machine takes. -/
inductive Transition : State → State → Prop
  | forward {frame : ExecutionFrame} {frames : List ExecutionFrame} {pc : Nat}
      {before after : Store} (running : frame.pc < frame.function.instructions.length)
      (ahead : frame.pc < pc) (kept : Kept before after) :
      Transition ⟨.execute frame, frames, before⟩ ⟨.execute { frame with pc }, frames, after⟩
  | back {frame : ExecutionFrame} {frames : List ExecutionFrame} {pc : Nat}
      {before after : Store} (spent : Spent before after)
      (length : after.stack.length = before.stack.length) :
      Transition ⟨.execute frame, frames, before⟩ ⟨.execute { frame with pc }, frames, after⟩
  | call {frame : ExecutionFrame} {frames : List ExecutionFrame} {request : CallRequest}
      {before after : Store} (running : frame.pc < frame.function.instructions.length)
      (kept : Kept before after) :
      Transition ⟨.execute frame, frames, before⟩
        ⟨.act (.call request), frame.advance :: frames, after⟩
  | leave {frame : ExecutionFrame} {frames : List ExecutionFrame} {action : VmAction}
      {before after : Store} (running : frame.pc < frame.function.instructions.length)
      (unspent : Unspent before after)
      (length : after.stack.length = min frame.base before.stack.length)
      (target : action.For frame.returnTarget) :
      Transition ⟨.execute frame, frames, before⟩ ⟨.act action, frames, after⟩
  | caller {value : RichValue} {destination : Register} {callSite : Option Loc}
      {frame : ExecutionFrame} {frames : List ExecutionFrame} {before after : Store}
      (kept : Kept before after) :
      Transition ⟨.act (.ret value (.register destination callSite)), frame :: frames, before⟩
        ⟨.execute frame, frames, after⟩
  | resume {value : RichValue} {continuation : NativeContinuation} {returnTarget : ReturnTarget}
      {frames : List ExecutionFrame} {phase : Phase} {before after : Store}
      (started : Started returnTarget before phase after) :
      Transition ⟨.act (.ret value (.native continuation returnTarget)), frames, before⟩
        ⟨phase, frames, after⟩
  | invoke {request : CallRequest} {frames : List ExecutionFrame} {phase : Phase}
      {before middle after : Store}
      (depth : logicalDepth frames + request.returnTarget.nativeDepth < maxCallDepth)
      (spent : Spent before middle) (stack : middle.stack = before.stack)
      (started : Started request.returnTarget middle phase after ∨
        Entered request.returnTarget middle phase after) :
      Transition ⟨.act (.call request), frames, before⟩ ⟨phase, frames, after⟩
  | request {call : HostCall} {granted : Bool} {frames : List ExecutionFrame}
      {before after : Store} (unspent : Unspent before after)
      (grown : before.stack.length ≤ after.stack.length)
      (fits : after.stack.length = before.stack.length ∨
        after.stack.length ≤ before.account.stackLimit) :
      Transition ⟨.host call, frames, before⟩ ⟨.host (call.answered granted), frames, after⟩
  | finish {call : HostCall} {action : VmAction} {frames : List ExecutionFrame}
      {before after : Store} (unspent : Unspent before after)
      (length : after.stack.length = min call.base before.stack.length)
      (target : action.For call.returnTarget) :
      Transition ⟨.host call, frames, before⟩ ⟨.act action, frames, after⟩

section Natives

/-- The run keeps the store, and its action is one for the return target. -/
def Acts (returnTarget : ReturnTarget) (x : Exec VmAction) : Prop :=
  ∀ store, Runs x store (fun action after => Kept store after ∧ action.For returnTarget)
    fun _ => True

namespace Acts

variable {returnTarget : ReturnTarget}

theorem call (request : CallRequest) : Acts returnTarget (pure (.call request)) :=
  fun store => Runs.pure ⟨Kept.refl store, .call request⟩

theorem ret (value : RichValue) : Acts returnTarget (pure (.ret value returnTarget)) :=
  fun store => Runs.pure ⟨Kept.refl store, .ret value⟩

theorem throw (error : RuntimeError) : Acts returnTarget (MonadExcept.throw error) :=
  fun _ => Runs.throw trivial

theorem bind {α : Type} {x : Exec α} {f : α → Exec VmAction} (hx : Keeps x)
    (hf : ∀ a, Acts returnTarget (f a)) : Acts returnTarget (x >>= f) := by
  intro store
  apply Runs.bind
  apply (hx store).imp _ fun _ => id
  intro a middle hmiddle
  apply (hf a middle).imp _ fun _ => id
  rintro action after ⟨hafter, htarget⟩
  exact ⟨hmiddle.trans hafter, htarget⟩

theorem ite {p : Prop} [Decidable p] {x y : Exec VmAction} (hx : Acts returnTarget x)
    (hy : Acts returnTarget y) : Acts returnTarget (if p then x else y) := by
  split
  · exact hx
  · exact hy

end Acts

namespace Keeps

variable (env : Environment) (site : Site)

theorem arrayValues (handle : Handle) : Keeps (Vm.arrayValues env site handle) := look env _

theorem arrayItem (source : Handle) (index : Nat) :
    Keeps (Vm.arrayItem env site source index) := by
  apply bind (arrayValues env site source)
  intro values
  split
  · exact pure _
  · exact throw _

theorem checkCallback (name : String) (callback : RichValue) (expected : Nat) :
    Keeps (Vm.checkCallback env site name callback expected) := by
  unfold Vm.checkCallback
  split
  · apply bind (look env _)
    intro actual
    split
    · exact throw _
    · exact pure _
  · exact bind get fun store => throw _

theorem finishArray (operation : ArrayOperation) (output : List RichValue) :
    Keeps (Vm.finishArray env site operation output) := by
  cases operation with
  | fold | any | all | find => exact pure _
  | map | filter | flatMap => exact allocateAt site _ _
  | foldControl accumulator =>
      apply bind (chargeValues site env 2)
      intro _
      apply bind (onWork _)
      intro tag
      exact allocateAt site _ _

theorem zipArrays (source right : RichValue) (left : List RichValue) :
    Keeps (Vm.zipArrays env site source right left) := by
  unfold Vm.zipArrays
  split
  · apply bind (arrayValues env site _)
    intro values
    split
    · exact pure _
    · apply bind (chargeValues site env _)
      intro _
      apply bind (mapM (fun pair => bind (onWork _) fun _ => pure _) _)
      intro pairs
      apply bind (onWork _)
      intro array
      apply bind (onWork _)
      intro tagged
      exact pure _
  · exact bind get fun store => throw _

theorem chargeCoreDictOutput (valueSlots : Nat) (textLengths : List Nat) :
    Keeps (Vm.chargeCoreDictOutput env site valueSlots textLengths) :=
  chargeChecked site _ _

theorem allocateCoreDictUnchecked (entries : List (String × RichValue)) :
    Keeps (Vm.allocateCoreDictUnchecked site entries) := by
  apply bind (onWork _)
  intro fields
  apply bind (onWork _)
  intro shape
  exact allocateAt site _ _

end Keeps

variable (env : Environment) (returnTarget : ReturnTarget)

theorem nextArrayAction_acts (continuation : ArrayContinuation) :
    Acts returnTarget (nextArrayAction env continuation returnTarget) := by
  apply Acts.bind (Keeps.arrayValues env _ _)
  intro values
  apply Acts.ite
  · exact Acts.bind (Keeps.finishArray env _ _ _) fun value => Acts.ret value
  · exact Acts.bind (Keeps.arrayItem env _ _ _) fun item => Acts.call _

theorem resumeArrayContinuation_acts (continuation : ArrayContinuation) (value : RichValue) :
    Acts returnTarget (resumeArrayContinuation env continuation returnTarget value) := by
  have hnext := fun continuation => nextArrayAction_acts env returnTarget continuation
  unfold resumeArrayContinuation
  cases continuation.operation with
  | map => exact Acts.bind (Keeps.chargeValues _ env 1) fun _ => hnext _
  | filter =>
      apply Acts.bind (Keeps.lift _)
      intro answer
      apply Acts.ite
      · apply Acts.bind (Keeps.arrayItem env _ _ _)
        intro item
        exact Acts.bind (Keeps.chargeValues _ env 1) fun _ => hnext _
      · exact hnext _
  | flatMap =>
      dsimp only
      split
      · apply Acts.bind (Keeps.arrayValues env _ _)
        intro values
        exact Acts.bind (Keeps.chargeValues _ env _) fun _ => hnext _
      · exact Acts.throw _
  | fold => exact hnext _
  | foldControl =>
      dsimp only
      split
      · apply Acts.bind (Keeps.look env _)
        rintro ⟨tag, payload⟩
        apply Acts.bind (Keeps.look env _)
        intro text
        split
        · exact hnext _
        · exact Acts.ret value
        · exact Acts.throw _
      · exact Acts.throw _
  | any =>
      apply Acts.bind (Keeps.lift _)
      intro answer
      exact Acts.ite (Acts.ret _) (hnext _)
  | all =>
      apply Acts.bind (Keeps.lift _)
      intro answer
      exact Acts.ite (hnext _) (Acts.ret _)
  | find =>
      apply Acts.bind (Keeps.lift _)
      intro answer
      apply Acts.ite
      · apply Acts.bind (Keeps.arrayItem env _ _ _)
        intro item
        apply Acts.bind (Keeps.chargeValues _ env 2)
        intro _
        exact Acts.bind (Keeps.allocateAt _ _ _) fun found => Acts.ret found
      · exact hnext _

theorem suspendArray_acts (site : Site) (operation : ArrayOperation) (source : Handle)
    (callback : RichValue) :
    Acts returnTarget (suspendArray env site operation source callback returnTarget) :=
  Acts.bind (Keeps.checkCallback env site _ _ _) fun _ => nextArrayAction_acts env returnTarget _

theorem arrayFunction_acts (site : Site) (function : CoreArrayFunction)
    (arguments : Fin function.arity → RichValue) (source : RichValue) (handle : Handle)
    (values : List RichValue) :
    Acts returnTarget
      (arrayFunction env site function arguments source handle values returnTarget) := by
  unfold arrayFunction
  cases function with
  | length =>
      dsimp only
      split
      · exact Acts.ret _
      · exact Acts.throw _
  | push =>
      apply Acts.bind (Keeps.chargeValues site env _)
      intro _
      exact Acts.bind (Keeps.allocateAt site _ _) fun array => Acts.ret array
  | concat =>
      apply Acts.bind (Keeps.mapM (fun item => Keeps.look env _) _)
      intro arrays
      apply Acts.bind (Keeps.chargeValues site env _)
      intro _
      exact Acts.bind (Keeps.allocateAt site _ _) fun array => Acts.ret array
  | zip => exact Acts.bind (Keeps.zipArrays env site _ _ _) fun pairs => Acts.ret pairs
  | map | filter | flatMap | any | all | find | fold | foldControl =>
      exact suspendArray_acts env returnTarget site _ _ _

theorem startArrayContinuation_acts (site : Site) (function : CoreArrayFunction)
    (arguments : Fin function.arity → RichValue) :
    Acts returnTarget (startArrayContinuation env site function arguments returnTarget) := by
  unfold startArrayContinuation
  dsimp only
  split
  · apply Acts.bind (Keeps.arrayValues env site _)
    intro values
    exact arrayFunction_acts env returnTarget site function arguments _ _ values
  · exact Acts.bind Keeps.get fun store => Acts.throw _

theorem nextDictAction_acts (progress : DictProgress) :
    Acts returnTarget (nextDictAction env progress returnTarget) := by
  unfold nextDictAction
  cases progress.remaining with
  | nil =>
      cases progress.operation with
      | fold accumulator => exact Acts.ret _
      | mapValues | filter =>
          exact Acts.bind (Keeps.allocateCoreDictUnchecked _ _) fun dict => Acts.ret dict
  | cons entry remaining =>
      cases progress.operation with
      | fold accumulator =>
          apply Acts.bind (Keeps.chargeAllocation _ _)
          intro _
          exact Acts.bind (Keeps.onWork _) fun key => Acts.call _
      | mapValues | filter => exact Acts.call _

theorem resumeDictContinuation_acts (continuation : DictContinuation) (value : RichValue) :
    Acts returnTarget (resumeDictContinuation env continuation returnTarget value) := by
  have hnext := fun progress => nextDictAction_acts env returnTarget progress
  unfold resumeDictContinuation
  cases continuation.operation with
  | mapValues => exact Acts.bind (Keeps.chargeCoreDictOutput env _ _ _) fun _ => hnext _
  | filter =>
      apply Acts.bind (Keeps.lift _)
      intro answer
      apply Acts.ite
      · exact Acts.bind (Keeps.chargeCoreDictOutput env _ _ _) fun _ => hnext _
      · exact hnext _
  | fold => exact hnext _

theorem startDictContinuation_acts (site : Site) (operation : DictOperation)
    (source callback : RichValue) :
    Acts returnTarget
      (startDictContinuation env site operation source callback returnTarget) := by
  apply Acts.bind (Keeps.look env _)
  intro entries
  apply Acts.bind (Keeps.checkCallback env site _ _ _)
  intro _
  exact nextDictAction_acts env returnTarget _

/-- The run starts a native for the return target. -/
def Starts (x : Exec Phase) : Prop :=
  ∀ store, Runs x store (Started returnTarget store) fun _ => True

variable {returnTarget}

theorem Acts.starts {x : Exec VmAction} (h : Acts returnTarget x) :
    Starts returnTarget (x >>= fun action => pure (.act action)) := by
  intro store
  apply Runs.bind
  apply (h store).imp _ fun _ => id
  rintro action after ⟨hkept, htarget⟩
  exact Runs.pure (.act hkept htarget)

/-- A native that works in place starts on the store as it is. -/
theorem Started.here (program : CoreProgram) (site : Site) (store : Store) :
    Started returnTarget store (.host ⟨program, store.stack.length, site, returnTarget⟩) store :=
  .host rfl (Kept.refl store).toUnspent le_rfl (.inl rfl)

theorem Starts.throw (error : RuntimeError) : Starts returnTarget (MonadExcept.throw error) :=
  fun _ => Runs.throw trivial

theorem Unspent.trans {a b c : Store} (hab : Unspent a b) (hbc : Unspent b c) : Unspent a c :=
  ⟨hbc.quota.trans hab.quota, hbc.fuel.trans hab.fuel⟩

theorem Unspent.stackLimit {a b : Store} (h : Unspent a b) :
    b.account.stackLimit = a.account.stackLimit := by
  simp only [QuotaAccount.stackLimit, h.quota]

/-- What is kept before a native starts does not matter to it. -/
theorem Started.of_kept {a b c : Store} {phase : Phase} (hkept : Kept a b)
    (h : Started returnTarget b phase c) : Started returnTarget a phase c := by
  cases h with
  | act kept target => exact .act (hkept.trans kept) target
  | host start unspent grown fits =>
      rw [hkept.length] at start grown fits
      rw [hkept.stackLimit] at fits
      exact .host start (hkept.toUnspent.trans unspent) grown fits

theorem Starts.bind {α : Type} {x : Exec α} {f : α → Exec Phase} (hx : Keeps x)
    (hf : ∀ a, Starts returnTarget (f a)) : Starts returnTarget (x >>= f) := by
  intro store
  apply Runs.bind
  apply (hx store).imp _ fun _ => id
  intro a middle hmiddle
  apply (hf a middle).imp _ fun _ => id
  intro phase after hstarted
  exact hstarted.of_kept hmiddle

variable (returnTarget)

theorem startCore_starts (native : NativeFunction) (arguments upvalues : List RichValue)
    (site : Site) :
    Starts returnTarget (startCore env native arguments upvalues returnTarget site) := by
  intro store
  apply Runs.bind
  apply Runs.get
  exact Runs.pure (Started.here _ site store)

theorem startCallback_starts (native : NativeFunction) (arguments upvalues : List RichValue)
    (site : Site) :
    Starts returnTarget (startCallback env native arguments upvalues returnTarget site) := by
  intro store
  apply Runs.bind
  apply Runs.get
  dsimp only
  split
  · exact Runs.throw trivial
  · rename_i hfits
    rw [not_or, not_lt] at hfits
    have hlength : (store.stack ++ (arguments.map some ++ (upvalues.map some ++ [none]))).length =
        store.stack.length + (arguments.length + upvalues.length + 1) := by
      simp
      omega
    exact .host rfl ⟨rfl, rfl⟩ (by simp) (.inr (hlength.trans_le hfits.1))

theorem dictFunction_starts (native : NativeFunction) (function : CoreDictFunction)
    (arguments : Fin function.arity → RichValue) (upvalues : List RichValue) (site : Site) :
    Starts returnTarget
      (dictFunction env native function arguments upvalues returnTarget site) := by
  unfold dictFunction
  split
  · exact (startDictContinuation_acts env returnTarget site _ _ _).starts
  · exact (startDictContinuation_acts env returnTarget site _ _ _).starts
  · exact (startDictContinuation_acts env returnTarget site _ _ _).starts
  · exact startCore_starts env returnTarget native _ upvalues site

theorem codecFunction_starts (native : NativeFunction) (function : CoreCodecFunction)
    (arguments : Fin function.arity → RichValue) (upvalues : List RichValue) (site : Site) :
    Starts returnTarget
      (codecFunction env native function arguments upvalues returnTarget site) := by
  unfold codecFunction
  split
  · intro store
    apply Runs.bind
    apply Runs.get
    exact Runs.pure (Started.here _ site store)
  · exact startCore_starts env returnTarget native _ upvalues site

theorem startNative_starts (native : NativeFunction) (arguments : Fin native.arity → RichValue)
    (upvalues : List RichValue) (site : Site) :
    Starts returnTarget (startNative env native arguments upvalues returnTarget site) := by
  unfold startNative
  split
  · exact startCallback_starts env returnTarget native _ upvalues site
  · exact (startArrayContinuation_acts env returnTarget site _ _).starts
  · exact dictFunction_starts env returnTarget native _ _ upvalues site
  · exact codecFunction_starts env returnTarget native _ _ upvalues site
  · exact startCore_starts env returnTarget native _ upvalues site

/-- A suspended native goes on for its own return target. -/
theorem resume_starts (continuation : NativeContinuation) (value : RichValue) :
    Starts returnTarget (continuation.resume env returnTarget value) := by
  cases continuation with
  | array continuation =>
      exact (resumeArrayContinuation_acts env returnTarget continuation value).starts
  | dict continuation =>
      exact (resumeDictContinuation_acts env returnTarget continuation value).starts
  | jsonEncode continuation =>
      have hnext (decision : Bool) : Starts returnTarget (do
          let store ← get
          let program := continueJsonEncode env continuation.site continuation.schema
            continuation.input
            (insertEntry continuation.pendingPath decision continuation.decisions) store.current
          let traced := program.map (·.mapError (·.appendTrace [continuation.traceFrame]))
          return .host ⟨traced, store.stack.length, continuation.site, returnTarget⟩) := by
        intro store
        apply Runs.bind
        apply Runs.get
        exact Runs.pure (Started.here _ continuation.site store)
      unfold NativeContinuation.resume resumeJsonEncodeContinuation
      dsimp only
      split
      · exact Starts.bind (Keeps.pure true) hnext
      · exact Starts.bind (Keeps.pure false) hnext
      · exact Starts.bind (Keeps.throw _) hnext

end Natives

section Calls

variable (env : Environment)

theorem constructTagged_starts (request : CallRequest) :
    Starts request.returnTarget (constructTagged request) := by
  unfold constructTagged
  split
  · apply Starts.bind (Keeps.chargeAllocation _ _)
    intro _
    apply Starts.bind (Keeps.onWork _)
    intro handle store
    exact Runs.pure (.act (Kept.refl store) (.ret _))
  · exact Starts.throw _

/-- A frame is made for the registers of its function, on top of the stack. -/
theorem makeExecutionFrame_eq_ok {function : FuncByteCode} {prototype : Handle}
    {arguments captures : List RichValue} {returnTarget : ReturnTarget}
    {stack stack' : List (Option RichValue)} {stackLimit : Nat} {frame : ExecutionFrame}
    (h : makeExecutionFrame function prototype arguments captures returnTarget stack stackLimit =
      .ok (frame, stack')) :
    frame = ⟨function, prototype, stack.length, 0, returnTarget⟩ ∧
      stack'.length = frame.stop ∧ frame.stop ≤ stackLimit := by
  unfold makeExecutionFrame at h
  dsimp only at h
  obtain ⟨-, h⟩ := ite_error_eq_ok.mp h
  obtain ⟨-, h⟩ := ite_error_eq_ok.mp h
  obtain ⟨hfits, h⟩ := ite_error_eq_ok.mp h
  obtain ⟨hregisters, h⟩ := ite_error_eq_ok.mp h
  obtain ⟨rfl, rfl⟩ := Prod.mk.inj (Except.ok.inj h)
  refine ⟨rfl, ?_, Nat.le_of_not_lt hfits⟩
  simp only [ExecutionFrame.stop, List.length_append, List.length_map, List.length_replicate] at *
  omega

theorem enterBytecode_runs (request : CallRequest) (handle : Handle) (upvalues : List RichValue)
    (store : Store) :
    Runs (enterBytecode env request handle upvalues) store
      (Entered request.returnTarget store) fun _ => True := by
  apply Runs.bind
  apply Runs.bind
  apply Runs.get
  apply Runs.lift _ fun _ _ => trivial
  intro links _
  split
  · exact Runs.throw trivial
  · apply Runs.bind
    apply Runs.get
    split
    · rename_i frame stack hframe
      obtain ⟨rfl, hlength, hfits⟩ := makeExecutionFrame_eq_ok hframe
      exact .enter ⟨rfl, rfl⟩ rfl hlength hfits rfl
    · exact Runs.throw trivial

theorem callValue_runs (request : CallRequest) (store : Store) :
    Runs (callValue env request) store
      (fun phase after => Started request.returnTarget store phase after ∨
        Entered request.returnTarget store phase after) fun _ => True := by
  have hstarts : ∀ {x : Exec Phase}, Starts request.returnTarget x →
      Runs x store (fun phase after => Started request.returnTarget store phase after ∨
        Entered request.returnTarget store phase after) fun _ => True := by
    intro x hx
    exact (hx store).imp (fun _ _ => .inl) fun _ => id
  unfold callValue
  dsimp only
  split
  · exact hstarts (constructTagged_starts request)
  · exact hstarts (constructTagged_starts request)
  · apply Runs.bind
    apply Runs.bind
    apply Runs.get
    apply Runs.lift _ fun _ _ => trivial
    rintro ⟨prototype, upvalues⟩ _
    dsimp only
    split
    · exact (enterBytecode_runs env request _ upvalues store).imp (fun _ _ => .inr) fun _ => id
    · split
      · exact hstarts (startNative_starts env request.returnTarget _ _ upvalues _)
      · exact Runs.throw trivial
  · exact hstarts (Starts.bind Keeps.get fun _ => Starts.throw _)

theorem consumeFuel_runs (site : Site) (store : Store) :
    Runs (consumeFuel env site) store
      (fun _ after => Spent store after ∧ after.stack = store.stack) fun _ => True := by
  apply Runs.bind
  apply Runs.get
  split
  · exact Runs.throw trivial
  · split
    · rename_i account hconsume
      obtain ⟨hquota, hfuel⟩ := QuotaAccount.consume_eq_some hconsume
      exact ⟨⟨hquota, hfuel⟩, rfl⟩
    · exact Runs.throw trivial

/-- Rewriting the error does not change how a run succeeds. -/
theorem tracing_runs {α : Type} {x : Exec α} {store : Store} {post : α → Store → Prop}
    (entries : List RuntimeFrame) (h : Runs x store post fun _ => True) :
    Runs (tracing entries x) store post fun _ => True := by
  cases hx : x.run store with
  | ok result =>
      have hrun : (tracing entries x).run store = .ok result := by
        change tryCatch (x.run store) _ = _
        rw [hx]
        rfl
      rw [Runs, hrun]
      exact h.of_ok hx
  | error error =>
      have hrun : (tracing entries x).run store = .error (error.appendTrace entries) := by
        change tryCatch (x.run store) _ = _
        rw [hx]
        rfl
      rw [Runs, hrun]
      trivial

end Calls

section Instructions

variable (env : Environment) {frame : ExecutionFrame} {frames : List ExecutionFrame}

/-- The run makes a transition from the running frame. -/
def Moves (frame : ExecutionFrame) (frames : List ExecutionFrame)
    (x : Exec (Phase × List ExecutionFrame)) : Prop :=
  ∀ store, Runs x store (fun result after =>
    Transition ⟨.execute frame, frames, store⟩ ⟨result.1, result.2, after⟩) fun _ => True

namespace Moves

/-- An effect that keeps the store, then the next instruction. -/
theorem forward {x : Exec Unit} (hx : Keeps x)
    (hrunning : frame.pc < frame.function.instructions.length) :
    Moves frame frames (x >>= fun _ => pure (.execute frame.advance, frames)) := by
  intro store
  apply Runs.bind
  apply (hx store).imp _ fun _ => id
  intro _ after hafter
  exact Runs.pure (.forward hrunning (Nat.lt_succ_self _) hafter)

/-- A forward jump is free and a backward jump costs fuel. -/
theorem jump (hrunning : frame.pc < frame.function.instructions.length) (target : Nat)
    {before middle : Store} (hkept : Kept before middle) :
    Runs (jumpTo env frame target >>= fun phase => pure (phase, frames)) middle
      (fun result after =>
        Transition ⟨.execute frame, frames, before⟩ ⟨result.1, result.2, after⟩)
      fun _ => True := by
  apply Runs.bind
  unfold jumpTo validateJump
  split
  · exact Runs.throw trivial
  · rw [pure_bind]
    split
    · apply Runs.bind
      apply (consumeFuel_runs env frame.site middle).imp _ fun _ => id
      rintro _ after ⟨hspent, hstack⟩
      have hlength := (congrArg List.length hstack).trans hkept.length
      exact Runs.pure (Runs.pure (.back (hkept.toUnspent.trans_spent hspent) hlength))
    · rename_i hahead
      exact Runs.pure (Runs.pure (.forward hrunning (Nat.lt_of_not_le hahead) hkept))

/-- The frame is left with its registers dropped. -/
theorem leave {α : Type} {x : Exec α} (action : α → VmAction) (hx : Keeps x)
    (hrunning : frame.pc < frame.function.instructions.length)
    (htarget : ∀ a, (action a).For frame.returnTarget) :
    Moves frame frames (x >>= fun a => dropFrame frame >>= fun _ =>
      pure (.act (action a), frames)) := by
  intro store
  apply Runs.bind
  apply (hx store).imp _ fun _ => id
  intro a middle hmiddle
  apply Runs.bind
  apply Runs.update
  refine Runs.pure (.leave hrunning ⟨hmiddle.quota, hmiddle.fuel⟩ ?_ (htarget a))
  rw [← hmiddle.length]
  exact List.length_take

end Moves

theorem executeInstruction_moves (opcode : Opcode)
    (hrunning : frame.pc < frame.function.instructions.length) :
    Moves frame frames (executeInstruction env frame frames opcode) := by
  cases opcode with
  | call base argumentCount =>
      intro store
      apply Runs.bind
      apply (Keeps.readRegister _ _ base store).imp _ fun _ => id
      intro callee middle hmiddle
      apply Runs.bind
      apply (Keeps.readCallArguments _ _ base argumentCount middle).imp _ fun _ => id
      intro arguments after hafter
      exact Runs.pure (.call hrunning (hmiddle.trans hafter))
  | tailCall base argumentCount =>
      have hread : Keeps (do
          let callee ← readRegister frame.site frame.window base
          let arguments ← readCallArguments frame.site frame.window base argumentCount
          pure (callee, arguments)) := by
        apply Keeps.bind (Keeps.readRegister _ _ base)
        intro callee
        apply Keeps.bind (Keeps.readCallArguments _ _ base argumentCount)
        intro arguments
        exact Keeps.pure _
      have hmoves : Moves frame frames _ := Moves.leave
        (fun read => .call ⟨read.1, read.2, frame.returnTarget, frame.site⟩)
        hread hrunning fun _ => .call _
      simp only [bind_assoc, pure_bind] at hmoves
      exact hmoves
  | jump target => exact fun store => Moves.jump env hrunning target (Kept.refl store)
  | jumpIfFalse condition target =>
      intro store
      apply Runs.bind
      apply (Keeps.readRegister _ _ condition store).imp _ fun _ => id
      intro value middle hmiddle
      split
      · exact Runs.pure (.forward hrunning (Nat.lt_succ_self _) hmiddle)
      · exact Moves.jump env hrunning target hmiddle
      · exact Runs.bind (Runs.get (Runs.throw trivial))
  | ret src =>
      exact Moves.leave (fun value => .ret value frame.returnTarget)
        (Keeps.readRegister _ _ src) hrunning fun value => .ret value
  | _ => exact Moves.forward (Keeps.execute env _ _ _ _) hrunning

theorem returnToCaller_runs (value : RichValue) (destination : Register)
    (callSite : Option Loc) (frames : List ExecutionFrame) (store : Store) :
    Runs (returnToCaller value destination callSite frames) store
      (fun result after =>
        Transition ⟨.act (.ret value (.register destination callSite)), frames, store⟩
          ⟨result.1, result.2, after⟩) fun _ => True := by
  cases frames with
  | nil => exact Runs.throw trivial
  | cons caller rest =>
      apply Runs.bind
      apply (Keeps.writeRegister _ _ _ _ store).imp _ fun _ => id
      intro _ after hafter
      exact Runs.pure (.caller hafter)

theorem hostStep_runs (call : HostCall) (frames : List ExecutionFrame) (store : Store) :
    Runs (hostStep call) store
      (fun phase after =>
        Transition ⟨.host call, frames, store⟩ ⟨phase, frames, after⟩) fun _ => True := by
  apply Runs.bind
  apply Runs.get
  split
  · exact .finish ⟨rfl, rfl⟩ List.length_take (.ret _)
  · exact .finish ⟨rfl, rfl⟩ List.length_take (.call _)
  · exact Runs.throw trivial
  · exact Runs.pure (.request ⟨rfl, rfl⟩ le_rfl (.inl rfl))
  · split
    · rename_i account hcharge
      obtain ⟨hquota, hfuel⟩ := QuotaAccount.chargeAllocation_eq_some hcharge
      exact .request ⟨hquota, hfuel⟩ le_rfl (.inl rfl)
    · exact .request ⟨rfl, rfl⟩ le_rfl (.inl rfl)
  · split
    · exact .request ⟨rfl, rfl⟩ le_rfl (.inl rfl)
    · rename_i hfits
      rw [not_or, not_le] at hfits
      have hlength : (store.stack ++ [none]).length = store.stack.length + 1 := by simp
      exact .request ⟨rfl, rfl⟩ (by simp) (.inr (hlength.trans_le hfits.1))

end Instructions

/-- A step that succeeds made a transition. -/
theorem proceed_transition {frames : List ExecutionFrame} {store : Store}
    {effect : Exec (Phase × List ExecutionFrame)} {before after : State}
    (h : Runs effect store (fun result after => Transition before ⟨result.1, result.2, after⟩)
      fun _ => True)
    (hstep : proceed frames store effect = .ok after) : Transition before after := by
  unfold proceed at hstep
  split at hstep
  · rename_i phase frames' store' hrun
    rw [← Except.ok.inj hstep]
    exact h.of_ok hrun
  · cases hstep

/-- Every step of the machine is one of the transitions. -/
theorem step_transition {env : Environment} {before after : State}
    (h : Steps (step env) before after) : Transition before after := by
  obtain ⟨phase, frames, store⟩ := before
  cases phase with
  | execute frame =>
      refine proceed_transition ?_ h
      dsimp only
      split
      · exact Runs.throw trivial
      · rename_i opcode hopcode
        have hrunning := (List.getElem?_eq_some_iff.mp hopcode).1
        exact executeInstruction_moves env opcode hrunning store
  | host call =>
      refine proceed_transition ?_ h
      apply Runs.bind
      apply (hostStep_runs call frames store).imp _ fun _ => id
      exact fun phase after htransition => Runs.pure htransition
  | act action =>
      cases action with
      | ret value returnTarget =>
          cases returnTarget with
          | root => cases h
          | register destination callSite =>
              exact proceed_transition
                (returnToCaller_runs value destination callSite frames store) h
          | native continuation returnTarget =>
              refine proceed_transition ?_ h
              apply Runs.bind
              have hstarts := tracing_runs [continuation.traceFrame]
                (resume_starts env returnTarget continuation value store)
              apply hstarts.imp _ fun _ => id
              exact fun phase after hstarted => Runs.pure (.resume hstarted)
      | call request =>
          refine proceed_transition ?_ h
          apply Runs.bind
          have hfuel := tracing_runs request.returnTarget.nativeTrace
            (consumeFuel_runs env request.site store)
          apply hfuel.imp _ fun _ => id
          rintro _ middle ⟨hspent, hstack⟩
          apply Runs.bind
          unfold performCall
          dsimp only
          split
          · exact Runs.throw trivial
          · rename_i hdepth
            apply (callValue_runs env request middle).imp _ fun _ => id
            intro phase after hstarted
            exact Runs.pure (.invoke (Nat.lt_of_not_le hdepth) hspent hstack hstarted)

end Telora.Vm
