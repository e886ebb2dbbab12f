import Telora.Vm.Continuations
import Telora.Library.Machine
import Telora.Types.Validate

/-!
# The virtual machine

One step runs an instruction of the top frame, drives one action, or answers one
request of a native function. A failed step reports the frames that were active.
-/

namespace Telora.Vm

open Bytecode Library

def consumeFuel (env : Environment) (site : Site) : Exec Unit := do
  let store ← get
  match env.cancelled store.account.remainingFuel with
  | some message => throw (site.error .cancelled message)
  | none =>
      match store.account.consume with
      | some account => set { store with account }
      | none => throw (site.error .fuelExhausted "evaluation fuel exhausted")

def validateJump (site : Site) (target : Nat) : Exec Unit :=
  if site.function.instructions.length ≤ target then
    throw (site.error .invalidBytecode s!"jump target {target} is out of bounds")
  else
    return

/-- The frame of a called function and the stack with its registers. -/
def makeExecutionFrame (function : FuncByteCode) (prototype : Handle)
    (arguments captures : List RichValue) (returnTarget : ReturnTarget)
    (stack : List (Option RichValue)) (stackLimit : Nat) :
    Except RuntimeError (ExecutionFrame × List (Option RichValue)) :=
  let site : Site := ⟨function, 0⟩
  if arguments.length ≠ function.parameterCount then
    let expected := function.parameterCount
    let actual := arguments.length
    .error (site.error .typeMismatch s!"expected {expected} arguments, got {actual}")
  else if captures.length ≠ function.captureCount then
    .error (site.error .invalidBytecode
      "closure capture count does not match function signature")
  else if stackLimit < stack.length + function.registerCount then
    .error (site.error .stackLimitExceeded
      s!"Telora stack exceeds the limit of {stackLimit} slots")
  else if function.registerCount < (arguments ++ captures).length then
    .error (site.error .invalidBytecode "function signature exceeds its register count")
  else
    let registers := (arguments ++ captures).map some ++
      List.replicate (function.registerCount - (arguments ++ captures).length) none
    .ok (⟨function, prototype, stack.length, 0, returnTarget⟩, stack ++ registers)

/-- The frames of a logical call: the running ones and the suspended natives. -/
def logicalDepth (frames : List ExecutionFrame) : Nat :=
  frames.length + (frames.map (·.returnTarget.nativeDepth)).sum

section Calls

variable (env : Environment)

def nativeRuntimeError (native : NativeFunction) (site : Site) (error : NativeError) :
    RuntimeError :=
  let kind := match error.limit with
    | some .stack => RuntimeErrorKind.stackLimitExceeded
    | some .allocation => .allocationQuotaExceeded
    | none => .typeMismatch
  site.error kind (native.name ++ ": " ++ error.message)

/-- The result of a host callback, which has to write its result register. -/
def callbackResult (native : NativeFunction) (site : Site) :
    Except NativeError (Option RichValue × Heap) → Except RuntimeError NativeOutcome
  | .error error => .error (nativeRuntimeError native site error)
  | .ok (none, _) => .error (site.error .invalidBytecode
      (native.name ++ ": native function did not write its result register"))
  | .ok (some value, heap) => .ok (.value (value.withLoc (value.loc <|> site.location)) heap)

def u32Limit : Nat := 2 ^ 32

/-- The native that checks a value against the metadata of a type. -/
def validateFunction : NativeFunction :=
  ⟨"validate", 2, 0, .synchronous, by simp [NativeKind.arity]⟩

/-- Take a scratch register, if the stack has room. -/
def scratchRegister {α : Type} (next : HostProgram (Except NativeError α)) :
    HostProgram (Except NativeError α) :=
  .ask .scratch fun granted =>
    if granted then next
    else .finish (.error
      ⟨"native scratch register exceeds the Telora stack-slot limit", some .stack⟩)

/-- `validate` decodes all of the metadata, then checks the value, and builds its result in
registers. -/
def nativeValidate (type value : RichValue) (current : Heap) :
    HostProgram (Except NativeError (Option RichValue × Heap)) :=
  let view : HeapView := ⟨current, some env.background⟩
  .search (fun depth => view.decodeTypeRef depth type.value "Type") (fun
    | .error message => .finish (.error ⟨message, none⟩)
    | .ok descriptor =>
        scratchRegister <| scratchRegister <| .search
          (fun depth => HeapView.validateValueRef view (view.decodeTypeRef depth) descriptor
            value.value "value")
          (fun checked => env.validated type value checked current) 0) 0

/-- The program behind the function pointer of a native. -/
def synchronous (native : NativeFunction) (arguments upvalues : List RichValue) (current : Heap)
    (account : QuotaAccount) : HostProgram (Except NativeError (Option RichValue × Heap)) :=
  match arguments with
  | [type, value] =>
      if native.callback = validateFunction.callback then
        nativeValidate env type value current
      else
        env.callback native [type, value] upvalues current account
  | arguments => env.callback native arguments upvalues current account

/-- A host callback runs in a window of its arguments, upvalues and result. -/
def startCallback (native : NativeFunction) (arguments upvalues : List RichValue)
    (returnTarget : ReturnTarget) (site : Site) : Exec Phase := do
  let store ← get
  let base := store.stack.length
  let window := arguments.length + upvalues.length + 1
  if store.account.stackLimit < base + window ∨ u32Limit ≤ window then
    throw (nativeRuntimeError native site
      ⟨"native call exceeds the Telora stack-slot limit", some .stack⟩)
  else
    set { store with
      stack := store.stack ++ (arguments.map some ++ (upvalues.map some ++ [none])) }
    let program := synchronous env native arguments upvalues store.current store.account
    return .host ⟨program.map (callbackResult native site), base, site, returnTarget⟩

/-- A core function without callbacks works on the heap and the account alone. -/
def startCore (native : NativeFunction) (arguments upvalues : List RichValue)
    (returnTarget : ReturnTarget) (site : Site) : Exec Phase := do
  let store ← get
  let program := (env.core native site arguments upvalues store.current store.account).map
    fun result => result.map fun (value, current) => .value value current
  return .host ⟨program, store.stack.length, site, returnTarget⟩

/-- The dict functions with a callback suspend. -/
def dictFunction (native : NativeFunction) (function : CoreDictFunction)
    (arguments : Fin function.arity → RichValue) (upvalues : List RichValue)
    (returnTarget : ReturnTarget) (site : Site) : Exec Phase :=
  match function, arguments with
  | .mapValues, arguments => do
      return .act (← startDictContinuation env site .mapValues (arguments ⟨0, by decide⟩)
        (arguments ⟨1, by decide⟩) returnTarget)
  | .filter, arguments => do
      return .act (← startDictContinuation env site .filter (arguments ⟨0, by decide⟩)
        (arguments ⟨1, by decide⟩) returnTarget)
  | .fold, arguments => do
      return .act (← startDictContinuation env site (.fold (arguments ⟨1, by decide⟩))
        (arguments ⟨0, by decide⟩) (arguments ⟨2, by decide⟩) returnTarget)
  | _, arguments => startCore env native (List.ofFn arguments) upvalues returnTarget site

/-- Encoding can wait for predicates, decoding does not. -/
def codecFunction (native : NativeFunction) (function : CoreCodecFunction)
    (arguments : Fin function.arity → RichValue) (upvalues : List RichValue)
    (returnTarget : ReturnTarget) (site : Site) : Exec Phase :=
  match function, arguments with
  | .encode, arguments => do
      let store ← get
      let input := arguments ⟨1, by decide⟩
      let program := (env.codecType site (arguments ⟨0, by decide⟩) (store.view env)).bind fun
        | .ok schema => continueJsonEncode env site schema input [] store.current
        | .error error => .finish (.error error)
      return .host ⟨program, store.stack.length, site, returnTarget⟩
  | .decode, arguments => startCore env native (List.ofFn arguments) upvalues returnTarget site

/-- A native function receives as many arguments as it declares. -/
def startNative (native : NativeFunction) (arguments : Fin native.arity → RichValue)
    (upvalues : List RichValue) (returnTarget : ReturnTarget) (site : Site) : Exec Phase :=
  match hkind : native.kind with
  | .synchronous =>
      startCallback env native (List.ofFn arguments) upvalues returnTarget site
  | .coreArray function => do
      have harity : native.arity = function.arity :=
        native.coreArity _ (by simp [hkind, NativeKind.arity])
      return .act (← startArrayContinuation env site function
        (fun index => arguments (index.cast harity.symm)) returnTarget)
  | .coreDict function =>
      have harity : native.arity = function.arity :=
        native.coreArity _ (by simp [hkind, NativeKind.arity])
      dictFunction env native function (fun index => arguments (index.cast harity.symm)) upvalues
        returnTarget site
  | .coreCodec function =>
      have harity : native.arity = function.arity :=
        native.coreArity _ (by simp [hkind, NativeKind.arity])
      codecFunction env native function (fun index => arguments (index.cast harity.symm)) upvalues
        returnTarget site
  | _ => startCore env native (List.ofFn arguments) upvalues returnTarget site

def argumentCountError (site : Site) (expected actual : Nat) : RuntimeError :=
  site.error .typeMismatch s!"expected {expected} arguments, got {actual}"

/-- The size of a `RichValue`. -/
def richValueSize : Nat := 32

/-- An atom applied to a payload builds a tagged value. -/
def constructTagged (request : CallRequest) : Exec Phase := do
  match request.arguments with
  | [payload] =>
      chargeAllocation request.site (richValueSize * 2)
      let handle ← onWork (·.allocate (.tagged request.callee payload))
      return .act (.ret (.new (.tagged handle) request.callee.loc) request.returnTarget)
  | arguments =>
      let actual := arguments.length
      throw (request.site.error .typeMismatch
        s!"tag constructor expects 1 argument, got {actual}")

/-- Enter a bytecode function. -/
def enterBytecode (request : CallRequest) (handle : Handle) (upvalues : List RichValue) :
    Exec Phase := do
  let site := request.site
  let links ← look env fun view => site.heap (view.bytecode handle)
  if request.arguments.length ≠ links.code.parameterCount then
    throw (argumentCountError site links.code.parameterCount request.arguments.length)
  else
    let store ← get
    match makeExecutionFrame links.code handle request.arguments upvalues request.returnTarget
        store.stack store.account.stackLimit with
    | .ok (frame, stack) =>
        set { store with stack }
        return .execute frame
    | .error error => throw (site.error error.kind error.message)

/-- Call a value: a tag constructor, a bytecode closure or a native closure. -/
def callValue (request : CallRequest) : Exec Phase := do
  let site := request.site
  match request.callee.value with
  | .builtinAtom _ | .atom _ => constructTagged request
  | .func handle =>
      let (prototype, upvalues) ← look env fun view => site.heap (view.closure handle)
      match prototype with
      | .bytecode handle => enterBytecode env request handle upvalues
      | .native native =>
          if harity : request.arguments.length = native.arity then
            startNative env native (fun index => request.arguments.get (index.cast harity.symm))
              upvalues request.returnTarget site
          else
            throw (argumentCountError site native.arity request.arguments.length)
  | _ => do
      let store ← get
      throw (site.typeError "Func" request.callee (store.view env))

/-- Every call costs one unit of fuel and is refused at the depth limit. -/
def performCall (frames : List ExecutionFrame) (request : CallRequest) : Exec Phase := do
  let site := request.site
  if maxCallDepth ≤ logicalDepth frames + request.returnTarget.nativeDepth then
    throw (site.error .callDepthExceeded
      s!"call depth exceeds the limit of {maxCallDepth} frames")
  else
    callValue env request

end Calls

section Steps

variable (env : Environment)

/-- The frames that an error passed through, innermost first. -/
def withTrace (frames : List ExecutionFrame) (error : RuntimeError) : RuntimeError :=
  let entries := frames.zipIdx.flatMap fun (frame, index) =>
    let instruction := frame.pc - 1
    (if index ≠ 0 ∨ !error.traceIncludesActiveFrame then
      [⟨frame.function.name, instruction, frame.function.originAt instruction⟩]
    else []) ++ frame.returnTarget.nativeTrace
  { error with trace := error.trace ++ entries, traceIncludesActiveFrame := false }

/-- Errors inside a suspended native also name the native. -/
def tracing {α : Type} (entries : List RuntimeFrame) (x : Exec α) : Exec α :=
  tryCatch x fun error => throw (error.appendTrace entries)

/-- Take a jump; only a backward one costs fuel. -/
def jumpTo (frame : ExecutionFrame) (target : Nat) : Exec Phase := do
  validateJump frame.site target
  if target ≤ frame.pc then
    consumeFuel env frame.site
  return .execute { frame with pc := target }

/-- Drop the registers of a frame that is left. -/
def dropFrame (frame : ExecutionFrame) : Exec Unit :=
  modify fun store => { store with stack := store.stack.take frame.base }

/-- Run one instruction of the top frame. -/
def executeInstruction (frame : ExecutionFrame) (frames : List ExecutionFrame) :
    Opcode → Exec (Phase × List ExecutionFrame)
  | .call base argumentCount => do
      let callee ← readRegister frame.site frame.window base
      let arguments ← readCallArguments frame.site frame.window base argumentCount
      let returnTarget := ReturnTarget.register base frame.site.location
      return (.act (.call ⟨callee, arguments, returnTarget, frame.site⟩), frame.advance :: frames)
  | .tailCall base argumentCount => do
      let callee ← readRegister frame.site frame.window base
      let arguments ← readCallArguments frame.site frame.window base argumentCount
      dropFrame frame
      return (.act (.call ⟨callee, arguments, frame.returnTarget, frame.site⟩), frames)
  | .jump target => return (← jumpTo env frame target, frames)
  | .jumpIfFalse condition target => do
      let condition ← readRegister frame.site frame.window condition
      match condition.value with
      | .builtinAtom .true => return (.execute frame.advance, frames)
      | .builtinAtom .false => return (← jumpTo env frame target, frames)
      | _ => do
          let store ← get
          throw (frame.site.typeError "'True or 'False" condition (store.view env))
  | .ret src => do
      let value ← readRegister frame.site frame.window src
      dropFrame frame
      return (.act (.ret value frame.returnTarget), frames)
  | opcode => do
      execute env frame.site frame.window (prototypeLinks frame.site frame.prototype) opcode
      return (.execute frame.advance, frames)

/-- Take the frame of a returned value up again. -/
def returnToCaller (value : RichValue) (destination : Register) (callSite : Option Loc) :
    List ExecutionFrame → Exec (Phase × List ExecutionFrame)
  | [] => throw {
      kind := .invalidBytecode
      message := "return register has no caller"
      function := "<vm>"
      instruction := 0
      trace := []
      locations := none
      traceIncludesActiveFrame := false }
  | caller :: rest => do
      writeRegister ⟨caller.function, caller.pc - 1⟩ caller.window destination
        (value.rebaseGenerated callSite)
      return (.execute caller, rest)

/-- Answer one request of a native function, or take its result. -/
def hostStep (call : HostCall) : Exec Phase := do
  let store ← get
  match call.program [] with
  | .finish (.ok (.value value current)) =>
      set { store with stack := store.stack.take call.base, current }
      return .act (.ret value call.returnTarget)
  | .finish (.ok (.predicate request continuation)) =>
      set { store with stack := store.stack.take call.base }
      return .act (.call {
        callee := request.callee
        arguments := [request.value]
        returnTarget := .native (.jsonEncode continuation) call.returnTarget
        site := call.site })
  | .finish (.error error) => throw error
  | .ask .work => return .host (call.answered true)
  | .ask (.charge bytes) =>
      match store.account.chargeAllocation bytes with
      | some account =>
          set { store with account }
          return .host (call.answered true)
      | none => return .host (call.answered false)
  | .ask .scratch =>
      if store.account.stackLimit ≤ store.stack.length ∨
          u32Limit ≤ store.stack.length - call.base then
        return .host (call.answered false)
      else
        set { store with stack := store.stack ++ [none] }
        return .host (call.answered true)

/-- Run an effect from a state; an error ends the execution. -/
def proceed (frames : List ExecutionFrame) (store : Store)
    (effect : Exec (Phase × List ExecutionFrame)) : Except Halt State :=
  match effect.run store with
  | .ok ((phase, frames), store) => .ok ⟨phase, frames, store⟩
  | .error error => .error (.failure (withTrace frames error))

/-- One step of the machine. -/
def step (state : State) : Except Halt State :=
  match state.phase with
  | .execute frame =>
      proceed (frame :: state.frames) state.store <|
        match frame.function.instructions[frame.pc]? with
        | none => throw (frame.site.error .invalidBytecode
            "instruction pointer is out of bounds")
        | some opcode => executeInstruction env frame state.frames opcode
  | .act (.ret value .root) => .error (.value value state.store)
  | .act (.ret value (.register destination callSite)) =>
      proceed state.frames state.store (returnToCaller value destination callSite state.frames)
  | .act (.ret value (.native continuation returnTarget)) =>
      proceed state.frames state.store do
        return (← tracing [continuation.traceFrame]
          (continuation.resume env returnTarget value), state.frames)
  | .act (.call request) =>
      proceed state.frames state.store do
        tracing request.returnTarget.nativeTrace (consumeFuel env request.site)
        return (← performCall env state.frames request, state.frames)
  | .host call =>
      proceed state.frames state.store do return (← hostStep call, state.frames)

/-- Link a function, import its arguments and captures, and make its frame. -/
def start (externals : String → Option RichValue) (function : FunctionRef)
    (arguments captures : List Value) (account : QuotaAccount) : Except RuntimeError State := do
  let site : Site := ⟨function.function.code, 0⟩
  let (prototype, current) ← site.heap
    (linkBytecodeResolved (some env.background) externals .work function)
  let (arguments, current) ← site.heap
    ((arguments.mapM fun value => StateT.mk fun heap =>
      importValue (some env.background) heap value).run current)
  let (captures, current) ← site.heap
    ((captures.mapM fun value => StateT.mk fun heap =>
      importValue (some env.background) heap value).run current)
  let (frame, stack) ← makeExecutionFrame function.function.code prototype arguments captures
    .root [] account.stackLimit
  return ⟨.execute frame, [], ⟨stack, current, account, env.firstIdentity⟩⟩

/-- Execute a function under an account, for as many steps as given. -/
def executeFrame (steps : Nat) (externals : String → Option RichValue) (function : FunctionRef)
    (arguments captures : List Value) (account : QuotaAccount) : Option Halt :=
  match start env externals function arguments captures account with
  | .ok state => runFor (step env) steps state
  | .error error => some (.failure error)

end Steps

end Telora.Vm
