import Telora.Vm.Operations

/-!
# Core functions with callbacks

The array and dict functions call back into the machine: each callback is an
action of its own, and the continuation in its return target goes on with the
next item. JSON encoding suspends the same way at a skip predicate.
-/

namespace Telora.Vm

open Bytecode Library

section Arrays

variable (env : Environment) (site : Site)

def arrayValues (handle : Handle) : Exec (List RichValue) :=
  look env fun view => site.heap (view.sequence handle false)

def arrayItem (source : Handle) (index : Nat) : Exec RichValue := do
  match (← arrayValues env site source)[index]? with
  | some item => return item
  | none => throw (site.error .invalidBytecode "Array continuation index is out of bounds")

/-- A callback must be a function of the expected arity. -/
def checkCallback (name : String) (callback : RichValue) (expected : Nat) : Exec Unit := do
  match callback.value with
  | .func handle =>
      let actual ← look env fun view => site.heap (view.functionArity handle)
      if actual ≠ expected then
        throw (site.error .typeMismatch
          s!"{name} callback must accept {expected} arguments, got {actual}")
  | _ => do
      let store ← get
      throw (site.typeError "Func" callback (store.view env))

def ArrayOperation.callbackArity : ArrayOperation → Nat
  | .fold _ | .foldControl _ => 2
  | _ => 1

/-- The arguments of the callback for an item. -/
def ArrayOperation.callbackArguments (operation : ArrayOperation) (item : RichValue) :
    List RichValue :=
  match operation with
  | .fold accumulator | .foldControl accumulator => [accumulator, item]
  | _ => [item]

/-- The result once every item was visited. -/
def finishArray (operation : ArrayOperation) (output : List RichValue) : Exec RichValue :=
  match operation with
  | .fold accumulator => return accumulator
  | .foldControl accumulator => do
      chargeValues site env 2
      let continueTag ← onWork (·.intern "Continue")
      allocateAt site (.tagged (.new (.atom continueTag) site.location) accumulator) .tagged
  | .any => return .new (.builtinAtom .false) site.location
  | .all => return .new (.builtinAtom .true) site.location
  | .find => return .new (.builtinAtom .none) site.location
  | .map | .filter | .flatMap => allocateAt site (.array output) .array

/-- Call back on the next item, or return. -/
def nextArrayAction (continuation : ArrayContinuation) (returnTarget : ReturnTarget) :
    Exec VmAction := do
  let site := continuation.site
  let values ← arrayValues env site continuation.source
  if values.length ≤ continuation.nextIndex then
    let value ← finishArray env site continuation.operation continuation.output
    return .ret value returnTarget
  else
    let item ← arrayItem env site continuation.source continuation.nextIndex
    let continuation := { continuation with nextIndex := continuation.nextIndex + 1 }
    return .call {
      callee := continuation.callback
      arguments := continuation.operation.callbackArguments item
      returnTarget := .native (.array continuation) returnTarget
      site }

/-- The answer of a predicate. -/
def predicateAnswer (name : String) (value : RichValue) : Except RuntimeError Bool :=
  match value.value with
  | .builtinAtom .true => return true
  | .builtinAtom .false => return false
  | _ => throw (site.error .typeMismatch s!"{name} predicate must return 'True or 'False")

def foldControlError : RuntimeError :=
  site.error .typeMismatch
    "std/array.fold_control callback must return 'Continue(value) or 'Break(value)"

def resumeArrayContinuation (continuation : ArrayContinuation) (returnTarget : ReturnTarget)
    (value : RichValue) : Exec VmAction := do
  let site := continuation.site
  let name := continuation.operation.function.name
  match continuation.operation with
  | .map =>
      chargeValues site env 1
      nextArrayAction env
        { continuation with output := continuation.output ++ [value] } returnTarget
  | .filter =>
      if ← predicateAnswer site name value then
        let item ← arrayItem env site continuation.source (continuation.nextIndex - 1)
        chargeValues site env 1
        nextArrayAction env
          { continuation with output := continuation.output ++ [item] } returnTarget
      else
        nextArrayAction env continuation returnTarget
  | .flatMap =>
      match value.value with
      | .array handle =>
          let values ← arrayValues env site handle
          chargeValues site env values.length
          nextArrayAction env
            { continuation with output := continuation.output ++ values } returnTarget
      | _ => throw (site.error .typeMismatch
          "std/array.flat_map callback must return an Array")
  | .fold _ => nextArrayAction env { continuation with operation := .fold value } returnTarget
  | .foldControl _ =>
      match value.value with
      | .tagged handle =>
          let (tag, payload) ← look env fun view => site.heap (view.tagged handle)
          match ← look env fun view => site.heap (view.atomText tag.value) with
          | some "Continue" =>
              nextArrayAction env
                { continuation with operation := .foldControl payload } returnTarget
          | some "Break" => return .ret value returnTarget
          | _ => throw (foldControlError site)
      | _ => throw (foldControlError site)
  | .any =>
      if ← predicateAnswer site name value then
        return .ret (.new (.builtinAtom .true) site.location) returnTarget
      else
        nextArrayAction env continuation returnTarget
  | .all =>
      if ← predicateAnswer site name value then
        nextArrayAction env continuation returnTarget
      else
        return .ret (.new (.builtinAtom .false) site.location) returnTarget
  | .find =>
      if ← predicateAnswer site name value then
        let item ← arrayItem env site continuation.source (continuation.nextIndex - 1)
        chargeValues site env 2
        let tag := RichValue.new (.builtinAtom .some) site.location
        return .ret (← allocateAt site (.tagged tag item) .tagged) returnTarget
      else
        nextArrayAction env continuation returnTarget

/-- Start calling back over an array. -/
def suspendArray (operation : ArrayOperation) (source : Handle) (callback : RichValue)
    (returnTarget : ReturnTarget) : Exec VmAction := do
  checkCallback env site operation.function.name callback operation.callbackArity
  nextArrayAction env {
    operation
    source
    callback
    nextIndex := 0
    output := []
    site
    traceFrame := ⟨operation.function.name, 0, site.function.originAt site.pc⟩ } returnTarget

/-- Pair the items of two arrays of one length. -/
def zipArrays (source right : RichValue) (left : List RichValue) : Exec RichValue := do
  match right.value with
  | .array handle =>
      let right ← arrayValues env site handle
      if left.length ≠ right.length then
        return .new (.builtinAtom .none) site.location
      else
        let pairs := left.zip right
        chargeValues site env (2 + pairs.length * 3)
        let pairs ← pairs.mapM fun pair => do
          return RichValue.new (.tuple (← onWork (·.allocate (.tuple [pair.1, pair.2]))))
            pair.1.loc
        let pairs := RichValue.new (.array (← onWork (·.allocate (.array pairs)))) source.loc
        let tag := RichValue.new (.builtinAtom .some) source.loc
        return .new (.tagged (← onWork (·.allocate (.tagged tag pairs)))) source.loc
  | _ => do
      let store ← get
      throw (site.typeError "Array" right (store.view env))

/-- A core array function on the items of its first argument: the plain ones return at
once, the others suspend. -/
def arrayFunction (function : CoreArrayFunction) (arguments : Fin function.arity → RichValue)
    (source : RichValue) (handle : Handle) (values : List RichValue)
    (returnTarget : ReturnTarget) : Exec VmAction :=
  match function, arguments with
  | .length, _ =>
      match checkedInt values.length with
      | some length => return .ret (.new (.int length) site.location) returnTarget
      | none => throw (site.error .integerOverflow "Array length does not fit Int")
  | .push, arguments => do
      chargeValues site env (values.length + 1)
      let output := values ++ [arguments ⟨1, by decide⟩]
      return .ret (← allocateAt site (.array output) .array) returnTarget
  | .concat, _ => do
      let arrays ← values.zipIdx.mapM fun item => look env fun view =>
        arrayItems site view s!"std/array.concat item {item.2} must be an Array" item.1
      let output := arrays.flatten
      chargeValues site env output.length
      return .ret (← allocateAt site (.array output) .array) returnTarget
  | .zip, arguments => do
      return .ret (← zipArrays env site source (arguments ⟨1, by decide⟩) values) returnTarget
  | .map, arguments => suspendArray env site .map handle (arguments ⟨1, by decide⟩) returnTarget
  | .filter, arguments =>
      suspendArray env site .filter handle (arguments ⟨1, by decide⟩) returnTarget
  | .flatMap, arguments =>
      suspendArray env site .flatMap handle (arguments ⟨1, by decide⟩) returnTarget
  | .any, arguments => suspendArray env site .any handle (arguments ⟨1, by decide⟩) returnTarget
  | .all, arguments => suspendArray env site .all handle (arguments ⟨1, by decide⟩) returnTarget
  | .find, arguments => suspendArray env site .find handle (arguments ⟨1, by decide⟩) returnTarget
  | .fold, arguments =>
      suspendArray env site (.fold (arguments ⟨1, by decide⟩)) handle
        (arguments ⟨2, by decide⟩) returnTarget
  | .foldControl, arguments =>
      suspendArray env site (.foldControl (arguments ⟨1, by decide⟩)) handle
        (arguments ⟨2, by decide⟩) returnTarget

def startArrayContinuation (function : CoreArrayFunction)
    (arguments : Fin function.arity → RichValue) (returnTarget : ReturnTarget) :
    Exec VmAction := do
  let source := arguments ⟨0, by cases function <;> decide⟩
  match source.value with
  | .array handle =>
      let values ← arrayValues env site handle
      arrayFunction env site function arguments source handle values returnTarget
  | _ => do
      let store ← get
      throw (site.typeError "Array" source (store.view env))

end Arrays

section Dicts

variable (env : Environment) (site : Site)

/-- Charge the slots and the texts of output entries. -/
def chargeCoreDictOutput (valueSlots : Nat) (textLengths : List Nat) : Exec Unit :=
  let bytes := do
    let textBytes ← checkedSum textLengths
    let valueBytes ← checkedMul valueSlots env.valueSize
    checkedAdd textBytes valueBytes
  chargeChecked site bytes "std/dict allocation size overflowed"

def allocateCoreDictUnchecked (entries : List (String × RichValue)) : Exec RichValue := do
  let fields ← onWork (internAll (entries.map (·.1)))
  let shape ← onWork (·.internShape fields)
  allocateAt site (.dict shape (entries.map (·.2))) .dict

/-- A dict function between two callbacks. -/
structure DictProgress where
  operation : DictOperation
  remaining : List (String × RichValue)
  callback : RichValue
  output : List (String × RichValue)
  site : Site
  traceFrame : RuntimeFrame

def DictContinuation.progress (continuation : DictContinuation)
    (operation : DictOperation) (output : List (String × RichValue)) : DictProgress where
  operation := operation
  remaining := continuation.remaining
  callback := continuation.callback
  output := output
  site := continuation.site
  traceFrame := continuation.traceFrame

/-- Call back on the next entry, or return. -/
def nextDictAction (progress : DictProgress) (returnTarget : ReturnTarget) :
    Exec VmAction := do
  let site := progress.site
  match progress.remaining with
  | [] =>
      match progress.operation with
      | .fold accumulator => return .ret accumulator returnTarget
      | _ => return .ret (← allocateCoreDictUnchecked site progress.output) returnTarget
  | entry :: remaining =>
      let arguments ← match progress.operation with
        | .fold accumulator => do
            chargeAllocation site entry.1.utf8ByteSize
            let key ← onWork (·.string (some env.background) entry.1)
            pure [accumulator, .new key entry.2.loc, entry.2]
        | _ => pure [entry.2]
      return .call {
        callee := progress.callback
        arguments
        returnTarget := .native (.dict {
          operation := progress.operation
          entry
          remaining
          callback := progress.callback
          output := progress.output
          site
          traceFrame := progress.traceFrame }) returnTarget
        site }

def resumeDictContinuation (continuation : DictContinuation) (returnTarget : ReturnTarget)
    (value : RichValue) : Exec VmAction := do
  let site := continuation.site
  let key := continuation.entry.1
  match continuation.operation with
  | .mapValues =>
      chargeCoreDictOutput env site 1 [key.utf8ByteSize]
      nextDictAction env
        (continuation.progress .mapValues (continuation.output ++ [(key, value)])) returnTarget
  | .filter =>
      if ← predicateAnswer site CoreDictFunction.filter.name value then
        chargeCoreDictOutput env site 1 [key.utf8ByteSize]
        nextDictAction env
          (continuation.progress .filter (continuation.output ++ [continuation.entry])) returnTarget
      else
        nextDictAction env (continuation.progress .filter continuation.output) returnTarget
  | .fold _ =>
      nextDictAction env (continuation.progress (.fold value) continuation.output) returnTarget

def DictOperation.callbackArity : DictOperation → Nat
  | .fold _ => 3
  | _ => 1

/-- Start calling back over the entries of a dict. -/
def startDictContinuation (operation : DictOperation) (source callback : RichValue)
    (returnTarget : ReturnTarget) : Exec VmAction := do
  let entries ← look env fun view =>
    dictEntries site view (site.typeError "Dict" source view) source
  checkCallback env site operation.function.name callback operation.callbackArity
  nextDictAction env {
    operation
    remaining := entries
    callback
    output := []
    site
    traceFrame := ⟨operation.function.name, 0, site.function.originAt site.pc⟩ } returnTarget

end Dicts

section JsonEncoding

variable (env : Environment)

/-- Errors inside a suspended native also name the native. -/
def RuntimeError.appendTrace (entries : List RuntimeFrame) (error : RuntimeError) : RuntimeError :=
  { error with trace := error.trace ++ entries }

/-- Encode with the decisions so far: wait for a predicate, or finish. -/
def continueJsonEncode (site : Site) (schema : CodecType) (input : RichValue)
    (decisions : List (String × Bool)) (current : Heap) : CoreProgram :=
  (env.encode site schema input decisions current).map fun result =>
    result.map fun
      | .suspended request rule => .predicate request {
          schema
          input
          decisions
          pendingPath := request.path
          pendingRule := rule
          site
          traceFrame := ⟨"std/codec.encode", 0, site.function.originAt site.pc⟩ }
      | .finished value heap => .value value heap

def resumeJsonEncodeContinuation (continuation : JsonEncodeContinuation)
    (returnTarget : ReturnTarget) (value : RichValue) : Exec Phase := do
  let site := continuation.site
  let decision ← match value.value with
    | .builtinAtom .true => pure true
    | .builtinAtom .false => pure false
    | _ =>
        let error := site.error .typeMismatch
          "std/json.skip_serializing_if predicate must return 'True or 'False"
        throw (error.setLocations value.loc continuation.pendingRule.loc)
  let store ← get
  let program := continueJsonEncode env site continuation.schema continuation.input
    (insertEntry continuation.pendingPath decision continuation.decisions) store.current
  let traced := program.map (·.mapError (·.appendTrace [continuation.traceFrame]))
  return .host ⟨traced, store.stack.length, site, returnTarget⟩

end JsonEncoding

/-- Go on with a suspended native, which has received the value it waited for. -/
def NativeContinuation.resume (env : Environment) (continuation : NativeContinuation)
    (returnTarget : ReturnTarget) (value : RichValue) : Exec Phase :=
  match continuation with
  | .array continuation => return .act (← resumeArrayContinuation env continuation returnTarget value)
  | .dict continuation => return .act (← resumeDictContinuation env continuation returnTarget value)
  | .jsonEncode continuation => resumeJsonEncodeContinuation env continuation returnTarget value

end Telora.Vm
