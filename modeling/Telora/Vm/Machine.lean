import Telora.Vm.Account

/-!
# Machine states

A state of the virtual machine is what it does next, the frames below, and the
store of stack slots, work heap and account. A callback suspended inside a core
function is kept in the return target of the call it waits for.
-/

namespace Telora.Vm

open Bytecode

mutual

/-- Type metadata as the codec reads it. -/
inductive CodecType where
  | mk (kind : CodecKind) (rule : RichValue) (attributes : List (String × RichValue))

inductive CodecKind where
  | upLink (handle : Handle)
  | any | type | dyn | int | float | string | bytes | opaqueType | function
  | atom (name : String)
  | array (item : CodecType)
  | dict (item : CodecType)
  | tagged (tag : String) (payload : CodecType)
  | tuple (items : List CodecType)
  | struct (fields : List (String × CodecType))
  | enum (variants : List (String × CodecEnumVariant))
  | union (variants : List CodecType)

inductive CodecEnumVariant where
  | mk (payload : Option CodecType) (attributes : List (String × RichValue)) (rule : RichValue)

end

/-- What a native function at work asks the machine for: bytes, a scratch register, or
time to work on by itself. -/
inductive HostRequest where
  | charge (bytes : Nat)
  | scratch
  | work
  deriving DecidableEq, Repr

/-- What a native function at work does next. -/
inductive HostMove (α : Type) where
  | finish (result : α)
  | ask (request : HostRequest)

/-- A native function at work: its next move, by the answers to what it has asked for.
Nothing makes it end. -/
abbrev HostProgram (α : Type) := List Bool → HostMove α

namespace HostProgram

variable {α β : Type}

/-- What is left of the program after an answer. -/
def answered (program : HostProgram α) (granted : Bool) : HostProgram α :=
  fun answers => program (granted :: answers)

def finish (result : α) : HostProgram α := fun _ => .finish result

def ask (request : HostRequest) (next : Bool → HostProgram α) : HostProgram α
  | [] => .ask request
  | granted :: answers => next granted answers

/-- Work by rounds, until a round has a result. -/
def search (rounds : Nat → Option β) (next : β → HostProgram α) : Nat → HostProgram α
  | round, [] =>
      match rounds round with
      | some result => next result []
      | none => .ask .work
  | round, granted :: answers =>
      match rounds round with
      | some result => next result (granted :: answers)
      | none => search rounds next (round + 1) answers

/-- Go on with the result. -/
def bind (program : HostProgram α) (next : α → HostProgram β) : HostProgram β
  | [] =>
      match program [] with
      | .finish result => next result []
      | .ask request => .ask request
  | granted :: answers =>
      match program [] with
      | .finish result => next result (granted :: answers)
      | .ask _ => bind (program.answered granted) next answers

def map (f : α → β) (program : HostProgram α) : HostProgram β :=
  program.bind fun a => .finish (f a)

/-- The program ends, whatever it is answered. -/
inductive Ends : HostProgram α → Prop where
  | finish {program : HostProgram α} {result : α} (h : program [] = .finish result) :
      Ends program
  | ask {program : HostProgram α} {request : HostRequest} (h : program [] = .ask request)
      (next : ∀ granted, Ends (program.answered granted)) : Ends program

end HostProgram

inductive NativeLimit where
  | stack
  | allocation
  deriving DecidableEq, Repr

structure NativeError where
  message : String
  limit : Option NativeLimit
  deriving DecidableEq, Repr

structure PredicateRequest where
  path : String
  callee : RichValue
  value : RichValue

/-- An encoding run waits for a skip predicate, or it finishes. -/
inductive EncodeOutcome where
  | suspended (request : PredicateRequest) (rule : RichValue)
  | finished (value : RichValue) (heap : Heap)

/-- What surrounds an execution: the main heap, the size of a `Value`, an identity
above those of the values that exist, the query that can be cancelled at every check
(there is one check for each unit of fuel), and the natives. `validated` is how `validate`
builds its result from what it found. -/
structure Environment where
  background : Heap
  valueSize : Nat
  firstIdentity : Nat
  cancelled : Nat → Option String
  callback : NativeFunction → List RichValue → List RichValue → Heap → QuotaAccount →
    HostProgram (Except NativeError (Option RichValue × Heap))
  validated : RichValue → RichValue → Except String Unit → Heap →
    HostProgram (Except NativeError (Option RichValue × Heap))
  core : NativeFunction → Site → List RichValue → List RichValue → Heap → QuotaAccount →
    HostProgram (Except RuntimeError (RichValue × Heap))
  codecType : Site → RichValue → HeapView → HostProgram (Except RuntimeError CodecType)
  encode : Site → CodecType → RichValue → List (String × Bool) → Heap →
    HostProgram (Except RuntimeError EncodeOutcome)

/-- The natives of the host do nothing. -/
def Environment.withoutNatives (background : Heap) : Environment where
  background := background
  valueSize := 32
  firstIdentity := 1
  cancelled _ := none
  callback _ _ _ _ _ := .finish (.error ⟨"no native", none⟩)
  validated _ _ _ _ := .finish (.error ⟨"no native", none⟩)
  core _ site _ _ _ _ := .finish (.error (site.error .panic "no native"))
  codecType site _ _ := .finish (.error (site.error .panic "no native"))
  encode site _ _ _ _ := .finish (.error (site.error .panic "no native"))

/-- The array functions that suspend; the folds carry their accumulator. -/
inductive ArrayOperation where
  | map | filter | flatMap | any | all | find
  | fold (accumulator : RichValue)
  | foldControl (accumulator : RichValue)

def ArrayOperation.function : ArrayOperation → CoreArrayFunction
  | .map => .map
  | .filter => .filter
  | .flatMap => .flatMap
  | .any => .any
  | .all => .all
  | .find => .find
  | .fold _ => .fold
  | .foldControl _ => .foldControl

/-- A suspended array function; the callback runs on the item before `nextIndex`. -/
structure ArrayContinuation where
  operation : ArrayOperation
  source : Handle
  callback : RichValue
  nextIndex : Nat
  output : List RichValue
  site : Site
  traceFrame : RuntimeFrame

/-- The dict functions that suspend. -/
inductive DictOperation where
  | mapValues | filter
  | fold (accumulator : RichValue)

def DictOperation.function : DictOperation → CoreDictFunction
  | .mapValues => .mapValues
  | .filter => .filter
  | .fold _ => .fold

/-- A suspended dict function: the entry whose callback runs, and those to come. -/
structure DictContinuation where
  operation : DictOperation
  entry : String × RichValue
  remaining : List (String × RichValue)
  callback : RichValue
  output : List (String × RichValue)
  site : Site
  traceFrame : RuntimeFrame

structure JsonEncodeContinuation where
  schema : CodecType
  input : RichValue
  decisions : List (String × Bool)
  pendingPath : String
  pendingRule : RichValue
  site : Site
  traceFrame : RuntimeFrame

/-- What a native leaves the machine with: its value and heap, or a predicate to ask before
encoding goes on. -/
inductive NativeOutcome where
  | value (value : RichValue) (current : Heap)
  | predicate (request : PredicateRequest) (continuation : JsonEncodeContinuation)

abbrev CoreProgram := HostProgram (Except RuntimeError NativeOutcome)

inductive NativeContinuation where
  | array (continuation : ArrayContinuation)
  | dict (continuation : DictContinuation)
  | jsonEncode (continuation : JsonEncodeContinuation)

def NativeContinuation.traceFrame : NativeContinuation → RuntimeFrame
  | .array continuation => continuation.traceFrame
  | .dict continuation => continuation.traceFrame
  | .jsonEncode continuation => continuation.traceFrame

/-- Where a returned value goes. A continuation has a return target of its own. -/
inductive ReturnTarget where
  | root
  | register (destination : Register) (callSite : Option Loc)
  | native (continuation : NativeContinuation) (returnTarget : ReturnTarget)

namespace ReturnTarget

def nativeDepth : ReturnTarget → Nat
  | .root | .register _ _ => 0
  | .native _ returnTarget => 1 + returnTarget.nativeDepth

def nativeTrace : ReturnTarget → List RuntimeFrame
  | .root | .register _ _ => []
  | .native continuation returnTarget => continuation.traceFrame :: returnTarget.nativeTrace

end ReturnTarget

structure ExecutionFrame where
  function : FuncByteCode
  prototype : Handle
  base : Nat
  pc : Nat
  returnTarget : ReturnTarget

namespace ExecutionFrame

/-- The end of the registers of a frame. -/
def stop (frame : ExecutionFrame) : Nat := frame.base + frame.function.registerCount

def site (frame : ExecutionFrame) : Site := ⟨frame.function, frame.pc⟩

def advance (frame : ExecutionFrame) : ExecutionFrame := { frame with pc := frame.pc + 1 }

@[simp] theorem advance_stop (frame : ExecutionFrame) : frame.advance.stop = frame.stop := rfl

@[simp] theorem advance_returnTarget (frame : ExecutionFrame) :
    frame.advance.returnTarget = frame.returnTarget := rfl

end ExecutionFrame

structure CallRequest where
  callee : RichValue
  arguments : List RichValue
  returnTarget : ReturnTarget
  site : Site

inductive VmAction where
  | call (request : CallRequest)
  | ret (value : RichValue) (returnTarget : ReturnTarget)

/-- A native call in progress: its stack window starts at `base`. -/
structure HostCall where
  program : CoreProgram
  base : Nat
  site : Site
  returnTarget : ReturnTarget

def HostCall.answered (call : HostCall) (granted : Bool) : HostCall :=
  { call with program := call.program.answered granted }

/-- The part of a state that instructions change. Closures made later get later
identities. -/
structure Store where
  stack : List (Option RichValue)
  current : Heap
  account : QuotaAccount
  nextIdentity : Nat

namespace Store

def view (store : Store) (env : Environment) : HeapView := ⟨store.current, some env.background⟩

end Store

/-- What the machine does next: run an instruction of the top frame, drive an action,
or run a native function. -/
inductive Phase where
  | execute (frame : ExecutionFrame)
  | act (action : VmAction)
  | host (call : HostCall)

/-- The frames below the top one are listed from the innermost. -/
structure State where
  phase : Phase
  frames : List ExecutionFrame
  store : Store

/-- How an execution ends: with the root value and its heap, or with an error. -/
inductive Halt where
  | value (root : RichValue) (store : Store)
  | failure (error : RuntimeError)

end Telora.Vm
