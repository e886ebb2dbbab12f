import Telora.Heap.Heap
import Telora.Value.Value

/-!
# The public value boundary

Importing a public value allocates its graph in a heap; exporting a runtime value
unfolds its graph into a public value. A graph that runs into itself, or into a
slot that was never filled, has no public value.
-/

namespace Telora

open Bytecode

section Import

/-- What an import changes: the heap, and the bytecode functions it has linked. -/
structure Importing where
  heap : Heap
  forwarded : List (Nat × Handle)

abbrev Import := StateT Importing (Except HeapError)

/-- Run a heap operation inside an import. -/
def onHeap {α : Type} (operation : Heap → α × Heap) : Import α :=
  modifyGet fun state =>
    let (result, heap) := operation state.heap
    (result, { state with heap })

def importAtom (background : Option Heap) : Atom → Import RuntimeValue
  | .builtin atom => return .builtinAtom atom
  | .named name => onHeap (·.atom background name)

variable (background : Option Heap) (externals : String → Option RichValue)

mutual

def importValueWith : Value → Import RichValue
  | .int value => return .unknown (.int value)
  | .float value => return .unknown (.float value)
  | .string value => do
      return .unknown (← onHeap (·.string background value))
  | .bytes value => do
      return .unknown (.bytes (← onHeap (·.allocate (.bytes value))))
  | .nativeType value => do
      return .unknown (.nativeType (← onHeap (·.allocate (.nativeType value))))
  | .opaqueValue value => do
      return .unknown (.opaqueValue (← onHeap (·.allocate (.opaqueValue value))))
  | .atom atom => do
      return .unknown (← importAtom background atom)
  | .tagged tag payload => do
      let tag ← importAtom background tag
      let payload ← importValueWith payload
      return .unknown (.tagged (← onHeap (·.allocate (.tagged (.unknown tag) payload))))
  | .array values => do
      let values ← importValues values
      return .unknown (.array (← onHeap (·.allocate (.array values))))
  | .tuple values => do
      let values ← importValues values
      return .unknown (.tuple (← onHeap (·.allocate (.tuple values))))
  | .dict fields values => do
      let fields ← fields.mapM fun field => onHeap (·.internIn background field)
      let shape ← onHeap (·.internShape fields)
      let values ← importValues values
      return .unknown (.dict (← onHeap (·.allocate (.dict shape values))))
  | .func identity prototype upvalues => do
      let prototype ← importPrototype prototype
      let upvalues ← importValues upvalues
      return .unknown (.func (← onHeap (·.allocate (.closure identity prototype upvalues))))
  | .dyn identity descriptor value scheme origin => do
      let descriptor ← importValueWith descriptor
      let value ← importValueWith value
      return .unknown (.dyn (← onHeap (·.allocate (.dyn identity descriptor value scheme origin))))

def importValues : List Value → Import (List RichValue)
  | [] => return []
  | value :: rest => do
      let imported ← importValueWith value
      return imported :: (← importValues rest)

def importPrototype : Prototype → Import RuntimePrototype
  | .bytecode function => return .bytecode (← linkBytecodeWith function)
  | .native function => return .native function

/-- A function is linked once; its slot is reserved while its links are imported. -/
def linkBytecodeWith : FunctionRef → Import Handle
  | .mk address (.mk code values externalValues text prototypes) => do
      match (← get).forwarded.lookup address with
      | some handle => return handle
      | none =>
          let handle ← onHeap Heap.reserve
          modify fun state => { state with forwarded := (address, handle) :: state.forwarded }
          let values ← linkValues values externalValues
          let text ← text.mapM fun text => onHeap (·.internIn background text)
          let prototypes ← linkPrototypes prototypes
          let state ← get
          let heap ← state.heap.initializeSlot handle (.byteCodeProto code values text prototypes)
          set { state with heap }
          return handle

/-- A value with an external key is looked up, any other is imported. -/
def linkValues : List Value → List (Option String) → Import (List RichValue)
  | [], _ => return []
  | value :: rest, keys => do
      let linked ← match keys.head?.join with
        | some key =>
            match externals key with
            | some value => pure value
            | none => throw ⟨"external value link is unresolved"⟩
        | none => importValueWith value
      return linked :: (← linkValues rest keys.tail)

def linkPrototypes : List FunctionRef → Import (List RuntimePrototype)
  | [] => return []
  | function :: rest => do
      let handle ← linkBytecodeWith function
      return .bytecode handle :: (← linkPrototypes rest)

end

/-- Import a value that has no external links. -/
def importValue (heap : Heap) (value : Value) : Except HeapError (RichValue × Heap) := do
  let (imported, state) ← (importValueWith background (fun _ => none) value).run ⟨heap, []⟩
  return (imported, state.heap)

/-- Link a bytecode function whose external links are resolved by name. -/
def linkBytecodeResolved (heap : Heap) (function : FunctionRef) :
    Except HeapError (Handle × Heap) := do
  let (handle, state) ← (linkBytecodeWith background externals function).run ⟨heap, []⟩
  return (handle, state.heap)

end Import

namespace HeapView

section Export

/-- An export threads the address at which the next function is allocated. -/
abbrev Export := StateT Nat (Except HeapError)

variable (view : HeapView)

/-- Visit a handle that is not being visited already. -/
def enterObject (handle : Handle) (visiting : List Handle) : Except HeapError Object :=
  if handle ∈ visiting then
    .error ⟨"cyclic heap values cannot cross the legacy Value boundary"⟩
  else
    view.object handle

/-- Allocate a bytecode function of linked parts; it has no external links. -/
def fromLinkedParts (code : FuncByteCode) (values : List Value) (text : List String)
    (prototypes : List FunctionRef) : Export FunctionRef :=
  modifyGet fun address => (.mk address (.mk code values [] text prototypes), address + 1)

/-- The bytecode function of a prototype link. -/
def bytecodeLink : Prototype → Export FunctionRef
  | .bytecode function => return function
  | .native _ => throw ⟨"native prototype cannot occupy a bytecode link slot"⟩

/-- The atom of a tag. -/
def tagAtom : Value → Export Atom
  | .atom tag => return tag
  | _ => throw ⟨"Tagged tag is not an Atom"⟩

mutual

/-- The export follows the graph, and `visiting` holds the handles on the way down: a
handle is inserted when it is entered and removed when its export is done. -/
def exportValueWith : Nat → List Handle → RuntimeValue → Export Value
  | 0, _, _ => throw ⟨"export is out of fuel"⟩
  | fuel + 1, visiting, value =>
      match value with
      | .int value => return .int value
      | .float value => return .float value
      | .builtinAtom atom => return .atom (.builtin atom)
      | .atom id => do
          return .atom (.named (← view.text id))
      | .shortString id => do
          return .string (← view.text id)
      | .string handle => do
          match ← view.enterObject handle visiting with
          | .string value => return .string value
          | _ => throw ⟨"String handle refers to another object kind"⟩
      | .bytes handle => do
          match ← view.enterObject handle visiting with
          | .bytes value => return .bytes value
          | _ => throw ⟨"Bytes handle refers to another object kind"⟩
      | .opaqueValue handle => do
          match ← view.enterObject handle visiting with
          | .opaqueValue value => return .opaqueValue value
          | _ => throw ⟨"Opaque handle refers to another object kind"⟩
      | .nativeType handle => do
          match ← view.enterObject handle visiting with
          | .nativeType value => return .nativeType value
          | _ => throw ⟨"NativeType handle refers to another object kind"⟩
      | .array handle => do
          match ← view.enterObject handle visiting with
          | .array values =>
              return .array (← values.mapM fun value =>
                exportValueWith fuel (handle :: visiting) value.value)
          | _ => throw ⟨"sequence handle refers to another object kind"⟩
      | .tuple handle => do
          match ← view.enterObject handle visiting with
          | .tuple values =>
              return .tuple (← values.mapM fun value =>
                exportValueWith fuel (handle :: visiting) value.value)
          | _ => throw ⟨"sequence handle refers to another object kind"⟩
      | .tagged handle => do
          match ← view.enterObject handle visiting with
          | .tagged tag payload =>
              let tag ← tagAtom (← exportValueWith fuel (handle :: visiting) tag.value)
              let payload ← exportValueWith fuel (handle :: visiting) payload.value
              return .tagged tag payload
          | _ => throw ⟨"Tagged handle refers to another object kind"⟩
      | .dict handle => do
          match ← view.enterObject handle visiting with
          | .dict shape values =>
              let fields ← view.shape shape
              let fields ← fields.mapM fun field => (view.text field : Export String)
              let values ← values.mapM fun value =>
                exportValueWith fuel (handle :: visiting) value.value
              return .dict fields values
          | _ => throw ⟨"Dict handle refers to another object kind"⟩
      | .func handle => do
          match ← view.enterObject handle visiting with
          | .closure identity prototype upvalues =>
              let prototype ← exportPrototype fuel (handle :: visiting) prototype
              let upvalues ← upvalues.mapM fun value =>
                exportValueWith fuel (handle :: visiting) value.value
              return .func identity prototype upvalues
          | _ => throw ⟨"Func handle refers to another object kind"⟩
      | .dyn handle => do
          match ← view.enterObject handle visiting with
          | .dyn identity descriptor value scheme origin =>
              let descriptor ← exportValueWith fuel (handle :: visiting) descriptor.value
              let value ← exportValueWith fuel (handle :: visiting) value.value
              return .dyn identity descriptor value scheme origin
          | _ => throw ⟨"Dyn handle refers to another object kind"⟩
      | .upLink handle => do
          match ← view.upLink handle with
          | none => throw ⟨"up-link is uninitialized"⟩
          | some linked =>
              if handle ∈ visiting then
                throw ⟨"cyclic heap values cannot cross the legacy Value boundary"⟩
              else
                exportValueWith fuel (handle :: visiting) linked.value

def exportPrototype : Nat → List Handle → RuntimePrototype → Export Prototype
  | _, _, .native function => return .native function
  | 0, _, .bytecode _ => throw ⟨"export is out of fuel"⟩
  | fuel + 1, visiting, .bytecode handle => do
      match ← view.enterObject handle visiting with
      | .byteCodeProto code values text prototypes =>
          let values ← values.mapM fun value =>
            exportValueWith fuel (handle :: visiting) value.value
          let text ← text.mapM fun id => (view.text id : Export String)
          let prototypes ← prototypes.mapM fun prototype => do
            bytecodeLink (← exportPrototype fuel (handle :: visiting) prototype)
          return .bytecode (← fromLinkedParts code values text prototypes)
      | _ => throw ⟨"prototype handle refers to another object kind"⟩

end

/-- The fuel bounds the handles that are not being visited. -/
def exportValue (value : RichValue) : Export Value :=
  exportValueWith view (view.handleCount + 1) [] value.value

end Export

end HeapView

end Telora
