import Telora.Heap.Heap
import Telora.Library.Runs

/-!
# Publication

Publishing copies the graph below a root from a work heap into the main heap.
The copy is prepared aside: it hands out the slots that its objects, texts and
shapes will have once they are appended, and nothing is appended when it fails.
-/

namespace Telora

open Library

structure PendingCopy where
  targetStorage : Storage
  objectBase : Nat
  objects : List Object
  textBase : Nat
  text : InternTable String
  shapeBase : Nat
  shapes : List (List InternId)
  objectsForwarded : List (Handle × Handle)
  textForwarded : List (InternId × InternId)
  shapesForwarded : List (ShapeId × ShapeId)

abbrev Copy := StateT PendingCopy (Except HeapError)

namespace PendingCopy

def new (target : Heap) : PendingCopy where
  targetStorage := target.storage
  objectBase := target.objects.length
  objects := []
  textBase := target.text.values.length
  text := .empty
  shapeBase := target.shapes.values.length
  shapes := []
  objectsForwarded := []
  textForwarded := []
  shapesForwarded := []

/-- Record where a text went. -/
def forwardText (pending : PendingCopy) (id copied : InternId) : PendingCopy :=
  { pending with textForwarded := (id, copied) :: pending.textForwarded }

/-- Record where a shape went. -/
def forwardShape (pending : PendingCopy) (id copied : ShapeId) : PendingCopy :=
  { pending with shapesForwarded := (id, copied) :: pending.shapesForwarded }

/-- Hand out the next slot to an object and hold it open. -/
def openSlot (pending : PendingCopy) (handle copied : Handle) : PendingCopy :=
  { pending with
    objectsForwarded := (handle, copied) :: pending.objectsForwarded
    objects := pending.objects ++ [.reserved] }

/-- Fill the slot that was held open. -/
def closeSlot (pending : PendingCopy) (copied : Handle) (object : Object) : PendingCopy :=
  { pending with objects := pending.objects.set (copied.slot - pending.objectBase) object }

section Copying

variable (target : Heap) (source : HeapView)

def copyText (id : InternId) : Copy InternId := do
  let pending ← get
  if id.storage = pending.targetStorage then
    let _ ← target.resolveText id
    return id
  else
    match pending.textForwarded.lookup id with
    | some forwarded => return forwarded
    | none =>
        let text ← source.text id
        match target.findText text with
        | some copied =>
            modify (·.forwardText id copied)
            return copied
        | none =>
            match pending.text.find text with
            | some slot =>
                let copied := ⟨pending.targetStorage, pending.textBase + slot⟩
                modify (·.forwardText id copied)
                return copied
            | none =>
                let copied := ⟨pending.targetStorage,
                  pending.textBase + (pending.text.insert text).2⟩
                modify fun pending => { pending with text := (pending.text.insert text).1 }
                modify (·.forwardText id copied)
                return copied

def copyShape (id : ShapeId) : Copy ShapeId := do
  let pending ← get
  if id.storage = pending.targetStorage then
    let _ ← target.shape id
    return id
  else
    match pending.shapesForwarded.lookup id with
    | some forwarded => return forwarded
    | none =>
        let fields ← (← source.shape id).mapM (copyText target source)
        let pending ← get
        match target.shapes.find fields with
        | some slot =>
            let copied := ⟨pending.targetStorage, slot⟩
            modify (·.forwardShape id copied)
            return copied
        | none =>
            match pending.shapes.findIdx? (· == fields) with
            | some index =>
                let copied := ⟨pending.targetStorage, pending.shapeBase + index⟩
                modify (·.forwardShape id copied)
                return copied
            | none =>
                let copied := ⟨pending.targetStorage, pending.shapeBase + pending.shapes.length⟩
                modify fun pending => { pending with shapes := pending.shapes ++ [fields] }
                modify (·.forwardShape id copied)
                return copied

section Values

variable (copyObject : Handle → Copy Handle)

def copyValue (rich : RichValue) : Copy RichValue := do
  let copied ← match rich.value with
    | .int value => pure (.int value)
    | .float value => pure (.float value)
    | .builtinAtom atom => pure (.builtinAtom atom)
    | .atom id => .atom <$> copyText target source id
    | .shortString id => .shortString <$> copyText target source id
    | .string handle => .string <$> copyObject handle
    | .bytes handle => .bytes <$> copyObject handle
    | .opaqueValue handle => .opaqueValue <$> copyObject handle
    | .nativeType handle => .nativeType <$> copyObject handle
    | .array handle => .array <$> copyObject handle
    | .tuple handle => .tuple <$> copyObject handle
    | .tagged handle => .tagged <$> copyObject handle
    | .dict handle => .dict <$> copyObject handle
    | .func handle => .func <$> copyObject handle
    | .dyn handle => .dyn <$> copyObject handle
    | .upLink handle => .upLink <$> copyObject handle
  return rich.withValue copied

def copyPrototype : RuntimePrototype → Copy RuntimePrototype
  | .bytecode handle => .bytecode <$> copyObject handle
  | .native function => pure (.native function)

def copyObjectData : Object → Copy Object
  | .reserved => throw ⟨"cannot copy an uninitialized object"⟩
  | .string value => return .string value
  | .bytes value => return .bytes value
  | .opaqueValue value => return .opaqueValue value
  | .nativeType value => return .nativeType value
  | .array values => do
      return .array (← values.mapM (copyValue target source copyObject))
  | .tuple values => do
      return .tuple (← values.mapM (copyValue target source copyObject))
  | .tagged tag payload => do
      let tag ← copyValue target source copyObject tag
      let payload ← copyValue target source copyObject payload
      return .tagged tag payload
  | .dict shape values => do
      let shape ← copyShape target source shape
      let values ← values.mapM (copyValue target source copyObject)
      return .dict shape values
  | .closure identity prototype upvalues => do
      let prototype ← copyPrototype copyObject prototype
      let upvalues ← upvalues.mapM (copyValue target source copyObject)
      return .closure identity prototype upvalues
  | .dyn identity descriptor value scheme origin => do
      let descriptor ← copyValue target source copyObject descriptor
      let value ← copyValue target source copyObject value
      return .dyn identity descriptor value scheme origin
  | .upLink none => throw ⟨"cannot publish an uninitialized up-link"⟩
  | .upLink (some value) => do
      return .upLink (some (← copyValue target source copyObject value))
  | .byteCodeProto code values text prototypes => do
      let values ← values.mapM (copyValue target source copyObject)
      let text ← text.mapM (copyText target source)
      let prototypes ← prototypes.mapM (copyPrototype copyObject)
      return .byteCodeProto code values text prototypes

end Values

/-- Copy the object behind a handle. The recursion follows the graph, which can be
cyclic: a handle is forwarded before its object is copied, and the fuel bounds the
number of objects that are not forwarded yet. -/
def copyObject : Nat → Handle → Copy Handle
  | 0, _ => throw ⟨"copy is out of fuel"⟩
  | fuel + 1, handle => do
      let pending ← get
      if handle.storage = pending.targetStorage then
        let _ ← target.object handle
        return handle
      else
        match pending.objectsForwarded.lookup handle with
        | some forwarded => return forwarded
        | none =>
            match ← (source.object handle : Except HeapError Object) with
            | .reserved => throw ⟨"cannot copy an uninitialized object"⟩
            | object =>
                let copied := ⟨pending.targetStorage, pending.objectBase + pending.objects.length⟩
                modify (·.openSlot handle copied)
                let object ← copyObjectData target source (copyObject fuel) object
                modify (·.closeSlot copied object)
                return copied

end Copying

end PendingCopy

def RuntimeValue.containsForeign (target : Storage) : RuntimeValue → Bool
  | .int _ => false
  | .float _ => false
  | .builtinAtom _ => false
  | .atom id => id.storage != target
  | .shortString id => id.storage != target
  | .string handle => handle.storage != target
  | .bytes handle => handle.storage != target
  | .opaqueValue handle => handle.storage != target
  | .nativeType handle => handle.storage != target
  | .array handle => handle.storage != target
  | .tuple handle => handle.storage != target
  | .tagged handle => handle.storage != target
  | .dict handle => handle.storage != target
  | .func handle => handle.storage != target
  | .dyn handle => handle.storage != target
  | .upLink handle => handle.storage != target

def RichValue.containsForeign (target : Storage) (rich : RichValue) : Bool :=
  rich.value.containsForeign target

/-- A reserved slot and an empty up-link count as foreign. The prototype of a closure
is not looked at. -/
def Object.containsForeign (target : Storage) : Object → Bool
  | .reserved => true
  | .string _ => false
  | .bytes _ => false
  | .opaqueValue _ => false
  | .nativeType _ => false
  | .array values => values.any (·.containsForeign target)
  | .tuple values => values.any (·.containsForeign target)
  | .tagged tag payload => tag.containsForeign target || payload.containsForeign target
  | .dict shape values => shape.storage != target || values.any (·.containsForeign target)
  | .closure _ _ upvalues => upvalues.any (·.containsForeign target)
  | .dyn _ descriptor value _ _ =>
      descriptor.containsForeign target || value.containsForeign target
  | .upLink none => true
  | .upLink (some value) => value.containsForeign target
  | .byteCodeProto _ values text prototypes =>
      values.any (·.containsForeign target) || text.any (·.storage != target) ||
        prototypes.any fun
          | .bytecode handle => handle.storage != target
          | .native _ => false

namespace PendingCopy

def validate (pending : PendingCopy) : Except HeapError Unit :=
  if pending.objects.any (·.containsForeign pending.targetStorage) then
    .error ⟨"copied object graph is not target-self-contained"⟩
  else
    .ok ()

def commit (pending : PendingCopy) (target : Heap) : Heap :=
  let target := { target with objects := target.objects ++ pending.objects }
  let target := pending.text.values.foldl (fun target text => (target.intern text).2) target
  pending.shapes.foldl (fun target fields => (target.internShape fields).2) target

end PendingCopy

/-- Copy the roots, check the copy and append it. The fuel covers every object of
the heap that is copied from. -/
def copyRoots (target : Heap) (source : HeapView) (roots : List RichValue) :
    Except HeapError (List RichValue × Heap) := do
  let fuel := source.current.objects.length + 1
  let (roots, pending) ← (roots.mapM (PendingCopy.copyValue target source
    (PendingCopy.copyObject target source fuel))).run (.new target)
  pending.validate
  return (roots, pending.commit target)

def publishRoot (target current : Heap) (root : RichValue) :
    Except HeapError (RichValue × Heap) := do
  if target.storage ≠ .main ∨ current.storage ≠ .work then
    throw ⟨"publication requires a Work world and Main world"⟩
  let (roots, target) ← copyRoots target ⟨current, none⟩ [root]
  match roots with
  | root :: _ => return (root, target)
  | [] => throw ⟨"index out of bounds"⟩

end Telora
