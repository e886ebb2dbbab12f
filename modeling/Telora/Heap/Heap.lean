import Telora.Library.InternTable
import Telora.Library.ExceptBind
import Telora.Value.Value

/-!
# Heaps

A heap owns its objects and interns its texts and dict shapes. Handles and ids
carry the storage of the heap they name, so a work heap can refer to the main
heap behind it. A view resolves them against the pair.
-/

namespace Telora

open Library Bytecode

inductive Storage where
  | work
  | main
  deriving DecidableEq, Repr

structure Handle where
  storage : Storage
  slot : Nat
  deriving DecidableEq, Repr

structure InternId where
  storage : Storage
  slot : Nat
  deriving DecidableEq, Repr

structure ShapeId where
  storage : Storage
  slot : Nat
  deriving DecidableEq, Repr

inductive RuntimeValue where
  | int (value : Int)
  | float (value : F64)
  | builtinAtom (atom : BuiltinAtom)
  | atom (id : InternId)
  | shortString (id : InternId)
  | string (handle : Handle)
  | bytes (handle : Handle)
  | nativeType (handle : Handle)
  | opaqueValue (handle : Handle)
  | array (handle : Handle)
  | tuple (handle : Handle)
  | tagged (handle : Handle)
  | dict (handle : Handle)
  | func (handle : Handle)
  | dyn (handle : Handle)
  | upLink (handle : Handle)
  deriving DecidableEq, Repr

inductive Provenance where
  | unknown
  | original (location : Loc)
  | generated (location : Loc)
  deriving DecidableEq, Repr

structure RichValue where
  value : RuntimeValue
  provenance : Provenance
  deriving DecidableEq, Repr

namespace RichValue

def unknown (value : RuntimeValue) : RichValue := ⟨value, .unknown⟩

def withValue (rich : RichValue) (value : RuntimeValue) : RichValue := { rich with value }

end RichValue

inductive RuntimePrototype where
  | bytecode (handle : Handle)
  | native (function : NativeFunction)
  deriving DecidableEq, Repr

inductive Object where
  | reserved
  | string (value : String)
  | bytes (value : List UInt8)
  | nativeType (value : NativeType)
  | opaqueValue (value : OpaqueValue)
  | array (values : List RichValue)
  | tuple (values : List RichValue)
  | tagged (tag payload : RichValue)
  | dict (shape : ShapeId) (values : List RichValue)
  | closure (identity : Nat) (prototype : RuntimePrototype) (upvalues : List RichValue)
  | dyn (identity : Nat) (descriptor value : RichValue)
      (scheme : Option TypeScheme) (origin : Option String)
  | upLink (value : Option RichValue)
  | byteCodeProto (code : FuncByteCode) (values : List RichValue) (text : List InternId)
      (prototypes : List RuntimePrototype)

structure HeapError where
  message : String
  deriving DecidableEq, Repr

structure Heap where
  storage : Storage
  objects : List Object
  text : InternTable String
  shapes : InternTable (List InternId)

namespace Heap

def new (storage : Storage) : Heap := ⟨storage, [], .empty, .empty⟩

/-- The empty work heap. -/
def work : Heap := new .work

/-- The empty main heap. -/
def main : Heap := new .main

def allocate (heap : Heap) (object : Object) : Handle × Heap :=
  (⟨heap.storage, heap.objects.length⟩, { heap with objects := heap.objects ++ [object] })

def reserve (heap : Heap) : Handle × Heap := heap.allocate .reserved

def object (heap : Heap) (handle : Handle) : Except HeapError Object :=
  if handle.storage ≠ heap.storage then
    .error ⟨"object handle belongs to another heap"⟩
  else
    match heap.objects[handle.slot]? with
    | some object => .ok object
    | none => .error ⟨"object handle is out of bounds"⟩

/-- Fill a reserved slot. -/
def initializeSlot (heap : Heap) (handle : Handle) (object : Object) : Except HeapError Heap :=
  match heap.object handle with
  | .error error => .error error
  | .ok .reserved => .ok { heap with objects := heap.objects.set handle.slot object }
  | .ok _ => .error ⟨"heap slot is already initialized"⟩

def initializeUpLink (heap : Heap) (handle : Handle) (value : RichValue) :
    Except HeapError Heap :=
  if handle.storage ≠ .work then
    .error ⟨"Main up-links are read-only"⟩
  else
    match heap.object handle with
    | .error error => .error error
    | .ok (.upLink none) =>
        .ok { heap with objects := heap.objects.set handle.slot (.upLink (some value)) }
    | .ok (.upLink (some _)) => .error ⟨"up-link is already initialized"⟩
    | .ok _ => .error ⟨"handle is not an up-link"⟩

def intern (heap : Heap) (text : String) : InternId × Heap :=
  (⟨heap.storage, (heap.text.insert text).2⟩, { heap with text := (heap.text.insert text).1 })

def findText (heap : Heap) (text : String) : Option InternId :=
  (heap.text.find text).map (⟨heap.storage, ·⟩)

def resolveText (heap : Heap) (id : InternId) : Except HeapError String :=
  if id.storage ≠ heap.storage then
    .error ⟨"intern ID belongs to another heap"⟩
  else
    match heap.text.resolve id.slot with
    | some text => .ok text
    | none => .error ⟨"intern ID is out of bounds"⟩

/-- The id of a text, shared with the background heap when it has the text. -/
def internIn (heap : Heap) (background : Option Heap) (text : String) : InternId × Heap :=
  match background.bind (·.findText text) with
  | some id => (id, heap)
  | none => heap.intern text

/-- Texts of at most this many bytes are interned. -/
def shortTextBytes : Nat := 32

def string (heap : Heap) (background : Option Heap) (text : String) : RuntimeValue × Heap :=
  if text.utf8ByteSize ≤ shortTextBytes then
    let (id, heap) := heap.internIn background text
    (.shortString id, heap)
  else
    let (handle, heap) := heap.allocate (.string text)
    (.string handle, heap)

def atom (heap : Heap) (background : Option Heap) (text : String) : RuntimeValue × Heap :=
  match builtinAtom text with
  | some builtin => (.builtinAtom builtin, heap)
  | none =>
      let (id, heap) := heap.internIn background text
      (.atom id, heap)

def internShape (heap : Heap) (fields : List InternId) : ShapeId × Heap :=
  (⟨heap.storage, (heap.shapes.insert fields).2⟩,
    { heap with shapes := (heap.shapes.insert fields).1 })

def shape (heap : Heap) (id : ShapeId) : Except HeapError (List InternId) :=
  if id.storage ≠ heap.storage then
    .error ⟨"shape ID belongs to another heap"⟩
  else
    match heap.shapes.resolve id.slot with
    | some fields => .ok fields
    | none => .error ⟨"shape ID is out of bounds"⟩

theorem object_eq_ok {heap : Heap} {handle : Handle} {object : Object} :
    heap.object handle = .ok object ↔
      handle.storage = heap.storage ∧ heap.objects[handle.slot]? = some object := by
  unfold Heap.object
  rw [ite_error_eq_ok, not_not]
  cases heap.objects[handle.slot]? <;> simp

theorem resolveText_eq_ok {heap : Heap} {id : InternId} {text : String} :
    heap.resolveText id = .ok text ↔
      id.storage = heap.storage ∧ heap.text.resolve id.slot = some text := by
  unfold resolveText
  rw [ite_error_eq_ok, not_not]
  cases heap.text.resolve id.slot <;> simp

theorem shape_eq_ok {heap : Heap} {id : ShapeId} {fields : List InternId} :
    heap.shape id = .ok fields ↔
      id.storage = heap.storage ∧ heap.shapes.resolve id.slot = some fields := by
  unfold shape
  rw [ite_error_eq_ok, not_not]
  cases heap.shapes.resolve id.slot <;> simp

end Heap

/-- A heap together with the main heap behind it. -/
structure HeapView where
  current : Heap
  background : Option Heap

namespace HeapView

/-- The heap of a storage. -/
def heap (view : HeapView) : Storage → Except HeapError Heap
  | .work =>
      if view.current.storage = .work then .ok view.current
      else .error ⟨"value refers to a heap outside its view"⟩
  | .main =>
      if view.current.storage = .main then .ok view.current
      else
        match view.background.filter (·.storage = .main) with
        | some heap => .ok heap
        | none => .error ⟨"Main value has no Main world"⟩

def object (view : HeapView) (handle : Handle) : Except HeapError Object := do
  (← view.heap handle.storage).object handle

def text (view : HeapView) (id : InternId) : Except HeapError String := do
  (← view.heap id.storage).resolveText id

def shape (view : HeapView) (id : ShapeId) : Except HeapError (List InternId) := do
  (← view.heap id.storage).shape id

def upLink (view : HeapView) (handle : Handle) : Except HeapError (Option RichValue) := do
  match ← view.object handle with
  | .upLink value => return value
  | _ => throw ⟨"handle is not an up-link"⟩

/-- The number of handles that a view resolves. -/
def handleCount (view : HeapView) : Nat :=
  view.current.objects.length + (view.background.map (·.objects.length)).getD 0

/-- The heap that a view resolves a storage in has that storage. -/
theorem heap_storage {view : HeapView} {storage : Storage} {heap : Heap}
    (h : view.heap storage = .ok heap) : heap.storage = storage := by
  cases storage with
  | work =>
      simp only [HeapView.heap] at h
      split at h
      · rename_i hstorage
        obtain rfl := Except.ok.inj h
        exact hstorage
      · cases h
  | main =>
      simp only [HeapView.heap] at h
      split at h
      · rename_i hstorage
        obtain rfl := Except.ok.inj h
        exact hstorage
      · split at h
        · rename_i background hfilter
          obtain rfl := Except.ok.inj h
          simpa using (Option.filter_eq_some_iff.mp hfilter).2
        · cases h

theorem object_eq_ok {view : HeapView} {handle : Handle} {object : Object} :
    view.object handle = .ok object ↔
      ∃ heap, view.heap handle.storage = .ok heap ∧ heap.objects[handle.slot]? = some object := by
  unfold HeapView.object
  rw [bind_eq_ok]
  constructor
  · rintro ⟨heap, hheap, hobject⟩
    exact ⟨heap, hheap, (Heap.object_eq_ok.mp hobject).2⟩
  · rintro ⟨heap, hheap, hobject⟩
    exact ⟨heap, hheap, Heap.object_eq_ok.mpr ⟨(heap_storage hheap).symm, hobject⟩⟩

theorem text_eq_ok {view : HeapView} {id : InternId} {text : String} :
    view.text id = .ok text ↔
      ∃ heap, view.heap id.storage = .ok heap ∧ heap.text.resolve id.slot = some text := by
  unfold HeapView.text
  rw [bind_eq_ok]
  constructor
  · rintro ⟨heap, hheap, htext⟩
    exact ⟨heap, hheap, (Heap.resolveText_eq_ok.mp htext).2⟩
  · rintro ⟨heap, hheap, htext⟩
    exact ⟨heap, hheap, Heap.resolveText_eq_ok.mpr ⟨(heap_storage hheap).symm, htext⟩⟩

theorem shape_eq_ok {view : HeapView} {id : ShapeId} {fields : List InternId} :
    view.shape id = .ok fields ↔
      ∃ heap, view.heap id.storage = .ok heap ∧ heap.shapes.resolve id.slot = some fields := by
  unfold HeapView.shape
  rw [bind_eq_ok]
  constructor
  · rintro ⟨heap, hheap, hshape⟩
    exact ⟨heap, hheap, (Heap.shape_eq_ok.mp hshape).2⟩
  · rintro ⟨heap, hheap, hshape⟩
    exact ⟨heap, hheap, Heap.shape_eq_ok.mpr ⟨(heap_storage hheap).symm, hshape⟩⟩

theorem upLink_eq_ok {view : HeapView} {handle : Handle} {value : Option RichValue} :
    view.upLink handle = .ok value ↔ view.object handle = .ok (.upLink value) := by
  unfold HeapView.upLink
  rw [bind_eq_ok]
  constructor
  · rintro ⟨object, hobject, h⟩
    cases object <;> first
      | (obtain rfl := pure_eq_ok.mp h; exact hobject)
      | cases h
  · exact fun hobject => ⟨_, hobject, rfl⟩

/-- The handles a view can resolve. -/
def handles (view : HeapView) : List Handle :=
  (List.range view.current.objects.length).map (⟨view.current.storage, ·⟩) ++
    (List.range ((view.background.map (·.objects.length)).getD 0)).map (⟨.main, ·⟩)

theorem length_handles (view : HeapView) : view.handles.length = view.handleCount := by
  simp [handles, handleCount]

theorem mem_handles {view : HeapView} {handle : Handle} {object : Object} (h : view.object handle = .ok object) :
    handle ∈ view.handles := by
  obtain ⟨heap, hheap, hslot⟩ := object_eq_ok.mp h
  have hlt := (List.getElem?_eq_some_iff.mp hslot).1
  have hstorage := heap_storage hheap
  obtain ⟨storage, slot⟩ := handle
  cases storage with
  | work =>
      simp only [HeapView.heap] at hheap
      split at hheap
      · rename_i hwork
        obtain rfl := Except.ok.inj hheap
        exact List.mem_append_left _ (List.mem_map.mpr ⟨slot, List.mem_range.mpr hlt, by rw [hwork]⟩)
      · cases hheap
  | main =>
      simp only [HeapView.heap] at hheap
      split at hheap
      · rename_i hmain
        obtain rfl := Except.ok.inj hheap
        exact List.mem_append_left _ (List.mem_map.mpr ⟨slot, List.mem_range.mpr hlt, by rw [hmain]⟩)
      · split at hheap
        · rename_i background hfilter
          obtain rfl := Except.ok.inj hheap
          obtain ⟨hbackground, -⟩ := Option.filter_eq_some_iff.mp hfilter
          refine List.mem_append_right _ (List.mem_map.mpr ⟨slot, List.mem_range.mpr ?_, rfl⟩)
          rw [hbackground]
          exact hlt
        · cases hheap

end HeapView

end Telora
