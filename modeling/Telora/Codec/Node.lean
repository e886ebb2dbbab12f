import Telora.Heap.Access
import Mathlib.Data.List.Sort

/-!
# Values under construction

What a codec or a JSON native returns, before it is put in the heap, and the result that
the native makes of it: the value, or a failure with its message, data and rule.
-/

namespace Telora

open Library

inductive CodecNode where
  | existing (value : RichValue)
  | atom (atom : BuiltinAtom) (location : Option Loc)
  | namedAtom (name : String) (location : Option Loc)
  | array (items : List CodecNode) (location : Option Loc)
  | tuple (items : List CodecNode) (location : Option Loc)
  | tagged (tag payload : CodecNode) (location : Option Loc)
  | dict (fields : List (String × CodecNode)) (location : Option Loc)
  | string (text : String) (location : Option Loc)

/-- A failure with the data it is about and the rule the data breaks. -/
structure CodecFailure where
  message : String
  data : RichValue
  rule : RichValue
  deriving DecidableEq, Repr

section Materialize

variable (background : Heap)

/-- Allocate in the heap that a construction extends. -/
def allocating (object : Object) : StateM Heap Handle := modifyGet (·.allocate object)

/-- The fields of a dict, each with the construction of its value. -/
def materializeDict (fields : List (String × StateM Heap RichValue)) (location : Option Loc) :
    StateM Heap RichValue := do
  let fields := fields.mergeSort fun left right => left.1 ≤ right.1
  let entries ← fields.mapM fun field => do
    let id ← modifyGet (Heap.intern · field.1)
    return (id, ← field.2)
  let shape ← modifyGet (Heap.internShape · (entries.map (·.1)))
  let handle ← allocating (.dict shape (entries.map (·.2)))
  return .new (.dict handle) location

mutual

def materialize : CodecNode → StateM Heap RichValue
  | .existing value => return value
  | .atom atom location => return .new (.builtinAtom atom) location
  | .namedAtom name location => do
      return .new (← modifyGet (Heap.atom · (some background) name)) location
  | .string text location => do
      return .new (← modifyGet (Heap.string · (some background) text)) location
  | .array items location => do
      let items ← materializeItems items
      return .new (.array (← allocating (.array items))) location
  | .tuple items location => do
      let items ← materializeItems items
      return .new (.tuple (← allocating (.tuple items))) location
  | .tagged tag payload location => do
      let tag ← materialize tag
      let payload ← materialize payload
      return .new (.tagged (← allocating (.tagged tag payload))) location
  | .dict fields location => materializeDict (materializeFields fields) location

def materializeItems : List CodecNode → StateM Heap (List RichValue)
  | [] => return []
  | item :: rest => do
      let item ← materialize item
      return item :: (← materializeItems rest)

def materializeFields : List (String × CodecNode) → List (String × StateM Heap RichValue)
  | [] => []
  | (name, node) :: rest => (name, materialize node) :: materializeFields rest

end

/-- The payload of an `'Err` result. -/
def failureNode (failure : CodecFailure) : CodecNode :=
  .dict [("message", .string failure.message failure.data.loc), ("data", .existing failure.data),
    ("rule", .existing failure.rule)] failure.data.loc

/-- An `'Ok` or `'Err` value at the location of the input. -/
def finishCodecResult (result : Except CodecFailure CodecNode) (input : RichValue) :
    StateM Heap RichValue := do
  let (tag, payload) := match result with
    | .ok node => (BuiltinAtom.ok, node)
    | .error failure => (BuiltinAtom.err, failureNode failure)
  let payload ← materialize background payload
  let tag := RichValue.new (.builtinAtom tag) input.loc
  return .new (.tagged (← allocating (.tagged tag payload))) input.loc

end Materialize

end Telora
