import Telora.Heap.Heap
import Telora.Library.Runs

/-!
# Equality of runtime values

The comparison descends two graphs in step. A pair of handles that was met before
is taken to be equal, so it ends on cycles; a pair of identical handles is not
entered at all.
-/

namespace Telora

open Library

/-- A comparison threads the pairs it has visited. -/
abbrev Compare := StateT (List (Handle × Handle)) (Except HeapError)

namespace HeapView

section Leaves

variable (view : HeapView)

def stringText (value : RuntimeValue) : Except HeapError (Option String) :=
  match value with
  | .shortString id => some <$> view.text id
  | .string handle => do
      match ← view.object handle with
      | .string value => return some value
      | _ => throw ⟨"String handle refers to another object kind"⟩
  | _ => return none

def atomText (value : RuntimeValue) : Except HeapError (Option String) :=
  match value with
  | .builtinAtom atom => return some atom.name
  | .atom id => some <$> view.text id
  | _ => return none

def closureIdentity (handle : Handle) : Except HeapError Nat := do
  match ← view.object handle with
  | .closure identity _ _ => return identity
  | _ => throw ⟨"Func handle refers to another object kind"⟩

def dynIdentity (handle : Handle) : Except HeapError Nat := do
  match ← view.object handle with
  | .dyn identity _ _ _ _ => return identity
  | _ => throw ⟨"handle is not a Dyn"⟩

/-- Ids of one storage are compared directly, ids of two by their texts. -/
def idsEqual (left right : InternId) : Except HeapError Bool :=
  if left.storage = right.storage then
    return left == right
  else
    return (← view.text left) == (← view.text right)

def bytesEqual (left right : Handle) : Except HeapError Bool :=
  if left = right then
    return true
  else do
    match ← view.object left with
    | .bytes left =>
        match ← view.object right with
        | .bytes right => return left == right
        | _ => throw ⟨"Bytes handle refers to another object kind"⟩
    | _ => throw ⟨"Bytes handle refers to another object kind"⟩

def opaqueEqual (left right : Handle) : Except HeapError Bool :=
  if left = right then
    return true
  else do
    match ← view.object left with
    | .opaqueValue left =>
        match ← view.object right with
        | .opaqueValue right => return left.logicalEq right
        | _ => throw ⟨"Opaque handle refers to another object kind"⟩
    | _ => throw ⟨"Opaque handle refers to another object kind"⟩

def nativeTypeEqual (left right : Handle) : Except HeapError Bool :=
  if left = right then
    return true
  else do
    match ← view.object left with
    | .nativeType left =>
        match ← view.object right with
        | .nativeType right => return left.id == right.id
        | _ => throw ⟨"NativeType handle refers to another object kind"⟩
    | _ => throw ⟨"NativeType handle refers to another object kind"⟩

def stringsEqual (left right : RuntimeValue) : Except HeapError Bool := do
  return (← view.stringText left) == (← view.stringText right)

/-- The arms of the comparison that do not descend. -/
def leavesEqual (left right : RuntimeValue) : Except HeapError Bool :=
  match left, right with
  | .func left, .func right => do
      return (← view.closureIdentity left) == (← view.closureIdentity right)
  | .dyn left, .dyn right => do
      return (← view.dynIdentity left) == (← view.dynIdentity right)
  | .upLink _, _ => throw ⟨"up-link escaped into equality"⟩
  | _, .upLink _ => throw ⟨"up-link escaped into equality"⟩
  | .int left, .int right => return left == right
  | .float left, .float right => return left.eq right
  | .builtinAtom left, .builtinAtom right => return left == right
  | .atom left, .atom right => view.idsEqual left right
  | .shortString left, .shortString right => view.idsEqual left right
  | .builtinAtom left, .atom right => do
      return (← view.atomText (.builtinAtom left)) == (← view.atomText (.atom right))
  | .atom left, .builtinAtom right => do
      return (← view.atomText (.atom left)) == (← view.atomText (.builtinAtom right))
  | .string left, .string right =>
      if left = right then return true
      else view.stringsEqual (.string left) (.string right)
  | .shortString left, .string right => view.stringsEqual (.shortString left) (.string right)
  | .string left, .shortString right => view.stringsEqual (.string left) (.shortString right)
  | .bytes left, .bytes right => view.bytesEqual left right
  | .opaqueValue left, .opaqueValue right => view.opaqueEqual left right
  | .nativeType left, .nativeType right => view.nativeTypeEqual left right
  | _, _ => return false

end Leaves

section Containers

variable (view : HeapView) (compare : RuntimeValue → RuntimeValue → Compare Bool)

/-- Compare in order and stop at the first difference. -/
def pairsEqual : List (RuntimeValue × RuntimeValue) → Compare Bool
  | [] => return true
  | (left, right) :: rest => do
      if ← compare left right then
        pairsEqual rest
      else
        return false

def valueSlicesEqual (left right : List RichValue) : Compare Bool :=
  if left.length ≠ right.length then
    return false
  else
    pairsEqual compare ((left.map (·.value)).zip (right.map (·.value)))

def sequenceValues (handle : Handle) : Except HeapError (List RichValue) := do
  match ← view.object handle with
  | .array values => return values
  | .tuple values => return values
  | _ => throw ⟨"sequence handle refers to another object kind"⟩

def taggedParts (handle : Handle) : Except HeapError (RichValue × RichValue) := do
  match ← view.object handle with
  | .tagged tag payload => return (tag, payload)
  | _ => throw ⟨"handle is not a Tagged value"⟩

def dictParts (handle : Handle) : Except HeapError (ShapeId × List RichValue) := do
  match ← view.object handle with
  | .dict shape values => return (shape, values)
  | _ => throw ⟨"Dict handle refers to another object kind"⟩

/-- Field names agree pairwise. -/
def fieldsEqual : List (InternId × InternId) → Except HeapError Bool
  | [] => return true
  | (left, right) :: rest => do
      if (← view.text left) = (← view.text right) then
        fieldsEqual rest
      else
        return false

/-- A pair of handles is entered once; identical handles are never entered. -/
def enterPair (left right : Handle) (descend : Compare Bool) : Compare Bool :=
  if left = right then
    return true
  else do
    let visited ← get
    if (left, right) ∈ visited then
      return true
    else
      set ((left, right) :: visited)
      descend

def sequenceHandlesEqual (left right : Handle) : Compare Bool :=
  enterPair left right do
    let leftValues ← view.sequenceValues left
    let rightValues ← view.sequenceValues right
    valueSlicesEqual compare leftValues rightValues

def taggedHandlesEqual (left right : Handle) : Compare Bool :=
  enterPair left right do
    let (leftTag, leftPayload) ← view.taggedParts left
    let (rightTag, rightPayload) ← view.taggedParts right
    pairsEqual compare [(leftTag.value, rightTag.value), (leftPayload.value, rightPayload.value)]

def dictHandlesEqual (left right : Handle) : Compare Bool :=
  enterPair left right do
    let (leftShape, leftValues) ← view.dictParts left
    let (rightShape, rightValues) ← view.dictParts right
    let leftFields ← view.shape leftShape
    let rightFields ← view.shape rightShape
    if leftFields.length ≠ rightFields.length then
      return false
    else if ← view.fieldsEqual (leftFields.zip rightFields) then
      valueSlicesEqual compare leftValues rightValues
    else
      return false

end Containers

/-- The recursion follows the graphs, which can be cyclic; the fuel bounds the pairs
of handles that were not visited yet. -/
def valuesEqualWith (view : HeapView) : Nat → RuntimeValue → RuntimeValue → Compare Bool
  | 0, _, _ => throw ⟨"comparison is out of fuel"⟩
  | fuel + 1, left, right =>
      match left, right with
      | .array left, .array right => sequenceHandlesEqual view (valuesEqualWith view fuel) left right
      | .tuple left, .tuple right => sequenceHandlesEqual view (valuesEqualWith view fuel) left right
      | .tagged left, .tagged right => taggedHandlesEqual view (valuesEqualWith view fuel) left right
      | .dict left, .dict right => dictHandlesEqual view (valuesEqualWith view fuel) left right
      | left, right => view.leavesEqual left right

def valuesEqual (view : HeapView) (left right : RichValue) : Except HeapError Bool :=
  (valuesEqualWith view (view.handleCount * view.handleCount + 1) left.value right.value).run' []

end HeapView

end Telora
