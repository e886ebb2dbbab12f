import Telora.Heap.Equality
import Telora.Library.BinarySearch
import Mathlib.Data.String.Basic

/-!
# Reading objects

What the virtual machine and the natives read through a view: the parts of the
objects behind a handle, and the fields of a dict by binary search over the texts
of its shape. New values carry the location of the operation that made them.
-/

namespace Telora

open Library Bytecode

/-- The linked parts of a bytecode prototype. -/
structure BytecodeLinks where
  code : FuncByteCode
  values : List RichValue
  text : List InternId
  prototypes : List RuntimePrototype

namespace HeapView

variable (view : HeapView)

def bytecode (handle : Handle) : Except HeapError BytecodeLinks := do
  match ← view.object handle with
  | .byteCodeProto code values text prototypes => return ⟨code, values, text, prototypes⟩
  | _ => throw ⟨"handle is not a bytecode prototype"⟩

def closure (handle : Handle) : Except HeapError (RuntimePrototype × List RichValue) := do
  match ← view.object handle with
  | .closure _ prototype upvalues => return (prototype, upvalues)
  | _ => throw ⟨"handle is not a closure"⟩

def functionArity (handle : Handle) : Except HeapError Nat := do
  match ← view.closure handle with
  | (.native function, _) => return function.arity
  | (.bytecode handle, _) =>
      match ← view.object handle with
      | .byteCodeProto code _ _ _ => return code.parameterCount
      | _ => throw ⟨"prototype handle refers to another object kind"⟩

def sequence (handle : Handle) (tuple : Bool) : Except HeapError (List RichValue) := do
  match ← view.object handle, tuple with
  | .array values, false => return values
  | .tuple values, true => return values
  | _, _ => throw ⟨"handle is not the requested sequence kind"⟩

def tagged (handle : Handle) : Except HeapError (RichValue × RichValue) := do
  match ← view.object handle with
  | .tagged tag payload => return (tag, payload)
  | _ => throw ⟨"handle is not a Tagged value"⟩

def dictShape (handle : Handle) : Except HeapError (ShapeId × List RichValue) := do
  match ← view.object handle with
  | .dict shape values => return (shape, values)
  | _ => throw ⟨"handle is not a Dict"⟩

/-- The text of a field, empty when it does not resolve. -/
def fieldText (field : InternId) : String :=
  match view.text field with
  | .ok text => text
  | .error _ => ""

/-- How the field at an index compares with the wanted text. -/
def compareField (fields : List InternId) (wanted : String) (index : Nat) : Ordering :=
  compare ((fields[index]?.map view.fieldText).getD "") wanted

/-- The same, where the id of the wanted text is known. -/
def compareFieldId (fields : List InternId) (field : InternId) (wanted : String)
    (index : Nat) : Ordering :=
  if fields[index]? = some field then .eq else view.compareField fields wanted index

def dictGet (handle : Handle) (field : InternId) : Except HeapError (Option RichValue) := do
  let (shape, values) ← view.dictShape handle
  let wanted ← view.text field
  let fields ← view.shape shape
  let index := binarySearchBy (view.compareFieldId fields field wanted) fields.length
  return index.bind (values[·]?)

def dictGetText (handle : Handle) (field : String) : Except HeapError (Option RichValue) := do
  let (shape, values) ← view.dictShape handle
  let fields ← view.shape shape
  let index := binarySearchBy (view.compareField fields field) fields.length
  return index.bind (values[·]?)

/-- The field names of a dict, in the order of its shape. -/
def dictFields (handle : Handle) : Except HeapError (List String) := do
  let (shape, _) ← view.dictShape handle
  let fields ← view.shape shape
  fields.mapM view.text

/-- The fields of a dict with their values. -/
def dictFieldParts (handle : Handle) : Except HeapError (List InternId × List RichValue) := do
  let (shape, values) ← view.dictShape handle
  return (← view.shape shape, values)

end HeapView

namespace RichValue

/-- A value made by an operation at a location. -/
def new (value : RuntimeValue) : Option Loc → RichValue
  | some location => ⟨value, .generated location⟩
  | none => ⟨value, .unknown⟩

def loc (rich : RichValue) : Option Loc :=
  match rich.provenance with
  | .unknown => none
  | .original location => some location
  | .generated location => some location

def withLoc (rich : RichValue) (location : Option Loc) : RichValue :=
  if rich.loc = location then rich else new rich.value location

/-- A returned value moves to the call site unless it comes from the source data. -/
def rebaseGenerated (rich : RichValue) (callSite : Option Loc) : RichValue :=
  match rich.provenance with
  | .original _ => rich
  | _ => new rich.value callSite

@[simp] theorem new_value (value : RuntimeValue) (location : Option Loc) :
    (new value location).value = value := by
  cases location <;> rfl

end RichValue

/-- What an error calls the kind of a value. -/
def RuntimeValue.kindName : RuntimeValue → String
  | .int _ => "Int"
  | .float _ => "Float"
  | .builtinAtom _ | .atom _ => "Atom"
  | .shortString _ | .string _ => "String"
  | .bytes _ => "Bytes"
  | .opaqueValue _ => "Opaque"
  | .nativeType _ => "Type"
  | .array _ => "Array"
  | .tuple _ => "Tuple"
  | .tagged _ => "Tagged"
  | .dict _ => "Dict"
  | .func _ => "Func"
  | .dyn _ => "Dyn"
  | .upLink _ => "internal up-link"

def runtimeBool (value : Bool) : RichValue :=
  .unknown (.builtinAtom (if value then .true else .false))

end Telora
