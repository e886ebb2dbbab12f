import Telora.Heap.Access
import Telora.Library.Entries
import Telora.Library.InStep

/-!
# Structural observers of `std/dyn`

A Dyn packs a value with its descriptor. An observer first takes the links and the
attributes off the descriptor, then reads the kind of the type metadata under them and
looks at the value as the kind says. Names are looked up by their texts; only `fields`
compares ids. Descriptors can be cyclic, so the loops over them carry fuel.
-/

namespace Telora

open Library

/-- The structural operations; `field` carries the name it asks for. -/
inductive DynOperation where
  | field (name : String)
  | fields
  | arrayItems
  | tupleItems
  | tag
  | payload
  deriving DecidableEq

inductive DynObservation where
  | child (descriptor value : RichValue)
  | children (items : List (RichValue × RichValue))
  | namedChildren (fields : List (String × RichValue × RichValue))
  | tag (tag : String)
  | payload (payload : Option (RichValue × RichValue))
  deriving DecidableEq

/-- An observation, or the message of its failure. -/
abbrev Observing := Fueled String

/-- A read of the heap, whose failure is reported by its message. -/
def reading {α : Type} (result : Except HeapError α) : Observing α :=
  ExceptT.mk (some (result.mapError (·.message)))

namespace RuntimeValue

def asDict : RuntimeValue → Option Handle
  | .dict handle => some handle
  | _ => none

def asArray : RuntimeValue → Option Handle
  | .array handle => some handle
  | _ => none

def asTuple : RuntimeValue → Option Handle
  | .tuple handle => some handle
  | _ => none

end RuntimeValue

namespace HeapView

variable (view : HeapView)

/-- The atom that a field holds, if the field is there and holds one. -/
def atomField (handle : Handle) (name : String) : Observing (Option String) := do
  let found ← reading (view.dictGetText handle name)
  return found.bind fun value => (view.atomText value.value).toOption.join

/-- Take the links and the attributes off a descriptor. -/
def normalizeDynDescriptor : Nat → RichValue → Observing RichValue
  | 0, _ => outOfFuel
  | fuel + 1, descriptor =>
      match descriptor.value with
      | .upLink handle => do
          let target ← reading (view.upLink handle)
          let descriptor ← orThrow "Dyn descriptor reference is not initialized" target
          normalizeDynDescriptor fuel descriptor
      | .dict handle => do
          let kind ← view.atomField handle "kind"
          let kind ← orThrow "Dyn descriptor is missing an Atom kind" kind
          if kind ≠ "WithAttributes" then
            return descriptor
          else do
            let inner ← reading (view.dictGetText handle "inner")
            let inner ← orThrow "WithAttributes descriptor is missing inner" inner
            normalizeDynDescriptor fuel inner
      | _ => throw "Dyn descriptor is not canonical Type metadata"

/-- The attributes of one wrapper; outer attributes win. -/
def collectAttributes (collected : List (String × RichValue))
    (attributes : List (InternId × RichValue)) : Observing (List (String × RichValue)) :=
  attributes.foldlM (fun collected entry => do
    let name ← reading (view.text entry.1)
    return if (collected.lookup name).isSome then collected
      else insertEntry name entry.2 collected) collected

/-- Take the attributes off a value and collect them. -/
def stripRuntimeAttributes (path : String) : Nat → RichValue → List (String × RichValue) →
    Observing (RichValue × List (String × RichValue))
  | 0, _, _ => outOfFuel
  | fuel + 1, value, collected =>
      match value.value with
      | .dict handle => do
          let kind ← view.atomField handle "kind"
          if kind ≠ some "WithAttributes" then
            return (value, collected)
          else do
            let fields ← reading (view.dictFields handle)
            if fields ≠ ["attributes", "inner", "kind"] then
              throw s!"{path} WithAttributes wrapper must have exactly attributes, inner, and kind fields"
            else do
              -- the code expects both fields to be there, once the names are checked
              let attributes ← reading (view.dictGetText handle "attributes")
              let attributes ← orThrow "validated wrapper field" attributes
              let attributes ← orThrow s!"{path}.attributes must be a Dict" attributes.value.asDict
              let (names, values) ← reading (view.dictFieldParts attributes)
              let collected ← view.collectAttributes collected (names.zip values)
              let inner ← reading (view.dictGetText handle "inner")
              let inner ← orThrow "validated wrapper field" inner
              stripRuntimeAttributes path fuel inner collected
      | _ => return (value, collected)

section Operations

variable (fuel : Nat) (kind : String) (metadata : Handle)

/-- A field of the type metadata. -/
def typeField (name : String) : Observing RichValue := do
  let found ← reading (view.dictGetText metadata name)
  orThrow s!"{kind} descriptor is missing {name}" found

/-- The descriptor of one field. -/
def fieldDescriptor (name : String) : Observing RichValue :=
  if kind = "Struct" then do
    let fields ← view.typeField kind metadata "fields"
    let fields ← orThrow "Struct.fields descriptor must be a Dict" fields.value.asDict
    let found ← reading (view.dictGetText fields name)
    orThrow s!"Struct has no declared field {name.quote}" found
  else if kind = "Dict" then
    view.typeField kind metadata "item"
  else
    throw s!"dyn.field does not support descriptor kind {kind}"

def observeField (name : String) (value : RichValue) : Observing DynObservation := do
  let handle ← orThrow s!"dyn.field expected {kind} runtime Dict" value.value.asDict
  let child ← reading (view.dictGetText handle name)
  let child ← orThrow s!"dyn.field could not find field {name.quote}" child
  let descriptor ← view.fieldDescriptor kind metadata name
  return .child descriptor child

/-- The descriptors of the fields that a value has, one for each. -/
def fieldDescriptors (valueFields : List InternId) (values : List RichValue) :
    Observing (List RichValue) :=
  if kind = "Struct" then do
    let fields ← view.typeField kind metadata "fields"
    let fields ← orThrow "Struct.fields descriptor must be a Dict" fields.value.asDict
    let (names, descriptors) ← reading (view.dictFieldParts fields)
    -- the ids are compared, not the texts they stand for
    if names ≠ valueFields then
      throw "Struct descriptor and runtime value have different fields"
    else
      return descriptors
  else if kind = "Dict" then do
    let item ← view.typeField kind metadata "item"
    return List.replicate values.length item
  else
    throw s!"dyn.fields does not support descriptor kind {kind}"

def namedChild (child : (InternId × RichValue) × RichValue) :
    Observing (String × RichValue × RichValue) := do
  let name ← reading (view.text child.1.1)
  return (name, child.1.2, child.2)

def observeFields (value : RichValue) : Observing DynObservation := do
  let handle ← orThrow s!"dyn.fields expected {kind} runtime Dict" value.value.asDict
  let (valueFields, values) ← reading (view.dictFieldParts handle)
  let descriptors ← view.fieldDescriptors kind metadata valueFields values
  let fields ← ((valueFields.zip descriptors).zip values).mapM view.namedChild
  return .namedChildren fields

def observeArrayItems (value : RichValue) : Observing DynObservation :=
  if kind ≠ "Array" then
    throw s!"dyn.array_items expected Array, got {kind}"
  else do
    let handle ← orThrow "dyn.array_items expected runtime Array" value.value.asArray
    let item ← view.typeField kind metadata "item"
    let values ← reading (view.sequence handle false)
    return .children (values.map fun value => (item, value))

def observeTupleItems (value : RichValue) : Observing DynObservation :=
  if kind ≠ "Tuple" then
    throw s!"dyn.tuple_items expected Tuple, got {kind}"
  else do
    let handle ← orThrow "dyn.tuple_items expected runtime Tuple" value.value.asTuple
    let items ← view.typeField kind metadata "items"
    let items ← orThrow "Tuple.items descriptor must be an Array" items.value.asArray
    let descriptors ← reading (view.sequence items false)
    let values ← reading (view.sequence handle true)
    if descriptors.length ≠ values.length then
      throw "Tuple descriptor and runtime value have different lengths"
    else
      return .children (descriptors.zip values)

/-- The tag of a value and its payload. -/
def runtimeTag (value : RichValue) : Observing (String × Option RichValue) :=
  match value.value with
  | .tagged handle => do
      let (tag, payload) ← reading (view.tagged handle)
      let tag ← reading (view.atomText tag.value)
      let tag ← orThrow "Tagged runtime tag is not an Atom" tag
      return (tag, some payload)
  | .builtinAtom _ | .atom _ => do
      let tag ← reading (view.atomText value.value)
      -- the code expects an atom to have a text
      let tag ← orThrow "Atom has text" tag
      return (tag, none)
  | _ => throw s!"dyn tagged observer expected Atom or Tagged for {kind}"

def atomDescriptorParts (tag : String) (payload : Option RichValue) :
    Observing (String × Option (RichValue × RichValue)) := do
  let expected ← view.atomField metadata "tag"
  let expected ← orThrow "Atom descriptor has no tag" expected
  if tag ≠ expected ∨ payload.isSome then
    throw s!"expected unit tag '{expected}"
  else
    return (tag, none)

def taggedDescriptorParts (tag : String) (payload : Option RichValue) :
    Observing (String × Option (RichValue × RichValue)) := do
  let expected ← view.atomField metadata "tag"
  let expected ← orThrow "Tagged descriptor has no tag" expected
  if tag ≠ expected then
    throw s!"expected tag '{expected}"
  else do
    let payload ← orThrow s!"tag '{expected} requires a payload" payload
    let descriptor ← reading (view.dictGetText metadata "payload")
    let descriptor ← orThrow "Tagged descriptor has no payload" descriptor
    return (tag, some (descriptor, payload))

/-- What a variant of an enum makes of the payload of its value. -/
def variantPayload (tag : String) (variant : RichValue) (unit : Bool) :
    Option RichValue → Observing (String × Option (RichValue × RichValue))
  | none =>
      if unit then return (tag, none)
      else throw s!"variant {tag.quote} requires a payload"
  | some payload =>
      if unit then throw s!"unit variant {tag.quote} has a payload"
      else return (tag, some (variant, payload))

def enumDescriptorParts (tag : String) (payload : Option RichValue) :
    Observing (String × Option (RichValue × RichValue)) := do
  let variants ← reading (view.dictGetText metadata "variants")
  let variants ← orThrow "Enum descriptor has no variants" variants
  let variants ← orThrow "Enum.variants descriptor must be a Dict" variants.value.asDict
  let variant ← reading (view.dictGetText variants tag)
  let variant ← orThrow s!"Enum has no variant {tag.quote}" variant
  let (inner, _) ← view.stripRuntimeAttributes "Dyn.enum.variant" fuel variant []
  let unit := (view.atomText inner.value).toOption.join == some "None"
  variantPayload tag variant unit payload

def dynTaggedParts (value : RichValue) :
    Observing (String × Option (RichValue × RichValue)) := do
  let (tag, payload) ← view.runtimeTag kind value
  if kind = "Atom" then
    view.atomDescriptorParts metadata tag payload
  else if kind = "Tagged" then
    view.taggedDescriptorParts metadata tag payload
  else if kind = "Enum" then
    view.enumDescriptorParts fuel metadata tag payload
  else
    throw s!"dyn tagged observer does not support descriptor kind {kind}"

/-- What an operation sees under type metadata of a kind. -/
def observeKind (operation : DynOperation) (value : RichValue) : Observing DynObservation :=
  match operation with
  | .field name => view.observeField kind metadata name value
  | .fields => view.observeFields kind metadata value
  | .arrayItems => view.observeArrayItems kind metadata value
  | .tupleItems => view.observeTupleItems kind metadata value
  | .tag => do
      let parts ← view.dynTaggedParts fuel kind metadata value
      return .tag parts.1
  | .payload => do
      let parts ← view.dynTaggedParts fuel kind metadata value
      return .payload parts.2

end Operations

def observeDynStructure (fuel : Nat) (operation : DynOperation) (descriptor value : RichValue) :
    Observing DynObservation := do
  let descriptor ← view.normalizeDynDescriptor fuel descriptor
  let metadata ← orThrow "Dyn descriptor is not Type metadata" descriptor.value.asDict
  let kind ← view.atomField metadata "kind"
  let kind ← orThrow "Dyn descriptor has no Atom kind" kind
  view.observeKind fuel kind metadata operation value

end HeapView

end Telora
