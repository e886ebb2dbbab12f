import Telora.Heap.Access
import Telora.Library.InStep

/-!
# Values as natives see them

A native reads a value through a reference that hides the heap: a read that fails gives
nothing. Over these reads stand the two loops that natives run over type metadata: one
takes the links and the attributes off, the other looks for an attached provider.
-/

namespace Telora

open Library

structure ValueRef where
  value : RichValue
  view : HeapView

namespace ValueRef

variable (ref : ValueRef)

def resolveHiddenUpLink : Except String ValueRef :=
  match ref.value.value with
  | .upLink handle =>
      match ref.view.upLink handle with
      | .error error => .error error.message
      | .ok none => .error "recursive type link is not initialized"
      | .ok (some value) => .ok ⟨value, ref.view⟩
  | _ => .ok ref

def asAtom : Option String := (ref.view.atomText ref.value.value).toOption.join

def asStr : Option String := (ref.view.stringText ref.value.value).toOption.join

def asInt : Option Int :=
  match ref.value.value with
  | .int value => some value
  | _ => none

def asFloat : Option F64 :=
  match ref.value.value with
  | .float value => some value
  | _ => none

def opaquePayload : Option OpaqueValue :=
  match ref.value.value with
  | .opaqueValue handle =>
      match ref.view.object handle with
      | .ok (.opaqueValue value) => some value
      | _ => none
  | _ => none

def opaqueNativeType : Option NativeType := ref.opaquePayload.map (·.nativeType)

/-- The payload of an opaque value of a native type, as the Rust type that a downcast
finds in it. -/
def asOpaque {α : Type} (downcast : OpaquePayload → Option α) (expected : NativeType) : Option α :=
  ref.opaquePayload.bind fun value =>
    if value.nativeType.id = expected.id then downcast value.payload else none

def taggedParts : Option (ValueRef × ValueRef) :=
  match ref.value.value with
  | .tagged handle =>
      (ref.view.tagged handle).toOption.map fun parts => (⟨parts.1, ref.view⟩, ⟨parts.2, ref.view⟩)
  | _ => none

def dictFields : Option (List String) :=
  match ref.value.value with
  | .dict handle => (ref.view.dictFields handle).toOption
  | _ => none

def dictGet (field : String) : Option ValueRef :=
  match ref.value.value with
  | .dict handle => (ref.view.dictGetText handle field).toOption.join.map (⟨·, ref.view⟩)
  | _ => none

/-- The kind of type metadata. -/
def metadataKind : Option String := (ref.dictGet "kind").bind asAtom

end ValueRef

/-- The result of a native, or the message of its failure. -/
abbrev NativeRun := Fueled String

def attempt {α : Type} (result : Except String α) : NativeRun α := ExceptT.mk (some result)

/-- Take the links and the attributes off type metadata. -/
def strippedMetadata : Nat → ValueRef → NativeRun ValueRef
  | 0, _ => outOfFuel
  | fuel + 1, metadata => do
      let metadata ← attempt metadata.resolveHiddenUpLink
      if metadata.metadataKind = some "WithAttributes" then do
        let inner ← orThrow "attributed type has no inner metadata" (metadata.dictGet "inner")
        strippedMetadata fuel inner
      else
        return metadata

/-- A provider that attributes can attach: its key, its tag, the native type of its payload,
and the refusal of any other payload. -/
structure Provider where
  key : String
  tag : String
  typeName : String
  invalid : String

section Attached

variable {α : Type} (provider : Provider) (downcast : OpaquePayload → Option α)

/-- The payload of the provider that an attribute holds. -/
def Provider.decode (found : ValueRef) : NativeRun α := do
  let (tag, payload) ← orThrow (provider.key ++ " provider must be Tagged") found.taggedParts
  if tag.asAtom ≠ some provider.tag then
    throw ("unknown " ++ provider.key ++ " provider")
  else do
    let nativeType ← orThrow provider.invalid payload.opaqueNativeType
    if nativeType.qualifiedName ≠ provider.typeName then
      throw provider.invalid
    else
      orThrow provider.invalid (payload.asOpaque downcast nativeType)

/-- The first provider on the way from the outermost attributes to the metadata. -/
def attachedProvider : Nat → ValueRef → NativeRun (Option α)
  | 0, _ => outOfFuel
  | fuel + 1, metadata => do
      let metadata ← attempt metadata.resolveHiddenUpLink
      match (metadata.dictGet "attributes").bind (·.dictGet provider.key) with
      | some found => do
          let payload ← provider.decode downcast found
          return some payload
      | none =>
          if metadata.metadataKind ≠ some "WithAttributes" then
            return none
          else do
            let inner ← orThrow "attributed type has no inner metadata" (metadata.dictGet "inner")
            attachedProvider fuel inner

end Attached

end Telora
