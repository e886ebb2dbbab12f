import Telora.Value.Basic

/-!
# Type descriptors

The structural types of the language. Maps keyed by field or variant name are
association lists in key order, as the ordered maps of the program iterate.
-/

namespace Telora

inductive TypeDescriptor where
  | bound (id : Nat)
  | inference (id : Nat)
  | any
  | never
  | type
  | dyn
  | typeOf (described : TypeDescriptor)
  | int
  | float
  | string
  | bytes
  | opaqueType (nativeType : NativeType)
  | atom (tag : Atom)
  | array (item : TypeDescriptor)
  | dict (item : TypeDescriptor)
  | tagged (tag : Atom) (payload : TypeDescriptor)
  | tuple (items : List TypeDescriptor)
  | struct (fields : List (String × TypeDescriptor))
  | enum (variants : List (String × Option TypeDescriptor))
  | union (variants : List TypeDescriptor)
  | function (parameters : List TypeDescriptor) (result : TypeDescriptor)

structure TypeParameter where
  id : Nat
  name : String
  location : Loc
  deriving DecidableEq

structure TypeScheme where
  parameters : List TypeParameter
  body : TypeDescriptor

end Telora
