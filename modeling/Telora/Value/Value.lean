import Telora.Bytecode.Instruction
import Telora.Types.Descriptor

/-!
# Public values and bytecode functions

Values hold closures, closures hold bytecode functions, and a bytecode function
holds the values it links, so the types are mutual. A shared function pointer is
its address together with the function it points to.

Two public values are the same when they differ only in how an atom is represented
and in where their bytecode functions are allocated. Closures and dynamic values
keep their identity.
-/

namespace Telora

open Bytecode

mutual

/-- A value of the public boundary. A dict keeps the field names of its shape
next to its values. -/
inductive Value where
  | int (value : Int)
  | float (value : F64)
  | string (value : String)
  | bytes (value : List UInt8)
  | nativeType (value : NativeType)
  | opaqueValue (value : OpaqueValue)
  | dict (fields : List String) (values : List Value)
  | array (values : List Value)
  | atom (value : Atom)
  | tagged (tag : Atom) (payload : Value)
  | tuple (values : List Value)
  | func (identity : Nat) (prototype : Prototype) (upvalues : List Value)
  | dyn (identity : Nat) (descriptor value : Value)
      (scheme : Option TypeScheme) (origin : Option String)

inductive Prototype where
  | bytecode (function : FunctionRef)
  | native (function : NativeFunction)

/-- A counted pointer to a bytecode function. -/
inductive FunctionRef where
  | mk (address : Nat) (function : BytecodeFunction)

/-- Code together with its linking table. -/
inductive BytecodeFunction where
  | mk (code : FuncByteCode) (values : List Value)
      (externalValues : List (Option String)) (text : List String)
      (prototypes : List FunctionRef)

end

def Value.typeName : Value → String
  | .int _ => "Int"
  | .float _ => "Float"
  | .string _ => "String"
  | .bytes _ => "Bytes"
  | .nativeType _ => "Type"
  | .opaqueValue _ => "Opaque"
  | .dict _ _ => "Dict"
  | .array _ => "Array"
  | .atom _ => "Atom"
  | .tagged _ _ => "Tagged"
  | .tuple _ => "Tuple"
  | .func _ _ _ => "Func"
  | .dyn _ _ _ _ _ => "Dyn"

namespace FunctionRef

def address : FunctionRef → Nat
  | .mk address _ => address

def function : FunctionRef → BytecodeFunction
  | .mk _ function => function

end FunctionRef

namespace BytecodeFunction

def code : BytecodeFunction → FuncByteCode
  | .mk code _ _ _ _ => code

def values : BytecodeFunction → List Value
  | .mk _ values _ _ _ => values

def externalValues : BytecodeFunction → List (Option String)
  | .mk _ _ externalValues _ _ => externalValues

def text : BytecodeFunction → List String
  | .mk _ _ _ text _ => text

def prototypes : BytecodeFunction → List FunctionRef
  | .mk _ _ _ _ prototypes => prototypes

def valueLink (function : BytecodeFunction) (id : ValueLinkId) : Option Value :=
  function.values[id]?

def textLink (function : BytecodeFunction) (id : TextLinkId) : Option String :=
  function.text[id]?

def prototypeLink (function : BytecodeFunction) (id : ProtoLinkId) : Option FunctionRef :=
  function.prototypes[id]?

end BytecodeFunction

/-- The representation that an atom of the heap has. -/
def Atom.canonical (atom : Atom) : Atom :=
  match builtinAtom atom.name with
  | some known => .builtin known
  | none => .named atom.name

theorem Atom.canonical_name (atom : Atom) : atom.canonical.name = atom.name := by
  unfold Atom.canonical
  split
  · rename_i known hknown
    exact ((builtinAtom_eq_some_iff _ _).mp hknown).symm
  · rfl

theorem Atom.canonical_eq_iff {a b : Atom} : a.canonical = b.canonical ↔ a.name = b.name := by
  constructor
  · intro h
    rw [← a.canonical_name, h, b.canonical_name]
  · intro h
    rw [Atom.canonical, h, Atom.canonical]

mutual

/-- A value up to the representation of atoms and the allocation of functions. -/
def Value.canonical : Value → Value
  | .int value => .int value
  | .float value => .float value
  | .string value => .string value
  | .bytes value => .bytes value
  | .nativeType value => .nativeType value
  | .opaqueValue value => .opaqueValue value
  | .dict fields values => .dict fields (canonicalValues values)
  | .array values => .array (canonicalValues values)
  | .atom atom => .atom atom.canonical
  | .tagged tag payload => .tagged tag.canonical payload.canonical
  | .tuple values => .tuple (canonicalValues values)
  | .func identity prototype upvalues =>
      .func identity prototype.canonical (canonicalValues upvalues)
  | .dyn identity descriptor value scheme origin =>
      .dyn identity descriptor.canonical value.canonical scheme origin

def canonicalValues : List Value → List Value
  | [] => []
  | value :: rest => value.canonical :: canonicalValues rest

def Prototype.canonical : Prototype → Prototype
  | .bytecode function => .bytecode function.canonical
  | .native function => .native function

def FunctionRef.canonical : FunctionRef → FunctionRef
  | .mk _ (.mk code values _ text prototypes) =>
      .mk 0 (.mk code (canonicalValues values) [] text (canonicalFunctions prototypes))

def canonicalFunctions : List FunctionRef → List FunctionRef
  | [] => []
  | function :: rest => function.canonical :: canonicalFunctions rest

end

/-- Two public values that are the same. -/
def Value.Same (value value' : Value) : Prop := value.canonical = value'.canonical

mutual

/-- The bytecode functions that a value holds, at any depth. -/
def Value.functions : Value → List FunctionRef
  | .dict _ values => valuesFunctions values
  | .array values => valuesFunctions values
  | .tagged _ payload => payload.functions
  | .tuple values => valuesFunctions values
  | .func _ prototype upvalues => prototype.functions ++ valuesFunctions upvalues
  | .dyn _ descriptor value _ _ => descriptor.functions ++ value.functions
  | _ => []

def valuesFunctions : List Value → List FunctionRef
  | [] => []
  | value :: rest => value.functions ++ valuesFunctions rest

def Prototype.functions : Prototype → List FunctionRef
  | .bytecode function => function.functions
  | .native _ => []

def FunctionRef.functions : FunctionRef → List FunctionRef
  | .mk address (.mk code values externalValues text prototypes) =>
      .mk address (.mk code values externalValues text prototypes) ::
        (valuesFunctions values ++ prototypesFunctions prototypes)

def prototypesFunctions : List FunctionRef → List FunctionRef
  | [] => []
  | function :: rest => function.functions ++ prototypesFunctions rest

end

/-- An address holds one function. -/
def Coherent (functions : List FunctionRef) : Prop :=
  ∀ f ∈ functions, ∀ g ∈ functions, f.address = g.address → f = g

/-- No link of the function is external. -/
def FunctionRef.Closed (function : FunctionRef) : Prop :=
  ∀ key ∈ function.function.externalValues, key = none

end Telora
