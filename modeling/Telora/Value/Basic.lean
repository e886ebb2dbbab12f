import Mathlib.Algebra.GroupWithZero.Nat
import Mathlib.Data.List.Basic

/-!
# Scalar data of the runtime

Source locations, binary64 floats, atoms, native functions and opaque
payloads: the leaves that the public values, the heap and the bytecode share.
-/

namespace Telora

/-- A source range: the source number and its byte bounds. -/
structure Loc where
  source : Nat
  start : Nat
  stop : Nat
  deriving DecidableEq, Repr

/-- The origin recorded for an emitted operation. -/
inductive Origin where
  | source (location : Loc)
  | synthetic (derivedFrom : Option Loc)
  deriving DecidableEq, Repr

/-- An `f64`, held as its bit pattern. -/
structure F64 where
  bits : BitVec 64
  deriving DecidableEq, Repr

namespace F64

def exponent (x : F64) : Nat := (x.bits.toNat / 2 ^ 52) % 2 ^ 11

def mantissa (x : F64) : Nat := x.bits.toNat % 2 ^ 52

/-- All exponent bits set and a nonzero mantissa. -/
def isNaN (x : F64) : Bool := x.exponent == 2 ^ 11 - 1 && x.mantissa != 0

/-- Positive and negative zero differ in the sign bit only. -/
def isZero (x : F64) : Bool := x.exponent == 0 && x.mantissa == 0

/-- The `==` of `f64`: false on every NaN, true across the two zeros. -/
def eq (x y : F64) : Bool :=
  !x.isNaN && !y.isNaN && (x == y || (x.isZero && y.isZero))

theorem eq_self_iff (x : F64) : eq x x = true ↔ x.isNaN = false := by
  simp [eq]

theorem eq_comm (x y : F64) : eq x y = eq y x := by
  have hbeq : (x == y) = (y == x) := BEq.comm
  simp only [eq, hbeq, Bool.and_comm (!x.isNaN), Bool.and_comm x.isZero]

/-- The quiet NaN that `f64::NAN` denotes. -/
def nan : F64 := ⟨0x7ff8000000000000#64⟩

def toFloat (x : F64) : Float := .ofBits (.ofBitVec x.bits)

def ofFloat (x : Float) : F64 := ⟨x.toBits.toBitVec⟩

def add (x y : F64) : F64 := ofFloat (x.toFloat + y.toFloat)

def sub (x y : F64) : F64 := ofFloat (x.toFloat - y.toFloat)

def mul (x y : F64) : F64 := ofFloat (x.toFloat * y.toFloat)

def div (x y : F64) : F64 := ofFloat (x.toFloat / y.toFloat)

def lt (x y : F64) : Bool := x.toFloat < y.toFloat

/-- Negation flips the sign bit, also of a NaN. -/
def neg (x : F64) : F64 := ⟨x.bits ^^^ 0x8000000000000000#64⟩

end F64

/-- The atoms with a representation of their own. -/
inductive BuiltinAtom where
  | none | some | ok | err | true | false
  deriving DecidableEq, Repr

namespace BuiltinAtom

def name : BuiltinAtom → String
  | .none => "None"
  | .some => "Some"
  | .ok => "Ok"
  | .err => "Err"
  | .true => "True"
  | .false => "False"

theorem name_injective : Function.Injective name := by
  intro a b h
  cases a <;> cases b <;> first | rfl | exact absurd h (by decide)

end BuiltinAtom

/-- The builtin atom a text names, if it names one. -/
def builtinAtom (text : String) : Option BuiltinAtom :=
  match text with
  | "None" => Option.some .none
  | "Some" => Option.some .some
  | "Ok" => Option.some .ok
  | "Err" => Option.some .err
  | "True" => Option.some .true
  | "False" => Option.some .false
  | _ => Option.none

theorem builtinAtom_eq_some_iff (text : String) (atom : BuiltinAtom) :
    builtinAtom text = Option.some atom ↔ text = atom.name := by
  constructor
  · intro h
    unfold builtinAtom at h
    split at h <;> first
      | (obtain rfl := Option.some.inj h; rfl)
      | cases h
  · rintro rfl
    cases atom <;> rfl

inductive Atom where
  | builtin (atom : BuiltinAtom)
  | named (name : String)
  deriving DecidableEq, Repr

def Atom.name : Atom → String
  | .builtin atom => atom.name
  | .named name => name

structure NativeTypeId where
  module : Nat
  slot : Nat
  deriving DecidableEq, Repr

/-- A nominal native type; two are equal when their ids are. -/
structure NativeType where
  id : NativeTypeId
  qualifiedName : String
  deriving DecidableEq, Repr

/-- The payload behind an opaque value: the Rust type it is, the allocation that
holds it, and its content up to the equality of that type. -/
structure OpaquePayload where
  typeId : Nat
  address : Nat
  content : Nat
  deriving DecidableEq, Repr

/-- The two equality functions an opaque value is built with. -/
inductive OpaqueEquality where
  | content
  | identity
  deriving DecidableEq, Repr

structure OpaqueValue where
  nativeType : NativeType
  payload : OpaquePayload
  equality : OpaqueEquality
  deriving DecidableEq, Repr

/-- Nominal types agree and the left operand's equality accepts the payloads. -/
def OpaqueValue.logicalEq (left right : OpaqueValue) : Bool :=
  left.nativeType.id == right.nativeType.id &&
    match left.equality with
    | .content =>
        left.payload.typeId == right.payload.typeId &&
          left.payload.content == right.payload.content
    | .identity => left.payload.address == right.payload.address

inductive CoreArrayFunction where
  | length | push | concat | zip | map | filter | flatMap | fold | foldControl
  | any | all | find
  deriving DecidableEq, Repr

namespace CoreArrayFunction

def name : CoreArrayFunction → String
  | .length => "std/array.length"
  | .push => "std/array.push"
  | .concat => "std/array.concat"
  | .zip => "std/array.zip"
  | .map => "std/array.map"
  | .filter => "std/array.filter"
  | .flatMap => "std/array.flat_map"
  | .fold => "std/array.fold"
  | .foldControl => "std/array.fold_control"
  | .any => "std/array.any"
  | .all => "std/array.all"
  | .find => "std/array.find"

def arity : CoreArrayFunction → Nat
  | .length | .concat => 1
  | .push | .zip => 2
  | .map | .filter | .flatMap | .any | .all | .find => 2
  | .fold | .foldControl => 3

end CoreArrayFunction

inductive CoreDictFunction where
  | get | keys | values | pairs | fromPairs | merge | mapValues | filter | fold
  deriving DecidableEq, Repr

namespace CoreDictFunction

def name : CoreDictFunction → String
  | .get => "std/dict.get"
  | .keys => "std/dict.keys"
  | .values => "std/dict.values"
  | .pairs => "std/dict.pairs"
  | .fromPairs => "std/dict.from_pairs"
  | .merge => "std/dict.merge"
  | .mapValues => "std/dict.map_values"
  | .filter => "std/dict.filter"
  | .fold => "std/dict.fold"

def arity : CoreDictFunction → Nat
  | .keys | .values | .pairs | .fromPairs => 1
  | .get => 2
  | .merge | .mapValues | .filter => 2
  | .fold => 3

end CoreDictFunction

inductive CoreCodecFunction where
  | decode | encode
  deriving DecidableEq, Repr

def CoreCodecFunction.arity : CoreCodecFunction → Nat
  | .decode | .encode => 2

/-- How the virtual machine runs a native function. -/
inductive NativeKind where
  | synchronous
  | coreArray (function : CoreArrayFunction)
  | coreDict (function : CoreDictFunction)
  | coreCodec (function : CoreCodecFunction)
  | coreAttributes | coreModel | coreBuiltinType | coreString | corePath
  | coreDebug | coreDiagnostic | coreHash | coreTypeDesc | coreDyn
  | coreEq | coreResult | coreJson
  deriving DecidableEq, Repr

/-- The arity that the kinds with callbacks of their own are built with. -/
def NativeKind.arity : NativeKind → Option Nat
  | .coreArray function => some function.arity
  | .coreDict function => some function.arity
  | .coreCodec function => some function.arity
  | _ => none

/-- A native function. `callback` stands for its function pointer, and a core
function is only built with the arity of its kind. -/
structure NativeFunction where
  name : String
  arity : Nat
  callback : Nat
  kind : NativeKind
  coreArity : ∀ n ∈ kind.arity, arity = n
  deriving DecidableEq, Repr

end Telora
