import Telora.Heap.Access
import Telora.Heap.Boundary

/-!
# Quotas and runtime errors

An account counts the fuel that is left and the bytes that were requested. It is
only built with its charges within the quota, so no operation can exceed it.
-/

namespace Telora.Vm

open Bytecode

/-- Sizes are counted in 64 bits. -/
def u64Limit : Nat := 2 ^ 64

def checkedAdd (left right : Nat) : Option Nat :=
  if left + right < u64Limit then some (left + right) else none

def checkedMul (left right : Nat) : Option Nat :=
  if left * right < u64Limit then some (left * right) else none

/-- The sum of some sizes, when it fits. -/
def checkedSum (sizes : List Nat) : Option Nat :=
  sizes.foldlM checkedAdd 0

def maxCallDepth : Nat := 1024

def maxStackSlots : Nat := 1048576

structure Quota where
  fuel : Nat
  stackSlots : Nat
  allocationBytes : Nat
  deriving DecidableEq, Repr

structure QuotaAccount where
  quota : Quota
  remainingFuel : Nat
  requestedAllocationBytes : Nat
  within : requestedAllocationBytes ≤ quota.allocationBytes

namespace QuotaAccount

def new (quota : Quota) : QuotaAccount := ⟨quota, quota.fuel, 0, Nat.zero_le _⟩

def stackLimit (account : QuotaAccount) : Nat := min account.quota.stackSlots maxStackSlots

/-- Charge bytes, unless the sum overflows or exceeds the quota. -/
def chargeAllocation (account : QuotaAccount) (bytes : Nat) : Option QuotaAccount :=
  match checkedAdd account.requestedAllocationBytes bytes with
  | none => none
  | some requested =>
      if h : requested ≤ account.quota.allocationBytes then
        some { account with requestedAllocationBytes := requested, within := h }
      else
        none

/-- Spend one unit of fuel, if one is left. -/
def consume (account : QuotaAccount) : Option QuotaAccount :=
  match account.remainingFuel with
  | 0 => none
  | fuel + 1 => some { account with remainingFuel := fuel }

/-- A charge changes only the charged bytes. -/
theorem chargeAllocation_eq_some {account charged : QuotaAccount} {bytes : Nat}
    (h : account.chargeAllocation bytes = some charged) :
    charged.quota = account.quota ∧ charged.remainingFuel = account.remainingFuel := by
  unfold chargeAllocation at h
  split at h
  · cases h
  · split at h
    · rw [← Option.some.inj h]
      exact ⟨rfl, rfl⟩
    · cases h

/-- Consuming fuel spends one unit of it. -/
theorem consume_eq_some {account consumed : QuotaAccount}
    (h : account.consume = some consumed) :
    consumed.quota = account.quota ∧ account.remainingFuel = consumed.remainingFuel + 1 := by
  unfold consume at h
  split at h
  · cases h
  · rename_i fuel hfuel
    rw [← Option.some.inj h]
    exact ⟨rfl, hfuel⟩

end QuotaAccount

inductive RuntimeErrorKind where
  | cancelled
  | fuelExhausted
  | allocationQuotaExceeded
  | callDepthExceeded
  | divisionByZero
  | integerOverflow
  | invalidBytecode
  | missingField
  | noPatternMatched
  | panic
  | reportedDiagnostic
  | raisedBlame
  | stackLimitExceeded
  | typeMismatch
  | uninitializedDefinition
  | duplicateDefinition
  deriving DecidableEq, Repr

structure RuntimeFrame where
  function : String
  instruction : Nat
  origin : Option Origin
  deriving DecidableEq, Repr

/-- The locations of the offending data and of the rule it broke. -/
structure RuntimeLocations where
  data : Option Loc
  rule : Option Loc
  deriving DecidableEq, Repr

structure RuntimeError where
  kind : RuntimeErrorKind
  message : String
  function : String
  instruction : Nat
  trace : List RuntimeFrame
  locations : Option RuntimeLocations
  traceIncludesActiveFrame : Bool
  deriving DecidableEq, Repr

namespace RuntimeError

def setLocations (error : RuntimeError) (data rule : Option Loc) : RuntimeError :=
  { error with
    locations := if data.isSome || rule.isSome then some ⟨data, rule⟩ else none }

def setDataLocation (error : RuntimeError) (data : Option Loc) : RuntimeError :=
  error.setLocations data (error.locations.bind (·.rule))

end RuntimeError

/-- An instruction of a function, where errors are reported. -/
structure Site where
  function : FuncByteCode
  pc : Nat

namespace Site

def error (site : Site) (kind : RuntimeErrorKind) (message : String) : RuntimeError where
  kind := kind
  message := message
  function := site.function.name
  instruction := site.pc
  trace := [⟨site.function.name, site.pc, site.function.originAt site.pc⟩]
  locations := none
  traceIncludesActiveFrame := true

def allocationError (site : Site) (message : String) : RuntimeError :=
  site.error .allocationQuotaExceeded message

/-- The source location of the instruction. -/
def location (site : Site) : Option Loc :=
  match site.function.originAt site.pc with
  | some (.source location) => some location
  | some (.synthetic derivedFrom) => derivedFrom
  | none => none

/-- A heap that cannot be read means that the bytecode is invalid. -/
def heap {α : Type} (site : Site) (result : Except HeapError α) : Except RuntimeError α :=
  result.mapError fun error => site.error .invalidBytecode error.message

/-- The type of the offending value is named through its exported form. -/
def typeError (site : Site) (expected : String) (actual : RichValue) (view : HeapView) :
    RuntimeError :=
  let error := match (view.exportValue actual).run' 0 with
    | .ok exported =>
        site.error .typeMismatch s!"expected {expected}, got {exported.typeName}"
    | .error error => site.error .invalidBytecode error.message
  error.setDataLocation actual.loc

def numericTypeError (site : Site) (left right : RichValue) (view : HeapView) : RuntimeError :=
  let error := match (view.exportValue left).run' 0, (view.exportValue right).run' 0 with
    | .ok left, .ok right =>
        site.error .typeMismatch ("numeric operands must have the same type, got " ++
          left.typeName ++ " and " ++ right.typeName)
    | .error error, _ => site.error .invalidBytecode error.message
    | .ok _, .error error => site.error .invalidBytecode error.message
  error.setDataLocation (left.loc <|> right.loc)

/-- The kind alone, without looking into the heap. -/
def shallowTypeError (site : Site) (expected : String) (actual : RichValue) : RuntimeError :=
  let error := site.error .typeMismatch
    ("expected " ++ expected ++ ", got " ++ actual.value.kindName)
  error.setDataLocation actual.loc

end Site

end Telora.Vm
