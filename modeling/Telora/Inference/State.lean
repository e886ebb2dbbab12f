import Telora.Library.Worlds
import Telora.Types.Rebuild

/-!
# The state of type inference

Inference numbers its variables in the order it makes them and binds them in one table of
substitutions. A table keyed by variables is a list of entries with the newest first, so that
an entry hides the older ones of its key.
-/

namespace Telora

open Library

abbrev Substitutions := List (Nat × TypeDescriptor)

structure InferState where
  nextVariable : Nat := 0
  numericVariables : List Nat := []
  recursiveEquations : List (Nat × TypeDescriptor) := []
  substitutions : Substitutions := []

/-- Why a run stops before it has a type. -/
inductive Stop where
  | failed (message : String)
  /-- The recursion is cut off at the depth it is run to. -/
  | outOfDepth

abbrev Infer (α : Type) := Program InferState Stop α

/-- What a run is given: the debug text that breaks ties between union members, the order a
hash map of types is gone through in, and the depth its recursions are run to. -/
structure InferContext where
  debugText : TypeDescriptor → String
  hashOrder : List (Nat × TypeDescriptor) → List (Nat × TypeDescriptor)
  hashOrder_perm : ∀ entries, (hashOrder entries).Perm entries
  depth : Nat

namespace Infer

def fail {α : Type} (message : String) : Infer α := throw (.failed message)

def outOfDepth {α : Type} : Infer α := throw .outOfDepth

def freshId : Infer Nat := do
  let s ← get
  set { s with nextVariable := s.nextVariable + 1 }
  return s.nextVariable

def addNumeric (id : Nat) : Infer PUnit :=
  modify fun s => { s with numericVariables := id :: s.numericVariables }

def substitute (id : Nat) (ty : TypeDescriptor) : Infer PUnit :=
  modify fun s => { s with substitutions := (id, ty) :: s.substitutions }

end Infer

end Telora
