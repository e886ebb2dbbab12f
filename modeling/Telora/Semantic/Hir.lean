import Telora.Types.TypeGraph

/-!
# Resolved programs and semantic facts

The definitions, references and expressions of a program whose names are resolved refer to each
other by number. A fact says what is known of a definition or an expression, and why no more is.
-/

namespace Telora.Semantic

inductive HirDefinitionKind where
  | letBinding
  | definitionSlot
  | type
  | importBinding
  | native
  | parameter
  | pattern
  deriving DecidableEq

inductive HirResolution where
  | definition (id : Nat)
  | external
  | unresolved
  deriving DecidableEq

structure HirDefinition where
  id : Nat
  name : String
  kind : HirDefinitionKind
  location : Loc
  additionalLocations : List Loc
  topLevel : Bool
  value : Option Nat

structure HirReference where
  id : Nat
  name : String
  location : Loc
  resolution : HirResolution

structure HirExpression where
  id : Nat
  location : Loc
  parent : Option Nat
  reference : Option Nat

/-- What is referred to is there, and the parents of expressions make a forest: a parent is less
deep than its children. -/
structure HirProgram where
  definitions : List HirDefinition
  references : List HirReference
  expressions : List HirExpression
  depth : Nat → Nat
  definition_id : ∀ (i : Nat) (definition : HirDefinition),
    definitions[i]? = some definition → definition.id = i
  resolved : ∀ reference ∈ references, ∀ id, reference.resolution = .definition id →
    id < definitions.length
  referenced : ∀ expression ∈ expressions, ∀ id, expression.reference = some id →
    id < references.length
  parent_depth : ∀ (i : Nat) (expression : HirExpression) (parent : Nat),
    expressions[i]? = some expression →
      expression.parent = some parent → depth parent < depth i

namespace HirProgram

variable (hir : HirProgram)

def reference (id : Nat) : Option HirReference := hir.references[id]?

/-- What a program of these parts must be for, as a check. -/
def consistent (definitions : List HirDefinition) (references : List HirReference)
    (expressions : List HirExpression) (depth : Nat → Nat) : Bool :=
  (definitions.zipIdx.all fun (definition, i) => definition.id == i) &&
    (references.all fun reference =>
      match reference.resolution with
      | .definition id => id < definitions.length
      | .external | .unresolved => true) &&
    (expressions.all fun expression => expression.reference.all (· < references.length)) &&
    expressions.zipIdx.all fun (expression, i) =>
      expression.parent.all fun parent => depth parent < depth i

/-- A program that passes the check. -/
def ofConsistent (definitions : List HirDefinition) (references : List HirReference)
    (expressions : List HirExpression) (depth : Nat → Nat)
    (h : consistent definitions references expressions depth = true) : HirProgram where
  definitions := definitions
  references := references
  expressions := expressions
  depth := depth
  definition_id := by
    simp only [consistent, Bool.and_eq_true, List.all_eq_true] at h
    intro i definition hi
    exact beq_iff_eq.mp (h.1.1.1 (definition, i) (List.mk_mem_zipIdx_iff_getElem?.mpr hi))
  resolved := by
    simp only [consistent, Bool.and_eq_true, List.all_eq_true] at h
    intro reference hmem id hid
    have hcheck := h.1.1.2 reference hmem
    rw [hid] at hcheck
    exact of_decide_eq_true hcheck
  referenced := by
    simp only [consistent, Bool.and_eq_true, List.all_eq_true] at h
    intro expression hmem id hid
    have hcheck := h.1.2 expression hmem
    rw [hid] at hcheck
    exact of_decide_eq_true hcheck
  parent_depth := by
    simp only [consistent, Bool.and_eq_true, List.all_eq_true] at h
    intro i expression parent hi hparent
    have hcheck := h.2 (expression, i) (List.mk_mem_zipIdx_iff_getElem?.mpr hi)
    rw [hparent] at hcheck
    exact of_decide_eq_true hcheck

end HirProgram

inductive FactIdentity where
  | hirDefinition (id : Nat)
  | definition (id : Nat)
  | expression (id : Nat)
  deriving DecidableEq

inductive UnknownReason where
  | missingSyntax
  | invalidSyntax
  | unresolvedName
  | blockedBy (cause : FactIdentity)
  | unavailableDependency
  deriving DecidableEq

inductive Conflict where
  | duplicateDefinition
  | incompatibleContract
  deriving DecidableEq

inductive IncomputableReason where
  | quotaExceeded
  | runtimeOnly
  | unsupportedOperation
  | cyclicEvaluation
  | cancelled
  deriving DecidableEq

inductive FactState where
  | known
  | unknown (reason : UnknownReason)
  | conflicted (conflict : Conflict)
  | incomputable (reason : IncomputableReason)
  deriving DecidableEq

/-- A fact, with what it waits for and the diagnostics about it by number. -/
structure SemanticFact where
  value : Option TypeId
  state : FactState
  causes : List FactIdentity := []
  diagnostics : List Nat := []
  deriving DecidableEq

namespace SemanticFact

def known (value : TypeId) : SemanticFact := { value := some value, state := .known }

def unknown (reason : UnknownReason) : SemanticFact := { value := none, state := .unknown reason }

end SemanticFact

end Telora.Semantic
