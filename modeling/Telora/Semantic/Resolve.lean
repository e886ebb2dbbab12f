import Telora.Library.Lists
import Telora.Semantic.Hir
import Telora.Syntax.Scoping

/-!
# Name resolution

The resolver goes through a program once, with a stack of scopes. It numbers definitions,
references and expressions as it meets them and puts them into the order of the source at
the end. Type parameters are names from outside while their binding is indexed.
-/

namespace Telora.Semantic

open Library

abbrev Scope := List (String × Nat)

/-- The definition of a name in the innermost scope that has it. -/
def resolveName (scopes : List Scope) (name : String) : Option Nat :=
  scopes.findSome? (·.lookup name)

structure Resolver where
  definitions : List HirDefinition
  references : List HirReference
  expressions : List HirExpression
  expressionStack : List Nat

namespace Resolver

def new : Resolver := ⟨[], [], [], []⟩

def defineName (resolver : Resolver) (name : String) (kind : HirDefinitionKind) (location : Loc)
    (scope : Scope) (topLevel : Bool) : Scope × Resolver :=
  let id := resolver.definitions.length
  ((name, id) :: scope,
    { resolver with
      definitions := resolver.definitions ++
        [⟨id, name, kind, location, [], topLevel, none⟩] })

def bindingDefinitionKind : BindingKind → HirDefinitionKind
  | .letBinding => .letBinding
  | .decl | .defBinding => .definitionSlot
  | .type => .type
  | .importBinding | .openImport | .exportBinding => .importBinding
  | .native | .nativeType => .native

def define (resolver : Resolver) (binding : Binding) (scope : Scope) (topLevel : Bool) :
    Scope × Resolver :=
  resolver.defineName binding.name.value (bindingDefinitionKind binding.kind)
    binding.name.location scope topLevel

def setValue (resolver : Resolver) (definition expression : Nat) : Resolver :=
  { resolver with
    definitions := resolver.definitions.modify definition fun found =>
      { found with value := some expression } }

def addLocation (resolver : Resolver) (definition : Nat) (location : Loc) : Resolver :=
  { resolver with
    definitions := resolver.definitions.modify definition fun found =>
      if found.location = location then found
      else { found with additionalLocations := found.additionalLocations ++ [location] } }

def pushExpression (resolver : Resolver) (location : Loc) : Resolver :=
  { resolver with
    expressions := resolver.expressions ++
      [⟨resolver.expressions.length, location, resolver.expressionStack.head?, none⟩] }

/-- The id of the expression is the number of expressions before it. -/
def enterExpression (resolver : Resolver) (location : Loc) : Resolver :=
  { resolver.pushExpression location with
    expressionStack := resolver.expressions.length :: resolver.expressionStack }

def leaveExpression (resolver : Resolver) (id : Nat) (reference : Option Nat) : Resolver :=
  { resolver with
    expressionStack := resolver.expressionStack.tail
    expressions := resolver.expressions.modify id fun found =>
      { found with reference := reference } }

def resolution (external : List String) (scopes : List Scope) (name : String) : HirResolution :=
  match resolveName scopes name with
  | some definition => .definition definition
  | none => if name ∈ external then .external else .unresolved

def addReference (resolver : Resolver) (external : List String) (scopes : List Scope)
    (name : Identifier) : Resolver :=
  { resolver with
    references := resolver.references ++
      [⟨resolver.references.length, name.value, name.location,
        resolution external scopes name.value⟩] }

mutual

def indexPattern (pattern : Pattern) (scope : Scope) (resolver : Resolver) : Scope × Resolver :=
  match pattern with
  | .mk kind _ => indexPatternKind kind scope resolver
termination_by structural pattern

def indexPatternKind (kind : PatternKind) (scope : Scope) (resolver : Resolver) :
    Scope × Resolver :=
  match kind with
  | .binding name => resolver.defineName name.value .pattern name.location scope false
  | .tuple items => indexPatterns items scope resolver
  | .tagged _ payload => indexPattern payload scope resolver
  | .struct fields => indexPatternFields fields scope resolver
  | .wildcard | .int _ | .float _ | .string _ | .atom _ => (scope, resolver)
termination_by structural kind

def indexPatterns (items : List Pattern) (scope : Scope) (resolver : Resolver) :
    Scope × Resolver :=
  match items with
  | [] => (scope, resolver)
  | item :: rest =>
      let (scope, resolver) := indexPattern item scope resolver
      indexPatterns rest scope resolver
termination_by structural items

def indexPatternFields (fields : List (Identifier × Pattern)) (scope : Scope)
    (resolver : Resolver) : Scope × Resolver :=
  match fields with
  | [] => (scope, resolver)
  | field :: rest =>
      let (scope, resolver) := indexPatternField field scope resolver
      indexPatternFields rest scope resolver
termination_by structural fields

def indexPatternField (field : Identifier × Pattern) (scope : Scope) (resolver : Resolver) :
    Scope × Resolver :=
  match field with
  | (_, pattern) => indexPattern pattern scope resolver
termination_by structural field

end

def defineParameters (parameters : List ClosureParameter) (scope : Scope) (resolver : Resolver) :
    Scope × Resolver :=
  match parameters with
  | [] => (scope, resolver)
  | parameter :: rest =>
      let (scope, resolver) := resolver.defineName parameter.name.value .parameter
        parameter.name.location scope false
      defineParameters rest scope resolver

/-- The names that a block declares before anything in it is indexed. A definition of a closure
is one of them when its name is not visible yet. -/
def predeclare (bindings : List Binding) (scopes : List Scope) (topLevel : Bool) (scope : Scope)
    (resolver : Resolver) : Scope × Resolver :=
  match bindings with
  | [] => (scope, resolver)
  | binding :: rest =>
      if binding.kind = .decl ∨ binding.kind = .native ∨ binding.kind = .nativeType ∨
          binding.kind = .type ∨
          (binding.kind = .defBinding ∧ binding.annotation.isSome) ∨
          (binding.kind = .defBinding ∧ binding.value.isClosure ∧
            resolveName (scope :: scopes) binding.name.value = none) then
        let (scope, resolver) := resolver.define binding scope topLevel
        predeclare rest scopes topLevel scope resolver
      else predeclare rest scopes topLevel scope resolver

/-- The definition that the binding belongs to. A definition whose name is visible, and that has
no annotation, adds its place to the one that has the name. -/
def indexBindingName (binding : Binding) (scopes : List Scope) (topLevel : Bool) (scope : Scope)
    (resolver : Resolver) : Nat × Scope × Resolver :=
  match resolveName (scope :: scopes) binding.name.value with
  | some id =>
      (id, scope, if binding.annotation.isNone then resolver.addLocation id binding.name.location
        else resolver)
  | none => (resolver.definitions.length, resolver.define binding scope topLevel)

mutual

def indexExpr (expression : Expr) (external : List String) (scopes : List Scope)
    (resolver : Resolver) : Resolver :=
  match expression with
  | .mk kind location =>
      let id := resolver.expressions.length
      let reference :=
        match kind with
        | .variable _ => some resolver.references.length
        | _ => none
      (indexKind kind external scopes (resolver.enterExpression location)).leaveExpression id
        reference
termination_by structural expression

def indexKind (kind : ExprKind) (external : List String) (scopes : List Scope)
    (resolver : Resolver) : Resolver :=
  match kind with
  | .variable name => resolver.addReference external scopes name
  | .interpolatedString parts => indexParts parts external scopes resolver
  | .array items => indexExprs items external scopes resolver
  | .tuple items => indexExprs items external scopes resolver
  | .spread operand => indexExpr operand external scopes resolver
  | .dict fields => indexFields fields external scopes resolver
  | .block block => indexBlock block external scopes false resolver
  | .unary _ operand => indexExpr operand external scopes resolver
  | .propagate operand => indexExpr operand external scopes resolver
  | .return value => indexExpr value external scopes resolver
  | .panic message => indexExpr message external scopes resolver
  | .raise error => indexExpr error external scopes resolver
  | .binary _ left right =>
      indexExpr right external scopes (indexExpr left external scopes resolver)
  | .field receiver _ => indexExpr receiver external scopes resolver
  | .call callee arguments =>
      indexExprs arguments external scopes (indexExpr callee external scopes resolver)
  | .typeApply callee arguments =>
      indexTypeArguments arguments external scopes (indexExpr callee external scopes resolver)
  | .interpreter operand _ => indexExpr operand external scopes resolver
  | .closure parameters resultAnnotation body =>
      let resolver := indexParameters parameters external scopes resolver
      let resolver := indexAnnotation resultAnnotation external scopes resolver
      let (scope, resolver) := defineParameters parameters [] resolver
      indexBlock body external (scope :: scopes) false resolver
  | .if condition thenBranch elseBranch =>
      let resolver := indexExpr condition external scopes resolver
      let resolver := indexBlock thenBranch external scopes false resolver
      indexBlock elseBranch external scopes false resolver
  | .ifLet pattern value thenBranch elseBranch =>
      let resolver := indexExpr value external scopes resolver
      let (scope, resolver) := indexPattern pattern [] resolver
      let resolver := indexBlock thenBranch external (scope :: scopes) false resolver
      indexBlock elseBranch external scopes false resolver
  | .letElse pattern value elseBranch body =>
      let resolver := indexExpr value external scopes resolver
      let resolver := indexBlock elseBranch external scopes false resolver
      let (scope, resolver) := indexPattern pattern [] resolver
      indexBlock body external (scope :: scopes) false resolver
  | .match value arms =>
      indexArms arms external scopes (indexExpr value external scopes resolver)
  | .int _ | .float _ | .string _ | .bytes _ | .atom _ => resolver
termination_by structural kind

def indexExprs (expressions : List Expr) (external : List String) (scopes : List Scope)
    (resolver : Resolver) : Resolver :=
  match expressions with
  | [] => resolver
  | expression :: rest =>
      indexExprs rest external scopes (indexExpr expression external scopes resolver)
termination_by structural expressions

def indexParts (parts : List StringPart) (external : List String) (scopes : List Scope)
    (resolver : Resolver) : Resolver :=
  match parts with
  | [] => resolver
  | part :: rest => indexParts rest external scopes (indexPart part external scopes resolver)
termination_by structural parts

def indexPart (part : StringPart) (external : List String) (scopes : List Scope)
    (resolver : Resolver) : Resolver :=
  match part with
  | .text _ => resolver
  | .expression expression => indexExpr expression external scopes resolver
termination_by structural part

def indexFields (fields : List DictField) (external : List String) (scopes : List Scope)
    (resolver : Resolver) : Resolver :=
  match fields with
  | [] => resolver
  | field :: rest => indexFields rest external scopes (indexField field external scopes resolver)
termination_by structural fields

def indexField (field : DictField) (external : List String) (scopes : List Scope)
    (resolver : Resolver) : Resolver :=
  match field with
  | .mk _ value => indexExpr value external scopes resolver
termination_by structural field

def indexTypeArguments (arguments : List TypeArgument) (external : List String)
    (scopes : List Scope) (resolver : Resolver) : Resolver :=
  match arguments with
  | [] => resolver
  | argument :: rest =>
      indexTypeArguments rest external scopes
        (indexTypeArgument argument external scopes resolver)
termination_by structural arguments

def indexTypeArgument (argument : TypeArgument) (external : List String) (scopes : List Scope)
    (resolver : Resolver) : Resolver :=
  match argument with
  | .explicit expression _ => indexExpr expression external scopes resolver
  | .infer location => resolver.pushExpression location
termination_by structural argument

def indexParameters (parameters : List ClosureParameter) (external : List String)
    (scopes : List Scope) (resolver : Resolver) : Resolver :=
  match parameters with
  | [] => resolver
  | parameter :: rest =>
      indexParameters rest external scopes (indexParameter parameter external scopes resolver)
termination_by structural parameters

def indexParameter (parameter : ClosureParameter) (external : List String) (scopes : List Scope)
    (resolver : Resolver) : Resolver :=
  match parameter with
  | .mk _ annotation => indexAnnotation annotation external scopes resolver
termination_by structural parameter

def indexAnnotation ( annotation : Option Expr) (external : List String) (scopes : List Scope)
    (resolver : Resolver) : Resolver :=
  match annotation with
  | none => resolver
  | some annotation => indexExpr annotation external scopes resolver
termination_by structural annotation

def indexArms (arms : List MatchArm) (external : List String) (scopes : List Scope)
    (resolver : Resolver) : Resolver :=
  match arms with
  | [] => resolver
  | arm :: rest => indexArms rest external scopes (indexArm arm external scopes resolver)
termination_by structural arms

def indexArm (arm : MatchArm) (external : List String) (scopes : List Scope)
    (resolver : Resolver) : Resolver :=
  match arm with
  | .mk pattern guard value _ =>
      let (scope, resolver) := indexPattern pattern [] resolver
      let resolver := indexAnnotation guard external (scope :: scopes) resolver
      indexExpr value external (scope :: scopes) resolver
termination_by structural arm

def indexBlock (block : Block) (external : List String) (scopes : List Scope) (topLevel : Bool)
    (resolver : Resolver) : Resolver :=
  match block with
  | .mk bindings result _ =>
      let (scope, resolver) := predeclare bindings scopes topLevel [] resolver
      let (scope, resolver) := indexBindings bindings external scopes topLevel scope resolver
      indexExpr result external (scope :: scopes) resolver
termination_by structural block

def indexBindings (bindings : List Binding) (external : List String) (scopes : List Scope)
    (topLevel : Bool) (scope : Scope) (resolver : Resolver) : Scope × Resolver :=
  match bindings with
  | [] => (scope, resolver)
  | binding :: rest =>
      let (scope, resolver) := indexBinding binding external scopes topLevel scope resolver
      indexBindings rest external scopes topLevel scope resolver
termination_by structural bindings

def indexBinding (binding : Binding) (external : List String) (scopes : List Scope)
    (topLevel : Bool) (scope : Scope) (resolver : Resolver) : Scope × Resolver :=
  match binding with
  | .mk kind importedName name typeParameters annotation value =>
      let binding := Binding.mk kind importedName name typeParameters annotation value
      let parameterNames := typeParameters.map (·.value)
      if binding.isEdge then (scope, resolver)
      else
        let resolver :=
          indexAnnotation annotation (parameterNames ++ external) (scope :: scopes) resolver
        match kind with
        | .letBinding | .importBinding =>
            let expression := resolver.expressions.length
            let resolver := indexExpr value external (scope :: scopes) resolver
            let definition := resolver.definitions.length
            let (scope, resolver) := resolver.define binding scope topLevel
            (scope, resolver.setValue definition expression)
        | .defBinding =>
            let (definition, scope, resolver) :=
              indexBindingName binding scopes topLevel scope resolver
            let expression := resolver.expressions.length
            let names := if annotation.isSome then parameterNames ++ external else external
            let resolver := indexExpr value names (scope :: scopes) resolver
            (scope, resolver.setValue definition expression)
        | _ =>
            let expression := resolver.expressions.length
            let resolver :=
              indexExpr value (parameterNames ++ external) (scope :: scopes) resolver
            match resolveName (scope :: scopes) name.value with
            | some definition => (scope, resolver.setValue definition expression)
            | none => (scope, resolver)
termination_by structural binding

end

def locationLe (left right : Loc) : Bool :=
  left.source < right.source ||
    (left.source = right.source &&
      (left.start < right.start || (left.start = right.start && left.stop ≤ right.stop)))

/-- What is sorted is numbered anew; the old numbers give the new ones. -/
def newIndex (old : List Nat) (id : Nat) : Nat := old.idxOf id

def sortByLocation {α : Type} (location : α → Loc) (items : List α) : List α :=
  items.mergeSort fun left right => locationLe (location left) (location right)

def HirResolution.renumber (definitions : List Nat) : HirResolution → HirResolution
  | .definition id => .definition (newIndex definitions id)
  | .external => .external
  | .unresolved => .unresolved

/-- Definitions, references and expressions by their places, with the numbers that follow. -/
def normalizeOrder (resolver : Resolver) : Resolver :=
  let definitions := sortByLocation HirDefinition.location resolver.definitions
  let references := sortByLocation HirReference.location resolver.references
  let expressions := sortByLocation HirExpression.location resolver.expressions
  let definitionIds := definitions.map (·.id)
  let referenceIds := references.map (·.id)
  let expressionIds := expressions.map (·.id)
  { definitions := definitions.zipIdx.map fun (definition, index) =>
      { definition with
        id := index
        value := definition.value.map (newIndex expressionIds) }
    references := references.zipIdx.map fun (reference, index) =>
      { reference with
        id := index
        resolution := HirResolution.renumber definitionIds reference.resolution }
    expressions := expressions.zipIdx.map fun (expression, index) =>
      { expression with
        id := index
        parent := expression.parent.map (newIndex expressionIds)
        reference := expression.reference.map (newIndex referenceIds) }
    expressionStack := resolver.expressionStack }

/-- The resolved program of a body. -/
def resolve (body : Block) (external : List String) : Resolver :=
  (indexBlock body external [] true new).normalizeOrder

end Resolver

end Telora.Semantic
