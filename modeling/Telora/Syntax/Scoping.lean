import Telora.Syntax.Expr

/-!
# Free names

What each form binds, and where a name is free: mentioned outside of everything that binds
it. The names that a block declares are bound in all of it, the others from their binding
on.
-/

namespace Telora

mutual

def patternNames : Pattern → List String
  | .mk kind _ => patternKindNames kind
termination_by structural pattern => pattern

def patternKindNames : PatternKind → List String
  | .binding name => [name.value]
  | .tuple items => patternsNames items
  | .tagged _ payload => patternNames payload
  | .struct fields => patternFieldsNames fields
  | .wildcard | .int _ | .float _ | .string _ | .atom _ => []
termination_by structural kind => kind

def patternsNames : List Pattern → List String
  | [] => []
  | item :: rest => patternNames item ++ patternsNames rest
termination_by structural items => items

def patternFieldsNames : List (Identifier × Pattern) → List String
  | [] => []
  | field :: rest => patternFieldNames field ++ patternFieldsNames rest
termination_by structural fields => fields

def patternFieldNames : Identifier × Pattern → List String
  | (_, pattern) => patternNames pattern
termination_by structural field => field

end

namespace ClosureParameter

def names (parameters : List ClosureParameter) : List String :=
  parameters.map (·.name.value)

end ClosureParameter

namespace Binding

/-- The binding is a dependency or an interface edge, not a name of the block. -/
def isEdge (binding : Binding) : Bool :=
  match binding.kind with
  | .openImport | .exportBinding => true
  | _ => false

/-- The binding gives its name to the whole block, wherever the block is. -/
def declares (binding : Binding) : Bool :=
  match binding.kind with
  | .decl | .native | .nativeType | .type => true
  | .defBinding => binding.annotation.isSome || binding.value.isClosure
  | .letBinding | .importBinding | .openImport | .exportBinding => false

/-- The binding's value is in the scope of its type parameters. -/
def valueHasTypeParameters (binding : Binding) : Bool :=
  match binding.kind with
  | .letBinding | .importBinding => false
  | .defBinding => binding.annotation.isSome
  | _ => true

/-- The block declares the name. -/
def Declared (name : String) (bindings : List Binding) : Prop :=
  ∃ binding ∈ bindings, binding.declares = true ∧ binding.name.value = name

/-- The binding gives its name to what follows it. -/
def Binds (name : String) (binding : Binding) : Prop :=
  binding.isEdge = false ∧ binding.name.value = name

instance (name : String) (bindings : List Binding) : Decidable (Declared name bindings) :=
  inferInstanceAs (Decidable (∃ _ ∈ _, _))

instance (name : String) (binding : Binding) : Decidable (Binds name binding) :=
  inferInstanceAs (Decidable (_ ∧ _))

end Binding

/-- What a search for free names goes by: whether it looks into generated expansions, and whether
the value of a definition without annotation is taken to be in the scope of its own name. -/
structure ScopeRules where
  expansions : Bool
  ownName : Bool

mutual

/-- The name is free in an expression. -/
def FreeInExpr (rules : ScopeRules) (name : String) : Expr → Prop
  | .mk kind _ => FreeInKind rules name kind
termination_by structural expression => expression

def FreeInKind (rules : ScopeRules) (name : String) : ExprKind → Prop
  | .variable found => found.value = name
  | .interpolatedString parts => FreeInParts rules name parts
  | .array items => FreeInExprs rules name items
  | .tuple items => FreeInExprs rules name items
  | .spread operand => FreeInExpr rules name operand
  | .dict fields => FreeInFields rules name fields
  | .block block => FreeInBlock rules name block
  | .unary _ operand => FreeInExpr rules name operand
  | .propagate operand => FreeInExpr rules name operand
  | .return value => FreeInExpr rules name value
  | .panic message => FreeInExpr rules name message
  | .raise error => FreeInExpr rules name error
  | .binary _ left right => FreeInExpr rules name left ∨ FreeInExpr rules name right
  | .field receiver _ => FreeInExpr rules name receiver
  | .call callee arguments =>
      FreeInExpr rules name callee ∨ FreeInExprs rules name arguments
  | .typeApply callee arguments =>
      FreeInExpr rules name callee ∨ FreeInTypeArguments rules name arguments
  | .interpreter operand elaboration =>
      FreeInExpr rules name operand ∨
        (rules.expansions = true ∧ FreeInExpr rules name elaboration)
  | .closure parameters resultAnnotation body =>
      FreeInParameters rules name parameters ∨
        FreeInAnnotation rules name resultAnnotation ∨
        (name ∉ ClosureParameter.names parameters ∧ FreeInBlock rules name body)
  | .if condition thenBranch elseBranch =>
      FreeInExpr rules name condition ∨ FreeInBlock rules name thenBranch ∨
        FreeInBlock rules name elseBranch
  | .ifLet pattern value thenBranch elseBranch =>
      FreeInExpr rules name value ∨
        (name ∉ patternNames pattern ∧ FreeInBlock rules name thenBranch) ∨
        FreeInBlock rules name elseBranch
  | .letElse pattern value elseBranch body =>
      FreeInExpr rules name value ∨ FreeInBlock rules name elseBranch ∨
        (name ∉ patternNames pattern ∧ FreeInBlock rules name body)
  | .match value arms => FreeInExpr rules name value ∨ FreeInArms rules name arms
  | .int _ | .float _ | .string _ | .bytes _ | .atom _ => False
termination_by structural kind => kind

def FreeInExprs (rules : ScopeRules) (name : String) : List Expr → Prop
  | [] => False
  | expression :: rest => FreeInExpr rules name expression ∨ FreeInExprs rules name rest
termination_by structural expressions => expressions

def FreeInParts (rules : ScopeRules) (name : String) : List StringPart → Prop
  | [] => False
  | part :: rest => FreeInPart rules name part ∨ FreeInParts rules name rest
termination_by structural parts => parts

def FreeInPart (rules : ScopeRules) (name : String) : StringPart → Prop
  | .text _ => False
  | .expression expression => FreeInExpr rules name expression
termination_by structural part => part

def FreeInFields (rules : ScopeRules) (name : String) : List DictField → Prop
  | [] => False
  | field :: rest => FreeInField rules name field ∨ FreeInFields rules name rest
termination_by structural fields => fields

def FreeInField (rules : ScopeRules) (name : String) : DictField → Prop
  | .mk _ value => FreeInExpr rules name value
termination_by structural field => field

def FreeInTypeArguments (rules : ScopeRules) (name : String) : List TypeArgument → Prop
  | [] => False
  | argument :: rest =>
      FreeInTypeArgument rules name argument ∨ FreeInTypeArguments rules name rest
termination_by structural arguments => arguments

def FreeInTypeArgument (rules : ScopeRules) (name : String) : TypeArgument → Prop
  | .explicit expression _ => FreeInExpr rules name expression
  | .infer _ => False
termination_by structural argument => argument

/-- The annotations of parameters are outside of the closure's scope. -/
def FreeInParameters (rules : ScopeRules) (name : String) : List ClosureParameter → Prop
  | [] => False
  | parameter :: rest =>
      FreeInParameter rules name parameter ∨ FreeInParameters rules name rest
termination_by structural parameters => parameters

def FreeInParameter (rules : ScopeRules) (name : String) : ClosureParameter → Prop
  | .mk _ annotation => FreeInAnnotation rules name annotation
termination_by structural parameter => parameter

def FreeInAnnotation (rules : ScopeRules) (name : String) : Option Expr → Prop
  | none => False
  | some annotation => FreeInExpr rules name annotation
termination_by structural annotation => annotation

def FreeInArms (rules : ScopeRules) (name : String) : List MatchArm → Prop
  | [] => False
  | arm :: rest => FreeInArm rules name arm ∨ FreeInArms rules name rest
termination_by structural arms => arms

def FreeInArm (rules : ScopeRules) (name : String) : MatchArm → Prop
  | .mk pattern guard value _ =>
      name ∉ patternNames pattern ∧
        ( FreeInAnnotation rules name guard ∨ FreeInExpr rules name value)
termination_by structural arm => arm

def FreeInBlock (rules : ScopeRules) (name : String) : Block → Prop
  | .mk bindings result _ =>
      ¬Binding.Declared name bindings ∧
        (FreeInBindings rules name bindings ∨
          ((∀ binding ∈ bindings, ¬binding.Binds name) ∧ FreeInExpr rules name result))
termination_by structural block => block

/-- The name is free in a binding that no earlier one of the list hides it from. -/
def FreeInBindings (rules : ScopeRules) (name : String) : List Binding → Prop
  | [] => False
  | binding :: rest =>
      FreeInBinding rules name binding ∨
        (¬binding.Binds name ∧ FreeInBindings rules name rest)
termination_by structural bindings => bindings

def FreeInBinding (rules : ScopeRules) (name : String) : Binding → Prop
  | .mk kind importedName bound typeParameters annotation value =>
      let binding := Binding.mk kind importedName bound typeParameters annotation value
      binding.isEdge = false ∧
        ((name ∉ typeParameters.map (·.value) ∧ FreeInAnnotation rules name annotation) ∨
          ((binding.valueHasTypeParameters = true → name ∉ typeParameters.map (·.value)) ∧
            (rules.ownName = true → kind = .defBinding → bound.value ≠ name) ∧
            FreeInExpr rules name value))
termination_by structural binding => binding

end

/-- What is found by some rules is found by others that look further and hide less. -/
structure ScopeRules.Within (rules rules' : ScopeRules) : Prop where
  expansions : rules.expansions = true → rules'.expansions = true
  ownName : rules'.ownName = true → rules.ownName = true

section Within

set_option linter.unusedSectionVars false

variable {rules rules' : ScopeRules} (hwithin : rules.Within rules') {name : String}
include hwithin

mutual

theorem FreeInExpr.within {expression : Expr} (h : FreeInExpr rules name expression) :
    FreeInExpr rules' name expression := by
  cases expression with
  | mk kind location => exact FreeInKind.within h
termination_by structural expression

theorem FreeInKind.within {kind : ExprKind} (h : FreeInKind rules name kind) :
    FreeInKind rules' name kind := by
  cases kind with
  | «variable» found => exact h
  | interpolatedString parts => exact FreeInParts.within h
  | array items => exact FreeInExprs.within h
  | tuple items => exact FreeInExprs.within h
  | spread operand => exact FreeInExpr.within h
  | dict fields => exact FreeInFields.within h
  | block block => exact FreeInBlock.within h
  | unary operator operand => exact FreeInExpr.within h
  | propagate operand => exact FreeInExpr.within h
  | «return» value => exact FreeInExpr.within h
  | panic message => exact FreeInExpr.within h
  | raise error => exact FreeInExpr.within h
  | binary operator left right => exact Or.imp FreeInExpr.within FreeInExpr.within h
  | field receiver label => exact FreeInExpr.within h
  | call callee arguments => exact Or.imp FreeInExpr.within FreeInExprs.within h
  | typeApply callee arguments => exact Or.imp FreeInExpr.within FreeInTypeArguments.within h
  | interpreter operand elaboration =>
      exact Or.imp FreeInExpr.within (And.imp hwithin.expansions FreeInExpr.within) h
  | closure parameters resultAnnotation body =>
      exact Or.imp FreeInParameters.within
        (Or.imp FreeInAnnotation.within (And.imp_right FreeInBlock.within)) h
  | «if» condition thenBranch elseBranch =>
      exact Or.imp FreeInExpr.within (Or.imp FreeInBlock.within FreeInBlock.within) h
  | ifLet pattern value thenBranch elseBranch =>
      exact Or.imp FreeInExpr.within
        (Or.imp (And.imp_right FreeInBlock.within) FreeInBlock.within) h
  | letElse pattern value elseBranch body =>
      exact Or.imp FreeInExpr.within
        (Or.imp FreeInBlock.within (And.imp_right FreeInBlock.within)) h
  | «match» value arms => exact Or.imp FreeInExpr.within FreeInArms.within h
  | int | float | string | bytes | atom => exact h
termination_by structural kind

theorem FreeInExprs.within {expressions : List Expr} (h : FreeInExprs rules name expressions) :
    FreeInExprs rules' name expressions := by
  cases expressions with
  | nil => exact h
  | cons expression rest => exact Or.imp FreeInExpr.within FreeInExprs.within h
termination_by structural expressions

theorem FreeInParts.within {parts : List StringPart} (h : FreeInParts rules name parts) :
    FreeInParts rules' name parts := by
  cases parts with
  | nil => exact h
  | cons part rest => exact Or.imp FreeInPart.within FreeInParts.within h
termination_by structural parts

theorem FreeInPart.within {part : StringPart} (h : FreeInPart rules name part) :
    FreeInPart rules' name part := by
  cases part with
  | text text => exact h
  | expression expression => exact FreeInExpr.within h
termination_by structural part

theorem FreeInFields.within {fields : List DictField} (h : FreeInFields rules name fields) :
    FreeInFields rules' name fields := by
  cases fields with
  | nil => exact h
  | cons field rest => exact Or.imp FreeInField.within FreeInFields.within h
termination_by structural fields

theorem FreeInField.within {field : DictField} (h : FreeInField rules name field) :
    FreeInField rules' name field := by
  cases field with
  | mk label value => exact FreeInExpr.within h
termination_by structural field

theorem FreeInTypeArguments.within {arguments : List TypeArgument}
    (h : FreeInTypeArguments rules name arguments) : FreeInTypeArguments rules' name arguments := by
  cases arguments with
  | nil => exact h
  | cons argument rest => exact Or.imp FreeInTypeArgument.within FreeInTypeArguments.within h
termination_by structural arguments

theorem FreeInTypeArgument.within {argument : TypeArgument}
    (h : FreeInTypeArgument rules name argument) : FreeInTypeArgument rules' name argument := by
  cases argument with
  | explicit expression location => exact FreeInExpr.within h
  | infer location => exact h
termination_by structural argument

theorem FreeInParameters.within {parameters : List ClosureParameter}
    (h : FreeInParameters rules name parameters) : FreeInParameters rules' name parameters := by
  cases parameters with
  | nil => exact h
  | cons parameter rest => exact Or.imp FreeInParameter.within FreeInParameters.within h
termination_by structural parameters

theorem FreeInParameter.within {parameter : ClosureParameter}
    (h : FreeInParameter rules name parameter) : FreeInParameter rules' name parameter := by
  cases parameter with
  | mk label annotation => exact FreeInAnnotation.within h
termination_by structural parameter

theorem FreeInAnnotation.within { annotation : Option Expr}
    (h : FreeInAnnotation rules name annotation) : FreeInAnnotation rules' name annotation := by
  cases annotation with
  | none => exact h
  | some annotation => exact FreeInExpr.within h
termination_by structural annotation

theorem FreeInArms.within {arms : List MatchArm} (h : FreeInArms rules name arms) :
    FreeInArms rules' name arms := by
  cases arms with
  | nil => exact h
  | cons arm rest => exact Or.imp FreeInArm.within FreeInArms.within h
termination_by structural arms

theorem FreeInArm.within {arm : MatchArm} (h : FreeInArm rules name arm) :
    FreeInArm rules' name arm := by
  cases arm with
  | mk pattern guard value required =>
      exact And.imp_right (Or.imp FreeInAnnotation.within FreeInExpr.within) h
termination_by structural arm

theorem FreeInBlock.within {block : Block} (h : FreeInBlock rules name block) :
    FreeInBlock rules' name block := by
  cases block with
  | mk bindings result location =>
      exact And.imp_right (Or.imp FreeInBindings.within (And.imp_right FreeInExpr.within)) h
termination_by structural block

theorem FreeInBindings.within {bindings : List Binding} (h : FreeInBindings rules name bindings) :
    FreeInBindings rules' name bindings := by
  cases bindings with
  | nil => exact h
  | cons binding rest =>
      exact Or.imp FreeInBinding.within (And.imp_right FreeInBindings.within) h
termination_by structural bindings

theorem FreeInBinding.within {binding : Binding} (h : FreeInBinding rules name binding) :
    FreeInBinding rules' name binding := by
  cases binding with
  | mk kind importedName bound typeParameters annotation value =>
      exact And.imp_right (Or.imp (And.imp_right FreeInAnnotation.within)
        (And.imp_right (And.imp (fun hown hrules => hown (hwithin.ownName hrules))
          FreeInExpr.within))) h
termination_by structural binding

end

end Within

end Telora
