import Telora.Syntax.Scoping

/-!
# Instantiation

Expressions take the place of free names. What binds a name hides it, as in the search for
free names; the expressions that are put in are closed, so that nothing is captured.
-/

namespace Telora

/-- What stands for names. -/
abbrev Instances := String → Option Expr

/-- Names with the property stay as they are. -/
def Instances.hide (instances : Instances) (hidden : String → Prop) [DecidablePred hidden] :
    Instances :=
  fun name => if hidden name then none else instances name

theorem Instances.isSome_hide {instances : Instances} {hidden : String → Prop}
    [DecidablePred hidden] {name : String} (h : (instances.hide hidden name).isSome) :
    ¬hidden name ∧ (instances name).isSome := by
  rw [hide] at h
  split at h
  · cases h
  · rename_i hnot
    exact ⟨hnot, h⟩

theorem Instances.hide_of_not {instances : Instances} {hidden : String → Prop}
    [DecidablePred hidden] (h : ∀ name, ¬hidden name) : instances.hide hidden = instances :=
  funext fun name => if_neg (h name)

mutual

def Expr.instantiate (instances : Instances) : Expr → Expr
  | .mk kind location =>
      match kind with
      | .variable name => (instances name.value).getD (.mk kind location)
      | kind => .mk (kind.instantiate instances) location
termination_by structural expression => expression

def ExprKind.instantiate (instances : Instances) : ExprKind → ExprKind
  | .interpolatedString parts => .interpolatedString (instantiateParts instances parts)
  | .array items => .array (instantiateExprs instances items)
  | .tuple items => .tuple (instantiateExprs instances items)
  | .spread operand => .spread (operand.instantiate instances)
  | .dict fields => .dict (instantiateFields instances fields)
  | .block block => .block (block.instantiate instances)
  | .unary operator operand => .unary operator (operand.instantiate instances)
  | .propagate operand => .propagate (operand.instantiate instances)
  | .return value => .return (value.instantiate instances)
  | .panic message => .panic (message.instantiate instances)
  | .raise error => .raise (error.instantiate instances)
  | .binary operator left right =>
      .binary operator (left.instantiate instances) (right.instantiate instances)
  | .field receiver label => .field (receiver.instantiate instances) label
  | .call callee arguments =>
      .call (callee.instantiate instances) (instantiateExprs instances arguments)
  | .typeApply callee arguments =>
      .typeApply (callee.instantiate instances) (instantiateTypeArguments instances arguments)
  | .interpreter operand elaboration =>
      .interpreter (operand.instantiate instances) (elaboration.instantiate instances)
  | .closure parameters resultAnnotation body =>
      .closure (instantiateParameters instances parameters)
        ( instantiateAnnotation instances resultAnnotation)
        (body.instantiate (instances.hide (· ∈ ClosureParameter.names parameters)))
  | .if condition thenBranch elseBranch =>
      .if (condition.instantiate instances) (thenBranch.instantiate instances)
        (elseBranch.instantiate instances)
  | .ifLet pattern value thenBranch elseBranch =>
      .ifLet pattern (value.instantiate instances)
        (thenBranch.instantiate (instances.hide (· ∈ patternNames pattern)))
        (elseBranch.instantiate instances)
  | .letElse pattern value elseBranch body =>
      .letElse pattern (value.instantiate instances) (elseBranch.instantiate instances)
        (body.instantiate (instances.hide (· ∈ patternNames pattern)))
  | .match value arms => .match (value.instantiate instances) (instantiateArms instances arms)
  | .variable name => .variable name
  | .int value => .int value
  | .float value => .float value
  | .string value => .string value
  | .bytes value => .bytes value
  | .atom name => .atom name
termination_by structural kind => kind

def instantiateExprs (instances : Instances) : List Expr → List Expr
  | [] => []
  | expression :: rest => expression.instantiate instances :: instantiateExprs instances rest
termination_by structural expressions => expressions

def instantiateParts (instances : Instances) : List StringPart → List StringPart
  | [] => []
  | part :: rest => part.instantiate instances :: instantiateParts instances rest
termination_by structural parts => parts

def StringPart.instantiate (instances : Instances) : StringPart → StringPart
  | .text text => .text text
  | .expression expression => .expression (expression.instantiate instances)
termination_by structural part => part

def instantiateFields (instances : Instances) : List DictField → List DictField
  | [] => []
  | field :: rest => field.instantiate instances :: instantiateFields instances rest
termination_by structural fields => fields

def DictField.instantiate (instances : Instances) : DictField → DictField
  | .mk label value => .mk label (value.instantiate instances)
termination_by structural field => field

def instantiateTypeArguments (instances : Instances) : List TypeArgument → List TypeArgument
  | [] => []
  | argument :: rest =>
      argument.instantiate instances :: instantiateTypeArguments instances rest
termination_by structural arguments => arguments

def TypeArgument.instantiate (instances : Instances) : TypeArgument → TypeArgument
  | .explicit expression location => .explicit (expression.instantiate instances) location
  | .infer location => .infer location
termination_by structural argument => argument

def instantiateParameters (instances : Instances) :
    List ClosureParameter → List ClosureParameter
  | [] => []
  | parameter :: rest =>
      parameter.instantiate instances :: instantiateParameters instances rest
termination_by structural parameters => parameters

def ClosureParameter.instantiate (instances : Instances) : ClosureParameter → ClosureParameter
  | .mk label annotation => .mk label ( instantiateAnnotation instances annotation)
termination_by structural parameter => parameter

def instantiateAnnotation (instances : Instances) : Option Expr → Option Expr
  | none => none
  | some annotation => some ( annotation.instantiate instances)
termination_by structural annotation => annotation

def instantiateArms (instances : Instances) : List MatchArm → List MatchArm
  | [] => []
  | arm :: rest => arm.instantiate instances :: instantiateArms instances rest
termination_by structural arms => arms

def MatchArm.instantiate (instances : Instances) : MatchArm → MatchArm
  | .mk pattern guard value required =>
      .mk pattern
        ( instantiateAnnotation (instances.hide (· ∈ patternNames pattern)) guard)
        (value.instantiate (instances.hide (· ∈ patternNames pattern))) required
termination_by structural arm => arm

def Block.instantiate (instances : Instances) : Block → Block
  | .mk bindings result location =>
      let inside := instances.hide fun name => Binding.Declared name bindings
      .mk (instantiateBindings inside bindings)
        (result.instantiate (inside.hide fun name => ∃ binding ∈ bindings, binding.Binds name))
        location
termination_by structural block => block

def instantiateBindings (instances : Instances) : List Binding → List Binding
  | [] => []
  | binding :: rest =>
      binding.instantiate instances ::
        instantiateBindings (instances.hide fun name => binding.Binds name) rest
termination_by structural bindings => bindings

/-- Edges of the module have no names to instantiate. -/
def Binding.instantiate (instances : Instances) : Binding → Binding
  | .mk kind importedName bound typeParameters annotation value =>
      let binding := Binding.mk kind importedName bound typeParameters annotation value
      let typed := instances.hide (· ∈ typeParameters.map (·.value))
      if binding.isEdge then binding
      else .mk kind importedName bound typeParameters ( instantiateAnnotation typed annotation)
        (value.instantiate (if binding.valueHasTypeParameters then typed else instances))
termination_by structural binding => binding

end

/-- All that is written is searched, and a definition without annotation is no name of its own
value. -/
def writtenRules : ScopeRules := ⟨true, false⟩

namespace Instances

/-- No free name has an instance. -/
def Misses (instances : Instances) (free : String → Prop) : Prop :=
  ∀ name, (instances name).isSome → ¬free name

variable {instances : Instances} {free free' : String → Prop}

theorem Misses.imp (h : instances.Misses free) (himp : ∀ name, free' name → free name) :
    instances.Misses free' :=
  fun name hname hfree => h name hname (himp name hfree)

/-- Under a binder the free names are those that it does not bind. -/
theorem Misses.hide {hidden : String → Prop} [DecidablePred hidden]
    (h : instances.Misses fun name => ¬hidden name ∧ free name) :
    (instances.hide hidden).Misses free := by
  intro name hname hfree
  obtain ⟨hnot, hsome⟩ := isSome_hide hname
  exact h name hsome ⟨hnot, hfree⟩

end Instances

section NotFree

open Instances

mutual

theorem Expr.instantiate_eq {instances : Instances} {expression : Expr}
    (h : instances.Misses fun name => FreeInExpr writtenRules name expression) :
    expression.instantiate instances = expression := by
  cases expression with
  | mk kind location =>
      have hkind : instances.Misses fun name => FreeInKind writtenRules name kind := h
      cases kind with
      | «variable» found =>
          have hnone : instances found.value = none :=
            Option.not_isSome_iff_eq_none.mp fun hsome => hkind found.value hsome rfl
          simp [Expr.instantiate, hnone]
      | _ => exact congrArg (Expr.mk · location) (ExprKind.instantiate_eq hkind)
termination_by structural expression

theorem ExprKind.instantiate_eq {instances : Instances} {kind : ExprKind}
    (h : instances.Misses fun name => FreeInKind writtenRules name kind) :
    kind.instantiate instances = kind := by
  cases kind with
  | «variable» | int | float | string | bytes | atom => rfl
  | interpolatedString parts => exact congrArg _ (instantiateParts_eq h)
  | array items => exact congrArg _ (instantiateExprs_eq h)
  | tuple items => exact congrArg _ (instantiateExprs_eq h)
  | spread operand => exact congrArg _ (Expr.instantiate_eq h)
  | dict fields => exact congrArg _ (instantiateFields_eq h)
  | block block => exact congrArg _ (Block.instantiate_eq h)
  | unary operator operand => exact congrArg _ (Expr.instantiate_eq h)
  | propagate operand => exact congrArg _ (Expr.instantiate_eq h)
  | «return» value => exact congrArg _ (Expr.instantiate_eq h)
  | panic message => exact congrArg _ (Expr.instantiate_eq h)
  | raise error => exact congrArg _ (Expr.instantiate_eq h)
  | binary operator left right =>
      exact congrArg₂ _ (Expr.instantiate_eq (h.imp fun _ => Or.inl))
        (Expr.instantiate_eq (h.imp fun _ => Or.inr))
  | field receiver label => exact congrArg (ExprKind.field · label) (Expr.instantiate_eq h)
  | call callee arguments =>
      exact congrArg₂ _ (Expr.instantiate_eq (h.imp fun _ => Or.inl))
        (instantiateExprs_eq (h.imp fun _ => Or.inr))
  | typeApply callee arguments =>
      exact congrArg₂ _ (Expr.instantiate_eq (h.imp fun _ => Or.inl))
        (instantiateTypeArguments_eq (h.imp fun _ => Or.inr))
  | interpreter operand elaboration =>
      exact congrArg₂ _ (Expr.instantiate_eq (h.imp fun _ => Or.inl))
        (Expr.instantiate_eq (h.imp fun _ hfree => Or.inr ⟨rfl, hfree⟩))
  | closure parameters resultAnnotation body =>
      have hparameters := instantiateParameters_eq (h.imp fun _ => Or.inl)
      have hresult := instantiateAnnotation_eq (h.imp fun _ hfree => Or.inr (Or.inl hfree))
      have hbody := Block.instantiate_eq
        (Misses.hide (h.imp fun _ hfree => Or.inr (Or.inr hfree)))
      simp only [ExprKind.instantiate, hparameters, hresult, hbody]
  | «if» condition thenBranch elseBranch =>
      have hcondition := Expr.instantiate_eq (h.imp fun _ => Or.inl)
      have hthen := Block.instantiate_eq (h.imp fun _ hfree => Or.inr (Or.inl hfree))
      have helse := Block.instantiate_eq (h.imp fun _ hfree => Or.inr (Or.inr hfree))
      simp only [ExprKind.instantiate, hcondition, hthen, helse]
  | ifLet pattern value thenBranch elseBranch =>
      have hvalue := Expr.instantiate_eq (h.imp fun _ => Or.inl)
      have hthen := Block.instantiate_eq
        (Misses.hide (h.imp fun _ hfree => Or.inr (Or.inl hfree)))
      have helse := Block.instantiate_eq (h.imp fun _ hfree => Or.inr (Or.inr hfree))
      simp only [ExprKind.instantiate, hvalue, hthen, helse]
  | letElse pattern value elseBranch body =>
      have hvalue := Expr.instantiate_eq (h.imp fun _ => Or.inl)
      have helse := Block.instantiate_eq (h.imp fun _ hfree => Or.inr (Or.inl hfree))
      have hbody := Block.instantiate_eq
        (Misses.hide (h.imp fun _ hfree => Or.inr (Or.inr hfree)))
      simp only [ExprKind.instantiate, hvalue, helse, hbody]
  | «match» value arms =>
      exact congrArg₂ _ (Expr.instantiate_eq (h.imp fun _ => Or.inl))
        (instantiateArms_eq (h.imp fun _ => Or.inr))
termination_by structural kind

theorem instantiateExprs_eq {instances : Instances} {expressions : List Expr}
    (h : instances.Misses fun name => FreeInExprs writtenRules name expressions) :
    instantiateExprs instances expressions = expressions := by
  cases expressions with
  | nil => rfl
  | cons expression rest =>
      exact congrArg₂ _ (Expr.instantiate_eq (h.imp fun _ => Or.inl))
        (instantiateExprs_eq (h.imp fun _ => Or.inr))
termination_by structural expressions

theorem instantiateParts_eq {instances : Instances} {parts : List StringPart}
    (h : instances.Misses fun name => FreeInParts writtenRules name parts) :
    instantiateParts instances parts = parts := by
  cases parts with
  | nil => rfl
  | cons part rest =>
      exact congrArg₂ _ (StringPart.instantiate_eq (h.imp fun _ => Or.inl))
        (instantiateParts_eq (h.imp fun _ => Or.inr))
termination_by structural parts

theorem StringPart.instantiate_eq {instances : Instances} {part : StringPart}
    (h : instances.Misses fun name => FreeInPart writtenRules name part) :
    part.instantiate instances = part := by
  cases part with
  | text text => rfl
  | expression expression => exact congrArg _ (Expr.instantiate_eq h)
termination_by structural part

theorem instantiateFields_eq {instances : Instances} {fields : List DictField}
    (h : instances.Misses fun name => FreeInFields writtenRules name fields) :
    instantiateFields instances fields = fields := by
  cases fields with
  | nil => rfl
  | cons field rest =>
      exact congrArg₂ _ (DictField.instantiate_eq (h.imp fun _ => Or.inl))
        (instantiateFields_eq (h.imp fun _ => Or.inr))
termination_by structural fields

theorem DictField.instantiate_eq {instances : Instances} {field : DictField}
    (h : instances.Misses fun name => FreeInField writtenRules name field) :
    field.instantiate instances = field := by
  cases field with
  | mk label value => exact congrArg _ (Expr.instantiate_eq h)
termination_by structural field

theorem instantiateTypeArguments_eq {instances : Instances} {arguments : List TypeArgument}
    (h : instances.Misses fun name => FreeInTypeArguments writtenRules name arguments) :
    instantiateTypeArguments instances arguments = arguments := by
  cases arguments with
  | nil => rfl
  | cons argument rest =>
      exact congrArg₂ _ (TypeArgument.instantiate_eq (h.imp fun _ => Or.inl))
        (instantiateTypeArguments_eq (h.imp fun _ => Or.inr))
termination_by structural arguments

theorem TypeArgument.instantiate_eq {instances : Instances} {argument : TypeArgument}
    (h : instances.Misses fun name => FreeInTypeArgument writtenRules name argument) :
    argument.instantiate instances = argument := by
  cases argument with
  | explicit expression location =>
      exact congrArg (TypeArgument.explicit · location) (Expr.instantiate_eq h)
  | infer location => rfl
termination_by structural argument

theorem instantiateParameters_eq {instances : Instances} {parameters : List ClosureParameter}
    (h : instances.Misses fun name => FreeInParameters writtenRules name parameters) :
    instantiateParameters instances parameters = parameters := by
  cases parameters with
  | nil => rfl
  | cons parameter rest =>
      exact congrArg₂ _ (ClosureParameter.instantiate_eq (h.imp fun _ => Or.inl))
        (instantiateParameters_eq (h.imp fun _ => Or.inr))
termination_by structural parameters

theorem ClosureParameter.instantiate_eq {instances : Instances} {parameter : ClosureParameter}
    (h : instances.Misses fun name => FreeInParameter writtenRules name parameter) :
    parameter.instantiate instances = parameter := by
  cases parameter with
  | mk label annotation => exact congrArg _ (instantiateAnnotation_eq h)
termination_by structural parameter

theorem instantiateAnnotation_eq {instances : Instances} { annotation : Option Expr}
    (h : instances.Misses fun name => FreeInAnnotation writtenRules name annotation) :
    instantiateAnnotation instances annotation = annotation := by
  cases annotation with
  | none => rfl
  | some annotation => exact congrArg _ (Expr.instantiate_eq h)
termination_by structural annotation

theorem instantiateArms_eq {instances : Instances} {arms : List MatchArm}
    (h : instances.Misses fun name => FreeInArms writtenRules name arms) :
    instantiateArms instances arms = arms := by
  cases arms with
  | nil => rfl
  | cons arm rest =>
      exact congrArg₂ _ (MatchArm.instantiate_eq (h.imp fun _ => Or.inl))
        (instantiateArms_eq (h.imp fun _ => Or.inr))
termination_by structural arms

theorem MatchArm.instantiate_eq {instances : Instances} {arm : MatchArm}
    (h : instances.Misses fun name => FreeInArm writtenRules name arm) :
    arm.instantiate instances = arm := by
  cases arm with
  | mk pattern guard value required =>
      have hguard := @instantiateAnnotation_eq _ guard
        (Misses.hide (h.imp fun _ hfree => ⟨hfree.1, Or.inl hfree.2⟩))
      have hvalue := @Expr.instantiate_eq _ value
        (Misses.hide (h.imp fun _ hfree => ⟨hfree.1, Or.inr hfree.2⟩))
      simp only [MatchArm.instantiate, hguard, hvalue]
termination_by structural arm

theorem Block.instantiate_eq {instances : Instances} {block : Block}
    (h : instances.Misses fun name => FreeInBlock writtenRules name block) :
    block.instantiate instances = block := by
  cases block with
  | mk bindings result location =>
      have hinside := @Misses.hide _ _ (fun name => Binding.Declared name bindings) _ h
      have hbindings := instantiateBindings_eq (hinside.imp fun _ => Or.inl)
      have hresult := @Expr.instantiate_eq _ result
        (@Misses.hide _ _ (fun name => ∃ binding ∈ bindings, binding.Binds name) _
          (hinside.imp fun _ hfree => Or.inr
            ⟨fun binding hmem hbinds => hfree.1 ⟨binding, hmem, hbinds⟩, hfree.2⟩))
      simp only [Block.instantiate, hbindings, hresult]
termination_by structural block

theorem instantiateBindings_eq {instances : Instances} {bindings : List Binding}
    (h : instances.Misses fun name => FreeInBindings writtenRules name bindings) :
    instantiateBindings instances bindings = bindings := by
  cases bindings with
  | nil => rfl
  | cons binding rest =>
      exact congrArg₂ _ (Binding.instantiate_eq (h.imp fun _ => Or.inl))
        (instantiateBindings_eq (Misses.hide (h.imp fun _ => Or.inr)))
termination_by structural bindings

theorem Binding.instantiate_eq {instances : Instances} {binding : Binding}
    (h : instances.Misses fun name => FreeInBinding writtenRules name binding) :
    binding.instantiate instances = binding := by
  cases binding with
  | mk kind importedName bound typeParameters annotation value =>
      rw [Binding.instantiate]
      split
      · rfl
      · rename_i hedge
        simp only [Bool.not_eq_true] at hedge
        have hannotated := @instantiateAnnotation_eq _ annotation
          (@Misses.hide _ _ (· ∈ typeParameters.map (·.value)) _
            (h.imp fun _ hfree => ⟨hedge, Or.inl hfree⟩))
        have hvalue : value.instantiate
            (if (Binding.mk kind importedName bound typeParameters annotation
                value).valueHasTypeParameters
              then instances.hide (· ∈ typeParameters.map (·.value)) else instances) = value := by
          refine Expr.instantiate_eq ?_
          split
          · rename_i htyped
            exact Misses.hide (h.imp fun _ hfree =>
              ⟨hedge, Or.inr ⟨fun _ => hfree.1, (fun hown => by cases hown), hfree.2⟩⟩)
          · rename_i htyped
            exact h.imp fun _ hfree =>
              ⟨hedge, Or.inr ⟨fun hhas => absurd hhas htyped, (fun hown => by cases hown), hfree⟩⟩
        rw [hannotated, hvalue]
termination_by structural binding

end

end NotFree

end Telora
