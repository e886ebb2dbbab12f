import Telora.Semantic.Resolve

/-!
# Unresolved references

The resolver leaves a reference of a name unresolved exactly when the name is free in what it
has indexed and not visible around it. To the resolver, the value of a definition is in the
scope of the name that it defines.
-/

namespace Telora.Semantic.Resolver

open Library

/-- The scoping that the resolver goes by. -/
abbrev resolverRules : ScopeRules := ⟨false, true⟩

/-- A reference of the name is unresolved. -/
def Unresolved (resolver : Resolver) (name : String) : Prop :=
  ∃ reference ∈ resolver.references, reference.name = name ∧ reference.resolution = .unresolved

/-- The name is bound around. -/
def Visible (external : List String) (scopes : List Scope) (name : String) : Prop :=
  (resolveName scopes name).isSome ∨ name ∈ external

theorem isSome_resolveName_cons {scope : Scope} {scopes : List Scope} {name : String} :
    (resolveName (scope :: scopes) name).isSome ↔
      (scope.lookup name).isSome ∨ (resolveName scopes name).isSome := by
  rw [resolveName, resolveName, List.findSome?_cons]
  cases scope.lookup name <;> simp

theorem isSome_lookup_cons {scope : Scope} {bound name : String} {id : Nat} :
    (List.lookup name ((bound, id) :: scope)).isSome ↔
      bound = name ∨ (scope.lookup name).isSome := by
  by_cases hname : name = bound
  · subst hname
    rw [lookup_cons_self]
    simp
  · rw [lookup_cons_ne hname]
    exact ⟨.inr, fun h => h.resolve_left fun hbound => hname hbound.symm⟩

theorem visible_cons {external : List String} {scope : Scope} {scopes : List Scope}
    {name : String} : Visible external (scope :: scopes) name ↔
      (scope.lookup name).isSome ∨ Visible external scopes name := by
  rw [Visible, Visible, isSome_resolveName_cons, or_assoc]

section References

variable (resolver : Resolver) {name : String}

@[simp] theorem references_define (binding : Binding) (scope : Scope) (topLevel : Bool) :
    (resolver.define binding scope topLevel).2.references = resolver.references := rfl

@[simp] theorem references_setValue (definition expression : Nat) :
    (resolver.setValue definition expression).references = resolver.references := rfl

@[simp] theorem references_addLocation (definition : Nat) (location : Loc) :
    (resolver.addLocation definition location).references = resolver.references := rfl

theorem unresolved_enterExpression (location : Loc) :
    (resolver.enterExpression location).Unresolved name ↔ resolver.Unresolved name := Iff.rfl

theorem unresolved_pushExpression (location : Loc) :
    (resolver.pushExpression location).Unresolved name ↔ resolver.Unresolved name := Iff.rfl

theorem unresolved_leaveExpression (id : Nat) (reference : Option Nat) :
    (resolver.leaveExpression id reference).Unresolved name ↔ resolver.Unresolved name := Iff.rfl

theorem unresolved_congr {resolver resolver' : Resolver}
    (h : resolver.references = resolver'.references) :
    resolver.Unresolved name ↔ resolver'.Unresolved name := by
  rw [Unresolved, Unresolved, h]

theorem resolution_eq_unresolved {external : List String} {scopes : List Scope} :
    resolution external scopes name = .unresolved ↔ ¬Visible external scopes name := by
  rw [resolution, Visible, not_or]
  cases resolveName scopes name with
  | some id => simp
  | none => by_cases hname : name ∈ external <;> simp [hname]

theorem unresolved_addReference (external : List String) (scopes : List Scope)
    (found : Identifier) :
    (resolver.addReference external scopes found).Unresolved name ↔
      resolver.Unresolved name ∨ (¬Visible external scopes name ∧ found.value = name) := by
  simp only [Unresolved, addReference, List.mem_append, List.mem_singleton]
  constructor
  · rintro ⟨reference, hold | rfl, hname, hunresolved⟩
    · exact .inl ⟨reference, hold, hname, hunresolved⟩
    · obtain rfl : found.value = name := hname
      exact .inr ⟨resolution_eq_unresolved.mp hunresolved, rfl⟩
  · rintro (⟨reference, hold, hname, hunresolved⟩ | ⟨hvisible, rfl⟩)
    · exact ⟨reference, .inl hold, hname, hunresolved⟩
    · exact ⟨_, .inr rfl, rfl, resolution_eq_unresolved.mpr hvisible⟩

end References

mutual

theorem indexPattern_spec (pattern : Pattern) (scope : Scope) (resolver : Resolver)
    (name : String) :
    (indexPattern pattern scope resolver).2.references = resolver.references ∧
      (((indexPattern pattern scope resolver).1.lookup name).isSome ↔
        name ∈ patternNames pattern ∨ (scope.lookup name).isSome) := by
  cases pattern with
  | mk kind location => exact indexPatternKind_spec kind scope resolver name
termination_by structural pattern

theorem indexPatternKind_spec (kind : PatternKind) (scope : Scope) (resolver : Resolver)
    (name : String) :
    (indexPatternKind kind scope resolver).2.references = resolver.references ∧
      (((indexPatternKind kind scope resolver).1.lookup name).isSome ↔
        name ∈ patternKindNames kind ∨ (scope.lookup name).isSome) := by
  cases kind with
  | binding found =>
      refine ⟨rfl, ?_⟩
      rw [indexPatternKind, defineName, isSome_lookup_cons, patternKindNames,
        List.mem_singleton, eq_comm]
  | tuple items => exact indexPatterns_spec items scope resolver name
  | tagged tag payload => exact indexPattern_spec payload scope resolver name
  | struct fields => exact indexPatternFields_spec fields scope resolver name
  | wildcard | int | float | string | atom =>
      exact ⟨rfl, by simp [indexPatternKind, patternKindNames]⟩
termination_by structural kind

theorem indexPatterns_spec (items : List Pattern) (scope : Scope) (resolver : Resolver)
    (name : String) :
    (indexPatterns items scope resolver).2.references = resolver.references ∧
      (((indexPatterns items scope resolver).1.lookup name).isSome ↔
        name ∈ patternsNames items ∨ (scope.lookup name).isSome) := by
  cases items with
  | nil => exact ⟨rfl, by simp [indexPatterns, patternsNames]⟩
  | cons item rest =>
      obtain ⟨hreferences, hscope⟩ := indexPattern_spec item scope resolver name
      obtain ⟨hreferences', hscope'⟩ := indexPatterns_spec rest
        (indexPattern item scope resolver).1 (indexPattern item scope resolver).2 name
      refine ⟨hreferences'.trans hreferences, hscope'.trans ?_⟩
      rw [hscope, patternsNames, List.mem_append, ← or_assoc,
        or_comm (a := name ∈ patternsNames rest)]
termination_by structural items

theorem indexPatternFields_spec (fields : List (Identifier × Pattern)) (scope : Scope)
    (resolver : Resolver) (name : String) :
    (indexPatternFields fields scope resolver).2.references = resolver.references ∧
      (((indexPatternFields fields scope resolver).1.lookup name).isSome ↔
        name ∈ patternFieldsNames fields ∨ (scope.lookup name).isSome) := by
  cases fields with
  | nil => exact ⟨rfl, by simp [indexPatternFields, patternFieldsNames]⟩
  | cons field rest =>
      obtain ⟨hreferences, hscope⟩ := indexPatternField_spec field scope resolver name
      obtain ⟨hreferences', hscope'⟩ := indexPatternFields_spec rest
        (indexPatternField field scope resolver).1 (indexPatternField field scope resolver).2 name
      refine ⟨hreferences'.trans hreferences, hscope'.trans ?_⟩
      rw [hscope, patternFieldsNames, List.mem_append, ← or_assoc,
        or_comm (a := name ∈ patternFieldsNames rest)]
termination_by structural fields

theorem indexPatternField_spec (field : Identifier × Pattern) (scope : Scope)
    (resolver : Resolver) (name : String) :
    (indexPatternField field scope resolver).2.references = resolver.references ∧
      (((indexPatternField field scope resolver).1.lookup name).isSome ↔
        name ∈ patternFieldNames field ∨ (scope.lookup name).isSome) := by
  cases field with
  | mk label pattern => exact indexPattern_spec pattern scope resolver name
termination_by structural field

end

theorem defineParameters_spec (parameters : List ClosureParameter) (scope : Scope)
    (resolver : Resolver) (name : String) :
    (defineParameters parameters scope resolver).2.references = resolver.references ∧
      (((defineParameters parameters scope resolver).1.lookup name).isSome ↔
        name ∈ ClosureParameter.names parameters ∨ (scope.lookup name).isSome) := by
  induction parameters generalizing scope resolver with
  | nil => exact ⟨rfl, by simp [defineParameters, ClosureParameter.names]⟩
  | cons parameter rest ih =>
      obtain ⟨hreferences, hscope⟩ := ih
        (resolver.defineName parameter.name.value .parameter parameter.name.location scope false).1
        (resolver.defineName parameter.name.value .parameter parameter.name.location scope false).2
      refine ⟨hreferences, hscope.trans ?_⟩
      rw [defineName, isSome_lookup_cons, ClosureParameter.names, ClosureParameter.names,
        List.map_cons, List.mem_cons, or_left_comm, eq_comm, or_assoc]

theorem predeclare_spec (bindings : List Binding) (scopes : List Scope) (topLevel : Bool)
    (scope : Scope) (resolver : Resolver) (name : String) :
    (predeclare bindings scopes topLevel scope resolver).2.references = resolver.references ∧
      ((resolveName ((predeclare bindings scopes topLevel scope resolver).1 :: scopes)
          name).isSome ↔
        Binding.Declared name bindings ∨ (resolveName (scope :: scopes) name).isSome) := by
  induction bindings generalizing scope resolver with
  | nil => exact ⟨rfl, by simp [predeclare, Binding.Declared]⟩
  | cons binding rest ih =>
      have hdeclared : Binding.Declared name (binding :: rest) ↔
          (binding.declares = true ∧ binding.name.value = name) ∨ Binding.Declared name rest := by
        simp [Binding.Declared]
      rw [predeclare, hdeclared]
      split
      · rename_i hkind
        obtain ⟨hreferences, hscope⟩ := ih (resolver.define binding scope topLevel).1
          (resolver.define binding scope topLevel).2
        refine ⟨hreferences, hscope.trans ?_⟩
        have hdeclares : binding.declares = true := by
          rcases hkind with h | h | h | h | ⟨h, h'⟩ | ⟨h, h', _⟩ <;>
            simp [Binding.declares, *]
        rw [define, defineName, isSome_resolveName_cons, isSome_lookup_cons,
          isSome_resolveName_cons]
        simp only [hdeclares, true_and]
        rw [or_assoc, or_assoc, or_left_comm]
      · rename_i hkind
        obtain ⟨hreferences, hscope⟩ := ih scope resolver
        refine ⟨hreferences, hscope.trans ?_⟩
        simp only [not_or, not_and] at hkind
        constructor
        · exact fun h => h.elim (fun h => .inl (.inr h)) .inr
        · rintro ((⟨hdeclares, rfl⟩ | hrest) | hvisible)
          · -- a closure definition that is not declared here has a visible name
            refine .inr ?_
            obtain ⟨hdecl, hnative, hnativeType, htype, hannotated, hclosure⟩ := hkind
            have hdef : binding.kind = .defBinding := by
              cases hcase : binding.kind <;> simp_all [Binding.declares]
            have hvalue : binding.value.isClosure = true := by
              have hnone := hannotated hdef
              simpa [Binding.declares, hdef, hnone] using hdeclares
            exact Option.isSome_iff_ne_none.mpr (hclosure hdef hvalue)
          · exact .inl hrest
          · exact .inr hvisible

theorem indexBindingName_spec (binding : Binding) (scopes : List Scope) (topLevel : Bool)
    (scope : Scope) (resolver : Resolver) (name : String) :
    (indexBindingName binding scopes topLevel scope resolver).2.2.references =
        resolver.references ∧
      ((resolveName ((indexBindingName binding scopes topLevel scope resolver).2.1 :: scopes)
          name).isSome ↔
        binding.name.value = name ∨ (resolveName (scope :: scopes) name).isSome) := by
  rw [indexBindingName]
  cases hvisible : resolveName (scope :: scopes) binding.name.value with
  | some id =>
      simp only
      constructor
      · split <;> rfl
      · constructor
        · exact .inr
        · rintro (rfl | h)
          · rw [hvisible]
            rfl
          · exact h
  | none =>
      refine ⟨rfl, ?_⟩
      rw [define, defineName, isSome_resolveName_cons, isSome_lookup_cons,
        isSome_resolveName_cons, or_assoc]

theorem not_visible_append {parameters external : List String} {scopes : List Scope}
    {name : String} : ¬Visible (parameters ++ external) scopes name ↔
      name ∉ parameters ∧ ¬Visible external scopes name := by
  rw [Visible, Visible, List.mem_append, or_left_comm, not_or]

theorem not_visible_scope {external : List String} {scope scope' : Scope} {scopes : List Scope}
    {name : String} {bound : Prop}
    (h : (resolveName (scope' :: scopes) name).isSome ↔
      bound ∨ (resolveName (scope :: scopes) name).isSome) :
    ¬Visible external (scope' :: scopes) name ↔
      ¬bound ∧ ¬Visible external (scope :: scopes) name := by
  rw [Visible, Visible, h, or_assoc, not_or]

theorem not_visible_new {external : List String} {scope : Scope} {scopes : List Scope}
    {name : String} {names : List String}
    (h : (scope.lookup name).isSome ↔ name ∈ names ∨ (List.lookup name ([] : Scope)).isSome) :
    ¬Visible external (scope :: scopes) name ↔ name ∉ names ∧ ¬Visible external scopes name := by
  rw [visible_cons, h]
  simp

theorem free_or {before shown left right : Prop} :
    ((before ∨ shown ∧ left) ∨ shown ∧ right) ↔ before ∨ shown ∧ (left ∨ right) := by
  rw [or_assoc, ← and_or_left]

theorem free_under {bound shown part : Prop} :
    (bound ∧ shown) ∧ part ↔ shown ∧ bound ∧ part := by
  rw [and_assoc, and_left_comm]

/-- A block's bindings are indexed after its declarations, and its result after both. -/
theorem free_in_block {before shown declared inBindings bound inResult : Prop} :
    ((before ∨ (¬declared ∧ shown) ∧ inBindings) ∨ (bound ∧ ¬declared ∧ shown) ∧ inResult) ↔
      before ∨ shown ∧ ¬declared ∧ (inBindings ∨ bound ∧ inResult) := by
  rw [@free_under bound, free_or, free_under]

/-- What indexing adds to the unresolved references of a name, where `free` says whether the name
is free in what is indexed. -/
def AddsFree (index : List String → List Scope → Resolver → Resolver) (name : String)
    (free : Prop) : Prop :=
  ∀ external scopes resolver, (index external scopes resolver).Unresolved name ↔
    resolver.Unresolved name ∨ (¬Visible external scopes name ∧ free)

section Binding

variable {name : String}

theorem unresolved_binding (binding : Binding)
    (hannotated : AddsFree ( indexAnnotation binding.annotation) name
      ( FreeInAnnotation resolverRules name binding.annotation))
    (hvalue : AddsFree (indexExpr binding.value) name
      (FreeInExpr resolverRules name binding.value))
    (external : List String) (scopes : List Scope) (topLevel : Bool) (scope : Scope)
    (resolver : Resolver)
    (hdeclared : binding.declares = true →
      (resolveName (scope :: scopes) binding.name.value).isSome) :
    ((indexBinding binding external scopes topLevel scope resolver).2.Unresolved name ↔
        resolver.Unresolved name ∨ (¬Visible external (scope :: scopes) name ∧
          FreeInBinding resolverRules name binding)) ∧
      ((resolveName ((indexBinding binding external scopes topLevel scope resolver).1 :: scopes)
          name).isSome ↔
        binding.Binds name ∨ (resolveName (scope :: scopes) name).isSome) := by
  obtain ⟨kind, importedName, bound, typeParameters, annotation, value⟩ := binding
  simp only [ Binding.annotation, Binding.value, Binding.name] at hannotated hvalue hdeclared
  have hannotated := hannotated (typeParameters.map (·.value) ++ external) (scope :: scopes)
    resolver
  rw [not_visible_append] at hannotated
  cases kind with
  | openImport | exportBinding =>
      simp [indexBinding, FreeInBinding, Binding.isEdge, Binding.kind, Binding.Binds]
  | letBinding | importBinding =>
      simp only [indexBinding, FreeInBinding, Binding.isEdge, Binding.kind,
        Binding.valueHasTypeParameters, Binding.Binds, Bool.false_eq_true, if_false]
      constructor
      · rw [unresolved_congr (references_setValue ..), unresolved_congr (references_define ..),
          hvalue, hannotated]
        simp only [true_and, false_implies, reduceCtorEq, implies_true]
        rw [free_under, free_or]
      · rw [define, defineName, isSome_resolveName_cons, isSome_lookup_cons,
          isSome_resolveName_cons, or_assoc]
        simp [Binding.name]
  | defBinding =>
      obtain ⟨hreferences, hscope⟩ := indexBindingName_spec
        (.mk .defBinding importedName bound typeParameters annotation value) scopes topLevel scope
        ( indexAnnotation annotation (typeParameters.map (·.value) ++ external) (scope :: scopes)
          resolver) name
      rcases hindexed : indexBindingName
          (.mk .defBinding importedName bound typeParameters annotation value) scopes topLevel
          scope ( indexAnnotation annotation (typeParameters.map (·.value) ++ external)
            (scope :: scopes) resolver) with ⟨definition, scope', resolver'⟩
      simp only [hindexed, Binding.name] at hreferences hscope
      have hnames : ¬Visible (if annotation.isSome = true then
            typeParameters.map (·.value) ++ external else external) (scope' :: scopes) name ↔
          (( annotation.isSome = true → name ∉ typeParameters.map (·.value)) ∧
            bound.value ≠ name) ∧ ¬Visible external (scope :: scopes) name := by
        rw [not_visible_scope hscope]
        cases annotation with
        | none => simp
        | some annotation =>
            simp only [Option.isSome_some, if_true, not_visible_append, true_implies, and_assoc]
            exact and_left_comm
      simp only [indexBinding, FreeInBinding, Binding.isEdge, Binding.kind, hindexed,
        Binding.valueHasTypeParameters, Binding.Binds, Bool.false_eq_true, if_false]
      constructor
      · rw [unresolved_congr (references_setValue ..), hvalue, hnames,
          unresolved_congr hreferences, hannotated]
        simp only [ Binding.annotation, true_and, true_implies, resolverRules]
        rw [free_under, free_under, free_or, and_assoc]
      · rw [hscope]
        simp [Binding.name]
  | decl | native | nativeType | type =>
      have hvalue := hvalue (typeParameters.map (·.value) ++ external) (scope :: scopes)
        ( indexAnnotation annotation (typeParameters.map (·.value) ++ external) (scope :: scopes)
          resolver)
      rw [not_visible_append, hannotated] at hvalue
      obtain ⟨definition, hfound⟩ := Option.isSome_iff_exists.mp (hdeclared rfl)
      simp only [indexBinding, FreeInBinding, Binding.isEdge, Binding.kind, hfound,
        Binding.valueHasTypeParameters, Binding.Binds, Bool.false_eq_true, if_false]
      constructor
      · rw [unresolved_congr (references_setValue ..), hvalue]
        simp only [true_and, true_implies, reduceCtorEq, false_implies, implies_true]
        rw [free_under, free_under, free_or]
      · refine ⟨.inr, ?_⟩
        rintro (⟨-, rfl⟩ | h)
        · exact hdeclared rfl
        · exact h

end Binding

mutual

theorem unresolved_indexExpr (expression : Expr) (external : List String) (scopes : List Scope)
    (resolver : Resolver) (name : String) :
    (indexExpr expression external scopes resolver).Unresolved name ↔
      resolver.Unresolved name ∨
        (¬Visible external scopes name ∧ FreeInExpr resolverRules name expression) := by
  cases expression with
  | mk kind location =>
      simp only [indexExpr, FreeInExpr]
      rw [unresolved_leaveExpression, unresolved_indexKind kind external scopes _ name,
        unresolved_enterExpression]
termination_by structural expression

theorem unresolved_indexKind (kind : ExprKind) (external : List String) (scopes : List Scope)
    (resolver : Resolver) (name : String) :
    (indexKind kind external scopes resolver).Unresolved name ↔
      resolver.Unresolved name ∨
        (¬Visible external scopes name ∧ FreeInKind resolverRules name kind) := by
  cases kind with
  | «variable» found =>
      rw [indexKind, FreeInKind]
      exact unresolved_addReference resolver external scopes found
  | interpolatedString parts =>
      exact unresolved_indexParts parts external scopes resolver name
  | array items => exact unresolved_indexExprs items external scopes resolver name
  | tuple items => exact unresolved_indexExprs items external scopes resolver name
  | spread operand => exact unresolved_indexExpr operand external scopes resolver name
  | dict fields => exact unresolved_indexFields fields external scopes resolver name
  | block block => exact unresolved_indexBlock block external scopes false resolver name
  | unary operator operand => exact unresolved_indexExpr operand external scopes resolver name
  | propagate operand => exact unresolved_indexExpr operand external scopes resolver name
  | «return» value => exact unresolved_indexExpr value external scopes resolver name
  | panic message => exact unresolved_indexExpr message external scopes resolver name
  | raise error => exact unresolved_indexExpr error external scopes resolver name
  | binary operator left right =>
      rw [indexKind, FreeInKind, unresolved_indexExpr right external scopes _ name,
        unresolved_indexExpr left external scopes resolver name, free_or]
  | field receiver label => exact unresolved_indexExpr receiver external scopes resolver name
  | call callee arguments =>
      rw [indexKind, FreeInKind, unresolved_indexExprs arguments external scopes _ name,
        unresolved_indexExpr callee external scopes resolver name, free_or]
  | typeApply callee arguments =>
      rw [indexKind, FreeInKind, unresolved_indexTypeArguments arguments external scopes _ name,
        unresolved_indexExpr callee external scopes resolver name, free_or]
  | interpreter operand elaboration =>
      rw [indexKind, FreeInKind, unresolved_indexExpr operand external scopes resolver name]
      simp
  | closure parameters resultAnnotation body =>
      obtain ⟨hreferences, hscope⟩ := defineParameters_spec parameters []
        ( indexAnnotation resultAnnotation external scopes
          (indexParameters parameters external scopes resolver)) name
      simp only [indexKind, FreeInKind]
      rw [unresolved_indexBlock body external _ false _ name, unresolved_congr hreferences,
        unresolved_indexAnnotation resultAnnotation external scopes _ name,
        unresolved_indexParameters parameters external scopes resolver name,
        not_visible_new hscope, free_under, free_or, free_or]
  | «if» condition thenBranch elseBranch =>
      simp only [indexKind, FreeInKind]
      rw [unresolved_indexBlock elseBranch external scopes false _ name,
        unresolved_indexBlock thenBranch external scopes false _ name,
        unresolved_indexExpr condition external scopes resolver name, free_or, free_or]
  | ifLet pattern value thenBranch elseBranch =>
      obtain ⟨hreferences, hscope⟩ := indexPattern_spec pattern []
        (indexExpr value external scopes resolver) name
      simp only [indexKind, FreeInKind]
      rw [unresolved_indexBlock elseBranch external scopes false _ name,
        unresolved_indexBlock thenBranch external _ false _ name, unresolved_congr hreferences,
        unresolved_indexExpr value external scopes resolver name, not_visible_new hscope,
        free_under, free_or, free_or]
  | letElse pattern value elseBranch body =>
      obtain ⟨hreferences, hscope⟩ := indexPattern_spec pattern []
        (indexBlock elseBranch external scopes false
          (indexExpr value external scopes resolver)) name
      simp only [indexKind, FreeInKind]
      rw [unresolved_indexBlock body external _ false _ name, unresolved_congr hreferences,
        unresolved_indexBlock elseBranch external scopes false _ name,
        unresolved_indexExpr value external scopes resolver name, not_visible_new hscope,
        free_under, free_or, free_or]
  | «match» value arms =>
      rw [indexKind, FreeInKind, unresolved_indexArms arms external scopes _ name,
        unresolved_indexExpr value external scopes resolver name, free_or]
  | int | float | string | bytes | atom => simp [indexKind, FreeInKind]
termination_by structural kind

theorem unresolved_indexExprs (expressions : List Expr) (external : List String)
    (scopes : List Scope) (resolver : Resolver) (name : String) :
    (indexExprs expressions external scopes resolver).Unresolved name ↔
      resolver.Unresolved name ∨
        (¬Visible external scopes name ∧ FreeInExprs resolverRules name expressions) := by
  cases expressions with
  | nil => simp [indexExprs, FreeInExprs]
  | cons expression rest =>
      rw [indexExprs, FreeInExprs, unresolved_indexExprs rest external scopes _ name,
        unresolved_indexExpr expression external scopes resolver name, free_or]
termination_by structural expressions

theorem unresolved_indexParts (parts : List StringPart) (external : List String)
    (scopes : List Scope) (resolver : Resolver) (name : String) :
    (indexParts parts external scopes resolver).Unresolved name ↔
      resolver.Unresolved name ∨
        (¬Visible external scopes name ∧ FreeInParts resolverRules name parts) := by
  cases parts with
  | nil => simp [indexParts, FreeInParts]
  | cons part rest =>
      rw [indexParts, FreeInParts, unresolved_indexParts rest external scopes _ name,
        unresolved_indexPart part external scopes resolver name, free_or]
termination_by structural parts

theorem unresolved_indexPart (part : StringPart) (external : List String)
    (scopes : List Scope) (resolver : Resolver) (name : String) :
    (indexPart part external scopes resolver).Unresolved name ↔
      resolver.Unresolved name ∨
        (¬Visible external scopes name ∧ FreeInPart resolverRules name part) := by
  cases part with
  | text text => simp [indexPart, FreeInPart]
  | expression expression => exact unresolved_indexExpr expression external scopes resolver name
termination_by structural part

theorem unresolved_indexFields (fields : List DictField) (external : List String)
    (scopes : List Scope) (resolver : Resolver) (name : String) :
    (indexFields fields external scopes resolver).Unresolved name ↔
      resolver.Unresolved name ∨
        (¬Visible external scopes name ∧ FreeInFields resolverRules name fields) := by
  cases fields with
  | nil => simp [indexFields, FreeInFields]
  | cons field rest =>
      rw [indexFields, FreeInFields, unresolved_indexFields rest external scopes _ name,
        unresolved_indexField field external scopes resolver name, free_or]
termination_by structural fields

theorem unresolved_indexField (field : DictField) (external : List String)
    (scopes : List Scope) (resolver : Resolver) (name : String) :
    (indexField field external scopes resolver).Unresolved name ↔
      resolver.Unresolved name ∨
        (¬Visible external scopes name ∧ FreeInField resolverRules name field) := by
  cases field with
  | mk label value => exact unresolved_indexExpr value external scopes resolver name
termination_by structural field

theorem unresolved_indexTypeArguments (arguments : List TypeArgument) (external : List String)
    (scopes : List Scope) (resolver : Resolver) (name : String) :
    (indexTypeArguments arguments external scopes resolver).Unresolved name ↔
      resolver.Unresolved name ∨
        (¬Visible external scopes name ∧ FreeInTypeArguments resolverRules name arguments) := by
  cases arguments with
  | nil => simp [indexTypeArguments, FreeInTypeArguments]
  | cons argument rest =>
      rw [indexTypeArguments, FreeInTypeArguments,
        unresolved_indexTypeArguments rest external scopes _ name,
        unresolved_indexTypeArgument argument external scopes resolver name, free_or]
termination_by structural arguments

theorem unresolved_indexTypeArgument (argument : TypeArgument) (external : List String)
    (scopes : List Scope) (resolver : Resolver) (name : String) :
    (indexTypeArgument argument external scopes resolver).Unresolved name ↔
      resolver.Unresolved name ∨
        (¬Visible external scopes name ∧ FreeInTypeArgument resolverRules name argument) := by
  cases argument with
  | explicit expression location =>
      exact unresolved_indexExpr expression external scopes resolver name
  | infer location =>
      rw [indexTypeArgument, unresolved_pushExpression, FreeInTypeArgument]
      simp
termination_by structural argument

theorem unresolved_indexParameters (parameters : List ClosureParameter) (external : List String)
    (scopes : List Scope) (resolver : Resolver) (name : String) :
    (indexParameters parameters external scopes resolver).Unresolved name ↔
      resolver.Unresolved name ∨
        (¬Visible external scopes name ∧ FreeInParameters resolverRules name parameters) := by
  cases parameters with
  | nil => simp [indexParameters, FreeInParameters]
  | cons parameter rest =>
      rw [indexParameters, FreeInParameters,
        unresolved_indexParameters rest external scopes _ name,
        unresolved_indexParameter parameter external scopes resolver name, free_or]
termination_by structural parameters

theorem unresolved_indexParameter (parameter : ClosureParameter) (external : List String)
    (scopes : List Scope) (resolver : Resolver) (name : String) :
    (indexParameter parameter external scopes resolver).Unresolved name ↔
      resolver.Unresolved name ∨
        (¬Visible external scopes name ∧ FreeInParameter resolverRules name parameter) := by
  cases parameter with
  | mk label annotation => exact unresolved_indexAnnotation annotation external scopes resolver name
termination_by structural parameter

theorem unresolved_indexAnnotation ( annotation : Option Expr) (external : List String)
    (scopes : List Scope) (resolver : Resolver) (name : String) :
    ( indexAnnotation annotation external scopes resolver).Unresolved name ↔
      resolver.Unresolved name ∨
        (¬Visible external scopes name ∧ FreeInAnnotation resolverRules name annotation) := by
  cases annotation with
  | none => simp [ indexAnnotation, FreeInAnnotation]
  | some annotation => exact unresolved_indexExpr annotation external scopes resolver name
termination_by structural annotation

theorem unresolved_indexArms (arms : List MatchArm) (external : List String)
    (scopes : List Scope) (resolver : Resolver) (name : String) :
    (indexArms arms external scopes resolver).Unresolved name ↔
      resolver.Unresolved name ∨
        (¬Visible external scopes name ∧ FreeInArms resolverRules name arms) := by
  cases arms with
  | nil => simp [indexArms, FreeInArms]
  | cons arm rest =>
      rw [indexArms, FreeInArms, unresolved_indexArms rest external scopes _ name,
        unresolved_indexArm arm external scopes resolver name, free_or]
termination_by structural arms

theorem unresolved_indexArm (arm : MatchArm) (external : List String)
    (scopes : List Scope) (resolver : Resolver) (name : String) :
    (indexArm arm external scopes resolver).Unresolved name ↔
      resolver.Unresolved name ∨
        (¬Visible external scopes name ∧ FreeInArm resolverRules name arm) := by
  cases arm with
  | mk pattern guard value required =>
      obtain ⟨hreferences, hscope⟩ := indexPattern_spec pattern [] resolver name
      simp only [indexArm, FreeInArm]
      rw [unresolved_indexExpr value external _ _ name,
        unresolved_indexAnnotation guard external _ _ name, unresolved_congr hreferences,
        not_visible_new hscope, free_or, free_under]
termination_by structural arm

theorem unresolved_indexBlock (block : Block) (external : List String) (scopes : List Scope)
    (topLevel : Bool) (resolver : Resolver) (name : String) :
    (indexBlock block external scopes topLevel resolver).Unresolved name ↔
      resolver.Unresolved name ∨
        (¬Visible external scopes name ∧ FreeInBlock resolverRules name block) := by
  cases block with
  | mk bindings result location =>
      obtain ⟨hreferences, hdeclared⟩ := predeclare_spec bindings scopes topLevel [] resolver name
      have hall : ∀ binding ∈ bindings, binding.declares = true →
          (resolveName ((predeclare bindings scopes topLevel [] resolver).1 :: scopes)
            binding.name.value).isSome := by
        intro binding hbinding hdeclares
        exact (predeclare_spec bindings scopes topLevel [] resolver binding.name.value).2.mpr
          (.inl ⟨binding, hbinding, hdeclares, rfl⟩)
      obtain ⟨hunresolved, hscope⟩ := unresolved_indexBindings bindings external scopes topLevel
        (predeclare bindings scopes topLevel [] resolver).1
        (predeclare bindings scopes topLevel [] resolver).2 name hall
      have hempty : ¬Visible external ([] :: scopes) name ↔ ¬Visible external scopes name := by
        rw [visible_cons]
        simp
      simp only [indexBlock, FreeInBlock]
      rw [unresolved_indexExpr result external _ _ name, hunresolved,
        unresolved_congr hreferences, not_visible_scope hscope, not_visible_scope hdeclared, hempty]
      simp only [not_exists, not_and]
      exact free_in_block
termination_by structural block

theorem unresolved_indexBindings (bindings : List Binding) (external : List String)
    (scopes : List Scope) (topLevel : Bool) (scope : Scope) (resolver : Resolver) (name : String)
    (hdeclared : ∀ binding ∈ bindings, binding.declares = true →
      (resolveName (scope :: scopes) binding.name.value).isSome) :
    ((indexBindings bindings external scopes topLevel scope resolver).2.Unresolved name ↔
        resolver.Unresolved name ∨ (¬Visible external (scope :: scopes) name ∧
          FreeInBindings resolverRules name bindings)) ∧
      ((resolveName ((indexBindings bindings external scopes topLevel scope resolver).1 :: scopes)
          name).isSome ↔
        (∃ binding ∈ bindings, binding.Binds name) ∨
          (resolveName (scope :: scopes) name).isSome) := by
  cases bindings with
  | nil => simp [indexBindings, FreeInBindings]
  | cons binding rest =>
      obtain ⟨hunresolved, hscope⟩ := unresolved_indexBinding binding external scopes topLevel scope
        resolver name (hdeclared binding List.mem_cons_self)
      have hall : ∀ later ∈ rest, later.declares = true →
          (resolveName ((indexBinding binding external scopes topLevel scope resolver).1 :: scopes)
            later.name.value).isSome := by
        intro later hlater hdeclares
        exact (unresolved_indexBinding binding external scopes topLevel scope resolver
          later.name.value (hdeclared binding List.mem_cons_self)).2.mpr
            (.inr (hdeclared later (List.mem_cons_of_mem _ hlater) hdeclares))
      obtain ⟨hunresolved', hscope'⟩ := unresolved_indexBindings rest external scopes topLevel
        (indexBinding binding external scopes topLevel scope resolver).1
        (indexBinding binding external scopes topLevel scope resolver).2 name hall
      simp only [indexBindings, FreeInBindings]
      constructor
      · rw [hunresolved', hunresolved, not_visible_scope hscope]
        rw [free_under, free_or]
      · rw [hscope', hscope]
        simp only [List.mem_cons, exists_eq_or_imp]
        exact or_left_comm.trans or_assoc.symm
termination_by structural bindings

theorem unresolved_indexBinding (binding : Binding) (external : List String)
    (scopes : List Scope) (topLevel : Bool) (scope : Scope) (resolver : Resolver) (name : String)
    (hdeclared : binding.declares = true →
      (resolveName (scope :: scopes) binding.name.value).isSome) :
    ((indexBinding binding external scopes topLevel scope resolver).2.Unresolved name ↔
        resolver.Unresolved name ∨ (¬Visible external (scope :: scopes) name ∧
          FreeInBinding resolverRules name binding)) ∧
      ((resolveName ((indexBinding binding external scopes topLevel scope resolver).1 :: scopes)
          name).isSome ↔
        binding.Binds name ∨ (resolveName (scope :: scopes) name).isSome) := by
  cases binding with
  | mk kind importedName bound typeParameters annotation value =>
      have hannotated := fun external scopes resolver =>
        unresolved_indexAnnotation annotation external scopes resolver name
      have hvalue := fun external scopes resolver =>
        unresolved_indexExpr value external scopes resolver name
      exact unresolved_binding (.mk kind importedName bound typeParameters annotation value)
        hannotated hvalue external scopes topLevel scope resolver hdeclared
termination_by structural binding

end

theorem unresolved_normalizeOrder (resolver : Resolver) (name : String) :
    resolver.normalizeOrder.Unresolved name ↔ resolver.Unresolved name := by
  have hmem : ∀ reference, reference ∈ sortByLocation HirReference.location resolver.references ↔
      reference ∈ resolver.references := fun reference => (List.mergeSort_perm _ _).mem_iff
  simp only [Unresolved, normalizeOrder, List.mem_map, Prod.exists]
  constructor
  · rintro ⟨reference, ⟨found, index, hfound, rfl⟩, hname, hunresolved⟩
    refine ⟨found, (hmem found).mp (List.fst_mem_of_mem_zipIdx hfound), hname, ?_⟩
    cases hresolution : found.resolution with
    | unresolved => rfl
    | definition | external => simp [hresolution, HirResolution.renumber] at hunresolved
  · rintro ⟨found, hfound, hname, hunresolved⟩
    obtain ⟨index, hindex⟩ := List.mem_iff_getElem?.mp ((hmem found).mpr hfound)
    refine ⟨_, ⟨found, index, List.mk_mem_zipIdx_iff_getElem?.mpr hindex, rfl⟩, hname, ?_⟩
    rw [hunresolved]
    rfl

/-- In a resolved program a name has an unresolved reference when it is free. -/
theorem unresolved_resolve (body : Block) (name : String) :
    (resolve body []).Unresolved name ↔ FreeInBlock resolverRules name body := by
  rw [resolve, unresolved_normalizeOrder, unresolved_indexBlock body [] [] true new name]
  have hnew : ¬new.Unresolved name := by simp [Unresolved, new]
  have hvisible : ¬Visible [] [] name := by simp [Visible, resolveName]
  rw [or_iff_right hnew, and_iff_right hvisible]

end Telora.Semantic.Resolver
