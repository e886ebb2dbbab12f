import Mathlib.Data.List.GetD
import Telora.Library.Lists
import Telora.Syntax.CallSections

/-!
# Placeholders

A section has a meaning when its placeholders fit; then it is a closure that stands for the call
with its arguments filled in. No expression of a parser has a placeholder's name free, so that
what is built of sections is built of closed ones.
-/

namespace Telora.CallSection

open Library

def toArgument : ArgumentNode → CallArgument
  | .placeholder node location => .bare node location
  | .indexedPlaceholder node digits location =>
      .indexed node (Nat.ofDigitChars 10 digits 0) location
  | .expression expression => .expression expression

theorem callArgument_eq_ok {argument : ArgumentNode} {found : CallArgument} :
    callArgument argument = .ok found ↔
      (∀ index ∈ writtenIndex argument, index < 2 ^ 64) ∧ found = toArgument argument := by
  cases argument with
  | placeholder node location => simp [callArgument, writtenIndex, toArgument, eq_comm]
  | expression expression => simp [callArgument, writtenIndex, toArgument, eq_comm]
  | indexedPlaceholder node digits location =>
      rw [callArgument]
      split
      · rename_i h
        refine ⟨fun heq => ⟨fun index hindex => ?_, (Except.ok.inj heq).symm⟩, ?_⟩
        · obtain rfl := Option.some.inj hindex
          exact h
        · rintro ⟨-, rfl⟩
          rfl
      · rename_i h
        refine ⟨fun heq => (by cases heq), ?_⟩
        rintro ⟨hall, -⟩
        exact absurd (hall _ rfl) h

theorem mapM_callArgument_eq_ok {arguments : List ArgumentNode} {found : List CallArgument} :
    arguments.mapM callArgument = .ok found ↔
      (∀ index ∈ indices arguments, index < 2 ^ 64) ∧ found = arguments.map toArgument := by
  rw [mapM_eq_ok]
  simp only [callArgument_eq_ok]
  induction arguments generalizing found with
  | nil => simp [indices]
  | cons argument rest ih =>
      rw [List.map_cons, List.forall₂_cons_left_iff]
      constructor
      · rintro ⟨first, others, ⟨hfirst, rfl⟩, hrest, rfl⟩
        obtain ⟨hothers, rfl⟩ := ih.mp hrest
        refine ⟨fun index hindex => ?_, rfl⟩
        rw [indices, List.mem_filterMap] at hindex
        obtain ⟨written, hwritten, hindex⟩ := hindex
        rcases List.mem_cons.mp hwritten with rfl | hmem
        · exact hfirst index hindex
        · exact hothers index (List.mem_filterMap.mpr ⟨written, hmem, hindex⟩)
      · rintro ⟨hall, rfl⟩
        refine ⟨_, _, ⟨fun index hindex => hall index ?_, rfl⟩, ih.mpr ⟨fun index hindex =>
          hall index ?_, rfl⟩, rfl⟩
        · exact List.mem_filterMap.mpr ⟨argument, List.mem_cons_self, hindex⟩
        · obtain ⟨written, hmem, hindex⟩ := List.mem_filterMap.mp hindex
          exact List.mem_filterMap.mpr ⟨written, List.mem_cons_of_mem _ hmem, hindex⟩

theorem placeholderIndex_toArgument (arguments : List ArgumentNode) :
    (arguments.map toArgument).filterMap placeholderIndex = indices arguments := by
  rw [List.filterMap_map, indices]
  refine List.filterMap_congr fun argument _ => ?_
  cases argument <;> rfl

theorem length_bareLocation (arguments : List ArgumentNode) :
    ((arguments.map toArgument).filterMap bareLocation).length = arguments.countP isBare := by
  induction arguments with
  | nil => rfl
  | cons argument rest ih =>
      rw [List.map_cons, List.countP_cons, ← ih]
      cases argument <;> simp [toArgument, bareLocation, isBare, List.filterMap_cons]

theorem findSome?_bareNode {arguments : List ArgumentNode} :
    (arguments.map toArgument).findSome? bareNode = none ↔ arguments.countP isBare = 0 := by
  simp only [List.findSome?_eq_none_iff, List.forall_mem_map, List.countP_eq_zero]
  refine forall₂_congr fun argument _ => ?_
  cases argument <;> simp [toArgument, bareNode, isBare]

theorem findSome?_indexedNode {arguments : List ArgumentNode} :
    (arguments.map toArgument).findSome? indexedNode = none ↔ indices arguments = [] := by
  simp only [List.findSome?_eq_none_iff, List.forall_mem_map, indices, List.filterMap_eq_nil_iff]
  refine forall₂_congr fun argument _ => ?_
  cases argument <;> simp [toArgument, indexedNode, writtenIndex]

theorem length_placeIndexed (arguments : List CallArgument) (locations : List (Option Loc)) :
    (arguments.foldl placeIndexed locations).length = locations.length := by
  induction arguments generalizing locations with
  | nil => rfl
  | cons argument rest ih =>
      rw [List.foldl_cons, ih]
      cases argument <;> simp [placeIndexed]

/-- A place is taken when its index is used. -/
theorem placed_iff (arguments : List CallArgument) {locations : List (Option Loc)} {index : Nat}
    (hindex : index < locations.length) :
    (arguments.foldl placeIndexed locations)[index]? = some none ↔
      locations[index]? = some none ∧ index ∉ arguments.filterMap placeholderIndex := by
  induction arguments generalizing locations with
  | nil => simp
  | cons argument rest ih =>
      rw [List.foldl_cons]
      cases argument with
      | bare node location => exact ih hindex
      | expression expression => exact ih hindex
      | indexed node found location =>
          have hused : index ∈ (CallArgument.indexed node found location :: rest).filterMap
              placeholderIndex ↔ index = found ∨ index ∈ rest.filterMap placeholderIndex := by
            simp [placeholderIndex]
          rw [ih (by simpa [placeIndexed] using hindex), placeIndexed, List.getElem?_modify, hused,
            not_or]
          by_cases hfound : found = index
          · subst hfound
            simp [hindex]
          · simp [hfound, Ne.symm hfound]

/-- All places are taken when no index up to the largest one is missing. -/
theorem findIdx?_places (arguments : List CallArgument) (largest : Nat) :
    (arguments.foldl placeIndexed (List.replicate (largest + 1) none)).findIdx? Option.isNone =
        none ↔ ∀ index ≤ largest, index ∈ arguments.filterMap placeholderIndex := by
  have hfree {index : Nat} (hindex : index ≤ largest) :
      (arguments.foldl placeIndexed (List.replicate (largest + 1) none))[index]? = some none ↔
        index ∉ arguments.filterMap placeholderIndex := by
    have hlt := Nat.lt_succ_of_le hindex
    rw [placed_iff arguments (by rwa [List.length_replicate]),
      List.getElem?_replicate_of_lt hlt, and_iff_right rfl]
  rw [List.findIdx?_eq_none_iff]
  constructor
  · intro h index hindex
    by_contra hnot
    cases h none (List.mem_of_getElem? ((hfree hindex).mpr hnot))
  · intro h place hmem
    obtain ⟨index, hplace⟩ := List.mem_iff_getElem?.mp hmem
    cases place with
    | some location => rfl
    | none =>
        have hlt := (List.getElem?_eq_some_iff.mp hplace).1
        rw [length_placeIndexed, List.length_replicate] at hlt
        have hle := Nat.le_of_lt_succ hlt
        exact absurd (h index hle) ((hfree hle).mp hplace)

theorem indexedLocations_eq_ok {arguments : List CallArgument} (firstIndexed : Nat)
    {largest : Nat} (hlargest : (arguments.filterMap placeholderIndex).max? = some largest) :
    ((∃ locations, indexedLocations arguments firstIndexed = .ok locations) ↔
        largest < maxPlaceholderParameters ∧
          ∀ index ≤ largest, index ∈ arguments.filterMap placeholderIndex) ∧
      ∀ locations, indexedLocations arguments firstIndexed = .ok locations →
        locations.length = largest + 1 := by
  rw [indexedLocations, hlargest]
  simp only [Option.getD_some]
  split
  · rename_i hover
    refine ⟨iff_of_false ?_ ?_, fun locations h => (by cases h)⟩
    · rintro ⟨locations, h⟩
      cases h
    · exact fun h => absurd h.1 (Nat.not_lt.mpr hover)
  · rename_i hlimit
    split
    · rename_i missing hmissing
      refine ⟨iff_of_false ?_ ?_, fun locations h => (by cases h)⟩
      · rintro ⟨locations, h⟩
        cases h
      · intro h
        rw [(findIdx?_places arguments largest).mpr h.2] at hmissing
        cases hmissing
    · rename_i hall
      refine ⟨iff_of_true ⟨_, rfl⟩ ⟨Nat.lt_of_not_le hlimit,
        (findIdx?_places arguments largest).mp hall⟩, ?_⟩
      rintro locations hrun
      obtain rfl := Except.ok.inj hrun
      have hsome : ∀ place ∈ arguments.foldl placeIndexed (List.replicate (largest + 1) none),
          (id place).isSome := by
        intro place hmem
        cases place with
        | some location => rfl
        | none => cases List.findIdx?_eq_none_iff.mp hall none hmem
      rw [List.filterMap_length_eq_length.mpr hsome, length_placeIndexed,
        List.length_replicate]

theorem largest_of_indices {used : List Nat} (h : used ≠ []) :
    ∃ largest, used.max? = some largest ∧ largest ∈ used ∧ ∀ index ∈ used, index ≤ largest := by
  obtain ⟨largest, hlargest⟩ := Option.isSome_iff_exists.mp (List.isSome_max?_iff.mpr h)
  exact ⟨largest, hlargest, List.max?_eq_some_iff.mp hlargest⟩

/-- The parameters of a section are there when its placeholders fit. -/
theorem parameterLocations_spec (arguments : List ArgumentNode) (sectionNode : Nat) :
    ((∃ locations, parameterLocations (arguments.map toArgument) sectionNode = .ok locations) ↔
        PlaceholdersFit arguments) ∧
      ∀ locations, parameterLocations (arguments.map toArgument) sectionNode = .ok locations →
        locations.length = arity arguments := by
  have hbare : (∃ argument ∈ arguments, isBare argument = true) ↔
      arguments.countP isBare ≠ 0 := by
    rw [← Nat.pos_iff_ne_zero, List.countP_pos_iff]
  rw [parameterLocations]
  cases hbares : (arguments.map toArgument).findSome? bareNode with
  | none =>
      have hno := findSome?_bareNode.mp hbares
      cases hindexed : (arguments.map toArgument).findSome? indexedNode with
      | none =>
          have hnone := findSome?_indexedNode.mp hindexed
          refine ⟨iff_of_false ?_ ?_, fun locations h => (by cases h)⟩
          · rintro ⟨locations, h⟩
            cases h
          · exact fun h => h.some.elim (fun hsome => hbare.mp hsome hno) fun hne => hne hnone
      | some node =>
          have hne : indices arguments ≠ [] := by
            intro hnil
            rw [findSome?_indexedNode.mpr hnil] at hindexed
            cases hindexed
          obtain ⟨largest, hlargest, hmem, hle⟩ := largest_of_indices hne
          have hspec := indexedLocations_eq_ok node
            ((congrArg _ (placeholderIndex_toArgument arguments)).trans hlargest)
          simp only [placeholderIndex_toArgument] at hspec
          refine ⟨hspec.1.trans ⟨fun h => ⟨Or.inr hne, fun hsome => absurd hno (hbare.mp hsome),
            fun index hindex => (hle index hindex).trans_lt h.1,
            fun index hindex smaller hsmaller => h.2 smaller (hsmaller.trans (hle index hindex))⟩,
            fun h => ⟨h.limit largest hmem, h.gapless largest hmem⟩⟩, fun locations hrun => ?_⟩
          rw [hspec.2 locations hrun, arity, if_pos hno, hlargest]
          rfl
  | some bare =>
      have hsome : arguments.countP isBare ≠ 0 := by
        intro hno
        rw [findSome?_bareNode.mpr hno] at hbares
        cases hbares
      cases hindexed : (arguments.map toArgument).findSome? indexedNode with
      | none =>
          have hnone := findSome?_indexedNode.mp hindexed
          refine ⟨iff_of_true ⟨_, rfl⟩ ⟨Or.inl (hbare.mpr hsome), fun _ => hnone, ?_, ?_⟩, ?_⟩
          · rw [hnone]
            exact fun index hindex => absurd hindex List.not_mem_nil
          · rw [hnone]
            exact fun index hindex => absurd hindex List.not_mem_nil
          · rintro locations hrun
            obtain rfl := Except.ok.inj hrun
            rw [length_bareLocation, arity, if_neg hsome]
      | some node =>
          refine ⟨iff_of_false ?_ ?_, fun locations h => (by cases h)⟩
          · rintro ⟨locations, h⟩
            cases h
          · intro h
            rw [findSome?_indexedNode.mpr (h.unmixed (hbare.mpr hsome))] at hindexed
            cases hindexed

theorem sectionExpression_spec (callee : Expr) (arguments : List ArgumentNode)
    (sectionNode : Nat) (location : Loc) :
    ((∃ expression, sectionExpression callee arguments sectionNode location = .ok expression) ↔
        PlaceholdersFit arguments) ∧
      ∀ expression, sectionExpression callee arguments sectionNode location = .ok expression →
        ∃ locations : List Loc, locations.length = arity arguments ∧
          expression = .mk (.closure (placeholderParameters locations) none
            (.mk [] (.mk (.call callee (callArguments 0 (arguments.map toArgument))) location)
              location)) location := by
  obtain ⟨hfit, hlength⟩ := parameterLocations_spec arguments sectionNode
  have hrun : ∀ expression,
      sectionExpression callee arguments sectionNode location = .ok expression →
      ∃ locations, parameterLocations (arguments.map toArgument) sectionNode = .ok locations ∧
        expression = .mk (.closure (placeholderParameters locations) none
          (.mk [] (.mk (.call callee (callArguments 0 (arguments.map toArgument))) location)
            location)) location := by
    intro expression h
    obtain ⟨found, hfound, h⟩ := bind_eq_ok.mp h
    obtain ⟨-, rfl⟩ := mapM_callArgument_eq_ok.mp hfound
    obtain ⟨locations, hlocations, h⟩ := bind_eq_ok.mp h
    exact ⟨locations, hlocations, (pure_eq_ok.mp h).symm⟩
  refine ⟨⟨?_, fun h => ?_⟩, fun expression h => ?_⟩
  · rintro ⟨expression, h⟩
    obtain ⟨locations, hlocations, -⟩ := hrun expression h
    exact hfit.mp ⟨locations, hlocations⟩
  · obtain ⟨locations, hlocations⟩ := hfit.mpr h
    have hread : arguments.mapM callArgument = .ok (arguments.map toArgument) :=
      mapM_callArgument_eq_ok.mpr ⟨fun index hindex => (h.limit index hindex).trans (by decide), rfl⟩
    rw [sectionExpression, hread]
    change ∃ expression, elaborateCallSection callee _ sectionNode location = .ok expression
    rw [elaborateCallSection, hlocations]
    exact ⟨_, rfl⟩
  · obtain ⟨locations, hlocations, heq⟩ := hrun expression h
    exact ⟨locations, hlength locations hlocations, heq⟩

theorem toList_placeholderParameter (index : Nat) :
    (placeholderParameter index).toList =
      "\x00telora_placeholder_".toList ++ Nat.toDigits 10 index := by
  have hdigits : (toString index).toList = Nat.toDigits 10 index := by
    rw [Nat.toString_eq_ofList_toDigits]
    exact String.toList_ofList
  exact String.toList_append.trans (congrArg _ hdigits)

theorem placeholderParameter_injective : Function.Injective placeholderParameter := by
  intro index other h
  have hlist := congrArg String.toList h
  rw [toList_placeholderParameter, toList_placeholderParameter] at hlist
  have hdigits := congrArg (Nat.ofDigitChars 10 · 0) (List.append_cancel_left hlist)
  simpa only [Nat.ofDigitChars_ten_toDigits] using hdigits

/-- An identifier of a source has no such character. -/
theorem ne_placeholderParameter {name : String} (h : '\x00' ∉ name.toList) (index : Nat) :
    name ≠ placeholderParameter index := by
  intro heq
  refine h ?_
  rw [heq, toList_placeholderParameter]
  exact List.mem_append_left _ (by simp)

theorem names_placeholderParameters (locations : List Loc) :
    ClosureParameter.names (placeholderParameters locations) =
      (List.range locations.length).map placeholderParameter := by
  rw [ClosureParameter.names, placeholderParameters]
  refine List.ext_getElem? fun index => ?_
  simp only [List.getElem?_map, List.getElem?_mapIdx]
  by_cases hindex : index < locations.length
  · simp [hindex, ClosureParameter.name]
  · simp [hindex]

/-- The values of a section's parameters. -/
def instancesOf (parameters : List ClosureParameter) (values : List Expr) : Instances :=
  fun name => ((ClosureParameter.names parameters).zip values).lookup name

theorem keys_instancesOf {locations : List Loc} {values : List Expr}
    (hlength : locations.length = values.length) :
    ((ClosureParameter.names (placeholderParameters locations)).zip values).map (·.1) =
      (List.range values.length).map placeholderParameter := by
  rw [names_placeholderParameters, hlength]
  exact List.map_fst_zip (by simp)

theorem instancesOf_placeholder {locations : List Loc} {values : List Expr}
    (hlength : locations.length = values.length) (index : Nat) :
    instancesOf (placeholderParameters locations) values (placeholderParameter index) =
      values[index]? := by
  have hkeys := keys_instancesOf hlength
  by_cases hindex : index < values.length
  · rw [List.getElem?_eq_getElem hindex]
    refine lookup_of_mem ?_ (List.mem_iff_getElem?.mpr ⟨index, ?_⟩)
    · rw [hkeys]
      exact List.nodup_range.map placeholderParameter_injective
    · rw [List.getElem?_zip_eq_some, names_placeholderParameters, hlength]
      simp [hindex]
  · rw [List.getElem?_eq_none (Nat.le_of_not_lt hindex)]
    by_contra hne
    obtain ⟨value, hvalue⟩ := Option.ne_none_iff_exists'.mp hne
    have hmem := List.mem_map_of_mem (f := (·.1)) (mem_of_lookup hvalue)
    rw [hkeys] at hmem
    obtain ⟨found, hfound, heq⟩ := List.mem_map.mp hmem
    exact hindex (placeholderParameter_injective heq ▸ List.mem_range.mp hfound)

theorem instancesOf_isSome {locations : List Loc} {values : List Expr} {name : String}
    (h : (instancesOf (placeholderParameters locations) values name).isSome) :
    ∃ index, name = placeholderParameter index := by
  obtain ⟨value, hvalue⟩ := Option.isSome_iff_exists.mp h
  have hmem := (List.of_mem_zip (mem_of_lookup hvalue)).1
  rw [names_placeholderParameters] at hmem
  obtain ⟨index, -, rfl⟩ := List.mem_map.mp hmem
  exact ⟨index, rfl⟩

/-- No placeholder is free in the expression. -/
def Clean (expression : Expr) : Prop :=
  ∀ index, ¬FreeInExpr writtenRules (placeholderParameter index) expression

def CleanBlock (block : Block) : Prop :=
  ∀ index, ¬FreeInBlock writtenRules (placeholderParameter index) block

section Lists

variable {rules : ScopeRules} {name : String}

theorem freeInExprs_iff {expressions : List Expr} :
    FreeInExprs rules name expressions ↔
      ∃ expression ∈ expressions, FreeInExpr rules name expression := by
  induction expressions with
  | nil => simp [FreeInExprs]
  | cons expression rest ih => simp [FreeInExprs, ih]

theorem freeInParts_iff {parts : List StringPart} :
    FreeInParts rules name parts ↔
      ∃ expression, .expression expression ∈ parts ∧ FreeInExpr rules name expression := by
  induction parts with
  | nil => simp [FreeInParts]
  | cons part rest ih =>
      cases part with
      | text text => simp [FreeInParts, FreeInPart, ih]
      | expression expression => simp [FreeInParts, FreeInPart, ih, or_and_right, exists_or]

theorem freeInFields_iff {fields : List DictField} :
    FreeInFields rules name fields ↔
      ∃ label value, .mk label value ∈ fields ∧ FreeInExpr rules name value := by
  induction fields with
  | nil => simp [FreeInFields]
  | cons field rest ih =>
      cases field with
      | mk label value => simp [FreeInFields, FreeInField, ih, or_and_right, exists_or]

theorem freeInTypeArguments_iff {arguments : List TypeArgument} :
    FreeInTypeArguments rules name arguments ↔
      ∃ expression location, .explicit expression location ∈ arguments ∧
        FreeInExpr rules name expression := by
  induction arguments with
  | nil => simp [FreeInTypeArguments]
  | cons argument rest ih =>
      cases argument with
      | infer location => simp [FreeInTypeArguments, FreeInTypeArgument, ih]
      | explicit expression location =>
          simp [FreeInTypeArguments, FreeInTypeArgument, ih, or_and_right, exists_or]

theorem freeInAnnotation_iff { annotation : Option Expr} :
    FreeInAnnotation rules name annotation ↔
      ∃ expression ∈ annotation, FreeInExpr rules name expression := by
  cases annotation with
  | none => simp [ FreeInAnnotation]
  | some expression => simp [ FreeInAnnotation]

theorem freeInParameters_iff {parameters : List ClosureParameter} :
    FreeInParameters rules name parameters ↔
      ∃ label annotation, .mk label (some annotation) ∈ parameters ∧
        FreeInExpr rules name annotation := by
  induction parameters with
  | nil => simp [FreeInParameters]
  | cons parameter rest ih =>
      cases parameter with
      | mk label annotation =>
          simp only [FreeInParameters, FreeInParameter, freeInAnnotation_iff, ih, List.mem_cons,
            ClosureParameter.mk.injEq, or_and_right, exists_or, Option.mem_def]
          refine or_congr_left ⟨?_, ?_⟩
          · rintro ⟨found, rfl, hfree⟩
            exact ⟨label, found, ⟨rfl, rfl⟩, hfree⟩
          · rintro ⟨_, found, ⟨-, rfl⟩, hfree⟩
            exact ⟨found, rfl, hfree⟩

theorem exists_arm_of_free {arms : List MatchArm} (h : FreeInArms rules name arms) :
    ∃ pattern guard value required, .mk pattern guard value required ∈ arms ∧
      ( FreeInAnnotation rules name guard ∨ FreeInExpr rules name value) := by
  induction arms with
  | nil => exact h.elim
  | cons arm rest ih =>
      cases arm with
      | mk pattern guard value required =>
          rcases h with harm | hrest
          · exact ⟨pattern, guard, value, required, List.mem_cons_self, harm.2⟩
          · obtain ⟨pattern, guard, value, required, hmem, hfree⟩ := ih hrest
            exact ⟨pattern, guard, value, required, List.mem_cons_of_mem _ hmem, hfree⟩

theorem exists_binding_of_free {bindings : List Binding}
    (h : FreeInBindings rules name bindings) :
    ∃ kind importedName bound typeParameters annotation value,
      .mk kind importedName bound typeParameters annotation value ∈ bindings ∧
        ( FreeInAnnotation rules name annotation ∨ FreeInExpr rules name value) := by
  induction bindings with
  | nil => exact h.elim
  | cons binding rest ih =>
      cases binding with
      | mk kind importedName bound typeParameters annotation value =>
          rcases h with hbinding | hrest
          · exact ⟨kind, importedName, bound, typeParameters, annotation, value,
              List.mem_cons_self, hbinding.2.imp And.right fun hvalue => hvalue.2.2⟩
          · obtain ⟨kind, importedName, bound, typeParameters, annotation, value, hmem, hfree⟩ :=
              ih hrest.2
            exact ⟨kind, importedName, bound, typeParameters, annotation, value,
              List.mem_cons_of_mem _ hmem, hfree⟩

end Lists

/-- What is free in the call of a section is free in an argument, or it is a parameter. -/
theorem free_callArguments {arguments : List CallArgument} {name : String} {next : Nat}
    (h : FreeInExprs writtenRules name (callArguments next arguments)) :
    (∃ expression, .expression expression ∈ arguments ∧
        FreeInExpr writtenRules name expression) ∨
      ∃ index, name = placeholderParameter index ∧
        (index < next + (arguments.filterMap bareLocation).length ∨
          index ∈ arguments.filterMap placeholderIndex) := by
  induction arguments generalizing next with
  | nil => exact h.elim
  | cons argument rest ih =>
      cases argument with
      | expression expression =>
          rcases h with hfree | hrest
          · exact Or.inl ⟨expression, List.mem_cons_self, hfree⟩
          · refine (ih hrest).imp (fun ⟨found, hmem, hfree⟩ =>
              ⟨found, List.mem_cons_of_mem _ hmem, hfree⟩) id
      | bare node location =>
          rcases h with hfree | hrest
          · refine Or.inr ⟨next, hfree.symm, Or.inl ?_⟩
            simp [bareLocation]
          · refine (ih hrest).imp (fun ⟨found, hmem, hfree⟩ =>
              ⟨found, List.mem_cons_of_mem _ hmem, hfree⟩) ?_
            rintro ⟨index, hname, hindex⟩
            refine ⟨index, hname, hindex.imp (fun hbare => ?_) id⟩
            have hlength : (List.filterMap bareLocation (.bare node location :: rest)).length =
                (rest.filterMap bareLocation).length + 1 := rfl
            omega
      | indexed node found location =>
          rcases h with hfree | hrest
          · exact Or.inr ⟨found, hfree.symm, Or.inr List.mem_cons_self⟩
          · refine (ih hrest).imp (fun ⟨found, hmem, hfree⟩ =>
              ⟨found, List.mem_cons_of_mem _ hmem, hfree⟩) ?_
            rintro ⟨index, hname, hindex⟩
            exact ⟨index, hname, hindex.imp id (List.mem_cons_of_mem _)⟩

theorem toArgument_eq_expression {arguments : List ArgumentNode} {expression : Expr}
    (h : .expression expression ∈ arguments.map toArgument) :
    .expression expression ∈ arguments := by
  obtain ⟨argument, hmem, heq⟩ := List.mem_map.mp h
  cases argument with
  | placeholder node location => cases heq
  | indexedPlaceholder node digits location => cases heq
  | expression found =>
      cases heq
      exact hmem

theorem lt_arity_of_index {arguments : List ArgumentNode} (hfit : PlaceholdersFit arguments)
    {index : Nat} (h : index ∈ indices arguments) : index < arity arguments := by
  have hne : indices arguments ≠ [] := List.ne_nil_of_mem h
  have hno : arguments.countP isBare = 0 := by
    by_contra hsome
    exact hne (hfit.unmixed (List.countP_pos_iff.mp (Nat.pos_of_ne_zero hsome)))
  obtain ⟨largest, hlargest, -, hle⟩ := largest_of_indices hne
  rw [arity, if_pos hno, hlargest]
  exact Nat.lt_succ_of_le (hle index h)

theorem lt_arity_of_bare {arguments : List ArgumentNode} {index : Nat}
    (h : index < arguments.countP isBare) : index < arity arguments := by
  rwa [arity, if_neg (Nat.ne_of_gt (Nat.zero_lt_of_lt h))]

/-- A section binds its own placeholders, and those inside it are bound there. -/
theorem clean_section {callee : Expr} {arguments : List ArgumentNode} {sectionNode : Nat}
    {location : Loc} {expression : Expr} (hcallee : Clean callee)
    (harguments : ∀ argument, .expression argument ∈ arguments → Clean argument)
    (h : sectionExpression callee arguments sectionNode location = .ok expression) :
    Clean expression := by
  obtain ⟨hiff, hclosure⟩ := sectionExpression_spec callee arguments sectionNode location
  have hfit := hiff.mp ⟨expression, h⟩
  obtain ⟨locations, hlength, rfl⟩ := hclosure expression h
  rintro index (hparameters | hresult | ⟨hnot, -, hbindings | ⟨-, hfree | hfree⟩⟩)
  · obtain ⟨label, annotation, hmem, -⟩ := freeInParameters_iff.mp hparameters
    obtain ⟨place, hplace, heq⟩ := List.mem_mapIdx.mp hmem
    cases heq
  · exact hresult
  · exact hbindings
  · exact hcallee index hfree
  · rcases free_callArguments hfree with ⟨argument, hmem, hinner⟩ | ⟨found, hname, hfound⟩
    · exact harguments argument (toArgument_eq_expression hmem) index hinner
    · -- the name is one of the section's own parameters
      refine hnot ?_
      rw [names_placeholderParameters, hlength]
      refine List.mem_map.mpr ⟨index, List.mem_range.mpr ?_, rfl⟩
      obtain rfl := placeholderParameter_injective hname
      rw [length_bareLocation, placeholderIndex_toArgument, Nat.zero_add] at hfound
      exact hfound.elim lt_arity_of_bare (lt_arity_of_index hfit)

/-- What a parser builds has no free placeholder. -/
theorem Parsed.clean {expression : Expr} (h : Parsed expression) : Clean expression := by
  refine @Parsed.rec (fun expression _ => Clean expression) (fun block _ => CleanBlock block)
    ?int ?float ?string ?bytes ?atom ?«variable» ?interpolatedString ?array ?tuple ?spread
    ?dict ?block ?unary ?propagate ?«return» ?panic ?raise ?binary ?field ?call ?typeApply
    ?interpreter ?closure ?«if» ?ifLet ?letElse ?«match» ?«section» ?blockOf
    expression h
  case int | float | string | bytes | atom => exact fun _ _ _ hfree => hfree
  case «variable» => exact fun name location hname index hfree => hname index hfree
  case interpolatedString =>
    intro parts location _ hparts index hfree
    obtain ⟨found, hmem, hfound⟩ := freeInParts_iff.mp hfree
    exact hparts found hmem index hfound
  case array | tuple =>
    intro items location _ hitems index hfree
    obtain ⟨found, hmem, hfound⟩ := freeInExprs_iff.mp hfree
    exact hitems found hmem index hfound
  case dict =>
    intro fields location _ hfields index hfree
    obtain ⟨label, value, hmem, hfound⟩ := freeInFields_iff.mp hfree
    exact hfields label value hmem index hfound
  case spread | propagate | «return» | panic | raise =>
    exact fun operand location _ hoperand index hfree => hoperand index hfree
  case block => exact fun block location _ hblock index hfree => hblock index hfree
  case unary => exact fun operator operand location _ hoperand index hfree => hoperand index hfree
  case field => exact fun receiver label location _ hreceiver index hfree => hreceiver index hfree
  case binary =>
    intro operator left right location _ _ hleft hright index hfree
    exact hfree.elim (hleft index) (hright index)
  case call =>
    rintro callee arguments location _ _ hcallee harguments index (hfree | hfree)
    · exact hcallee index hfree
    · obtain ⟨found, hmem, hfound⟩ := freeInExprs_iff.mp hfree
      exact harguments found hmem index hfound
  case typeApply =>
    rintro callee arguments location _ _ hcallee harguments index (hfree | hfree)
    · exact hcallee index hfree
    · obtain ⟨found, place, hmem, hfound⟩ := freeInTypeArguments_iff.mp hfree
      exact harguments found place hmem index hfound
  case interpreter =>
    intro operand elaboration location _ _ hoperand helaboration index hfree
    exact hfree.elim (hoperand index) fun h => helaboration index h.2
  case closure =>
    rintro parameters resultAnnotation body location _ _ _ hparameters hresult hbody index
      (hfree | hfree | ⟨-, hfree⟩)
    · obtain ⟨label, annotation, hmem, hfound⟩ := freeInParameters_iff.mp hfree
      exact hparameters label annotation hmem index hfound
    · obtain ⟨ annotation, hmem, hfound⟩ := freeInAnnotation_iff.mp hfree
      exact hresult annotation hmem index hfound
    · exact hbody index hfree
  case «if» =>
    rintro condition thenBranch elseBranch location _ _ _ hcondition hthen helse index
      (hfree | hfree | hfree)
    · exact hcondition index hfree
    · exact hthen index hfree
    · exact helse index hfree
  case ifLet =>
    rintro pattern value thenBranch elseBranch location _ _ _ hvalue hthen helse index
      (hfree | ⟨-, hfree⟩ | hfree)
    · exact hvalue index hfree
    · exact hthen index hfree
    · exact helse index hfree
  case letElse =>
    rintro pattern value elseBranch body location _ _ _ hvalue helse hbody index
      (hfree | hfree | ⟨-, hfree⟩)
    · exact hvalue index hfree
    · exact helse index hfree
    · exact hbody index hfree
  case «match» =>
    rintro value arms location _ _ _ hvalue hguards harms index (hfree | hfree)
    · exact hvalue index hfree
    · obtain ⟨pattern, guard, result, required, hmem, hfound | hfound⟩ := exists_arm_of_free hfree
      · obtain ⟨found, hguard, hfound⟩ := freeInAnnotation_iff.mp hfound
        obtain rfl : guard = some found := hguard
        exact hguards pattern found result required hmem index hfound
      · exact harms pattern guard result required hmem index hfound
  case «section» =>
    intro callee arguments sectionNode location expression _ _ hsection hcallee harguments
    exact clean_section hcallee harguments hsection
  case blockOf =>
    rintro bindings result location _ _ _ hannotations hvalues hresult index
      ⟨-, hfree | ⟨-, hfree⟩⟩
    · obtain ⟨kind, importedName, bound, typeParameters, annotation, value, hmem, hfound⟩ :=
        exists_binding_of_free hfree
      rcases hfound with hfound | hfound
      · obtain ⟨found, hannotation, hfound⟩ := freeInAnnotation_iff.mp hfound
        obtain rfl : annotation = some found := hannotation
        exact hannotations kind importedName bound typeParameters found value hmem index hfound
      · exact hvalues kind importedName bound typeParameters annotation value hmem index hfound
    · exact hresult index hfree

theorem Clean.instantiate_eq {expression : Expr} (h : Clean expression) {locations : List Loc}
    {values : List Expr} :
    expression.instantiate (instancesOf (placeholderParameters locations) values) = expression := by
  refine Expr.instantiate_eq fun name hname hfree => ?_
  obtain ⟨index, rfl⟩ := instancesOf_isSome hname
  exact h index hfree

/-- A placeholder with a value becomes the value. -/
theorem instantiate_placeholderVariable {locations : List Loc} {values : List Expr}
    (hlength : locations.length = values.length) {index : Nat} (hindex : index < values.length)
    (location : Loc) :
    some ((placeholderVariable index location).instantiate
      (instancesOf (placeholderParameters locations) values)) = values[index]? := by
  rw [placeholderVariable, Expr.instantiate, instancesOf_placeholder hlength,
    List.getElem?_eq_getElem hindex]
  rfl

/-- The arguments of the call after the parameters have values. -/
theorem getElem?_instantiateExprs {locations : List Loc} {values : List Expr}
    (hlength : locations.length = values.length) {arguments : List ArgumentNode}
    (hclean : ∀ argument, .expression argument ∈ arguments → Clean argument)
    (hindices : ∀ index ∈ indices arguments, index < values.length) (next : Nat)
    (hbare : arguments.countP isBare ≠ 0 → next + arguments.countP isBare ≤ values.length)
    (position : Nat) :
    (instantiateExprs (instancesOf (placeholderParameters locations) values)
        (callArguments next (arguments.map toArgument)))[position]? =
      arguments[position]?.bind
        (replacement values (next + (arguments.take position).countP isBare)) := by
  induction arguments generalizing next position with
  | nil => rfl
  | cons argument rest ih =>
      have hrest : ∀ argument, .expression argument ∈ rest → Clean argument :=
        fun found hmem => hclean found (List.mem_cons_of_mem _ hmem)
      cases argument with
      | expression expression =>
          have hcount : (ArgumentNode.expression expression :: rest).countP isBare =
              rest.countP isBare := rfl
          cases position with
          | zero => exact congrArg some (hclean expression List.mem_cons_self).instantiate_eq
          | succ position => exact ih hrest hindices next (hcount ▸ hbare) position
      | placeholder node location =>
          have hcount : (ArgumentNode.placeholder node location :: rest).countP isBare =
              rest.countP isBare + 1 := List.countP_cons_of_pos rfl
          have hle := hbare (by omega)
          cases position with
          | zero => exact instantiate_placeholderVariable hlength (by omega) location
          | succ position =>
              have htaken : ((ArgumentNode.placeholder node location :: rest).take
                  (position + 1)).countP isBare = (rest.take position).countP isBare + 1 :=
                List.countP_cons_of_pos rfl
              refine (ih hrest hindices (next + 1) (by omega) position).trans ?_
              rw [htaken, List.getElem?_cons_succ]
              congr 2
              omega
      | indexedPlaceholder node digits location =>
          have hcount : (ArgumentNode.indexedPlaceholder node digits location :: rest).countP
              isBare = rest.countP isBare := rfl
          cases position with
          | zero =>
              exact instantiate_placeholderVariable hlength (hindices _ List.mem_cons_self) location
          | succ position =>
              exact ih hrest (fun index hindex => hindices index (List.mem_cons_of_mem _ hindex))
                next (hcount ▸ hbare) position

/-- What a call section means: it is elaborated when its placeholders fit, no placeholder is free
in it, and it is a closure that takes as many values as there are placeholders and stands for the
call with its arguments filled in. -/
structure Denotes (callee : Expr) (arguments : List ArgumentNode) (sectionNode : Nat)
    (location : Loc) : Prop where
  elaborated :
    (∃ expression, sectionExpression callee arguments sectionNode location = .ok expression) ↔
      PlaceholdersFit arguments
  closed : ∀ expression,
    sectionExpression callee arguments sectionNode location = .ok expression →
      Parsed expression ∧ Clean expression
  refused : ∀ expression,
    sectionExpression callee arguments sectionNode location = .ok expression →
      ∀ values : List Expr, values.length ≠ arity arguments → expression.applied values = none
  applied : ∀ expression,
    sectionExpression callee arguments sectionNode location = .ok expression →
      ∀ values : List Expr, values.length = arity arguments →
        ∃ filled, Filled values arguments filled ∧
          expression.applied values = some (.mk [] (.mk (.call callee filled) location) location)

theorem section_denotes_closure (callee : Expr) (arguments : List ArgumentNode)
    (sectionNode : Nat) (location : Loc) (hcallee : Parsed callee)
    (harguments : ∀ argument, .expression argument ∈ arguments → Parsed argument) :
    Denotes callee arguments sectionNode location := by
  obtain ⟨hiff, hclosure⟩ := sectionExpression_spec callee arguments sectionNode location
  have hparsed : ∀ expression,
      sectionExpression callee arguments sectionNode location = .ok expression →
        Parsed expression := fun expression =>
    .section callee arguments sectionNode location expression hcallee harguments
  have hcount : ∀ {locations : List Loc}, locations.length = arity arguments →
      (placeholderParameters locations).length = arity arguments := fun hlength =>
    List.length_mapIdx.trans hlength
  refine ⟨hiff, fun expression h => ⟨hparsed expression h, (hparsed expression h).clean⟩,
    fun expression h values hne => ?_, fun expression h values heq => ?_⟩
  · obtain ⟨locations, hlength, rfl⟩ := hclosure expression h
    exact if_neg fun heq => hne (heq.symm.trans (hcount hlength))
  · have hfit := hiff.mp ⟨expression, h⟩
    obtain ⟨locations, hlength, rfl⟩ := hclosure expression h
    have hvalues : locations.length = values.length := hlength.trans heq.symm
    let instances := instancesOf (placeholderParameters locations) values
    refine ⟨instantiateExprs instances (callArguments 0 (arguments.map toArgument)),
      fun position => ?_, (if_pos ((hcount hlength).trans heq.symm)).trans (congrArg some ?_)⟩
    · rw [getElem?_instantiateExprs hvalues (fun argument hmem => (harguments argument hmem).clean)
        (fun index hindex => heq ▸ lt_arity_of_index hfit hindex) 0 ?_ position]
      · simp only [Nat.zero_add]
      · intro hsome
        rw [heq, arity, if_neg hsome, Nat.zero_add]
    · change Block.instantiate instances _ = _
      have hdeclared : ∀ name, ¬Binding.Declared name [] := by simp [Binding.Declared]
      have hbound : ∀ name, ¬∃ binding ∈ ([] : List Binding), binding.Binds name := by simp
      rw [Block.instantiate]
      simp only [Instances.hide_of_not hdeclared, Instances.hide_of_not hbound]
      refine congrArg (Block.mk [] · location) ?_
      refine congrArg (fun found => Expr.mk (.call found _) location) ?_
      exact hcallee.clean.instantiate_eq

section Nested

def start : Loc := ⟨0, 0, 0⟩

def source (name : String) : Expr := .mk (.variable ⟨name, start⟩) start

theorem parsed_source {name : String} (h : '\x00' ∉ name.toList) : Parsed (source name) :=
  .variable _ _ (ne_placeholderParameter h)

/-- `g(_)`, as it is elaborated. -/
def innerSection : Expr :=
  .mk (.closure (placeholderParameters [start]) none
    (.mk [] (.mk (.call (source "g") [placeholderVariable 0 start]) start) start)) start

/-- The section `f(g(_), _)`: its value takes the place of the second argument only. -/
theorem section_denotes_closure_nested :
    Denotes (source "f") [.expression innerSection, .placeholder 7 start] 3 start := by
  refine section_denotes_closure _ _ _ _ (parsed_source (by decide)) fun argument hmem => ?_
  rcases List.mem_cons.mp hmem with heq | hmem
  · cases heq
    exact .section (source "g") [.placeholder 5 start] 4 start _ (parsed_source (by decide))
      (fun argument hmem => by simp at hmem) rfl
  · simp at hmem

end Nested

end Telora.CallSection
