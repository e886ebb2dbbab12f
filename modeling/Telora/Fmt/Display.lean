import Telora.Fmt.Template
import Telora.Natives.Attributes
import Telora.Value.FloatText

/-!
# Displaying values

A display plan is made of type metadata once, and rendered for each value. A struct is
displayed by the template that its attributes carry, whose fields have plans of their
own. What is rendered for a value of the type is the concatenation of the texts and of
what its named fields render.
-/

namespace Telora.Fmt

open Library

inductive DisplayPlan where
  | string
  | int
  | float
  | template (template : List TemplatePart) (fields : List (String × DisplayPlan))

def displayTemplate : Provider where
  key := "std/fmt.display"
  tag := "Template"
  typeName := "std/fmt#DisplayTemplate"
  invalid := "invalid std/fmt.display template provider"

section Plan

variable (downcast : OpaquePayload → Option (List TemplatePart)) (fuel : Nat)

def attachedTemplate (metadata : ValueRef) : NativeRun (Option (List TemplatePart)) :=
  attachedProvider displayTemplate downcast fuel metadata

/-- The plans of the fields that a template names, each made once. -/
def planFields (planField : ValueRef → NativeRun DisplayPlan) (members : ValueRef) :
    List TemplatePart → List (String × DisplayPlan) → NativeRun (List (String × DisplayPlan))
  | [], fields => pure fields
  | .text _ :: rest, fields => planFields planField members rest fields
  | .field name :: rest, fields =>
      let name := String.ofList name
      if (fields.lookup name).isSome then
        planFields planField members rest fields
      else do
        let field ← orThrow ("Display template references unknown field " ++ name.quote)
          (members.dictGet name)
        let plan ← ExceptT.adapt (fun message => "Display field " ++ name.quote ++ ": " ++ message)
          (planField field)
        planFields planField members rest ((name, plan) :: fields)

/-- The plan of type metadata, at most so many types deep. -/
def displayPlanAt : Nat → ValueRef → NativeRun DisplayPlan
  | 0, _ => throw "std/fmt.display plan exceeds the recursive type limit"
  | left + 1, metadata => do
      let attached ← attachedTemplate downcast fuel metadata
      let inner ← strippedMetadata fuel metadata
      match attached with
      | some template =>
          if inner.metadataKind ≠ some "Struct" then
            throw "fmt.display_by requires a struct type"
          else do
            let members ← orThrow "struct type metadata has no fields" (inner.dictGet "fields")
            let fields ← planFields (displayPlanAt left) members template []
            return .template template fields
      | none =>
          if inner.metadataKind = some "String" then return .string
          else if inner.metadataKind = some "Int" then return .int
          else if inner.metadataKind = some "Float" then return .float
          else throw "type has no std/fmt.display capability"

def displayPlan (metadata : ValueRef) : NativeRun DisplayPlan :=
  displayPlanAt downcast fuel 128 metadata

end Plan

theorem sizeOf_lookup {fields : List (String × DisplayPlan)} {name : String} {plan : DisplayPlan}
    (h : fields.lookup name = some plan) : sizeOf plan < sizeOf fields := by
  induction fields with
  | nil => cases h
  | cons field rest ih =>
      obtain ⟨key, other⟩ := field
      rw [List.lookup_cons] at h
      split at h
      · obtain rfl := Option.some.inj h
        simp only [List.cons.sizeOf_spec, Prod.mk.sizeOf_spec]
        omega
      · have := ih h
        simp only [List.cons.sizeOf_spec]
        omega

mutual

/-- Append what a plan makes of a value. -/
def render : DisplayPlan → ValueRef → List Char → Except String (List Char)
  | .string, value, output =>
      match value.asStr with
      | some text => .ok (output ++ text.toList)
      | none => .error "Display expected String"
  | .int, value, output =>
      match value.asInt with
      | some number => .ok (output ++ (toString number).toList)
      | none => .error "Display expected Int"
  | .float, value, output =>
      match value.asFloat with
      | some number => .ok (output ++ number.display)
      | none => .error "Display expected Float"
  | .template template fields, value, output => renderParts fields value template output
termination_by plan => (sizeOf plan, 0)

def renderParts (fields : List (String × DisplayPlan)) (value : ValueRef) :
    List TemplatePart → List Char → Except String (List Char)
  | [], output => .ok output
  | .text text :: rest, output => renderParts fields value rest (output ++ text)
  | .field name :: rest, output =>
      match _hplan : fields.lookup (String.ofList name) with
      -- the code indexes the map, whose keys are the names of the template
      | none => .error "no entry found for key"
      | some plan =>
          match value.dictGet (String.ofList name) with
          | none => .error ("Display value has no field " ++ (String.ofList name).quote)
          | some child =>
              match render plan child output with
              | .error message => .error message
              | .ok output => renderParts fields value rest output
termination_by template => (sizeOf fields, template.length + 1)
decreasing_by
  · exact Prod.Lex.right _ (by simp)
  · exact Prod.Lex.left _ _ (sizeOf_lookup _hplan)
  · exact Prod.Lex.right _ (by simp)

end

def displayValue (downcast : OpaquePayload → Option (List TemplatePart)) (fuel : Nat)
    (metadata value : ValueRef) : NativeRun (List Char) := do
  let plan ← displayPlan downcast fuel metadata
  attempt (render plan value [])

section Meaning

variable (downcast : OpaquePayload → Option (List TemplatePart))

mutual

/-- What the display of a value of a type is: the text of a primitive, and for a type with a
template what its template makes of the fields. -/
inductive Displays : ValueRef → ValueRef → List Char → Prop where
  | string {metadata inner value : ValueRef} {fuel : Nat} {text : String}
      (hattached : Returns (attachedTemplate downcast fuel metadata) none)
      (hinner : Returns (strippedMetadata fuel metadata) inner)
      (hkind : inner.metadataKind = some "String") (h : value.asStr = some text) :
      Displays metadata value text.toList
  | int {metadata inner value : ValueRef} {fuel : Nat} {number : Int}
      (hattached : Returns (attachedTemplate downcast fuel metadata) none)
      (hinner : Returns (strippedMetadata fuel metadata) inner)
      (hkind : inner.metadataKind = some "Int") (h : value.asInt = some number) :
      Displays metadata value (toString number).toList
  | float {metadata inner value : ValueRef} {fuel : Nat} {number : F64}
      (hattached : Returns (attachedTemplate downcast fuel metadata) none)
      (hinner : Returns (strippedMetadata fuel metadata) inner)
      (hkind : inner.metadataKind = some "Float") (h : value.asFloat = some number) :
      Displays metadata value number.display
  | template {metadata inner members value : ValueRef} {fuel : Nat} {template : List TemplatePart}
      {text : List Char} (hattached : Returns (attachedTemplate downcast fuel metadata) (some template))
      (hinner : Returns (strippedMetadata fuel metadata) inner)
      (hkind : inner.metadataKind = some "Struct") (hmembers : inner.dictGet "fields" = some members)
      (h : DisplaysParts members value template text) : Displays metadata value text

/-- The texts of a template and the displays of the fields it names, one after another. -/
inductive DisplaysParts : ValueRef → ValueRef → List TemplatePart → List Char → Prop where
  | nil {members value : ValueRef} : DisplaysParts members value [] []
  | text {members value : ValueRef} {text output : List Char} {rest : List TemplatePart}
      (h : DisplaysParts members value rest output) :
      DisplaysParts members value (.text text :: rest) (text ++ output)
  | field {members value field child : ValueRef} {name part output : List Char}
      {rest : List TemplatePart} (hfield : members.dictGet (String.ofList name) = some field)
      (hchild : value.dictGet (String.ofList name) = some child) (hpart : Displays field child part)
      (h : DisplaysParts members value rest output) :
      DisplaysParts members value (.field name :: rest) (part ++ output)

end

end Meaning

/-- A value of a type, as far as a display looks at it: the primitives are there, and structs
have the declared fields, of their types. A value of any other kind of type may be anything. -/
inductive OfType : ValueRef → ValueRef → Prop where
  | string {metadata inner value : ValueRef} {fuel : Nat} {text : String}
      (hinner : Returns (strippedMetadata fuel metadata) inner)
      (hkind : inner.metadataKind = some "String") (h : value.asStr = some text) :
      OfType metadata value
  | int {metadata inner value : ValueRef} {fuel : Nat} {number : Int}
      (hinner : Returns (strippedMetadata fuel metadata) inner)
      (hkind : inner.metadataKind = some "Int") (h : value.asInt = some number) :
      OfType metadata value
  | float {metadata inner value : ValueRef} {fuel : Nat} {number : F64}
      (hinner : Returns (strippedMetadata fuel metadata) inner)
      (hkind : inner.metadataKind = some "Float") (h : value.asFloat = some number) :
      OfType metadata value
  | struct {metadata inner members value : ValueRef} {fuel : Nat}
      (hinner : Returns (strippedMetadata fuel metadata) inner)
      (hkind : inner.metadataKind = some "Struct") (hmembers : inner.dictGet "fields" = some members)
      (child : String → ValueRef)
      (hchild : ∀ {name field}, members.dictGet name = some field →
        value.dictGet name = some (child name))
      (h : ∀ {name field}, members.dictGet name = some field → OfType field (child name)) :
      OfType metadata value
  | other {metadata value : ValueRef}
      (h : ∀ {fuel inner}, Returns (strippedMetadata fuel metadata) inner →
        inner.metadataKind ∉ [some "String", some "Int", some "Float", some "Struct"]) :
      OfType metadata value

section Rendering

/-- Metadata is stripped in one way, whatever fuel there is. -/
theorem strippedMetadata_unique {fuel fuel' : Nat} {metadata inner inner' : ValueRef}
    (h : Returns (strippedMetadata fuel metadata) inner)
    (h' : Returns (strippedMetadata fuel' metadata) inner') : inner = inner' := by
  induction fuel generalizing fuel' metadata with
  | zero => exact absurd h not_returns_outOfFuel
  | succ fuel ih =>
      cases fuel' with
      | zero => exact absurd h' not_returns_outOfFuel
      | succ fuel' =>
          obtain ⟨resolved, hresolved, h⟩ := returns_bind.mp h
          obtain ⟨resolved', hresolved', h'⟩ := returns_bind.mp h'
          obtain rfl := hresolved.unique hresolved'
          split at h
          · rename_i hkind
            rw [if_pos hkind] at h'
            obtain ⟨next, hnext, h⟩ := returns_bind.mp h
            obtain ⟨next', hnext', h'⟩ := returns_bind.mp h'
            obtain rfl := hnext.unique hnext'
            exact ih h h'
          · rename_i hkind
            rw [if_neg hkind] at h'
            exact (returns_pure.mp h).symm.trans (returns_pure.mp h')

section Types

variable {metadata inner members value : ValueRef} {fuel : Nat}

theorem OfType.asStr (h : OfType metadata value)
    (hinner : Returns (strippedMetadata fuel metadata) inner)
    (hkind : inner.metadataKind = some "String") : ∃ text, value.asStr = some text := by
  cases h with
  | string hinner' hkind' h => exact ⟨_, h⟩
  | int hinner' hkind' | float hinner' hkind' | struct hinner' hkind' =>
      rw [strippedMetadata_unique hinner hinner', hkind'] at hkind
      exact absurd hkind (by decide)
  | other hother => exact absurd (hkind ▸ hother hinner) (by decide)

theorem OfType.asInt (h : OfType metadata value)
    (hinner : Returns (strippedMetadata fuel metadata) inner)
    (hkind : inner.metadataKind = some "Int") : ∃ number, value.asInt = some number := by
  cases h with
  | int hinner' hkind' h => exact ⟨_, h⟩
  | string hinner' hkind' | float hinner' hkind' | struct hinner' hkind' =>
      rw [strippedMetadata_unique hinner hinner', hkind'] at hkind
      exact absurd hkind (by decide)
  | other hother => exact absurd (hkind ▸ hother hinner) (by decide)

theorem OfType.asFloat (h : OfType metadata value)
    (hinner : Returns (strippedMetadata fuel metadata) inner)
    (hkind : inner.metadataKind = some "Float") : ∃ number, value.asFloat = some number := by
  cases h with
  | float hinner' hkind' h => exact ⟨_, h⟩
  | string hinner' hkind' | int hinner' hkind' | struct hinner' hkind' =>
      rw [strippedMetadata_unique hinner hinner', hkind'] at hkind
      exact absurd hkind (by decide)
  | other hother => exact absurd (hkind ▸ hother hinner) (by decide)

/-- A value of a struct type has the declared fields, of their types. -/
theorem OfType.fields (h : OfType metadata value)
    (hinner : Returns (strippedMetadata fuel metadata) inner)
    (hkind : inner.metadataKind = some "Struct") (hmembers : inner.dictGet "fields" = some members) :
    ∃ child : String → ValueRef, (∀ {name field}, members.dictGet name = some field →
      value.dictGet name = some (child name)) ∧
      ∀ {name field}, members.dictGet name = some field → OfType field (child name) := by
  cases h with
  | struct hinner' hkind' hmembers' child hchild h =>
      obtain rfl := strippedMetadata_unique hinner hinner'
      obtain rfl := Option.some.inj (hmembers.symm.trans hmembers')
      exact ⟨child, hchild, h⟩
  | string hinner' hkind' | int hinner' hkind' | float hinner' hkind' =>
      rw [strippedMetadata_unique hinner hinner', hkind'] at hkind
      exact absurd hkind (by decide)
  | other hother => exact absurd (hkind ▸ hother hinner) (by decide)

end Types

/-- A struct type whose declared fields are read as a dict. -/
theorem ofType_struct {metadata value : ValueRef} (fuel : Nat) (inner members : ValueRef)
    (names : List String) (hinner : Returns (strippedMetadata fuel metadata) inner)
    (hkind : inner.metadataKind = some "Struct") (hmembers : inner.dictGet "fields" = some members)
    {handle : Handle} {ids : List InternId} {values : List RichValue}
    (hvalue : members.value.value = .dict handle)
    (hdict : members.view.DictAt handle ids names values) (hsorted : names.Pairwise (· < ·))
    (hlength : names.length = values.length)
    (hfields : ∀ entry ∈ names.zip values, ∃ child, value.dictGet entry.1 = some child ∧
      OfType ⟨entry.2, members.view⟩ child) : OfType metadata value := by
  have hmem {name : String} {field : ValueRef} (h : members.dictGet name = some field) :
      ∃ entry ∈ names.zip values, entry.1 = name ∧ field = ⟨entry.2, members.view⟩ := by
    have hget := dictGet_of_dictAt hvalue hdict name
    rw [HeapView.lookupName_eq hsorted hlength] at hget
    obtain ⟨found, hfound, rfl⟩ := Option.map_eq_some_iff.mp (hget.symm.trans h)
    exact ⟨(name, found), mem_of_lookup hfound, rfl, rfl⟩
  refine .struct hinner hkind hmembers (fun name => (value.dictGet name).getD value) ?_ ?_
  · intro name field h
    obtain ⟨entry, hentry, rfl, -⟩ := hmem h
    obtain ⟨child, hchild, -⟩ := hfields entry hentry
    rw [hchild]
    rfl
  · intro name field h
    obtain ⟨entry, hentry, rfl, rfl⟩ := hmem h
    obtain ⟨child, hchild, hof⟩ := hfields entry hentry
    rwa [hchild]

/-- The plans of the fields are the plans of the declared fields of those names. -/
def PlansOf (planField : ValueRef → NativeRun DisplayPlan) (members : ValueRef)
    (fields : List (String × DisplayPlan)) : Prop :=
  ∀ {name plan}, fields.lookup name = some plan →
    ∃ field, members.dictGet name = some field ∧ Returns (planField field) plan

/-- Every field that a template names has a plan, and the plans made before stay. -/
theorem planFields_spec {planField : ValueRef → NativeRun DisplayPlan} {members : ValueRef}
    {template : List TemplatePart} {fields out : List (String × DisplayPlan)}
    (hfields : PlansOf planField members fields)
    (h : Returns (planFields planField members template fields) out) :
    PlansOf planField members out ∧
      (∀ name, (fields.lookup name).isSome → (out.lookup name).isSome) ∧
      ∀ name, .field name ∈ template → (out.lookup (String.ofList name)).isSome := by
  induction template generalizing fields with
  | nil =>
      obtain rfl := returns_pure.mp h
      exact ⟨hfields, fun _ h => h, fun _ hmem => (by cases hmem)⟩
  | cons part rest ih =>
      cases part with
      | text text =>
          obtain ⟨hout, hkept, hall⟩ := ih hfields h
          refine ⟨hout, hkept, fun name hmem => hall name ?_⟩
          exact (List.mem_cons.mp hmem).resolve_left fun heq => (by cases heq)
      | field name =>
          rw [planFields] at h
          split at h
          · rename_i hsome
            obtain ⟨hout, hkept, hall⟩ := ih hfields h
            refine ⟨hout, hkept, fun other hmem => ?_⟩
            rcases List.mem_cons.mp hmem with heq | hmem
            · rw [TemplatePart.field.inj heq]
              exact hkept _ hsome
            · exact hall other hmem
          · obtain ⟨field, hfield, h⟩ := returns_bind.mp h
            obtain ⟨plan, hplan, h⟩ := returns_bind.mp h
            have hnext : PlansOf planField members ((String.ofList name, plan) :: fields) := by
              intro other plan' hlookup
              rw [List.lookup_cons] at hlookup
              split at hlookup
              · rename_i heq
                obtain rfl := Option.some.inj hlookup
                rw [beq_iff_eq.mp heq]
                exact ⟨field, returns_orThrow.mp hfield, returns_adapt.mp hplan⟩
              · exact hfields hlookup
            obtain ⟨hout, hkept, hall⟩ := ih hnext h
            have hhead : ∀ other, (fields.lookup other).isSome →
                (((String.ofList name, plan) :: fields).lookup other).isSome := by
              intro other hsome
              rw [List.lookup_cons]
              split
              · rfl
              · exact hsome
            refine ⟨hout, fun other hsome => hkept other (hhead other hsome), fun other hmem => ?_⟩
            rcases List.mem_cons.mp hmem with heq | hmem
            · rw [TemplatePart.field.inj heq]
              exact hkept _ (by rw [List.lookup_cons_self]; rfl)
            · exact hall other hmem

/-- A plan appends a text to every output. -/
def Appends (plan : DisplayPlan) (value : ValueRef) (text : List Char) : Prop :=
  ∀ output, render plan value output = .ok (output ++ text)

variable {downcast : OpaquePayload → Option (List TemplatePart)}

/-- A template appends its texts and the displays of its fields, when the plans of the fields do. -/
theorem exists_displaysParts {fields : List (String × DisplayPlan)} {members value : ValueRef}
    {template : List TemplatePart}
    (h : ∀ name, .field name ∈ template → ∃ plan field child part,
      fields.lookup (String.ofList name) = some plan ∧
      members.dictGet (String.ofList name) = some field ∧
      value.dictGet (String.ofList name) = some child ∧
      Displays downcast field child part ∧ Appends plan child part) :
    ∃ text, DisplaysParts downcast members value template text ∧
      ∀ output, renderParts fields value template output = .ok (output ++ text) := by
  induction template with
  | nil => exact ⟨[], .nil, fun output => by rw [renderParts, List.append_nil]⟩
  | cons part rest ih =>
      obtain ⟨text, hrest, hrender⟩ := ih fun name hmem => h name (List.mem_cons_of_mem _ hmem)
      cases part with
      | text content =>
          refine ⟨content ++ text, .text hrest, fun output => ?_⟩
          rw [renderParts, hrender, List.append_assoc]
      | field name =>
          obtain ⟨plan, field, child, part, hplan, hfield, hchild, hpart, happends⟩ :=
            h name List.mem_cons_self
          refine ⟨part ++ text, .field hfield hchild hpart hrest, fun output => ?_⟩
          rw [renderParts]
          split
          · rename_i hnone
            rw [hplan] at hnone
            cases hnone
          · rename_i found hsome
            obtain rfl := Option.some.inj (hplan.symm.trans hsome)
            rw [hchild]
            dsimp only
            rw [happends]
            dsimp only
            rw [hrender, List.append_assoc]

/-- A plan appends the display of every value of the type it was made of. -/
theorem exists_displays {fuel left : Nat} {metadata value : ValueRef} {plan : DisplayPlan}
    (hplan : Returns (displayPlanAt downcast fuel left metadata) plan)
    (htype : OfType metadata value) :
    ∃ text, Displays downcast metadata value text ∧ Appends plan value text := by
  induction left generalizing metadata value plan with
  | zero => exact absurd hplan not_returns_throw
  | succ left ih =>
      obtain ⟨attached, hattached, hplan⟩ := returns_bind.mp hplan
      obtain ⟨inner, hinner, hplan⟩ := returns_bind.mp hplan
      cases attached with
      | none =>
          dsimp only at hplan
          split at hplan
          · rename_i hkind
            obtain rfl := returns_pure.mp hplan
            obtain ⟨text, htext⟩ := htype.asStr hinner hkind
            exact ⟨text.toList, .string hattached hinner hkind htext,
              fun output => by rw [render, htext]⟩
          · split at hplan
            · rename_i hkind
              obtain rfl := returns_pure.mp hplan
              obtain ⟨number, hnumber⟩ := htype.asInt hinner hkind
              exact ⟨(toString number).toList, .int hattached hinner hkind hnumber,
                fun output => by rw [render, hnumber]⟩
            · split at hplan
              · rename_i hkind
                obtain rfl := returns_pure.mp hplan
                obtain ⟨number, hnumber⟩ := htype.asFloat hinner hkind
                exact ⟨number.display, .float hattached hinner hkind hnumber,
                  fun output => by rw [render, hnumber]⟩
              · exact absurd hplan not_returns_throw
      | some template =>
          dsimp only at hplan
          split at hplan
          · exact absurd hplan not_returns_throw
          · rename_i hstruct
            have hkind := not_not.mp hstruct
            obtain ⟨members, hmembers, hplan⟩ := returns_bind.mp hplan
            obtain ⟨fields, hfields, hplan⟩ := returns_bind.mp hplan
            obtain rfl := returns_pure.mp hplan
            have hmembers := returns_orThrow.mp hmembers
            obtain ⟨child, hpresent, hof⟩ := htype.fields hinner hkind hmembers
            have hempty : PlansOf (displayPlanAt downcast fuel left) members [] :=
              fun hlookup => by cases hlookup
            obtain ⟨hplans, -, hall⟩ := planFields_spec hempty hfields
            obtain ⟨text, hparts, hrender⟩ : ∃ text,
                DisplaysParts downcast members value template text ∧
                ∀ output, renderParts fields value template output = .ok (output ++ text) := by
              refine exists_displaysParts fun name hmem => ?_
              obtain ⟨plan, hplan⟩ := Option.isSome_iff_exists.mp (hall name hmem)
              obtain ⟨field, hfield, hreturns⟩ := hplans hplan
              obtain ⟨part, hpart, happends⟩ := ih hreturns (hof hfield)
              exact ⟨plan, field, child (String.ofList name), part, hplan, hfield,
                hpresent hfield, hpart, happends⟩
            exact ⟨text, .template hattached hinner hkind hmembers hparts,
              fun output => by rw [render, hrender]⟩

/-- The display of a value of a type that has a plan ends, and it is what the metadata says. -/
theorem displayValue_eq {fuel : Nat} {metadata value : ValueRef} {plan : DisplayPlan}
    (hplan : Returns (displayPlan downcast fuel metadata) plan) (htype : OfType metadata value) :
    ∃ text, Displays downcast metadata value text ∧
      Returns (displayValue downcast fuel metadata value) text := by
  obtain ⟨text, hdisplays, happends⟩ := exists_displays hplan htype
  refine ⟨text, hdisplays, returns_bind.mpr ⟨plan, hplan, ?_⟩⟩
  rw [happends, List.nil_append]
  rfl

end Rendering

/-- The parser reads back the written form of every list of texts and named fields, with
adjacent texts joined, and accepts no other source. For all type metadata that a plan can be
made of and every value of the type, the display is the concatenation of the texts of the
template attached to the metadata and of the displays of the fields it names. -/
theorem templates_round_trip_and_render :
    (∀ source out, parseTemplate source = .ok out ↔
      ∃ parts, Named parts ∧ written parts = source ∧ out = merged parts) ∧
    ∀ (downcast : OpaquePayload → Option (List TemplatePart)) (fuel : Nat)
      (metadata value : ValueRef) (plan : DisplayPlan),
      Returns (displayPlan downcast fuel metadata) plan → OfType metadata value →
        ∃ text, Displays downcast metadata value text ∧
          Returns (displayValue downcast fuel metadata value) text :=
  ⟨parseTemplate_eq_ok, fun _ _ _ _ _ => displayValue_eq⟩

/-- The metadata of a kind without parts. -/
def kindMetadata (kind : String) (heap : Heap) : RichValue × Heap :=
  let (kind, heap) := heap.intern kind
  allocateCoreDictUnchecked [("kind", .unknown (.atom kind))] none heap

/-- The metadata of a struct with a template, which the payload stands for. -/
def templateMetadata (template : Nat) (fields : List (String × RichValue)) (heap : Heap) :
    RichValue × Heap :=
  let (fields, heap) := allocateCoreDictUnchecked fields none heap
  let (kind, heap) := heap.intern "Struct"
  let (inner, heap) :=
    allocateCoreDictUnchecked [("fields", fields), ("kind", .unknown (.atom kind))] none heap
  let (tag, heap) := heap.intern "Template"
  let (payload, heap) := heap.allocate
    (.opaqueValue ⟨⟨⟨0, 0⟩, "std/fmt#DisplayTemplate"⟩, ⟨0, 0, template⟩, .content⟩)
  let (provider, heap) :=
    heap.allocate (.tagged (.unknown (.atom tag)) (.unknown (.opaqueValue payload)))
  allocateAttributesWrapper inner [("std/fmt.display", .unknown (.tagged provider))] none none heap

/-- The templates `<{x}>` and `{at}: {{}}`. -/
def boxTemplates (payload : OpaquePayload) : Option (List TemplatePart) :=
  if payload.content = 0 then some [.text ['<'], .field ['x'], .text ['>']]
  else some [.field ['a', 't'], .text [':', ' ', '{', '}']]

/-- A struct with a template, a value of it, and their heap. The field `at` has a template of its
own; the field `tags` is an array and cannot be displayed. -/
def box : RichValue × RichValue × Heap :=
  let (int, heap) := kindMetadata "Int" .work
  let (array, heap) := kindMetadata "Array" heap
  let (point, heap) := templateMetadata 0 [("x", int)] heap
  let (type, heap) := templateMetadata 1 [("at", point), ("tags", array)] heap
  let (place, heap) := allocateCoreDictUnchecked [("x", .unknown (.int 3))] none heap
  let (tags, heap) := heap.allocate (.array [])
  let (value, heap) :=
    allocateCoreDictUnchecked [("at", place), ("tags", .unknown (.array tags))] none heap
  (type, value, heap)

def boxType : ValueRef := ⟨box.1, box.2.2, none⟩

def boxValue : ValueRef := ⟨box.2.1, box.2.2, none⟩

/-- The field of a dict that has it. -/
def part (ref : ValueRef) (name : String) : ValueRef := (ref.dictGet name).getD ref

/-- The declared fields of a struct type with a template. -/
def structMembers (type : ValueRef) : ValueRef := part (part type "inner") "fields"

theorem box_ofType : OfType boxType boxValue := by
  have hpoint : OfType (part (structMembers boxType) "at") (part boxValue "at") := by
    refine ofType_struct 2 (part (part (structMembers boxType) "at") "inner")
      (structMembers (part (structMembers boxType) "at")) ["x"] rfl rfl rfl rfl ⟨⟨_, rfl, rfl⟩, rfl⟩ (by simp) rfl ?_
    intro entry hentry
    obtain rfl := List.mem_singleton.mp hentry
    exact ⟨part (part boxValue "at") "x", rfl,
      @OfType.int _ _ _ 1 3 rfl rfl rfl⟩
  refine ofType_struct 2 (part boxType "inner") (structMembers boxType) ["at", "tags"] rfl rfl rfl
    rfl ⟨⟨_, rfl, rfl⟩, rfl⟩ (by decide) rfl ?_
  intro entry hentry
  rcases List.mem_cons.mp hentry with rfl | hentry
  · exact ⟨part boxValue "at", rfl, hpoint⟩
  · obtain rfl := List.mem_singleton.mp hentry
    refine ⟨part boxValue "tags", rfl, .other fun {fuel inner} hinner => ?_⟩
    have harray : Returns (strippedMetadata 1 (part (structMembers boxType) "tags"))
        (part (structMembers boxType) "tags") := rfl
    rw [strippedMetadata_unique hinner harray]
    decide

theorem templates_round_trip_and_render_box :
    ∃ text, Displays boxTemplates boxType boxValue text ∧
      Returns (displayValue boxTemplates 3 boxType boxValue) text :=
  templates_round_trip_and_render.2 boxTemplates 3 boxType boxValue
    (.template [.field ['a', 't'], .text [':', ' ', '{', '}']]
      [("at", .template [.text ['<'], .field ['x'], .text ['>']] [("x", .int)])]) rfl box_ofType

end Telora.Fmt
