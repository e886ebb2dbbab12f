import Telora.Dyn.Structure
import Telora.Types.Metadata
import Mathlib.Data.List.Sort

/-!
# When observers see structure

Observers see storage at one place: `fields` compares the ids of the names that a struct
declares with the ids of the names that a value has. A struct and a value are mismatched
when these names are the same texts under different ids. Up to mismatches an observer
answers alike for copies, and `fields` succeeds exactly when `field` does for each of the
declared names and the value has no other.
-/

namespace Telora

open Library

namespace HeapView

/-- The type metadata under the links and the attributes of a descriptor. -/
inductive Underlying (view : HeapView) : RuntimeValue → Handle → Prop where
  | metadata {handle : Handle} {kind : String}
      (hkind : Returns (view.atomField handle "kind") (some kind))
      (hplain : kind ≠ "WithAttributes") : Underlying view (.dict handle) handle
  | attributes {handle metadata : Handle} {inner : RichValue}
      (hkind : Returns (view.atomField handle "kind") (some "WithAttributes"))
      (hinner : view.dictGetText handle "inner" = .ok (some inner))
      (h : Underlying view inner.value metadata) : Underlying view (.dict handle) metadata
  | link {link metadata : Handle} {target : RichValue}
      (htarget : view.upLink link = .ok (some target))
      (h : Underlying view target.value metadata) : Underlying view (.upLink link) metadata

/-- A struct descriptor with the dict that declares its fields, and a dict value. -/
structure StructAt (view : HeapView) (descriptor value : RichValue)
    (metadata declared present : Handle) : Prop where
  under : view.Underlying descriptor.value metadata
  kind : Returns (view.atomField metadata "kind") (some "Struct")
  declares : view.Declares metadata declared
  holds : value.value.asDict = some present

/-- The declared names and those of the value are the same texts under different ids. -/
def Mismatched (view : HeapView) (descriptor value : RichValue) : Prop :=
  ∃ metadata declared present names, view.StructAt descriptor value metadata declared present ∧
    view.dictFields declared = .ok names ∧ view.dictFields present = .ok names ∧
    view.fieldIds declared ≠ view.fieldIds present

/-- The operation succeeds. -/
def Observes (view : HeapView) (operation : DynOperation) (descriptor value : RichValue) : Prop :=
  ∃ fuel observation, Returns (view.observeDynStructure fuel operation descriptor value) observation

/-- Under a struct, `fields` succeeds exactly when `field` does for every declared name and
the value has only declared names. -/
def FieldsExact (view : HeapView) (descriptor value : RichValue) : Prop :=
  ∀ metadata declared names, view.Underlying descriptor.value metadata →
    Returns (view.atomField metadata "kind") (some "Struct") → view.Declares metadata declared →
    view.dictFields declared = .ok names →
    (view.Observes .fields descriptor value ↔
      (∀ name ∈ names, view.Observes (.field name) descriptor value) ∧
        ∃ present names', value.value.asDict = some present ∧
          view.dictFields present = .ok names' ∧ names' ⊆ names)

section Descriptors

variable {view : HeapView}

/-- What normalization returns is the metadata under the descriptor. -/
theorem underlying_of_returns {fuel : Nat} {descriptor found : RichValue}
    (h : Returns (view.normalizeDynDescriptor fuel descriptor) found) :
    ∃ metadata, found.value = .dict metadata ∧ view.Underlying descriptor.value metadata := by
  induction fuel generalizing descriptor with
  | zero => exact absurd h not_returns_outOfFuel
  | succ fuel ih =>
      obtain ⟨value, provenance⟩ := descriptor
      cases value with
      | upLink link =>
          obtain ⟨target, htarget, h⟩ := returns_bind.mp h
          obtain ⟨descriptor, hdescriptor, h⟩ := returns_bind.mp h
          rw [returns_orThrow.mp hdescriptor] at htarget
          obtain ⟨metadata, hfound, hunder⟩ := ih h
          exact ⟨metadata, hfound, .link (returns_reading.mp htarget) hunder⟩
      | dict handle =>
          obtain ⟨found', hkind, h⟩ := returns_bind.mp h
          obtain ⟨kind, hsome, h⟩ := returns_bind.mp h
          rw [returns_orThrow.mp hsome] at hkind
          by_cases hplain : kind ≠ "WithAttributes"
          · rw [if_pos hplain] at h
            obtain rfl := returns_pure.mp h
            exact ⟨handle, rfl, .metadata hkind hplain⟩
          · rw [if_neg hplain] at h
            obtain ⟨found'', hinner, h⟩ := returns_bind.mp h
            obtain ⟨inner, hsome, h⟩ := returns_bind.mp h
            rw [returns_orThrow.mp hsome] at hinner
            obtain ⟨metadata, hfound, hunder⟩ := ih h
            rw [not_not.mp hplain] at hkind
            exact ⟨metadata, hfound, .attributes hkind (returns_reading.mp hinner) hunder⟩
      | _ => exact absurd h not_returns_throw

/-- Normalization finds the metadata under a descriptor, given enough fuel. -/
theorem Underlying.returns {value : RuntimeValue} {metadata : Handle}
    (h : view.Underlying value metadata) {descriptor : RichValue} (hvalue : descriptor.value = value) :
    ∃ fuel found, Returns (view.normalizeDynDescriptor fuel descriptor) found ∧
      found.value = .dict metadata := by
  induction h generalizing descriptor with
  | @metadata handle kind hkind hplain =>
      obtain ⟨_, provenance⟩ := descriptor
      subst hvalue
      refine ⟨1, ⟨.dict handle, provenance⟩, returns_bind.mpr ⟨_, hkind, ?_⟩, rfl⟩
      rw [orThrow_some, pure_bind, if_pos hplain]
      rfl
  | @attributes handle metadata inner hkind hinner _ ih =>
      obtain ⟨_, provenance⟩ := descriptor
      subst hvalue
      obtain ⟨fuel, found, hreturns, hfound⟩ := ih rfl
      refine ⟨fuel + 1, found, returns_bind.mpr ⟨_, hkind, ?_⟩, hfound⟩
      rw [orThrow_some, pure_bind, if_neg (not_not.mpr rfl)]
      refine returns_bind.mpr ⟨some inner, returns_reading.mpr hinner, ?_⟩
      rwa [orThrow_some, pure_bind]
  | @link handle metadata target htarget _ ih =>
      obtain ⟨_, provenance⟩ := descriptor
      subst hvalue
      obtain ⟨fuel, found, hreturns, hfound⟩ := ih rfl
      refine ⟨fuel + 1, found, returns_bind.mpr ⟨some target, returns_reading.mpr htarget, ?_⟩,
        hfound⟩
      rwa [orThrow_some, pure_bind]

theorem Underlying.unique {value : RuntimeValue} {metadata metadata' : Handle}
    (h : view.Underlying value metadata) (h' : view.Underlying value metadata') :
    metadata = metadata' := by
  induction h with
  | metadata hkind hplain =>
      cases h' with
      | metadata => rfl
      | attributes hkind' =>
          exact absurd (Option.some.inj (Returns.unique hkind hkind')) hplain
  | attributes hkind hinner _ ih =>
      cases h' with
      | metadata hkind' hplain' =>
          exact absurd (Option.some.inj (Returns.unique hkind' hkind)) hplain'
      | attributes _ hinner' h' =>
          obtain rfl := Option.some.inj (Except.ok.inj (hinner.symm.trans hinner'))
          exact ih h'
  | link htarget _ ih =>
      cases h' with
      | link htarget' h' =>
          obtain rfl := Option.some.inj (Except.ok.inj (htarget.symm.trans htarget'))
          exact ih h'

theorem Declares.unique {metadata declared declared' : Handle} (h : view.Declares metadata declared)
    (h' : view.Declares metadata declared') : declared = declared' := by
  obtain ⟨fields, hfields, hdict⟩ := h
  obtain ⟨fields', hfields', hdict'⟩ := h'
  obtain rfl := Option.some.inj (Except.ok.inj (hfields.symm.trans hfields'))
  exact Option.some.inj (hdict.symm.trans hdict')

end Descriptors

section Copies

variable {left right : HeapView} {descriptor descriptor' value value' : RichValue}

theorem Alike.asDict {a b : RuntimeValue} (h : left.Alike right a b) {dict : Handle}
    (hdict : a.asDict = some dict) :
    ∃ dict', b.asDict = some dict' ∧ left.DictAlike right dict dict' := by
  have hrel := h.looks.asDict
  rw [hdict] at hrel
  cases hb : b.asDict with
  | none => rw [hb] at hrel; cases hrel
  | some dict' =>
      rw [hb] at hrel
      cases hrel with
      | some hrel => exact ⟨dict', rfl, hrel⟩

/-- Copies of a struct descriptor and of a dict are a struct descriptor and a dict, with the
same names. -/
theorem StructAt.alike {metadata declared present : Handle}
    (h : left.StructAt descriptor value metadata declared present)
    (hdescriptor : left.RichAlike right descriptor descriptor')
    (hvalue : left.RichAlike right value value') :
    ∃ metadata' declared' present', right.StructAt descriptor' value' metadata' declared' present' ∧
      left.DictAlike right declared declared' ∧ left.DictAlike right present present' := by
  obtain ⟨fuel, found, hreturns, hfound⟩ := h.under.returns rfl
  obtain ⟨found', hreturns', halike⟩ :=
    (normalizeDynDescriptor_inStep fuel hdescriptor).returns hreturns
  obtain ⟨metadata', hfound', hunder'⟩ := underlying_of_returns hreturns'
  have hmetadata : left.DictAlike right metadata metadata' := by
    obtain ⟨dict', hdict', hrel⟩ := halike.asDict
      (show found.value.asDict = some metadata by rw [hfound]; rfl)
    rw [hfound'] at hdict'
    obtain rfl := Option.some.inj hdict'
    exact hrel
  obtain ⟨_, hkind', rfl⟩ := (hmetadata.atomField "kind").returns h.kind
  obtain ⟨fields, hfields, hdeclared⟩ := h.declares
  obtain ⟨found'', hfields', hrel⟩ := (hmetadata.get "fields").returns (returns_reading.mpr hfields)
  obtain ⟨present', hpresent', hpresent⟩ := hvalue.asDict h.holds
  cases hrel with
  | @some _ fields' hrel =>
      obtain ⟨declared', hdeclared', hnames⟩ := hrel.asDict hdeclared
      exact ⟨metadata', declared', present',
        ⟨hunder', hkind', ⟨fields', returns_reading.mp hfields', hdeclared'⟩, hpresent'⟩,
        hnames, hpresent⟩

/-- A struct descriptor and a dict are read in one way. -/
theorem StructAt.unique {view : HeapView} {metadata metadata' declared declared' present present' : Handle}
    (h : view.StructAt descriptor value metadata declared present)
    (h' : view.StructAt descriptor value metadata' declared' present') :
    metadata = metadata' ∧ declared = declared' ∧ present = present' := by
  obtain rfl := h.under.unique h'.under
  exact ⟨rfl, h.declares.unique h'.declares, Option.some.inj (h.holds.symm.trans h'.holds)⟩

end Copies

section Runs

variable {view : HeapView} {descriptor value : RichValue} {metadata declared present : Handle}
  {ids ids' : List InternId} {names names' : List String} {descriptors values : List RichValue}

theorem observe_of_normalized {kind : String}
    (hkind : Returns (view.atomField metadata "kind") (some kind)) {fuel : Nat} {found : RichValue}
    (hreturns : Returns (view.normalizeDynDescriptor fuel descriptor) found)
    (hfound : found.value = .dict metadata) (operation : DynOperation) :
    view.observeDynStructure fuel operation descriptor value =
      view.observeKind fuel kind metadata operation value := by
  rw [observeDynStructure, hreturns.bind_eq, hfound]
  exact (hkind.bind_eq _).trans rfl

/-- With the ids of the declared names a value has all its fields observed. -/
theorem StructAt.returns_fields (h : view.StructAt descriptor value metadata declared present)
    (hdeclared : view.DictAt declared ids names descriptors)
    (hpresent : view.DictAt present ids names' values) :
    ∃ observation, Returns (view.observeFields "Struct" metadata value) observation := by
  obtain ⟨fields, hfields, hdict⟩ := h.declares
  obtain ⟨children, hchildren⟩ : ∃ children,
      Returns (((ids.zip descriptors).zip values).mapM view.namedChild) children := by
    refine exists_returns_mapM ?_
    rintro ⟨⟨id, descriptor⟩, value⟩ hmem
    have hid : id ∈ ids := (List.of_mem_zip (List.of_mem_zip hmem).1).1
    obtain ⟨text, -, htext⟩ := forall₂_mem_left (mapM_eq_ok.mp hpresent.texts) hid
    exact ⟨(text, descriptor, value), returns_bind.mpr ⟨text, returns_reading.mpr htext, rfl⟩⟩
  refine ⟨.namedChildren children, returns_bind.mpr ⟨present, returns_orThrow.mpr h.holds, ?_⟩⟩
  refine returns_bind.mpr ⟨(ids, values), returns_reading.mpr hpresent.dictFieldParts, ?_⟩
  refine returns_bind.mpr ⟨descriptors, ?_, returns_bind.mpr ⟨children, hchildren, rfl⟩⟩
  rw [fieldDescriptors, if_pos rfl]
  refine returns_bind.mpr ⟨fields, returns_typeField.mpr hfields, ?_⟩
  refine returns_bind.mpr ⟨declared, returns_orThrow.mpr hdict, ?_⟩
  refine returns_bind.mpr ⟨(ids, descriptors), returns_reading.mpr hdeclared.dictFieldParts, ?_⟩
  dsimp only
  rw [if_neg (not_not.mpr rfl)]
  rfl

/-- With other ids the fields are refused. -/
theorem StructAt.fields_refused (h : view.StructAt descriptor value metadata declared present)
    (hdeclared : view.DictAt declared ids names descriptors)
    (hpresent : view.DictAt present ids' names' values) (hids : ids ≠ ids') :
    view.observeFields "Struct" metadata value =
      throw "Struct descriptor and runtime value have different fields" := by
  obtain ⟨fields, hfields, hdict⟩ := h.declares
  have hdescriptors : view.fieldDescriptors "Struct" metadata ids' values =
      throw "Struct descriptor and runtime value have different fields" := by
    rw [fieldDescriptors, if_pos rfl, (returns_typeField.mpr hfields).bind_eq,
      (returns_orThrow.mpr hdict).bind_eq, (returns_reading.mpr hdeclared.dictFieldParts).bind_eq]
    dsimp only
    rw [if_pos hids]
  rw [observeFields, (returns_orThrow.mpr h.holds).bind_eq,
    (returns_reading.mpr hpresent.dictFieldParts).bind_eq]
  dsimp only
  rw [hdescriptors]
  rfl

/-- An operation that needs no fuel under the metadata succeeds when its run there does. -/
theorem observes_iff {kind : String} (hunder : view.Underlying descriptor.value metadata)
    (hkind : Returns (view.atomField metadata "kind") (some kind)) {operation : DynOperation}
    {run : Observing DynObservation}
    (hrun : ∀ fuel, view.observeKind fuel kind metadata operation value = run) :
    view.Observes operation descriptor value ↔ ∃ observation, Returns run observation := by
  constructor
  · rintro ⟨fuel, observation, h⟩
    obtain ⟨found, hreturns, -⟩ := returns_bind.mp h
    obtain ⟨metadata', hfound, hunder'⟩ := underlying_of_returns hreturns
    obtain rfl := hunder.unique hunder'
    rw [observe_of_normalized hkind hreturns hfound, hrun] at h
    exact ⟨observation, h⟩
  · rintro ⟨observation, h⟩
    obtain ⟨fuel, found, hreturns, hfound⟩ := hunder.returns rfl
    refine ⟨fuel, observation, ?_⟩
    rwa [observe_of_normalized hkind hreturns hfound, hrun]

theorem StructAt.observes_fields (h : view.StructAt descriptor value metadata declared present)
    (hdeclared : view.DictAt declared ids names descriptors)
    (hpresent : view.DictAt present ids' names' values) :
    view.Observes .fields descriptor value ↔ ids = ids' := by
  have hrun : ∀ fuel, view.observeKind fuel "Struct" metadata .fields value =
      view.observeFields "Struct" metadata value := fun _ => rfl
  rw [observes_iff h.under h.kind hrun]
  constructor
  · rintro ⟨observation, hreturns⟩
    by_contra hids
    rw [h.fields_refused hdeclared hpresent hids] at hreturns
    exact not_returns_throw hreturns
  · rintro rfl
    exact h.returns_fields hdeclared hpresent

theorem StructAt.observes_field (h : view.StructAt descriptor value metadata declared present)
    (hdeclared : view.DictAt declared ids names descriptors)
    (hpresent : view.DictAt present ids' names' values) (name : String) :
    view.Observes (.field name) descriptor value ↔
      (lookupName names' values name).isSome ∧ (lookupName names descriptors name).isSome := by
  obtain ⟨fields, hfields, hdict⟩ := h.declares
  have hrun : ∀ fuel, view.observeKind fuel "Struct" metadata (.field name) value =
      view.observeField "Struct" metadata name value := fun _ => rfl
  rw [observes_iff h.under h.kind hrun]
  constructor
  · rintro ⟨observation, hreturns⟩
    obtain ⟨present', hholds, hreturns⟩ := returns_bind.mp hreturns
    obtain rfl := Option.some.inj (h.holds.symm.trans (returns_orThrow.mp hholds))
    obtain ⟨found, hfound, hreturns⟩ := returns_bind.mp hreturns
    obtain ⟨child, hchild, hreturns⟩ := returns_bind.mp hreturns
    obtain ⟨descriptor', hdescriptor, -⟩ := returns_bind.mp hreturns
    rw [fieldDescriptor, if_pos rfl, (returns_typeField.mpr hfields).bind_eq,
      (returns_orThrow.mpr hdict).bind_eq] at hdescriptor
    obtain ⟨found', hfound', hsome⟩ := returns_bind.mp hdescriptor
    rw [returns_reading, hpresent.dictGetText] at hfound
    rw [returns_reading, hdeclared.dictGetText] at hfound'
    rw [Except.ok.inj hfound, Except.ok.inj hfound', returns_orThrow.mp hchild,
      returns_orThrow.mp hsome]
    exact ⟨rfl, rfl⟩
  · rintro ⟨hchild, hdescriptor⟩
    obtain ⟨child, hchild⟩ := Option.isSome_iff_exists.mp hchild
    obtain ⟨descriptor', hdescriptor⟩ := Option.isSome_iff_exists.mp hdescriptor
    refine ⟨.child descriptor' child, returns_bind.mpr ⟨present, returns_orThrow.mpr h.holds, ?_⟩⟩
    refine returns_bind.mpr ⟨_, returns_reading.mpr (hpresent.dictGetText name), ?_⟩
    refine returns_bind.mpr ⟨child, returns_orThrow.mpr hchild, ?_⟩
    refine returns_bind.mpr ⟨descriptor', ?_, rfl⟩
    rw [fieldDescriptor, if_pos rfl, (returns_typeField.mpr hfields).bind_eq,
      (returns_orThrow.mpr hdict).bind_eq]
    refine returns_bind.mpr ⟨_, returns_reading.mpr (hdeclared.dictGetText name), ?_⟩
    exact returns_orThrow.mpr hdescriptor

/-- Ordered dicts are read as increasing names, each with a value. -/
theorem DictsOrdered.dictAt (hordered : view.DictsOrdered)
    (h : view.DictAt present ids names values) :
    names.Pairwise (· < ·) ∧ names.length = values.length := by
  obtain ⟨shape, hobject, hshape⟩ := h.object
  obtain ⟨names', hnames, hlength, hsorted⟩ := hordered hobject
  obtain rfl : names' = names := by
    rw [fieldNames, hshape] at hnames
    exact Except.ok.inj (hnames.symm.trans h.texts)
  exact ⟨hsorted, hlength⟩

/-- In an ordered dict the names are the ones that are found. -/
theorem DictsOrdered.isSome_lookupName (hordered : view.DictsOrdered)
    (h : view.DictAt present ids names values) (name : String) :
    (lookupName names values name).isSome ↔ name ∈ names := by
  obtain ⟨hsorted, hlength⟩ := hordered.dictAt h
  rw [lookupName_eq hsorted hlength]
  constructor
  · intro hsome
    obtain ⟨value, hvalue⟩ := Option.isSome_iff_exists.mp hsome
    exact (List.of_mem_zip (mem_of_lookup hvalue)).1
  · intro hmem
    cases hfound : (names.zip values).lookup name with
    | some value => rfl
    | none =>
        refine absurd ?_ (not_mem_keys_of_lookup hfound)
        rwa [List.map_fst_zip (le_of_eq hlength)]

/-- A struct and a value with the declared names are mismatched when the ids differ. -/
theorem StructAt.mismatched_iff (h : view.StructAt descriptor value metadata declared present)
    (hdeclared : view.DictAt declared ids names descriptors)
    (hpresent : view.DictAt present ids' names values) :
    view.Mismatched descriptor value ↔ ids ≠ ids' := by
  constructor
  · rintro ⟨metadata', declared', present', names'', h', -, -, hids⟩ rfl
    obtain ⟨-, rfl, rfl⟩ := h.unique h'
    rw [fieldIds, fieldIds, hdeclared.dictFieldParts, hpresent.dictFieldParts] at hids
    exact hids rfl
  · intro hids
    refine ⟨metadata, declared, present, names, h, hdeclared.dictFields, hpresent.dictFields, ?_⟩
    rw [fieldIds, fieldIds, hdeclared.dictFieldParts, hpresent.dictFieldParts]
    exact fun heq => hids (Except.ok.inj heq)

end Runs

section Outcomes

variable {left right : HeapView} {descriptor descriptor' value value' : RichValue}

/-- Observers of copies run in step, where `fields` meets a mismatch on both sides or on
neither. -/
theorem observeDynStructure_inStep (hdescriptor : left.RichAlike right descriptor descriptor')
    (hvalue : left.RichAlike right value value') {operation : DynOperation}
    (hmismatch : operation = .fields →
      (left.Mismatched descriptor value ↔ right.Mismatched descriptor' value')) (fuel : Nat) :
    InStep (left.SameObservation right) (left.observeDynStructure fuel operation descriptor value)
      (right.observeDynStructure fuel operation descriptor' value') := by
  refine (normalizeDynDescriptor_inStep fuel hdescriptor).bind_returns fun hfound hfound' halike => ?_
  obtain ⟨metadata, hmetadata, hunder⟩ := underlying_of_returns hfound
  obtain ⟨metadata', hmetadata', hunder'⟩ := underlying_of_returns hfound'
  have hdict : left.DictAlike right metadata metadata' := by
    obtain ⟨dict', hdict', hrel⟩ := Alike.asDict halike
      (show RuntimeValue.asDict _ = some metadata by rw [hmetadata]; rfl)
    rw [hmetadata'] at hdict'
    obtain rfl := Option.some.inj hdict'
    exact hrel
  rw [hmetadata, hmetadata']
  refine (hdict.atomField "kind").bind_returns fun hkind hkind' heq => ?_
  subst heq
  refine (orThrow_inStep_eq rfl).bind_returns fun hsome hsome' heq => ?_
  subst heq
  rw [returns_orThrow.mp hsome] at hkind hkind'
  cases operation with
  | field name => exact observeField_inStep hdict name hvalue
  | fields =>
      refine observeFields_inStep hdict hvalue ?_
      rintro rfl declared declared' present present' hdeclared hdeclared' hpresent hpresent'
      have hleft : left.StructAt descriptor value metadata declared present :=
        ⟨hunder, hkind, hdeclared, hpresent⟩
      have hright : right.StructAt descriptor' value' metadata' declared' present' :=
        ⟨hunder', hkind', hdeclared', hpresent'⟩
      obtain ⟨_, _, _, hcopy, hnames, hfields⟩ := hleft.alike hdescriptor hvalue
      obtain ⟨rfl, rfl, rfl⟩ := hright.unique hcopy
      obtain ⟨ids, ids', names, items, items', hat, hat', -⟩ := hnames
      obtain ⟨keys, keys', texts, values, values', hkeys, hkeys', -⟩ := hfields
      rw [fieldIds, fieldIds, fieldIds, fieldIds, hat.dictFieldParts, hat'.dictFieldParts,
        hkeys.dictFieldParts, hkeys'.dictFieldParts]
      change (Except.ok ids = Except.ok keys) ↔ (Except.ok ids' = Except.ok keys')
      rw [Except.ok.injEq, Except.ok.injEq]
      by_cases htexts : names = texts
      · subst htexts
        rw [← not_iff_not]
        exact (hleft.mismatched_iff hat hkeys).symm.trans
          ((hmismatch rfl).trans (hright.mismatched_iff hat' hkeys'))
      · -- equal ids would stand for equal texts
        refine iff_of_false ?_ ?_
        · rintro rfl
          exact htexts (Except.ok.inj (hat.texts.symm.trans hkeys.texts))
        · rintro rfl
          exact htexts (Except.ok.inj (hat'.texts.symm.trans hkeys'.texts))
  | arrayItems => exact observeArrayItems_inStep hdict hvalue
  | tupleItems => exact observeTupleItems_inStep hdict hvalue
  | tag =>
      refine (dynTaggedParts_inStep hdict fuel hvalue).bind ?_
      rintro ⟨tag, payload⟩ ⟨_, payload'⟩ ⟨rfl, -⟩
      exact .returned (.tag tag)
  | payload =>
      refine (dynTaggedParts_inStep hdict fuel hvalue).bind ?_
      rintro ⟨tag, payload⟩ ⟨_, payload'⟩ ⟨rfl, hpayload⟩
      exact .returned (.payload hpayload)

/-- A mismatch makes `fields` fail where the names agree. -/
theorem Mismatched.not_observes {view : HeapView} {metadata declared present : Handle}
    {ids ids' : List InternId} {names names' : List String} {descriptors values : List RichValue}
    (h : view.Mismatched descriptor value)
    (hat : view.StructAt descriptor value metadata declared present)
    (hdeclared : view.DictAt declared ids names descriptors)
    (hpresent : view.DictAt present ids' names' values) :
    names = names' ∧ ¬view.Observes .fields descriptor value := by
  obtain ⟨metadata', declared', present', texts, h', htexts, htexts', hids⟩ := h
  obtain ⟨-, rfl, rfl⟩ := hat.unique h'
  obtain rfl := Except.ok.inj (htexts.symm.trans hdeclared.dictFields)
  obtain rfl := Except.ok.inj (htexts'.symm.trans hpresent.dictFields)
  refine ⟨rfl, fun hobserves => ?_⟩
  rw [hat.observes_fields hdeclared hpresent] at hobserves
  rw [fieldIds, fieldIds, hdeclared.dictFieldParts, hpresent.dictFieldParts, hobserves] at hids
  exact hids rfl

/-- What is observed on one side of runs in step is observed on the other. -/
theorem observes_of_inStep {operation : DynOperation}
    (h : ∀ fuel, InStep (left.SameObservation right)
      (left.observeDynStructure fuel operation descriptor value)
      (right.observeDynStructure fuel operation descriptor' value')) :
    left.Observes operation descriptor value ↔ right.Observes operation descriptor' value' := by
  constructor
  · rintro ⟨fuel, observation, hreturns⟩
    obtain ⟨observation', hreturns', -⟩ := (h fuel).returns hreturns
    exact ⟨fuel, observation', hreturns'⟩
  · rintro ⟨fuel, observation', hreturns'⟩
    obtain ⟨observation, hreturns, -⟩ := (h fuel).returned_right hreturns'
    exact ⟨fuel, observation, hreturns⟩

/-- A mismatch has a mismatch for its copy, where `fields` succeeds on both sides or fails on
both. -/
theorem Mismatched.copy (h : left.Mismatched descriptor value)
    (hdescriptor : left.RichAlike right descriptor descriptor')
    (hvalue : left.RichAlike right value value')
    (hobserves : left.Observes .fields descriptor value ↔
      right.Observes .fields descriptor' value') : right.Mismatched descriptor' value' := by
  obtain ⟨metadata, declared, present, texts, hat, -⟩ := id h
  obtain ⟨metadata', declared', present', hat', hnames, hfields⟩ := hat.alike hdescriptor hvalue
  obtain ⟨ids, ids', names, items, items', hdeclared, hdeclared', -⟩ := hnames
  obtain ⟨keys, keys', names', values, values', hpresent, hpresent', -⟩ := hfields
  obtain ⟨rfl, hrefused⟩ := h.not_observes hat hdeclared hpresent
  rw [hat'.mismatched_iff hdeclared' hpresent']
  rintro rfl
  exact hrefused (hobserves.mpr ((hat'.observes_fields hdeclared' hpresent').mpr rfl))

/-- Under a struct `fields` is exact unless the value is mismatched. -/
theorem fieldsExact_iff (hordered : left.DictsOrdered)
    (hdescriptor : left.RichAlike right descriptor descriptor')
    (hvalue : left.RichAlike right value value') :
    left.FieldsExact descriptor value ↔ ¬left.Mismatched descriptor value := by
  -- every dict that the observers reach is read
  have hreads : ∀ {metadata declared present}, left.StructAt descriptor value metadata declared present →
      ∃ ids names descriptors ids' names' values, left.DictAt declared ids names descriptors ∧
        left.DictAt present ids' names' values := by
    intro metadata declared present hat
    obtain ⟨_, _, _, -, ⟨ids, _, names, items, _, hdeclared, -⟩, keys, _, names', values, _,
      hpresent, -⟩ := hat.alike hdescriptor hvalue
    exact ⟨ids, names, items, keys, names', values, hdeclared, hpresent⟩
  constructor
  · intro hexact hmismatched
    obtain ⟨metadata, declared, present, texts, hat, -⟩ := id hmismatched
    obtain ⟨ids, names, items, keys, names', values, hdeclared, hpresent⟩ := hreads hat
    obtain ⟨rfl, hrefused⟩ := hmismatched.not_observes hat hdeclared hpresent
    refine hrefused ((hexact metadata declared names hat.under hat.kind hat.declares
      hdeclared.dictFields).mpr ⟨fun name hname => ?_, present, names, hat.holds,
        hpresent.dictFields, List.Subset.refl _⟩)
    rw [hat.observes_field hdeclared hpresent, hordered.isSome_lookupName hdeclared,
      hordered.isSome_lookupName hpresent]
    exact ⟨hname, hname⟩
  · intro hmatched metadata declared names hunder hkind hdeclares hnames
    constructor
    · intro hobserves
      have hrun : ∀ fuel, left.observeKind fuel "Struct" metadata .fields value =
          left.observeFields "Struct" metadata value := fun _ => rfl
      obtain ⟨observation, hreturns⟩ := (observes_iff hunder hkind hrun).mp hobserves
      obtain ⟨present, hholds, -⟩ := returns_bind.mp hreturns
      have hat : left.StructAt descriptor value metadata declared present :=
        ⟨hunder, hkind, hdeclares, returns_orThrow.mp hholds⟩
      obtain ⟨ids, _, items, keys, names', values, hdeclared, hpresent⟩ := hreads hat
      obtain rfl := Except.ok.inj (hnames.symm.trans hdeclared.dictFields)
      obtain rfl := (hat.observes_fields hdeclared hpresent).mp hobserves
      obtain rfl := Except.ok.inj (hdeclared.texts.symm.trans hpresent.texts)
      refine ⟨fun name hname => ?_, present, names, hat.holds, hpresent.dictFields,
        List.Subset.refl _⟩
      rw [hat.observes_field hdeclared hpresent, hordered.isSome_lookupName hdeclared,
        hordered.isSome_lookupName hpresent]
      exact ⟨hname, hname⟩
    · rintro ⟨hall, present, names', hholds, hnames', hsubset⟩
      have hat : left.StructAt descriptor value metadata declared present :=
        ⟨hunder, hkind, hdeclares, hholds⟩
      obtain ⟨ids, _, items, keys, _, values, hdeclared, hpresent⟩ := hreads hat
      obtain rfl := Except.ok.inj (hnames.symm.trans hdeclared.dictFields)
      obtain rfl := Except.ok.inj (hnames'.symm.trans hpresent.dictFields)
      have hequal : names = names' := by
        refine (hordered.dictAt hdeclared).1.eq_of_mem_iff (hordered.dictAt hpresent).1 fun name => ?_
        refine ⟨fun hname => ?_, fun hname => hsubset hname⟩
        have hfield := (hat.observes_field hdeclared hpresent name).mp (hall name hname)
        exact (hordered.isSome_lookupName hpresent name).mp hfield.1
      subst hequal
      rw [hat.observes_fields hdeclared hpresent]
      by_contra hids
      exact hmatched ((hat.mismatched_iff hdeclared hpresent).mpr hids)

end Outcomes

/-- Every observer answers alike for copies exactly when it is not `fields` or both sides are
mismatched or neither is, and `fields` is exact exactly when the value is not mismatched.
Publication of either operand makes copies, and so does an import of what was exported. -/
theorem dyn_observers_see_structure (left right : HeapView) (hordered : left.DictsOrdered)
    {descriptor descriptor' value value' : RichValue}
    (hdescriptor : left.RichAlike right descriptor descriptor')
    (hvalue : left.RichAlike right value value') :
    (∀ operation, (∀ fuel, InStep (left.SameObservation right)
        (left.observeDynStructure fuel operation descriptor value)
        (right.observeDynStructure fuel operation descriptor' value')) ↔
      (operation = .fields →
        (left.Mismatched descriptor value ↔ right.Mismatched descriptor' value'))) ∧
    (left.FieldsExact descriptor value ↔ ¬left.Mismatched descriptor value) ∧
    (∀ (target work target' : Heap) (root root' : RichValue), left = world target work →
      Publishable target work → left.WellKinded → left.Initialized → left.ValueKinded root.value →
      publishRoot target work root = .ok (root', target') →
      left.RichAlike (world target' work) root root' ∧
        ∀ other : RichValue, left.ValueKinded other.value →
          left.RichAlike (world target' work) other other) ∧
    ∀ (rich imported : RichValue) (exported : Value) (heap' : Heap) (next next' : Nat),
      Backed left.background left.current → ¬left.HoldsUpLink rich.value →
      (left.exportValue rich).run next = .ok (exported, next') →
      importValue left.background left.current exported = .ok (imported, heap') →
      left.RichAlike ⟨heap', left.background⟩ rich imported := by
  refine ⟨fun operation => ⟨?_, ?_⟩, fieldsExact_iff hordered hdescriptor hvalue, ?_, ?_⟩
  · rintro hstep rfl
    have hobserves := observes_of_inStep hstep
    exact ⟨fun h => h.copy hdescriptor hvalue hobserves,
      fun h => h.copy hdescriptor.symm hvalue.symm hobserves.symm⟩
  · exact observeDynStructure_inStep hdescriptor hvalue
  · rintro target work target' root root' rfl hpub hkinded hinit hroot h
    exact ⟨alike_of_publishRoot hpub hkinded hinit hroot h,
      fun other hother => alike_beside_publishRoot hpub hkinded hinit hroot h hother⟩
  · intro rich imported exported heap' next next' hbacked hlink hexport himport
    exact alike_of_reimport hbacked hlink hexport himport

/-- A main heap with the metadata of `Struct {a: Int}`, and the value `{a: 1}`. -/
def mixedMain : Heap :=
  { Heap.main with
    text := ["a", "fields", "kind", "Int", "Struct"].foldl (fun table text => (table.insert text).1)
      .empty
    shapes := [[⟨.main, 0⟩], [⟨.main, 1⟩, ⟨.main, 2⟩], [⟨.main, 2⟩]].foldl
      (fun table shape => (table.insert shape).1) .empty
    objects := [
      .dict ⟨.main, 2⟩ [.unknown (.atom ⟨.main, 3⟩)],
      .dict ⟨.main, 0⟩ [.unknown (.dict ⟨.main, 0⟩)],
      .dict ⟨.main, 1⟩ [.unknown (.dict ⟨.main, 1⟩), .unknown (.atom ⟨.main, 4⟩)],
      .dict ⟨.main, 0⟩ [.unknown (.int 1)]] }

/-- A work heap with the value `{a: 1}` under an `a` of its own. -/
def mixedWork : Heap :=
  { Heap.work with
    text := (InternTable.empty.insert "a").1
    shapes := (InternTable.empty.insert [⟨.work, 0⟩]).1
    objects := [.dict ⟨.work, 0⟩ [.unknown (.int 1)]] }

def mixedView : HeapView := world mixedMain mixedWork

/-- The published type, the published value, and the rebuilt value. -/
def mixedDescriptor : RichValue := .unknown (.dict ⟨.main, 2⟩)

def mixedPublished : RichValue := .unknown (.dict ⟨.main, 3⟩)

def mixedRebuilt : RichValue := .unknown (.dict ⟨.work, 0⟩)

/-- The parts of the type, each with itself, and the published value with the rebuilt one. -/
def mixedCopies (a b : RuntimeValue) : Prop :=
  a = b ∧ a ∈ [RuntimeValue.dict ⟨.main, 0⟩, .dict ⟨.main, 1⟩, .dict ⟨.main, 2⟩,
      .atom ⟨.main, 3⟩, .atom ⟨.main, 4⟩, .int 1] ∨
    a = .dict ⟨.main, 3⟩ ∧ b = .dict ⟨.work, 0⟩

theorem mixedView_alike : mixedView.RichAlike mixedView mixedDescriptor mixedDescriptor ∧
    mixedView.RichAlike mixedView mixedPublished mixedRebuilt := by
  have hpart {a : RuntimeValue} (h : a ∈ [RuntimeValue.dict ⟨.main, 0⟩, .dict ⟨.main, 1⟩,
      .dict ⟨.main, 2⟩, .atom ⟨.main, 3⟩, .atom ⟨.main, 4⟩, .int 1]) : mixedCopies a a :=
    .inl ⟨rfl, h⟩
  have hstep : ∀ {a b}, mixedCopies a b → mixedView.Alike mixedView a b := by
    intro a b h
    refine .of_step mixedCopies ?_ h
    rintro a b (⟨rfl, hmem⟩ | ⟨rfl, rfl⟩)
    · simp only [List.mem_cons, List.not_mem_nil, or_false] at hmem
      rcases hmem with rfl | rfl | rfl | rfl | rfl | rfl
      · exact .inr (.inr ⟨.dict ["kind"], _, _, rfl, rfl, .cons (hpart (by decide)) .nil⟩)
      · exact .inr (.inr ⟨.dict ["a"], _, _, rfl, rfl, .cons (hpart (by decide)) .nil⟩)
      · exact .inr (.inr ⟨.dict ["fields", "kind"], _, _, rfl, rfl,
          .cons (hpart (by decide)) (.cons (hpart (by decide)) .nil)⟩)
      · exact .inr (.inl ⟨.atom "Int", rfl, rfl⟩)
      · exact .inr (.inl ⟨.atom "Struct", rfl, rfl⟩)
      · exact .inr (.inl ⟨.int 1, rfl, rfl⟩)
    · exact .inr (.inr ⟨.dict ["a"], _, _, rfl, rfl, .cons (hpart (by decide)) .nil⟩)
  exact ⟨hstep (hpart (by decide)), hstep (.inr ⟨rfl, rfl⟩)⟩

/-- The dicts of the two heaps are ordered. -/
theorem mixedView_ordered : mixedView.DictsOrdered := by
  intro handle shape values hobject
  obtain ⟨heap, hheap, hslot⟩ := object_eq_ok.mp hobject
  have hmem := List.mem_of_getElem? hslot
  cases hs : handle.storage with
  | work =>
      rw [hs] at hheap
      obtain rfl : mixedWork = heap := Except.ok.inj hheap
      obtain ⟨rfl, rfl⟩ : shape = ⟨.work, 0⟩ ∧ values = [.unknown (.int 1)] := by
        simpa [mixedWork] using hmem
      exact ⟨["a"], rfl, rfl, by decide⟩
  | main =>
      rw [hs] at hheap
      obtain rfl : mixedMain = heap := Except.ok.inj hheap
      simp only [mixedMain, List.mem_cons, Object.dict.injEq, List.not_mem_nil, or_false] at hmem
      rcases hmem with ⟨rfl, rfl⟩ | ⟨rfl, rfl⟩ | ⟨rfl, rfl⟩ | ⟨rfl, rfl⟩
      · exact ⟨["kind"], rfl, rfl, by decide⟩
      · exact ⟨["a"], rfl, rfl, by decide⟩
      · exact ⟨["fields", "kind"], rfl, rfl, by decide⟩
      · exact ⟨["a"], rfl, rfl, by decide⟩

/-- `fields` succeeds for the published value and fails for its copy, which has the
declared field. -/
theorem fields_fails_for_rebuilt_value :
    mixedView.RichAlike mixedView mixedDescriptor mixedDescriptor ∧
    mixedView.RichAlike mixedView mixedPublished mixedRebuilt ∧
    (mixedView.observeDynStructure 1 .fields mixedDescriptor mixedPublished).run =
      some (.ok (.namedChildren [("a", .unknown (.dict ⟨.main, 0⟩), .unknown (.int 1))])) ∧
    (mixedView.observeDynStructure 1 (.field "a") mixedDescriptor mixedRebuilt).run =
      some (.ok (.child (.unknown (.dict ⟨.main, 0⟩)) (.unknown (.int 1)))) ∧
    (mixedView.observeDynStructure 1 .fields mixedDescriptor mixedRebuilt).run =
      some (.error "Struct descriptor and runtime value have different fields") :=
  ⟨mixedView_alike.1, mixedView_alike.2, by decide +kernel, by decide +kernel, by decide +kernel⟩

theorem dyn_observers_see_structure_mixed :
    mixedView.DictsOrdered ∧
    (∀ operation, (∀ fuel, InStep (mixedView.SameObservation mixedView)
        (mixedView.observeDynStructure fuel operation mixedDescriptor mixedPublished)
        (mixedView.observeDynStructure fuel operation mixedDescriptor mixedRebuilt)) ↔
      (operation = .fields →
        (mixedView.Mismatched mixedDescriptor mixedPublished ↔
          mixedView.Mismatched mixedDescriptor mixedRebuilt))) :=
  ⟨mixedView_ordered, (dyn_observers_see_structure mixedView mixedView mixedView_ordered
    mixedView_alike.1 mixedView_alike.2).1⟩

end HeapView

end Telora
