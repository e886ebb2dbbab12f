import Mathlib.Data.Set.Finite.List
import Mathlib.Order.Filter.Finite
import Telora.Types.Validate

/-!
# The native validation

The native decodes the metadata of a type and checks a value against what it describes.
Metadata is a graph, and decoding it follows every link again: it answers on the metadata
that is a tree, where the answer says whether the value is a member, and on no other.
-/

namespace Telora.HeapView

open Library
open Filter (atTop)

/-- What the native gives back. -/
inductive Reply where
  | ok (value : RuntimeValue)
  | err (message : String) (data rule : RuntimeValue)

section Native

variable (view : HeapView)

/-- The native, which decodes metadata down to a depth. -/
def nativeValidate (depth : Nat) (type value : RuntimeValue) : Decoding Reply := do
  let descriptor ← view.decodeTypeRef depth type "Type"
  match validateValueRef view (view.decodeTypeRef depth) descriptor value "value" with
  | none => .none
  | some (.ok _) => return .ok value
  | some (.error message) => return .err message value type

/-- The members of a type by its metadata, where a link stands for what it leads to. -/
inductive MemberOf : RuntimeValue → RuntimeValue → Prop where
  | link {type target value} : view.LinkTo type target → MemberOf target value →
      MemberOf type value
  | inner {type target value} : view.HasLayer type (.inner target) → MemberOf target value →
      MemberOf type value
  | plain {type plainType value} : view.HasLayer type (.plain plainType) →
      view.Member plainType.descriptor value → MemberOf type value
  | opaqueType {type expected actual value} : view.HasLayer type (.opaqueType expected) →
      view.opaqueNativeType value = some actual → actual.id = expected.id → MemberOf type value
  | typeOf {type described expected actual value} : view.HasLayer type (.typeOf described) →
      view.Describes described expected → view.Describes value actual →
      TypeDescriptor.assignable actual expected = true →
      TypeDescriptor.assignable expected actual = true → MemberOf type value
  | atom {type tag value} : view.HasLayer type (.atom tag) → view.asAtom value = some tag.name →
      MemberOf type value
  | array {type item value items} : view.HasLayer type (.array item) →
      view.arrayItems value = some items → (∀ x ∈ items, MemberOf item x) → MemberOf type value
  | dict {type item value found} : view.HasLayer type (.dict item) →
      view.entries value = some found → (∀ entry ∈ found, MemberOf item entry.2) →
      MemberOf type value
  | tagged {type tag payload value t p} : view.HasLayer type (.tagged tag payload) →
      view.tagAndPayload value = some (t, p) → view.asAtom t = some tag.name →
      MemberOf payload p → MemberOf type value
  | tuple {type items value values} : view.HasLayer type (.tuple items) →
      view.tupleItems value = some values → items.length = values.length →
      (∀ pair ∈ items.zip values, MemberOf pair.1 pair.2) → MemberOf type value
  | struct {type fields value found} : view.HasLayer type (.struct fields) →
      view.entries value = some found → fields.map (·.1) = found.map (·.1) →
      (∀ pair ∈ fields.zip found, MemberOf pair.1.2 pair.2.2) → MemberOf type value
  | unit {type variants value tag} : view.HasLayer type (.enum variants) →
      view.asAtom value = some tag → variants.lookup tag = some none → MemberOf type value
  | variant {type variants value t p tag payload} : view.HasLayer type (.enum variants) →
      view.tagAndPayload value = some (t, p) → view.asAtom t = some tag →
      variants.lookup tag = some (some payload) → MemberOf payload p → MemberOf type value
  | union {type variants variant value} : view.HasLayer type (.union variants) →
      variant ∈ variants → MemberOf variant value → MemberOf type value
  | function {type parameters result value} : view.HasLayer type (.function parameters result) →
      view.arityOf value = some parameters.length → MemberOf type value

/-- The native ends; it gives the value back when it is a member of the type, and otherwise
an error about the value. -/
def ValidatesRight (type value : RuntimeValue) : Prop :=
  ∀ᶠ depth in atTop, ∃ reply, (view.nativeValidate depth type value).Is reply ∧
    (view.MemberOf type value → reply = .ok value) ∧
    (¬view.MemberOf type value → ∃ message, reply = .err message value type)

/-- One metadata value directly below another one. -/
def TypePart (child parent : RuntimeValue) : Prop :=
  (∃ layer, view.HasLayer parent layer ∧ child ∈ layer.children) ∨ view.LinkTo parent child

/-- Metadata whose links are all set and whose layers are all well formed, in any cycles. -/
def Sealed (type : RuntimeValue) : Prop :=
  ∃ types : Set RuntimeValue, type ∈ types ∧ ∀ type ∈ types,
    (∃ layer, view.HasLayer type layer ∧ ∀ child ∈ layer.children, child ∈ types) ∨
      ∃ target, view.LinkTo type target ∧ target ∈ types

/-- Metadata without a cycle, in which no link leads to another link. -/
structure IsTree (type : RuntimeValue) : Prop where
  acyclic : Acc view.TypePart type
  direct : ∀ part, Relation.ReflTransGen view.TypePart part type →
    ∀ target, view.LinkTo part target → target.isLink = false

end Native

variable {view : HeapView}

section Members

theorem memberItems_iff {items : List TypeDescriptor} {values : List RuntimeValue} :
    view.MemberItems items values ↔ items.length = values.length ∧
      ∀ pair ∈ items.zip values, view.Member pair.1 pair.2 := by
  induction items generalizing values with
  | nil => cases values <;> simp [MemberItems]
  | cons item items ih =>
      cases values with
      | nil => simp [MemberItems]
      | cons value values =>
          simp only [MemberItems, ih, List.length_cons, Nat.add_right_cancel_iff,
            List.zip_cons_cons, List.forall_mem_cons]
          exact and_left_comm

theorem memberFields_iff {fields : List (String × TypeDescriptor)}
    {found : List (String × RuntimeValue)} :
    view.MemberFields fields found ↔ fields.map (·.1) = found.map (·.1) ∧
      ∀ pair ∈ fields.zip found, view.Member pair.1.2 pair.2.2 := by
  induction fields generalizing found with
  | nil => cases found <;> simp [MemberFields]
  | cons field fields ih =>
      cases found with
      | nil => simp [MemberFields]
      | cons entry found =>
          simp only [MemberFields, ih, List.map_cons, List.cons.injEq, List.zip_cons_cons,
            List.forall_mem_cons]
          exact and_and_and_comm

theorem memberPayload_iff {variants : List (String × Option TypeDescriptor)} {tag : String}
    {value : RuntimeValue} :
    view.MemberPayload variants tag value ↔ ∃ payload,
      variants.lookup tag = some (some payload) ∧ view.Member payload value := by
  induction variants with
  | nil => simp [MemberPayload]
  | cons variant variants ih =>
      obtain ⟨name, payload⟩ := variant
      by_cases h : tag = name
      · subst h
        cases payload <;> simp [MemberPayload]
      · have hne : (tag == name) = false := beq_false_of_ne h
        cases payload <;> simp [MemberPayload, List.lookup_cons, hne, h, ih]

theorem memberAny_iff {variants : List TypeDescriptor} {value : RuntimeValue} :
    view.MemberAny variants value ↔ ∃ variant ∈ variants, view.Member variant value := by
  induction variants with
  | nil => simp [MemberAny]
  | cons variant variants ih => simp [MemberAny, ih]

variable (hview : view.DictsOrdered)

include hview

/-- What metadata with a layer describes. -/
theorem Describes.of_layer {type : RuntimeValue} {d : TypeDescriptor}
    (h : view.Describes type d) {layer : TypeLayer RuntimeValue (Option RuntimeValue)}
    (hlayer : view.HasLayer type layer) : ∃ described : RuntimeValue → TypeDescriptor,
      (∀ child ∈ layer.children, view.Describes child (described child)) ∧
        d = (layer.map described (Option.map described)).descriptor := by
  cases h with
  | layer hlayer' hchildren =>
      obtain rfl := hlayer.unique hview hlayer'
      exact ⟨_, hchildren, rfl⟩
  | link hlink _ _ => exact absurd (hlayer.not_link.symm.trans hlink.isLink) Bool.false_ne_true

omit hview in
theorem Describes.of_link {type target : RuntimeValue} {d : TypeDescriptor}
    (h : view.Describes type d) (hlink : view.LinkTo type target) : view.Describes target d := by
  cases h with
  | layer hlayer _ => exact absurd (hlayer.not_link.symm.trans hlink.isLink) Bool.false_ne_true
  | link hlink' _ h => exact hlink.unique hlink' ▸ h

theorem member_of_memberOf {type value : RuntimeValue} (h : view.MemberOf type value)
    {d : TypeDescriptor} (hd : view.Describes type d) : view.Member d value := by
  induction h generalizing d with
  | link hlink _ ih => exact ih (hd.of_link hlink)
  | inner hlayer _ ih =>
      obtain ⟨described, hchildren, rfl⟩ := hd.of_layer hview hlayer
      exact ih (hchildren _ List.mem_cons_self)
  | plain hlayer hmember =>
      obtain ⟨described, hchildren, rfl⟩ := hd.of_layer hview hlayer
      exact hmember
  | opaqueType hlayer hactual hid =>
      obtain ⟨described, hchildren, rfl⟩ := hd.of_layer hview hlayer
      exact ⟨_, hactual, hid⟩
  | typeOf hlayer hexpected hactual h h' =>
      obtain ⟨described, hchildren, rfl⟩ := hd.of_layer hview hlayer
      obtain rfl := hexpected.unique hview (hchildren _ List.mem_cons_self)
      exact ⟨_, hactual, h, h'⟩
  | atom hlayer htag =>
      obtain ⟨described, hchildren, rfl⟩ := hd.of_layer hview hlayer
      exact htag
  | array hlayer hitems _ ih =>
      obtain ⟨described, hchildren, rfl⟩ := hd.of_layer hview hlayer
      exact ⟨_, hitems, fun x hx => ih x hx (hchildren _ List.mem_cons_self)⟩
  | dict hlayer hentries _ ih =>
      obtain ⟨described, hchildren, rfl⟩ := hd.of_layer hview hlayer
      exact ⟨_, hentries, fun entry hentry => ih entry hentry (hchildren _ List.mem_cons_self)⟩
  | tagged hlayer hparts htag _ ih =>
      obtain ⟨described, hchildren, rfl⟩ := hd.of_layer hview hlayer
      exact ⟨_, _, hparts, htag, ih (hchildren _ List.mem_cons_self)⟩
  | @tuple type items value values hlayer hvalues hlength _ ih =>
      obtain ⟨described, hchildren, rfl⟩ := hd.of_layer hview hlayer
      refine ⟨values, hvalues, memberItems_iff.mpr ⟨by simpa using hlength, ?_⟩⟩
      rw [List.zip_map_left, List.forall_mem_map]
      intro pair hpair
      exact ih pair hpair (hchildren _ (List.mem_append_left _ (List.of_mem_zip hpair).1))
  | @struct type fields value found hlayer hfound hnames _ ih =>
      obtain ⟨described, hchildren, rfl⟩ := hd.of_layer hview hlayer
      refine ⟨found, hfound, memberFields_iff.mpr
        ⟨by simpa [Function.comp_def] using hnames, ?_⟩⟩
      rw [List.zip_map_left, List.forall_mem_map]
      intro pair hpair
      exact ih pair hpair (hchildren _ (List.mem_append_left _
        (List.mem_map_of_mem (List.of_mem_zip hpair).1)))
  | unit hlayer htag hlookup =>
      obtain ⟨described, hchildren, rfl⟩ := hd.of_layer hview hlayer
      refine .inl ⟨_, htag, ?_⟩
      rw [lookup_map_snd, hlookup]
      rfl
  | @variant type variants value t p tag payload hlayer hparts htag hlookup _ ih =>
      obtain ⟨described, hchildren, rfl⟩ := hd.of_layer hview hlayer
      refine .inr ⟨t, p, tag, hparts, htag, memberPayload_iff.mpr ⟨described payload, ?_, ih ?_⟩⟩
      · rw [lookup_map_snd, hlookup]
        rfl
      · refine hchildren _ (List.mem_append_right _ (List.mem_filterMap.mpr ⟨some payload, ?_, rfl⟩))
        exact List.mem_map_of_mem (mem_of_lookup hlookup)
  | union hlayer hvariant _ ih =>
      obtain ⟨described, hchildren, rfl⟩ := hd.of_layer hview hlayer
      exact memberAny_iff.mpr ⟨_, List.mem_map_of_mem hvariant,
        ih (hchildren _ (List.mem_append_left _ hvariant))⟩
  | function hlayer harity =>
      obtain ⟨described, hchildren, rfl⟩ := hd.of_layer hview hlayer
      simpa [TypeLayer.map, TypeLayer.descriptor, Member] using harity

omit hview in
theorem memberOf_of_member {type : RuntimeValue} {d : TypeDescriptor} (hd : view.Describes type d)
    {value : RuntimeValue} (h : view.Member d value) : view.MemberOf type value := by
  induction hd generalizing value with
  | link hlink _ _ ih => exact .link hlink (ih h)
  | @layer type layer described hlayer hchildren ih =>
      cases layer with
      | inner target => exact .inner hlayer (ih target List.mem_cons_self h)
      | bound => exact h.elim
      | plain => exact .plain hlayer h
      | opaqueType =>
          obtain ⟨actual, hactual, hid⟩ := h
          exact .opaqueType hlayer hactual hid
      | typeOf =>
          obtain ⟨actual, hactual, h, h'⟩ := h
          exact .typeOf hlayer (hchildren _ List.mem_cons_self) hactual h h'
      | atom => exact .atom hlayer h
      | array =>
          obtain ⟨items, hitems, h⟩ := h
          exact .array hlayer hitems fun x hx => ih _ List.mem_cons_self (h x hx)
      | dict =>
          obtain ⟨found, hfound, h⟩ := h
          exact .dict hlayer hfound fun entry hentry => ih _ List.mem_cons_self (h entry hentry)
      | tagged =>
          obtain ⟨t, p, hparts, htag, h⟩ := h
          exact .tagged hlayer hparts htag (ih _ List.mem_cons_self h)
      | tuple items =>
          obtain ⟨values, hvalues, h⟩ := h
          obtain ⟨hlength, h⟩ := memberItems_iff.mp h
          rw [List.zip_map_left, List.forall_mem_map] at h
          refine .tuple hlayer hvalues (by simpa using hlength) fun pair hpair => ?_
          exact ih _ (List.mem_append_left _ (List.of_mem_zip hpair).1) (h pair hpair)
      | struct fields =>
          obtain ⟨found, hfound, h⟩ := h
          obtain ⟨hnames, h⟩ := memberFields_iff.mp h
          rw [List.zip_map_left, List.forall_mem_map] at h
          refine .struct hlayer hfound (by simpa [Function.comp_def] using hnames)
            fun pair hpair => ?_
          exact ih _ (List.mem_append_left _ (List.mem_map_of_mem (List.of_mem_zip hpair).1))
            (h pair hpair)
      | enum variants =>
          obtain ⟨tag, htag, h⟩ | ⟨t, p, tag, hparts, htag, h⟩ := h
          · rw [lookup_map_snd, Option.map_eq_some_iff] at h
            obtain ⟨payload, hlookup, hpayload⟩ := h
            obtain rfl := Option.map_eq_none_iff.mp hpayload
            exact .unit hlayer htag hlookup
          · obtain ⟨_, hlookup, h⟩ := memberPayload_iff.mp h
            rw [lookup_map_snd, Option.map_eq_some_iff] at hlookup
            obtain ⟨payload, hlookup, hpayload⟩ := hlookup
            obtain ⟨payload, rfl, rfl⟩ := Option.map_eq_some_iff.mp hpayload
            refine .variant hlayer hparts htag hlookup (ih _ ?_ h)
            refine List.mem_append_right _ (List.mem_filterMap.mpr ⟨some payload, ?_, rfl⟩)
            exact List.mem_map_of_mem (mem_of_lookup hlookup)
      | union variants =>
          obtain ⟨_, hvariant, h⟩ := memberAny_iff.mp h
          obtain ⟨variant, hmem, rfl⟩ := List.mem_map.mp hvariant
          exact .union hlayer hmem (ih _ (List.mem_append_left _ hmem) h)
      | function =>
          refine .function hlayer ?_
          simpa [TypeLayer.map, TypeLayer.descriptor, Member] using h

/-- On metadata that describes a type, membership is that of the type. -/
theorem memberOf_iff {type value : RuntimeValue} {d : TypeDescriptor}
    (hd : view.Describes type d) : view.MemberOf type value ↔ view.Member d value :=
  ⟨fun h => member_of_memberOf hview h hd, memberOf_of_member hd⟩

end Members

section Inside

/-- What is directly inside a value, as its object has it. -/
private def contents (object : Object) : List RuntimeValue :=
  match object with
  | .array values | .tuple values | .dict _ values => values.map (·.value)
  | .tagged tag payload => [tag.value, payload.value]
  | _ => []

theorem inside_finite (value : RuntimeValue) : {part | view.Inside part value}.Finite := by
  have hobject (handle : Handle) (h : ∀ part, view.Inside part value →
      ∃ object, view.object handle = .ok object ∧ part ∈ contents object) :
      {part | view.Inside part value}.Finite := by
    cases hobject : view.object handle with
    | error e =>
        refine Set.finite_empty.subset fun part hpart => ?_
        obtain ⟨object, hok, -⟩ := h part hpart
        cases hobject.symm.trans hok
    | ok object =>
        refine (List.finite_toSet (contents object)).subset fun part hpart => ?_
        obtain ⟨object', hok, hmem⟩ := h part hpart
        cases hobject.symm.trans hok
        exact hmem
  cases value with
  | array handle =>
      refine hobject handle fun part hpart => ?_
      cases hpart with
      | array hobject hitem => exact ⟨_, hobject, List.mem_map_of_mem hitem⟩
  | tuple handle =>
      refine hobject handle fun part hpart => ?_
      cases hpart with
      | tuple hobject hitem => exact ⟨_, hobject, List.mem_map_of_mem hitem⟩
  | tagged handle =>
      refine hobject handle fun part hpart => ?_
      cases hpart with
      | tag hobject => exact ⟨_, hobject, List.mem_cons_self⟩
      | payload hobject => exact ⟨_, hobject, List.mem_cons_of_mem _ List.mem_cons_self⟩
  | dict handle =>
      refine hobject handle fun part hpart => ?_
      cases hpart with
      | dict hobject hitem => exact ⟨_, hobject, List.mem_map_of_mem hitem⟩
  | _ => exact Set.finite_empty.subset fun part hpart => by cases hpart

variable (hview : view.DictsOrdered)

include hview

/-- Inside a finite value the decoder ends, with what is described there. -/
theorem decodesInside {value : RuntimeValue} (h : view.FiniteValue value) :
    ∀ᶠ depth in atTop, view.DecodesInside (view.decodeTypeRef depth) value := by
  induction h with
  | @mk value hlink hreadable hparts ih =>
      have hfinite : view.FiniteValue value := .mk hlink hreadable hparts
      have hhere : ∀ᶠ depth in atTop, ∀ path, (view.decodeTypeRef depth value path).Comes ∧
          ∀ d, (view.decodeTypeRef depth value path).Is d ↔ view.Describes value d := by
        by_cases hd : ∃ d, view.Describes value d
        · obtain ⟨d, hd⟩ := hd
          filter_upwards [decode_of_describes hview hd] with depth hdecode path
          refine ⟨(hdecode path).comes, fun d' => ⟨describes_of_decode hview, fun hd' => ?_⟩⟩
          exact hd'.unique hview hd ▸ hdecode path
        · filter_upwards [decode_comes hview hfinite] with depth hcomes path
          exact ⟨hcomes path, fun d => iff_of_false
            (fun h => hd ⟨d, describes_of_decode hview h⟩) fun h => hd ⟨d, h⟩⟩
      have hbelow : ∀ᶠ depth in atTop, ∀ part ∈ {part | view.Inside part value},
          view.DecodesInside (view.decodeTypeRef depth) part :=
        (Filter.eventually_all_finite (inside_finite value)).mpr fun part hpart => ih part hpart
      filter_upwards [hhere, hbelow] with depth hhere hbelow part hpart
      obtain rfl | ⟨next, hnext, hlast⟩ := Relation.ReflTransGen.cases_tail hpart
      · exact hhere
      · exact hbelow next hlast part hnext

end Inside

section Tree

variable (hview : view.DictsOrdered)

theorem Sealed.of_layer (hview : view.DictsOrdered) {type : RuntimeValue}
    (h : view.Sealed type) {layer : TypeLayer RuntimeValue (Option RuntimeValue)}
    (hlayer : view.HasLayer type layer) {child : RuntimeValue} (hchild : child ∈ layer.children) :
    view.Sealed child := by
  obtain ⟨types, hmem, htypes⟩ := h
  obtain ⟨layer', hlayer', hchildren⟩ | ⟨target, hlink, -⟩ := htypes type hmem
  · obtain rfl := hlayer.unique hview hlayer'
    exact ⟨types, hchildren child hchild, htypes⟩
  · exact absurd (hlayer.not_link.symm.trans hlink.isLink) Bool.false_ne_true

theorem Sealed.of_link {type target : RuntimeValue} (h : view.Sealed type)
    (hlink : view.LinkTo type target) : view.Sealed target := by
  obtain ⟨types, hmem, htypes⟩ := h
  obtain ⟨layer, hlayer, -⟩ | ⟨target', hlink', htarget⟩ := htypes type hmem
  · exact absurd (hlayer.not_link.symm.trans hlink.isLink) Bool.false_ne_true
  · exact ⟨types, hlink'.unique hlink ▸ htarget, htypes⟩

theorem IsTree.below {type part : RuntimeValue} (h : view.IsTree type)
    (hpart : view.TypePart part type) : view.IsTree part where
  acyclic := h.acyclic.inv hpart
  direct inner hinner := h.direct inner (hinner.tail hpart)

include hview

/-- What describes a type is a tree. -/
theorem Describes.isTree {type : RuntimeValue} {d : TypeDescriptor} (h : view.Describes type d) :
    view.IsTree type := by
  induction h with
  | @layer type layer described hlayer _ ih =>
      have hpart : ∀ part, view.TypePart part type → part ∈ layer.children := by
        rintro part (⟨layer', hlayer', hmem⟩ | hlink)
        · exact hlayer.unique hview hlayer' ▸ hmem
        · exact absurd (hlayer.not_link.symm.trans hlink.isLink) Bool.false_ne_true
      refine ⟨.intro _ fun part h => (ih part (hpart part h)).acyclic, fun part h target hlink => ?_⟩
      obtain rfl | ⟨next, hnext, hlast⟩ := Relation.ReflTransGen.cases_tail h
      · exact absurd (hlayer.not_link.symm.trans hlink.isLink) Bool.false_ne_true
      · exact (ih next (hpart next hlast)).direct part hnext target hlink
  | @link type target d hlink htarget _ ih =>
      have hpart : ∀ part, view.TypePart part type → part = target := by
        rintro part (⟨layer, hlayer, -⟩ | hlink')
        · exact absurd (hlayer.not_link.symm.trans hlink.isLink) Bool.false_ne_true
        · exact hlink'.unique hlink
      refine ⟨.intro _ fun part h => hpart part h ▸ ih.acyclic, fun part h target' hlink' => ?_⟩
      obtain rfl | ⟨next, hnext, hlast⟩ := Relation.ReflTransGen.cases_tail h
      · exact hlink.unique hlink' ▸ htarget
      · obtain rfl := hpart next hlast
        exact ih.direct part hnext target' hlink'

/-- A sealed tree describes a type. -/
theorem exists_describes {type : RuntimeValue} (hsealed : view.Sealed type)
    (htree : view.IsTree type) : ∃ d, view.Describes type d := by
  have hacyclic := htree.acyclic
  induction hacyclic with
  | intro type _ ih =>
      obtain ⟨types, hmem, htypes⟩ := id hsealed
      obtain ⟨layer, hlayer, -⟩ | ⟨target, hlink, -⟩ := htypes type hmem
      · have hchildren : ∀ child ∈ layer.children, ∃ d, view.Describes child d := by
          intro child hchild
          have hpart : view.TypePart child type := .inl ⟨layer, hlayer, hchild⟩
          exact ih child hpart (hsealed.of_layer hview hlayer hchild) (htree.below hpart)
        choose! described hdescribed using hchildren
        exact ⟨_, .layer hlayer hdescribed⟩
      · have hpart : view.TypePart target type := .inr hlink
        obtain ⟨d, hd⟩ := ih target hpart (hsealed.of_link hlink) (htree.below hpart)
        exact ⟨d, .link hlink (htree.direct type .refl target hlink) hd⟩

end Tree

section Answer

variable (hview : view.DictsOrdered)

include hview

/-- On a finite value the native ends with the answer for the described type. -/
theorem nativeValidate_of_describes {type value : RuntimeValue} {d : TypeDescriptor}
    (hd : view.Describes type d) (hvalue : view.FiniteValue value) :
    view.ValidatesRight type value := by
  filter_upwards [decode_of_describes hview hd, decodesInside hview hvalue] with depth htype hinside
  have hchecks := validate_checks hview d value "value" hvalue hinside
  obtain ⟨result, hresult⟩ := hchecks.comes
  have hmember := (memberOf_iff hview hd).trans hchecks.accepts.symm
  cases result with
  | ok =>
      refine ⟨.ok value, Answer.bind_is.mpr ⟨d, htype "Type", ?_⟩, fun _ => rfl, fun h => ?_⟩
      · rw [hresult]
        exact Answer.pure_is.mpr rfl
      · exact absurd (hmember.mpr hresult) h
  | error message =>
      refine ⟨.err message value type, Answer.bind_is.mpr ⟨d, htype "Type", ?_⟩, fun h => ?_,
        fun _ => ⟨message, rfl⟩⟩
      · rw [hresult]
        exact Answer.pure_is.mpr rfl
      · cases Option.some.inj (hresult.symm.trans (hmember.mp h))

/-- An array type that is its own item is decoded at no depth. -/
theorem decodeTypeRef_eq_none {type link : RuntimeValue}
    (hraw : view.RawLayer type (.array link)) (hlink : view.LinkTo link type)
    (hplain : type.isLink = false) (depth : Nat) (path : String) :
    view.decodeTypeRef depth type path = .none := by
  induction depth generalizing path with
  | zero => rfl
  | succ depth ih =>
      have hresolved : view.resolveHiddenUpLink type = .ok type := by
        cases type <;> first | rfl | cases hplain
      have hread : view.readResolved type path = some (.ok (.array link)) :=
        readResolved_of_rawLayer hview hraw
      have hitem (path : String) : view.decodeTypeRef depth link path = .none := by
        cases depth with
        | zero => rfl
        | succ depth => rw [← decodeTypeRef_link hlink hplain, ih]
      rw [decodeTypeRef, hresolved]
      change (view.readResolved type path >>= fun raw => _ : Decoding TypeDescriptor) = _
      rw [hread]
      change ((do return TypeLayer.array (← view.decodeTypeRef depth link s!"{path}.item")) >>=
        fun layer => return layer.descriptor : Decoding TypeDescriptor) = _
      rw [hitem]
      rfl

/-- For sealed metadata and a finite value, the native ends with the right answer exactly
when the metadata is a tree. -/
theorem validatesRight_iff {type value : RuntimeValue} (htype : view.Sealed type)
    (hvalue : view.FiniteValue value) : view.ValidatesRight type value ↔ view.IsTree type := by
  constructor
  · intro h
    obtain ⟨depth, reply, hreply, -⟩ := h.exists
    obtain ⟨d, hd, -⟩ := Answer.bind_is.mp hreply
    exact (describes_of_decode hview hd).isTree hview
  · intro htree
    obtain ⟨d, hd⟩ := exists_describes hview htype htree
    exact nativeValidate_of_describes hview hd hvalue

end Answer

section Recursive

/-- The heap of `type T = Array(T)`, with the link of the type, its metadata and an empty
array. -/
def recursiveHeap : Heap where
  storage := .main
  objects := [.upLink (some (.unknown (.dict ⟨.main, 1⟩))),
    .dict ⟨.main, 0⟩ [.unknown (.upLink ⟨.main, 0⟩), .unknown (.atom ⟨.main, 2⟩)], .array []]
  text := (((InternTable.empty.insert "item").1.insert "kind").1.insert "Array").1
  shapes := (InternTable.empty.insert [⟨.main, 0⟩, ⟨.main, 1⟩]).1

def recursiveView : HeapView := ⟨recursiveHeap, none⟩

theorem recursiveView_dictsOrdered : recursiveView.DictsOrdered := by
  intro handle shape values h
  obtain ⟨heap, hheap, hslot⟩ := HeapView.object_eq_ok.mp h
  cases hstorage : handle.storage <;> rw [hstorage] at hheap <;> cases hheap
  have hmem := List.mem_of_getElem? hslot
  simp only [recursiveView, recursiveHeap, List.mem_cons, reduceCtorEq, Object.dict.injEq,
    List.not_mem_nil, or_false, false_or] at hmem
  obtain ⟨rfl, rfl⟩ := hmem
  exact ⟨["item", "kind"], by decide +kernel, rfl, by decide +kernel⟩

theorem recursiveView_layer :
    recursiveView.HasLayer (.dict ⟨.main, 1⟩) (.array (.upLink ⟨.main, 0⟩)) := by
  have hentries : recursiveView.entries (.dict ⟨.main, 1⟩) =
      some [("item", .upLink ⟨.main, 0⟩), ("kind", .atom ⟨.main, 2⟩)] := by decide +kernel
  exact ⟨_, id, .array hentries (by decide +kernel), fun w hw => (by cases hw), rfl⟩

theorem recursiveView_link :
    recursiveView.LinkTo (.upLink ⟨.main, 0⟩) (.dict ⟨.main, 1⟩) :=
  ⟨⟨.main, 0⟩, .unknown (.dict ⟨.main, 1⟩), rfl, rfl, rfl⟩

theorem recursiveView_sealed : recursiveView.Sealed (.dict ⟨.main, 1⟩) := by
  refine ⟨{.upLink ⟨.main, 0⟩, .dict ⟨.main, 1⟩}, .inr rfl, ?_⟩
  rintro _ (rfl | rfl)
  · exact .inr ⟨_, recursiveView_link, .inr rfl⟩
  · exact .inl ⟨_, recursiveView_layer, fun child hchild => .inl (List.mem_singleton.mp hchild)⟩

theorem recursiveView_finite : recursiveView.FiniteValue (.array ⟨.main, 2⟩) := by
  refine .mk rfl ⟨[], rfl⟩ fun part hpart => ?_
  cases hpart with
  | array hobject hitem =>
      cases hobject
      cases hitem

private theorem not_acc_of_self {α : Type} {r : α → α → Prop} {a : α} (h : r a a) : ¬Acc r a := by
  intro hacc
  induction hacc with
  | intro a _ ih => exact ih a h h

/-- The empty array is a member of `T = Array(T)`, and validating it does not end. -/
theorem recursive_type_not_validated :
    ¬∀ (view : HeapView), view.DictsOrdered → ∀ type value : RuntimeValue, view.Sealed type →
      view.FiniteValue value → view.ValidatesRight type value := by
  intro h
  obtain ⟨depth, reply, hreply, -⟩ := (h recursiveView recursiveView_dictsOrdered _ _
    recursiveView_sealed recursiveView_finite).exists
  obtain ⟨d, hd, -⟩ := Answer.bind_is.mp hreply
  have hacyclic := ((describes_of_decode recursiveView_dictsOrdered hd).isTree
    recursiveView_dictsOrdered).acyclic
  have hlink : recursiveView.TypePart (.upLink ⟨.main, 0⟩) (.dict ⟨.main, 1⟩) :=
    .inl ⟨_, recursiveView_layer, List.mem_cons_self⟩
  have hback : recursiveView.TypePart (.dict ⟨.main, 1⟩) (.upLink ⟨.main, 0⟩) :=
    .inr recursiveView_link
  exact not_acc_of_self (.tail (.single hback) hlink) hacyclic.transGen

theorem recursiveView_validatesRight_iff :
    recursiveView.ValidatesRight (.dict ⟨.main, 1⟩) (.array ⟨.main, 2⟩) ↔
      recursiveView.IsTree (.dict ⟨.main, 1⟩) :=
  validatesRight_iff recursiveView_dictsOrdered recursiveView_sealed recursiveView_finite

end Recursive

end Telora.HeapView
