import Telora.Types.NativeValidate

/-!
# Assignability and validation

What is validated against a type has a place in every type it is assignable to, with a
description of a type wherever that one says `TypeOf`. Validation asks there for a
description of an interchangeable type, while assignability looks one way only.
-/

namespace Telora

open Library TypeDescriptor
open Filter (atTop)

namespace TypeDescriptor

/-- Each of two types is assignable to the other. -/
def Interchangeable (left right : TypeDescriptor) : Prop :=
  assignable left right = true ∧ assignable right left = true

/-- The rules of assignability where values are compared. A function is compared by its
arity alone, and two `TypeOf` by a relation of their own. -/
def KeepsRule (keeps R : TypeDescriptor → TypeDescriptor → Prop)
    (actual expected : TypeDescriptor) : Prop :=
  match actual, expected with
  | .typeOf a, .typeOf e => keeps a e
  | .function as _, .function es _ => as.length = es.length
  | _, _ => Assigns R actual expected

/-- Some derivation of assignability keeps the values of each `TypeOf` in it. -/
def KeepsTypeOf (actual expected : TypeDescriptor) : Prop :=
  ∃ R : TypeDescriptor → TypeDescriptor → Prop,
    (∀ a e, R a e → KeepsRule (fun a e => ∀ d, Interchangeable d a → Interchangeable d e) R a e) ∧
      R actual expected

/-- Assignability is a derivation that says nothing about `TypeOf`. -/
theorem keepsRule_of_assignable {actual expected : TypeDescriptor}
    (h : assignable actual expected = true) :
    KeepsRule (fun _ _ => True) (assignable · · = true) actual expected := by
  have hassigns := assignable_iff.mp h
  unfold KeepsRule
  split
  · trivial
  · cases hassigns with
    | structural h =>
        cases h with
        | function hparameters _ => exact hparameters.length_eq
        | leaf hleaf _ => cases hleaf
  · exact hassigns

def isTypeOf : TypeDescriptor → Bool
  | .typeOf _ => true
  | _ => false

/-- Descriptors whose members have no members of other descriptors in them. -/
def isPlain : TypeDescriptor → Bool
  | .typeOf _ | .array _ | .dict _ | .tagged _ _ | .tuple _ | .struct _ | .enum _ | .union _ =>
      false
  | _ => true

theorem isPlain_of_isLeaf {d : TypeDescriptor} (h : d.isLeaf = true) : d.isPlain = true := by
  cases d <;> first | rfl | cases h

theorem Concrete.ordered {d : TypeDescriptor} (h : d.Concrete) : Everywhere Ordered d :=
  h.mono fun _ h => h.1

/-- The names of two structs or enums that fit are the same. -/
theorem EntriesFit.names_eq {α : Type} {fits : α → α → Prop} {as es : List (String × α)}
    (h : EntriesFit fits as es) (has : (as.map (·.1)).Pairwise (· < ·))
    (hes : (es.map (·.1)).Pairwise (· < ·)) : es.map (·.1) = as.map (·.1) := by
  have hsub : es.map (·.1) ⊆ as.map (·.1) := by
    intro key hkey
    obtain ⟨entry, hentry, rfl⟩ := List.mem_map.mp hkey
    obtain ⟨x, hx, -⟩ := h.lookup entry hentry
    exact List.mem_map.mpr ⟨_, mem_of_lookup hx, rfl⟩
  have hperm : (es.map (·.1)).Perm (as.map (·.1)) :=
    (List.subperm_of_subset (nodup_of_increasing hes) hsub).perm_of_length_le (by simp [h.length])
  exact hperm.eq_of_pairwise (fun a b _ _ hab hba => absurd hba (lt_asymm hab)) hes has

end TypeDescriptor

namespace HeapView

section Places

variable (view : HeapView)

/-- A value with a place in a descriptor: a variant is chosen for it in each `Union` that it
meets, and metadata stands where the descriptor says `TypeOf`. The places are the types that are
described there, each with the type that `TypeOf` asks for. -/
inductive Placed : TypeDescriptor → RuntimeValue → List (TypeDescriptor × TypeDescriptor) →
    Prop where
  | plain {d value} : d.isPlain = true → view.Member d value → Placed d value []
  | typeOf {expected value described} : view.Describes value described →
      Placed (.typeOf expected) value [(described, expected)]
  | array {item value items places} : view.arrayItems value = some items →
      (∀ x ∈ items, Placed item x (places x)) → Placed (.array item) value (items.flatMap places)
  | dict {item value found places} : view.entries value = some found →
      (∀ entry ∈ found, Placed item entry.2 (places entry)) →
      Placed (.dict item) value (found.flatMap places)
  | tagged {tag payload value t p places} : view.tagAndPayload value = some (t, p) →
      view.asAtom t = some tag.name → Placed payload p places →
      Placed (.tagged tag payload) value places
  | tuple {items value values places} : view.tupleItems value = some values →
      items.length = values.length →
      (∀ pair ∈ items.zip values, Placed pair.1 pair.2 (places pair)) →
      Placed (.tuple items) value ((items.zip values).flatMap places)
  | struct {fields value found places} : view.entries value = some found →
      fields.map (·.1) = found.map (·.1) →
      (∀ pair ∈ fields.zip found, Placed pair.1.2 pair.2.2 (places pair)) →
      Placed (.struct fields) value ((fields.zip found).flatMap places)
  | unit {variants value tag} : view.asAtom value = some tag →
      variants.lookup tag = some none → Placed (.enum variants) value []
  | variant {variants value t p tag payload places} : view.tagAndPayload value = some (t, p) →
      view.asAtom t = some tag → variants.lookup tag = some (some payload) →
      Placed payload p places → Placed (.enum variants) value places
  | union {variants variant value places} : variant ∈ variants → Placed variant value places →
      Placed (.union variants) value places

/-- A value with a place where a relation holds of what is described and what is asked for. -/
def PlacedBy (P : TypeDescriptor → TypeDescriptor → Prop) (d : TypeDescriptor)
    (value : RuntimeValue) : Prop :=
  ∃ places, view.Placed d value places ∧ ∀ place ∈ places, P place.1 place.2

end Places

variable {view : HeapView}

section Shapes

/-- Fields of the same names as the entries fit them in order exactly if they fit those of
their names. -/
theorem forall_zip_iff_lookup {M : TypeDescriptor → RuntimeValue → Prop}
    {fields : List (String × TypeDescriptor)} {found : List (String × RuntimeValue)}
    (hnodup : (found.map (·.1)).Nodup) (hnames : fields.map (·.1) = found.map (·.1)) :
    (∀ pair ∈ fields.zip found, M pair.1.2 pair.2.2) ↔
      ∀ field ∈ fields, ∃ x, found.lookup field.1 = some x ∧ M field.2 x := by
  induction fields generalizing found with
  | nil => simp
  | cons field fields ih =>
      cases found with
      | nil => cases hnames
      | cons entry found =>
          obtain ⟨name, item⟩ := field
          obtain ⟨key, x⟩ := entry
          obtain ⟨hname, htail⟩ := List.cons.inj hnames
          obtain rfl : name = key := hname
          obtain ⟨hkey, hnodup⟩ := List.nodup_cons.mp hnodup
          have hrest : ∀ field ∈ fields,
              ((name, x) :: found).lookup field.1 = found.lookup field.1 := by
            intro field hmem
            refine lookup_cons_ne fun heq => hkey ?_
            exact htail ▸ List.mem_map.mpr ⟨field, hmem, heq⟩
          rw [List.zip_cons_cons, List.forall_mem_cons, List.forall_mem_cons, ih hnodup htail,
            lookup_cons_self]
          refine and_congr (by simp) (forall₂_congr fun field hmem => ?_)
          rw [hrest field hmem]

variable {P : TypeDescriptor → TypeDescriptor → Prop} {value : RuntimeValue}

theorem placedBy_plain {d : TypeDescriptor} (hplain : d.isPlain = true) :
    view.PlacedBy P d value ↔ view.Member d value := by
  constructor
  · rintro ⟨places, hplaced, -⟩
    cases hplaced <;> first | assumption | cases hplain
  · exact fun hmember => ⟨[], .plain hplain hmember, fun _ h => absurd h List.not_mem_nil⟩

theorem placedBy_typeOf {expected : TypeDescriptor} :
    view.PlacedBy P (.typeOf expected) value ↔ ∃ d, view.Describes value d ∧ P d expected := by
  constructor
  · rintro ⟨places, hplaced, hP⟩
    cases hplaced with
    | plain hplain => cases hplain
    | typeOf hdescribes => exact ⟨_, hdescribes, hP _ List.mem_cons_self⟩
  · rintro ⟨d, hdescribes, hP⟩
    exact ⟨_, .typeOf hdescribes, List.forall_mem_singleton.mpr hP⟩

theorem placedBy_array {item : TypeDescriptor} :
    view.PlacedBy P (.array item) value ↔
      ∃ items, view.arrayItems value = some items ∧ ∀ x ∈ items, view.PlacedBy P item x := by
  constructor
  · rintro ⟨places, hplaced, hP⟩
    cases hplaced with
    | plain hplain => cases hplain
    | array hitems h =>
        refine ⟨_, hitems, fun x hx => ⟨_, h x hx, fun place hplace => hP place ?_⟩⟩
        exact List.mem_flatMap.mpr ⟨x, hx, hplace⟩
  · rintro ⟨items, hitems, h⟩
    choose! places hplaced hP using h
    exact ⟨_, .array hitems hplaced, List.forall_mem_flatMap.mpr hP⟩

theorem placedBy_dict {item : TypeDescriptor} :
    view.PlacedBy P (.dict item) value ↔
      ∃ found, view.entries value = some found ∧ ∀ entry ∈ found, view.PlacedBy P item entry.2 := by
  constructor
  · rintro ⟨places, hplaced, hP⟩
    cases hplaced with
    | plain hplain => cases hplain
    | dict hfound h =>
        refine ⟨_, hfound, fun x hx => ⟨_, h x hx, fun place hplace => hP place ?_⟩⟩
        exact List.mem_flatMap.mpr ⟨x, hx, hplace⟩
  · rintro ⟨found, hfound, h⟩
    choose! places hplaced hP using h
    exact ⟨_, .dict hfound hplaced, List.forall_mem_flatMap.mpr hP⟩

theorem placedBy_tagged {tag : Atom} {payload : TypeDescriptor} :
    view.PlacedBy P (.tagged tag payload) value ↔ ∃ t p, view.tagAndPayload value = some (t, p) ∧
      view.asAtom t = some tag.name ∧ view.PlacedBy P payload p := by
  constructor
  · rintro ⟨places, hplaced, hP⟩
    cases hplaced with
    | plain hplain => cases hplain
    | tagged hparts htag h => exact ⟨_, _, hparts, htag, _, h, hP⟩
  · rintro ⟨t, p, hparts, htag, places, h, hP⟩
    exact ⟨places, .tagged hparts htag h, hP⟩

theorem placedBy_tuple {items : List TypeDescriptor} :
    view.PlacedBy P (.tuple items) value ↔ ∃ values, view.tupleItems value = some values ∧
      List.Forall₂ (view.PlacedBy P) items values := by
  constructor
  · rintro ⟨places, hplaced, hP⟩
    cases hplaced with
    | plain hplain => cases hplain
    | tuple hvalues hlength h =>
        refine ⟨_, hvalues, List.forall₂_iff_zip.mpr ⟨hlength, fun {item x} hmem => ?_⟩⟩
        exact ⟨_, h _ hmem, fun place hplace =>
          hP place (List.mem_flatMap.mpr ⟨_, hmem, hplace⟩)⟩
  · rintro ⟨values, hvalues, h⟩
    obtain ⟨hlength, hzip⟩ := List.forall₂_iff_zip.mp h
    have hpairs : ∀ pair ∈ items.zip values, view.PlacedBy P pair.1 pair.2 :=
      fun pair hmem => hzip hmem
    choose! places hplaced hP using hpairs
    exact ⟨_, .tuple hvalues hlength hplaced, List.forall_mem_flatMap.mpr hP⟩

theorem placedBy_struct {fields : List (String × TypeDescriptor)} :
    view.PlacedBy P (.struct fields) value ↔ ∃ found, view.entries value = some found ∧
      fields.map (·.1) = found.map (·.1) ∧
      ∀ pair ∈ fields.zip found, view.PlacedBy P pair.1.2 pair.2.2 := by
  constructor
  · rintro ⟨places, hplaced, hP⟩
    cases hplaced with
    | plain hplain => cases hplain
    | struct hfound hnames h =>
        refine ⟨_, hfound, hnames, fun pair hmem => ⟨_, h pair hmem, fun place hplace => ?_⟩⟩
        exact hP place (List.mem_flatMap.mpr ⟨pair, hmem, hplace⟩)
  · rintro ⟨found, hfound, hnames, h⟩
    choose! places hplaced hP using h
    exact ⟨_, .struct hfound hnames hplaced, List.forall_mem_flatMap.mpr hP⟩

theorem placedBy_union {variants : List TypeDescriptor} :
    view.PlacedBy P (.union variants) value ↔
      ∃ variant ∈ variants, view.PlacedBy P variant value := by
  constructor
  · rintro ⟨places, hplaced, hP⟩
    cases hplaced with
    | plain hplain => cases hplain
    | union hmem h => exact ⟨_, hmem, _, h, hP⟩
  · rintro ⟨variant, hmem, places, h, hP⟩
    exact ⟨places, .union hmem h, hP⟩

/-- A value has a place in an enum where it has one in a variant. -/
theorem placedBy_enum {variants : List (String × Option TypeDescriptor)}
    (hordered : Ordered (.enum variants)) :
    view.PlacedBy P (.enum variants) value ↔
      ∃ variant ∈ variants, view.PlacedBy P (enumVariantType variant.1 variant.2) value := by
  have hnodup := nodup_of_increasing hordered
  constructor
  · rintro ⟨places, hplaced, hP⟩
    cases hplaced with
    | plain hplain => cases hplain
    | @unit _ _ tag htag hlookup =>
        refine ⟨(tag, none), mem_of_lookup hlookup, (placedBy_plain rfl).mpr ?_⟩
        rw [enumVariantType, Member, atomFromName_name, htag]
    | @variant _ _ t p tag payload _ hparts htag hlookup h =>
        refine ⟨(tag, some payload), mem_of_lookup hlookup, placedBy_tagged.mpr ?_⟩
        exact ⟨t, p, hparts, by rw [atomFromName_name, htag], _, h, hP⟩
  · rintro ⟨⟨name, payload⟩, hmem, hplaced⟩
    have hlookup := lookup_of_mem hnodup hmem
    cases payload with
    | none =>
        have hmember := (placedBy_plain rfl).mp hplaced
        rw [enumVariantType, Member, atomFromName_name] at hmember
        exact ⟨[], .unit hmember hlookup, fun _ h => absurd h List.not_mem_nil⟩
    | some payload =>
        obtain ⟨t, p, hparts, htag, places, h, hP⟩ := placedBy_tagged.mp hplaced
        rw [atomFromName_name] at htag
        exact ⟨places, .variant hparts htag hlookup h, hP⟩

end Shapes

/-- The members of an enum are those of its variants. -/
theorem member_enum_iff {variants : List (String × Option TypeDescriptor)}
    (hordered : Ordered (.enum variants)) {value : RuntimeValue} :
    view.Member (.enum variants) value ↔
      ∃ variant ∈ variants, view.Member (enumVariantType variant.1 variant.2) value := by
  have hnodup := nodup_of_increasing hordered
  rw [Member]
  constructor
  · rintro (⟨tag, htag, hlookup⟩ | ⟨t, p, tag, hparts, htag, hmember⟩)
    · refine ⟨(tag, none), mem_of_lookup hlookup, ?_⟩
      rw [enumVariantType, Member, atomFromName_name, htag]
    · obtain ⟨payload, hlookup, hmember⟩ := memberPayload_iff.mp hmember
      refine ⟨(tag, some payload), mem_of_lookup hlookup, ?_⟩
      rw [enumVariantType, Member, atomFromName_name]
      exact ⟨t, p, hparts, htag, hmember⟩
  · rintro ⟨⟨name, payload⟩, hmem, hmember⟩
    have hlookup := lookup_of_mem hnodup hmem
    cases payload with
    | none =>
        rw [enumVariantType, Member, atomFromName_name] at hmember
        exact .inl ⟨name, hmember, hlookup⟩
    | some payload =>
        rw [enumVariantType, Member, atomFromName_name] at hmember
        obtain ⟨t, p, hparts, htag, hmember⟩ := hmember
        exact .inr ⟨t, p, name, hparts, htag, memberPayload_iff.mpr ⟨payload, hlookup, hmember⟩⟩

/-- The members of a type are the values with a place in it where what is described is
interchangeable with what is asked for. -/
theorem member_iff_placed {d : TypeDescriptor}
    (hordered : Everywhere Ordered d) {value : RuntimeValue} :
    view.Member d value ↔ view.PlacedBy Interchangeable d value := by
  induction d using parts_induction generalizing value with
  | step d ih =>
  have hchild {child : TypeDescriptor} (hmem : child ∈ d.children) (x : RuntimeValue) :
      view.Member child x ↔ view.PlacedBy Interchangeable child x :=
    ih child hmem (hordered.child hmem)
  cases d with
  | typeOf expected => rw [Member, placedBy_typeOf]; rfl
  | array item =>
      simp only [Member, placedBy_array, hchild (List.mem_cons_self : item ∈ _)]
  | dict item =>
      simp only [Member, placedBy_dict, hchild (List.mem_cons_self : item ∈ _)]
  | tagged tag payload =>
      simp only [Member, placedBy_tagged, hchild (List.mem_cons_self : payload ∈ _)]
  | tuple items =>
      simp only [Member, placedBy_tuple, memberItems_iff, List.forall₂_iff_zip]
      refine exists_congr fun values => and_congr_right fun _ => and_congr_right fun _ => ?_
      refine ⟨fun h item x hmem => ?_, fun h pair hmem => ?_⟩
      · exact (hchild (List.of_mem_zip hmem).1 x).mp (h _ hmem)
      · exact (hchild (List.of_mem_zip hmem).1 _).mpr (h hmem)
  | struct fields =>
      simp only [Member, placedBy_struct, memberFields_iff]
      refine exists_congr fun found => and_congr_right fun _ => and_congr_right fun _ => ?_
      refine forall₂_congr fun pair hmem => hchild ?_ _
      exact List.mem_map_of_mem (List.of_mem_zip hmem).1
  | enum variants =>
      rw [member_enum_iff hordered.holds, placedBy_enum hordered.holds]
      refine exists_congr fun variant => and_congr_right fun hmem => ?_
      obtain ⟨name, payload⟩ := variant
      cases payload with
      | none => exact (placedBy_plain rfl).symm
      | some payload =>
          have hpayload := hchild (List.mem_filterMap.mpr ⟨_, hmem, rfl⟩)
          simp only [enumVariantType, Member, placedBy_tagged, hpayload]
  | union variants =>
      rw [Member, memberAny_iff, placedBy_union]
      exact exists_congr fun variant => and_congr_right fun hmem => hchild hmem value
  | _ => exact (placedBy_plain rfl).symm

section Derivation

variable {P Q keeps R : TypeDescriptor → TypeDescriptor → Prop}

/-- Equal leaves have the same members. -/
theorem member_leaf {a e : TypeDescriptor} (hleaf : a.isLeaf = true) (heq : a.eq e = true)
    {value : RuntimeValue} (hmember : view.Member a value) : view.Member e value := by
  cases a <;> first
    | exact absurd hleaf Bool.false_ne_true
    | (cases e <;> first | exact absurd heq Bool.false_ne_true | exact hmember | skip)
  · obtain ⟨actual, hactual, hid⟩ := hmember
    exact ⟨actual, hactual, hid.trans (eq_of_beq heq)⟩
  · rw [← eq_of_beq (show (_ == _) = true from heq)]
    exact hmember

theorem isLeaf_of_eq {a e : TypeDescriptor} (hleaf : a.isLeaf = true) (heq : a.eq e = true) :
    e.isLeaf = true := by
  cases a <;> first
    | exact absurd hleaf Bool.false_ne_true
    | (cases e <;> first | exact absurd heq Bool.false_ne_true | rfl)

/-- Where fields of another struct fit those of a name, they fit in the entries. -/
theorem placedBy_fields (hview : view.DictsOrdered) {value : RuntimeValue}
    {fields : List (String × TypeDescriptor)} {found : List (String × RuntimeValue)}
    (hfound : view.entries value = some found) (hnames : fields.map (·.1) = found.map (·.1))
    (P : TypeDescriptor → TypeDescriptor → Prop) :
    (∀ pair ∈ fields.zip found, view.PlacedBy P pair.1.2 pair.2.2) ↔
      ∀ field ∈ fields, ∃ x, found.lookup field.1 = some x ∧ view.PlacedBy P field.2 x :=
  forall_zip_iff_lookup (nodup_of_increasing (entries_sorted hview hfound)) hnames

theorem placedBy_items {as es : List TypeDescriptor}
    (h : List.Forall₂ (fun a e => ∀ value, view.PlacedBy P a value → view.PlacedBy Q e value) as es)
    {values : List RuntimeValue} (hplaced : List.Forall₂ (view.PlacedBy P) as values) :
    List.Forall₂ (view.PlacedBy Q) es values := by
  induction h generalizing values with
  | nil =>
      cases hplaced
      exact .nil
  | cons hfirst _ ih =>
      cases hplaced with
      | cons hplaced hrest => exact .cons (hfirst _ hplaced) (ih hrest)

/-- The rules between descriptors of related shapes keep places when their premises do. -/
theorem placedBy_structural (hview : view.DictsOrdered) {a e : TypeDescriptor}
    (h : Structural R a e) (htypeOf : a.isTypeOf = false ∨ e.isTypeOf = false)
    (ha : Ordered a) (he : Ordered e)
    (himp : ∀ x ∈ a.children, ∀ y ∈ e.children, R x y →
      ∀ value, view.PlacedBy P x value → view.PlacedBy Q y value)
    {value : RuntimeValue} (hplaced : view.PlacedBy P a value) : view.PlacedBy Q e value := by
  cases h with
  | metatype =>
      obtain ⟨d, hd, -⟩ := placedBy_typeOf.mp hplaced
      exact (placedBy_plain rfl).mpr ⟨d, hd⟩
  | typeOf => simp [isTypeOf] at htypeOf
  | array h =>
      obtain ⟨items, hitems, hplaced⟩ := placedBy_array.mp hplaced
      exact placedBy_array.mpr ⟨items, hitems, fun x hx =>
        himp _ List.mem_cons_self _ List.mem_cons_self h x (hplaced x hx)⟩
  | dict h =>
      obtain ⟨found, hfound, hplaced⟩ := placedBy_dict.mp hplaced
      exact placedBy_dict.mpr ⟨found, hfound, fun entry hentry =>
        himp _ List.mem_cons_self _ List.mem_cons_self h entry.2 (hplaced entry hentry)⟩
  | @structDict fields e h =>
      obtain ⟨found, hfound, hnames, hplaced⟩ := placedBy_struct.mp hplaced
      rw [placedBy_fields hview hfound hnames] at hplaced
      have hnodup := nodup_of_increasing (entries_sorted hview hfound)
      refine placedBy_dict.mpr ⟨found, hfound, fun entry hentry => ?_⟩
      obtain ⟨field, hfield, hname⟩ := List.mem_map.mp (hnames ▸ List.mem_map_of_mem hentry)
      obtain ⟨x, hlookup, hplaced⟩ := hplaced field hfield
      rw [hname, lookup_of_mem hnodup hentry] at hlookup
      obtain rfl := Option.some.inj hlookup
      exact himp _ (List.mem_map_of_mem hfield) _ List.mem_cons_self (h field hfield) _ hplaced
  | tagged h =>
      obtain ⟨t, p, hparts, htag, hplaced⟩ := placedBy_tagged.mp hplaced
      exact placedBy_tagged.mpr
        ⟨t, p, hparts, htag, himp _ List.mem_cons_self _ List.mem_cons_self h p hplaced⟩
  | tuple h =>
      obtain ⟨values, hvalues, hplaced⟩ := placedBy_tuple.mp hplaced
      exact placedBy_tuple.mpr ⟨values, hvalues, placedBy_items (forall₂_of_mem h himp) hplaced⟩
  | @struct as es h =>
      obtain ⟨found, hfound, hnames, hplaced⟩ := placedBy_struct.mp hplaced
      rw [placedBy_fields hview hfound hnames] at hplaced
      have hnames' := (h.names_eq ha he).trans hnames
      refine placedBy_struct.mpr ⟨found, hfound, hnames', ?_⟩
      rw [placedBy_fields hview hfound hnames']
      intro field hfield
      obtain ⟨x, hx, hfits⟩ := h.lookup field hfield
      obtain ⟨y, hlookup, hplaced⟩ := hplaced _ (mem_of_lookup hx)
      exact ⟨y, hlookup, himp _ (List.mem_map_of_mem (mem_of_lookup hx)) _
        (List.mem_map_of_mem hfield) hfits y hplaced⟩
  | function h _ =>
      have hmember := (placedBy_plain rfl).mp hplaced
      exact (placedBy_plain rfl).mpr (hmember.trans (congrArg some h.length_eq))
  | leaf hleaf heq =>
      have hmember := (placedBy_plain (isPlain_of_isLeaf hleaf)).mp hplaced
      exact (placedBy_plain (isPlain_of_isLeaf (isLeaf_of_eq hleaf heq))).mpr
        (member_leaf hleaf heq hmember)

/-- A derivation that keeps what is asked for at each `TypeOf` keeps places. -/
theorem placedBy_of_keepsRule (hview : view.DictsOrdered)
    (hkeeps : ∀ {a e}, keeps a e → ∀ d, P d a → Q d e)
    (hR : ∀ a e, R a e → KeepsRule keeps R a e) {a e : TypeDescriptor} (hstart : R a e)
    (ha : a.Concrete) (he : Everywhere Ordered e) {value : RuntimeValue}
    (hplaced : view.PlacedBy P a value) : view.PlacedBy Q e value := by
  induction hdepth : a.depth + e.depth using Nat.strong_induction_on generalizing a e value with
  | _ n ih =>
  subst hdepth
  have hrule := hR a e hstart
  unfold KeepsRule at hrule
  split at hrule
  · obtain ⟨d, hd, hP⟩ := placedBy_typeOf.mp hplaced
    exact placedBy_typeOf.mpr ⟨d, hd, hkeeps hrule d hP⟩
  · have hmember := (placedBy_plain rfl).mp hplaced
    exact (placedBy_plain rfl).mpr (hmember.trans (congrArg some hrule))
  · rename_i htypeOf _
    cases hrule with
    | never => exact ((placedBy_plain rfl).mp hplaced).elim
    | ofAny => exact absurd ha.holds.2.symm Bool.false_ne_true
    | toAny => exact (placedBy_plain rfl).mpr trivial
    | @enums as es h =>
        obtain ⟨⟨name, payload⟩, hmem, hplaced⟩ := (placedBy_enum ha.holds.1).mp hplaced
        obtain ⟨expected, hexpected, hfits⟩ := h.entry (nodup_of_increasing ha.holds.1)
          (nodup_of_increasing he.holds) hmem
        refine (placedBy_enum he.holds).mpr ⟨(name, expected), hexpected, ?_⟩
        cases hfits with
        | none => exact (placedBy_plain rfl).mpr ((placedBy_plain rfl).mp hplaced)
        | some h =>
            have hx := depth_child (d := .enum as) (List.mem_filterMap.mpr ⟨_, hmem, rfl⟩)
            have hy := depth_child (d := .enum es) (List.mem_filterMap.mpr ⟨_, hexpected, rfl⟩)
            obtain ⟨t, p, hparts, htag, hplaced⟩ := placedBy_tagged.mp hplaced
            exact placedBy_tagged.mpr ⟨t, p, hparts, htag,
              ih _ (Nat.add_lt_add hx hy) h (ha.payload hmem) (he.payload hexpected) hplaced rfl⟩
    | unionEnum h =>
        obtain ⟨variant, hmem, hplaced⟩ := placedBy_union.mp hplaced
        have hx := depth_child (d := .union _) hmem
        exact ih _ (by omega) (h variant hmem) (ha.child hmem) he hplaced rfl
    | toEnum _ _ hmem h =>
        have hy := depth_variantType hmem
        refine (placedBy_enum he.holds).mpr ⟨_, hmem, ih _ (by omega) h ha ?_ hplaced rfl⟩
        exact he.variantType (fun _ => trivial) (fun _ _ => trivial) hmem
    | ofEnum _ h =>
        obtain ⟨variant, hmem, hplaced⟩ := (placedBy_enum ha.holds.1).mp hplaced
        have hx := depth_variantType hmem
        refine ih _ (by omega) (h variant hmem) ?_ he hplaced rfl
        exact ha.variantType (fun _ => ⟨trivial, rfl⟩) (fun _ _ => ⟨trivial, rfl⟩) hmem
    | toUnion _ hmem h =>
        have hy := depth_child (d := .union _) hmem
        exact placedBy_union.mpr ⟨_, hmem, ih _ (by omega) h ha (he.child hmem) hplaced rfl⟩
    | ofUnion _ _ h =>
        obtain ⟨variant, hmem, hplaced⟩ := placedBy_union.mp hplaced
        have hx := depth_child (d := .union _) hmem
        exact ih _ (by omega) (h variant hmem) (ha.child hmem) he hplaced rfl
    | structural h =>
        refine placedBy_structural hview h ?_ ha.holds.1 he.holds
          (fun x hx y hy hxy value hplaced => ?_) hplaced
        · by_contra hboth
          push Not at hboth
          cases a <;> first | exact absurd rfl hboth.1 | skip
          cases e <;> first | exact absurd rfl hboth.2 | exact htypeOf _ _ rfl rfl
        · have hx' := depth_child hx
          have hy' := depth_child hy
          exact ih _ (by omega) hxy (ha.child hx) (he.child hy) hplaced rfl

end Derivation

section Accepts

/-- Validation ends and accepts the value. -/
def Accepts (view : HeapView) (d : TypeDescriptor) (value : RuntimeValue) (path : String) : Prop :=
  ∀ᶠ depth in atTop, (validateValueRef view (view.decodeTypeRef depth) d value path).Is ()

theorem accepts_iff (hview : view.DictsOrdered) {value : RuntimeValue}
    (hvalue : view.FiniteValue value) (d : TypeDescriptor) (path : String) :
    view.Accepts d value path ↔ view.Member d value := by
  have hinside := decodesInside hview hvalue
  constructor
  · intro h
    obtain ⟨depth, haccepts, hinside⟩ := (h.and hinside).exists
    exact (validate_checks hview d value path hvalue hinside).accepts.mp haccepts
  · intro h
    filter_upwards [hinside] with depth hinside
    exact (validate_checks hview d value path hvalue hinside).accepts.mpr h

/-- Whatever value it is, it is accepted where each `TypeOf` on the way keeps its values. -/
theorem accepts_of_keepsTypeOf (hview : view.DictsOrdered) {actual expected : TypeDescriptor}
    (ha : actual.Concrete) (he : expected.Concrete) (h : KeepsTypeOf actual expected)
    {value : RuntimeValue} (hvalue : view.FiniteValue value) {path : String}
    (haccepts : view.Accepts actual value path) : view.Accepts expected value path := by
  rw [accepts_iff hview hvalue, member_iff_placed he.ordered]
  rw [accepts_iff hview hvalue, member_iff_placed ha.ordered] at haccepts
  obtain ⟨R, hR, h⟩ := h
  exact placedBy_of_keepsRule hview (fun h d => h d) hR h ha he.ordered haccepts

/-- Two `TypeOf` keep their values exactly when what is described by a value and
interchangeable with the one is so with the other. -/
theorem accepts_typeOf_iff (hview : view.DictsOrdered) (actual expected : TypeDescriptor) :
    (∀ value, view.FiniteValue value → ∀ path, view.Accepts (.typeOf actual) value path →
        view.Accepts (.typeOf expected) value path) ↔
      ∀ value, view.FiniteValue value → ∀ d, view.Describes value d →
        Interchangeable d actual → Interchangeable d expected := by
  refine forall₂_congr fun value hvalue => ?_
  simp only [accepts_iff hview hvalue, forall_const]
  constructor
  · intro h d hd hboth
    obtain ⟨d', hd', hboth'⟩ := h ⟨d, hd, hboth⟩
    exact hd.unique hview hd' ▸ hboth'
  · rintro h ⟨d, hd, hboth⟩
    exact ⟨d, hd, h d hd hboth⟩

/-- The heap of the metadata of `'A`. -/
def atomHeap : Heap where
  storage := .main
  objects := [.dict ⟨.main, 0⟩ [.unknown (.atom ⟨.main, 2⟩), .unknown (.atom ⟨.main, 3⟩)]]
  text := ((((InternTable.empty.insert "kind").1.insert "tag").1.insert "Atom").1.insert "A").1
  shapes := (InternTable.empty.insert [⟨.main, 0⟩, ⟨.main, 1⟩]).1

def atomView : HeapView := ⟨atomHeap, none⟩

theorem atomView_dictsOrdered : atomView.DictsOrdered := by
  intro handle shape values h
  obtain ⟨heap, hheap, hslot⟩ := HeapView.object_eq_ok.mp h
  cases hstorage : handle.storage <;> rw [hstorage] at hheap <;> cases hheap
  have hmem := List.mem_of_getElem? hslot
  simp only [atomView, atomHeap, List.mem_singleton, Object.dict.injEq] at hmem
  obtain ⟨rfl, rfl⟩ := hmem
  exact ⟨["kind", "tag"], by decide +kernel, rfl, by decide +kernel⟩

theorem atomView_describes : atomView.Describes (.dict ⟨.main, 0⟩) (.atom (.named "A")) := by
  have hentries : atomView.entries (.dict ⟨.main, 0⟩) =
      some [("kind", .atom ⟨.main, 2⟩), ("tag", .atom ⟨.main, 3⟩)] := by decide +kernel
  have hname : atomView.asAtom (.atom ⟨.main, 3⟩) = some "A" := by decide +kernel
  have hraw : atomView.RawLayer (.dict ⟨.main, 0⟩) (.atom (.named "A")) :=
    .atom hentries (by decide +kernel) hname
  have hlayer : atomView.HasLayer (.dict ⟨.main, 0⟩) (.atom (.named "A")) :=
    ⟨_, id, hraw, fun w hw => (by cases hw), rfl⟩
  have hchildren : ∀ child ∈ ([] : List RuntimeValue), atomView.Describes child .any :=
    fun child hchild => by cases hchild
  have h := Describes.layer hlayer hchildren
  exact h

theorem atomView_finite : atomView.FiniteValue (.dict ⟨.main, 0⟩) := by
  refine .mk rfl ⟨_, _, rfl⟩ fun part hpart => ?_
  cases hpart with
  | dict hobject hitem =>
      cases hobject
      simp only [List.mem_cons, List.not_mem_nil, or_false] at hitem
      obtain rfl | rfl := hitem <;> exact .mk rfl trivial fun part hpart => by cases hpart

end Accepts

end HeapView

end Telora
