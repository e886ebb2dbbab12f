import Telora.Library.Lists
import Telora.Types.Descriptor

/-!
# Assignability of descriptors

Assignability is one ordered match on two descriptors. One call of it is written over its
recursive calls, and the recursion takes one layer off one of the two descriptors.
-/

namespace Telora

/-- The atom of a name, with a representation of its own when it is builtin. -/
def atomFromName (name : String) : Atom :=
  match builtinAtom name with
  | some atom => .builtin atom
  | none => .named name

namespace TypeDescriptor

/-- The type of the values of one variant. -/
def enumVariantType (name : String) : Option TypeDescriptor → TypeDescriptor
  | some payload => .tagged (atomFromName name) payload
  | none => .atom (atomFromName name)

mutual

/-- The `==` of descriptors; native types are equal when their ids are. -/
def eq : TypeDescriptor → TypeDescriptor → Bool
  | .bound left, .bound right => left == right
  | .inference left, .inference right => left == right
  | .any, .any => true
  | .never, .never => true
  | .type, .type => true
  | .dyn, .dyn => true
  | .typeOf left, .typeOf right => left.eq right
  | .int, .int => true
  | .float, .float => true
  | .string, .string => true
  | .bytes, .bytes => true
  | .opaqueType left, .opaqueType right => left.id == right.id
  | .atom left, .atom right => left == right
  | .array left, .array right => left.eq right
  | .dict left, .dict right => left.eq right
  | .tagged leftTag left, .tagged rightTag right => leftTag == rightTag && left.eq right
  | .tuple left, .tuple right => eqItems left right
  | .struct left, .struct right => eqFields left right
  | .enum left, .enum right => eqVariants left right
  | .union left, .union right => eqItems left right
  | .function leftParameters left, .function rightParameters right =>
      eqItems leftParameters rightParameters && left.eq right
  | _, _ => false
termination_by structural left => left

def eqItems : List TypeDescriptor → List TypeDescriptor → Bool
  | [], [] => true
  | left :: leftRest, right :: rightRest => left.eq right && eqItems leftRest rightRest
  | _, _ => false
termination_by structural left => left

def eqFields : List (String × TypeDescriptor) → List (String × TypeDescriptor) → Bool
  | [], [] => true
  | (leftName, left) :: leftRest, (rightName, right) :: rightRest =>
      leftName == rightName && left.eq right && eqFields leftRest rightRest
  | _, _ => false
termination_by structural left => left

def eqVariants : List (String × Option TypeDescriptor) →
    List (String × Option TypeDescriptor) → Bool
  | [], [] => true
  | (leftName, none) :: leftRest, (rightName, none) :: rightRest =>
      leftName == rightName && eqVariants leftRest rightRest
  | (leftName, some left) :: leftRest, (rightName, some right) :: rightRest =>
      leftName == rightName && left.eq right && eqVariants leftRest rightRest
  | _, _ => false
termination_by structural left => left

end

mutual

/-- How deep a descriptor is nested; a variant of an enum counts as a descriptor. -/
def depth : TypeDescriptor → Nat
  | .typeOf described => described.depth + 1
  | .array item => item.depth + 1
  | .dict item => item.depth + 1
  | .tagged _ payload => payload.depth + 1
  | .tuple items => depthItems items + 1
  | .struct fields => depthFields fields + 1
  | .enum variants => depthVariants variants + 1
  | .union variants => depthItems variants + 1
  | .function parameters result => max (depthItems parameters) result.depth + 1
  | _ => 0

def depthItems : List TypeDescriptor → Nat
  | [] => 0
  | item :: rest => max item.depth (depthItems rest)

def depthFields : List (String × TypeDescriptor) → Nat
  | [] => 0
  | (_, item) :: rest => max item.depth (depthFields rest)

def depthVariants : List (String × Option TypeDescriptor) → Nat
  | [] => 0
  | (_, none) :: rest => depthVariants rest
  | (_, some payload) :: rest => max (payload.depth + 1) (depthVariants rest)

end

theorem depth_le_items {item : TypeDescriptor} {items : List TypeDescriptor}
    (h : item ∈ items) : item.depth ≤ depthItems items := by
  induction items with
  | nil => cases h
  | cons first rest ih =>
      rw [depthItems]
      obtain rfl | h := List.mem_cons.mp h
      · exact le_max_left _ _
      · exact (ih h).trans (le_max_right _ _)

theorem depth_le_fields {field : String × TypeDescriptor} {fields : List (String × TypeDescriptor)}
    (h : field ∈ fields) : field.2.depth ≤ depthFields fields := by
  induction fields with
  | nil => cases h
  | cons first rest ih =>
      rw [depthFields]
      obtain rfl | h := List.mem_cons.mp h
      · exact le_max_left _ _
      · exact (ih h).trans (le_max_right _ _)

theorem depth_le_variants {variant : String × Option TypeDescriptor}
    {variants : List (String × Option TypeDescriptor)} (h : variant ∈ variants) :
    (enumVariantType variant.1 variant.2).depth ≤ depthVariants variants := by
  induction variants with
  | nil => cases h
  | cons first rest ih =>
      obtain ⟨name, payload⟩ := first
      have hrest : depthVariants rest ≤ depthVariants ((name, payload) :: rest) := by
        cases payload with
        | none => exact le_rfl
        | some payload => exact le_max_right _ _
      obtain rfl | h := List.mem_cons.mp h
      · cases payload with
        | none => exact Nat.zero_le _
        | some payload => exact le_max_left _ _
      · exact (ih h).trans hrest

section Rule

variable (recurse : TypeDescriptor → TypeDescriptor → Bool)

/-- How the payloads of two variants of one name compare. -/
def payloadAssignable : Option TypeDescriptor → Option TypeDescriptor → Bool
  | none, none => true
  | some actual, some expected => recurse actual expected
  | _, _ => false

/-- The arms of `assignable` over its recursive calls. -/
def assignableRule (actual expected : TypeDescriptor) : Bool :=
  match actual, expected with
  | .never, _ => true
  | .any, _ | _, .any => true
  | .typeOf _, .type => true
  | .typeOf a, .typeOf e => recurse a e
  | .enum a, .enum e =>
      a.length == e.length && e.all fun variant =>
        ((a.lookup variant.1).map (payloadAssignable recurse · variant.2)).getD false
  | .union variants, .enum _ => variants.all fun variant => recurse variant expected
  | _, .enum variants =>
      variants.any fun variant => recurse actual (enumVariantType variant.1 variant.2)
  | .enum variants, _ =>
      variants.all fun variant => recurse (enumVariantType variant.1 variant.2) expected
  | _, .union variants => variants.any fun variant => recurse actual variant
  | .union variants, _ => variants.all fun variant => recurse variant expected
  | .array a, .array e => recurse a e
  | .dict a, .dict e => recurse a e
  | .struct fields, .dict e => fields.all fun field => recurse field.2 e
  | .tagged aTag a, .tagged eTag e => aTag == eTag && recurse a e
  | .tuple a, .tuple e => a.length == e.length && (a.zip e).all fun pair => recurse pair.1 pair.2
  | .struct a, .struct e =>
      a.length == e.length && e.all fun field =>
        ((a.lookup field.1).map (recurse · field.2)).getD false
  | .function aParameters aResult, .function eParameters eResult =>
      aParameters.length == eParameters.length &&
        ((aParameters.zip eParameters).all fun pair => recurse pair.1 pair.2) &&
        recurse aResult eResult
  | a, e => a.eq e

end Rule

/-- Calls down to a depth. -/
def assignableWithin : Nat → TypeDescriptor → TypeDescriptor → Bool
  | 0 => fun _ _ => false
  | depth + 1 => assignableRule (assignableWithin depth)

/-- Whether a value of the actual type may stand where the expected type is asked for. -/
def assignable (actual expected : TypeDescriptor) : Bool :=
  assignableWithin (actual.depth + expected.depth + 1) actual expected

def isEnum : TypeDescriptor → Bool
  | .enum _ => true
  | _ => false

def isUnion : TypeDescriptor → Bool
  | .union _ => true
  | _ => false

/-- Descriptors that hold no other descriptors and accept no value of another one. -/
def isLeaf : TypeDescriptor → Bool
  | .bound _ | .inference _ | .type | .dyn | .int | .float | .string | .bytes
  | .opaqueType _ | .atom _ => true
  | _ => false

section Relation

variable (R : TypeDescriptor → TypeDescriptor → Prop)

inductive PayloadFits : Option TypeDescriptor → Option TypeDescriptor → Prop where
  | none : PayloadFits none none
  | some {a e} : R a e → PayloadFits (some a) (some e)

/-- Every expected entry has an actual entry of its name that fits, and there are no
others. -/
structure EntriesFit {α : Type} (fits : α → α → Prop) (actual expected : List (String × α)) :
    Prop where
  length : actual.length = expected.length
  lookup : ∀ entry ∈ expected, ∃ a, actual.lookup entry.1 = some a ∧ fits a entry.2

/-- The rules between two descriptors of related shapes. -/
inductive Structural : TypeDescriptor → TypeDescriptor → Prop where
  | metatype {described} : Structural (.typeOf described) .type
  | typeOf {a e} : R a e → Structural (.typeOf a) (.typeOf e)
  | array {a e} : R a e → Structural (.array a) (.array e)
  | dict {a e} : R a e → Structural (.dict a) (.dict e)
  | structDict {fields e} : (∀ field ∈ fields, R field.2 e) → Structural (.struct fields) (.dict e)
  | tagged {tag a e} : R a e → Structural (.tagged tag a) (.tagged tag e)
  | tuple {as es} : List.Forall₂ R as es → Structural (.tuple as) (.tuple es)
  | struct {as es} : EntriesFit R as es → Structural (.struct as) (.struct es)
  | function {as es a e} : List.Forall₂ R as es → R a e →
      Structural (.function as a) (.function es e)
  | leaf {a e} : a.isLeaf = true → a.eq e = true → Structural a e

/-- The rules of `assignable`. -/
inductive Assigns : TypeDescriptor → TypeDescriptor → Prop where
  | never {e} : Assigns .never e
  | ofAny {e} : Assigns .any e
  | toAny {a} : Assigns a .any
  | enums {as es} : EntriesFit (PayloadFits R) as es → Assigns (.enum as) (.enum es)
  | unionEnum {as es} : (∀ a ∈ as, R a (.enum es)) → Assigns (.union as) (.enum es)
  | toEnum {a es e} : a.isEnum = false → a.isUnion = false → e ∈ es →
      R a (enumVariantType e.1 e.2) → Assigns a (.enum es)
  | ofEnum {as e} : e.isEnum = false → (∀ a ∈ as, R (enumVariantType a.1 a.2) e) →
      Assigns (.enum as) e
  | toUnion {a es e} : a.isEnum = false → e ∈ es → R a e → Assigns a (.union es)
  | ofUnion {as e} : e.isEnum = false → e.isUnion = false → (∀ a ∈ as, R a e) →
      Assigns (.union as) e
  | structural {a e} : Structural R a e → Assigns a e

end Relation

section Rule

variable {f : TypeDescriptor → TypeDescriptor → Bool} {R : TypeDescriptor → TypeDescriptor → Prop}

@[simp] theorem payloadFits_none : PayloadFits R none none ↔ True := iff_true_intro .none

@[simp] theorem payloadFits_some {a e : TypeDescriptor} :
    PayloadFits R (some a) (some e) ↔ R a e := by
  constructor
  · rintro (_ | h)
    exact h
  · exact .some

@[simp] theorem not_payloadFits_some_none {a : TypeDescriptor} : ¬PayloadFits R (some a) none := by
  rintro ⟨⟩

@[simp] theorem not_payloadFits_none_some {e : TypeDescriptor} : ¬PayloadFits R none (some e) := by
  rintro ⟨⟩

theorem payloadAssignable_iff {a e : Option TypeDescriptor} :
    payloadAssignable f a e = true ↔ PayloadFits (f · · = true) a e := by
  cases a <;> cases e <;> simp [payloadAssignable]

theorem entriesFit_iff {α : Type} {compare : α → α → Bool} {as es : List (String × α)} :
    (as.length == es.length && es.all fun entry =>
      ((as.lookup entry.1).map (compare · entry.2)).getD false) = true ↔
      EntriesFit (compare · · = true) as es := by
  rw [Bool.and_eq_true, beq_iff_eq, List.all_eq_true]
  refine ⟨fun ⟨hlength, hall⟩ => ⟨hlength, fun entry hmem => ?_⟩, fun ⟨hlength, hlookup⟩ =>
    ⟨hlength, fun entry hmem => ?_⟩⟩
  · have h := hall entry hmem
    cases hlookup : as.lookup entry.1 with
    | none => simp [hlookup] at h
    | some a => exact ⟨a, rfl, by simpa [hlookup] using h⟩
  · obtain ⟨a, ha, hfits⟩ := hlookup entry hmem
    simpa [ha] using hfits

theorem zipAll_iff {as es : List TypeDescriptor} :
    (as.length == es.length && (as.zip es).all fun pair => f pair.1 pair.2) = true ↔
      List.Forall₂ (f · · = true) as es := by
  rw [Bool.and_eq_true, beq_iff_eq, List.all_eq_true, List.forall₂_iff_zip]
  exact and_congr_right fun _ => ⟨fun h a e hmem => h (a, e) hmem, fun h pair hmem => h hmem⟩

theorem EntriesFit.mono {α : Type} {fits fits' : α → α → Prop} {as es : List (String × α)}
    (h : EntriesFit fits as es)
    (himp : ∀ name a e, (name, a) ∈ as → (name, e) ∈ es → fits a e → fits' a e) :
    EntriesFit fits' as es where
  length := h.length
  lookup := by
    intro entry hmem
    obtain ⟨a, ha, hfits⟩ := h.lookup entry hmem
    exact ⟨a, ha, himp entry.1 a entry.2 (Library.mem_of_lookup ha) hmem hfits⟩

theorem assigns_of_rule {actual expected : TypeDescriptor}
    (h : assignableRule f actual expected = true) : Assigns (f · · = true) actual expected := by
  unfold assignableRule at h
  split at h
  · exact .never
  · exact .ofAny
  · exact .toAny
  · exact .structural .metatype
  · exact .structural (.typeOf h)
  · refine .enums ((entriesFit_iff.mp h).mono fun name a e _ _ hfits => ?_)
    exact payloadAssignable_iff.mp hfits
  · exact .unionEnum (List.all_eq_true.mp h)
  · rename_i hnever hany henum hunion
    obtain ⟨variant, hmem, hvariant⟩ := List.any_eq_true.mp h
    refine .toEnum ?_ ?_ hmem hvariant
    · unfold isEnum
      split
      · exact (henum _ rfl).elim
      · rfl
    · unfold isUnion
      split
      · exact (hunion _ rfl).elim
      · rfl
  · rename_i hany henum
    refine .ofEnum ?_ (List.all_eq_true.mp h)
    unfold isEnum
    split
    · exact (henum _ rfl).elim
    · rfl
  · rename_i hnever hany henum
    obtain ⟨variant, hmem, hvariant⟩ := List.any_eq_true.mp h
    refine .toUnion ?_ hmem hvariant
    unfold isEnum
    split
    · exact (henum _ rfl).elim
    · rfl
  · rename_i hany henum hunion
    refine .ofUnion ?_ ?_ (List.all_eq_true.mp h)
    · unfold isEnum
      split
      · exact (henum _ rfl).elim
      · rfl
    · unfold isUnion
      split
      · exact (hunion _ rfl).elim
      · rfl
  · exact .structural (.array h)
  · exact .structural (.dict h)
  · exact .structural (.structDict (List.all_eq_true.mp h))
  · obtain ⟨htag, hpayload⟩ := Bool.and_eq_true_iff.mp h
    obtain rfl := eq_of_beq htag
    exact .structural (.tagged hpayload)
  · exact .structural (.tuple (zipAll_iff.mp h))
  · exact .structural (.struct (entriesFit_iff.mp h))
  · obtain ⟨hparameters, hresult⟩ := Bool.and_eq_true_iff.mp h
    exact .structural (.function (zipAll_iff.mp hparameters) hresult)
  · refine .structural (.leaf ?_ h)
    -- two equal descriptors that are no leaves meet in an arm of their own
    unfold eq at h
    split at h <;> first | rfl | grind

theorem rule_of_assigns {actual expected : TypeDescriptor}
    (h : Assigns (f · · = true) actual expected) : assignableRule f actual expected = true := by
  cases h with
  | never => simp [assignableRule]
  | ofAny => simp [assignableRule]
  | toAny => cases actual <;> rfl
  | enums hfits => exact entriesFit_iff.mpr (hfits.mono fun _ _ _ _ _ => payloadAssignable_iff.mpr)
  | unionEnum hall => exact List.all_eq_true.mpr hall
  | @toEnum _ es e henum hunion hmem hvariant =>
      have hany : (es.any fun variant => f actual (enumVariantType variant.1 variant.2)) = true :=
        List.any_eq_true.mpr ⟨e, hmem, hvariant⟩
      cases actual with
      | enum _ => cases henum
      | union _ => cases hunion
      | never => rfl
      | any => rfl
      | _ => exact hany
  | @ofEnum as _ henum hall =>
      have hall : (as.all fun variant => f (enumVariantType variant.1 variant.2) expected) = true :=
        List.all_eq_true.mpr hall
      cases expected with
      | enum _ => cases henum
      | any => rfl
      | _ => exact hall
  | @toUnion _ es e henum hmem hvariant =>
      have hany : (es.any fun variant => f actual variant) = true :=
        List.any_eq_true.mpr ⟨e, hmem, hvariant⟩
      cases actual with
      | enum _ => cases henum
      | never => rfl
      | any => rfl
      | _ => exact hany
  | @ofUnion as _ henum hunion hall =>
      have hall : (as.all fun variant => f variant expected) = true := List.all_eq_true.mpr hall
      cases expected with
      | enum _ => cases henum
      | union _ => cases hunion
      | any => rfl
      | _ => exact hall
  | structural hstructural =>
      cases hstructural with
      | metatype => rfl
      | typeOf h => exact h
      | array h => exact h
      | dict h => exact h
      | structDict h => exact List.all_eq_true.mpr h
      | tagged h => exact Bool.and_eq_true_iff.mpr ⟨beq_self_eq_true _, h⟩
      | tuple h => exact zipAll_iff.mpr h
      | struct h => exact entriesFit_iff.mpr h
      | function hparameters hresult =>
          exact Bool.and_eq_true_iff.mpr ⟨zipAll_iff.mpr hparameters, hresult⟩
      | leaf hleaf heq =>
          unfold eq at heq
          split at heq <;> first | rfl | exact heq | cases hleaf | cases heq

theorem assignableRule_iff {actual expected : TypeDescriptor} :
    assignableRule f actual expected = true ↔ Assigns (f · · = true) actual expected :=
  ⟨assigns_of_rule, rule_of_assigns⟩

end Rule

section Equation

variable {R S : TypeDescriptor → TypeDescriptor → Prop} {actual expected : TypeDescriptor}

theorem PayloadFits.variantType {a e : Option TypeDescriptor} (h : PayloadFits R a e)
    (name : String)
    (himp : ∀ x y : TypeDescriptor, x.depth < (enumVariantType name a).depth →
      y.depth < (enumVariantType name e).depth → R x y → S x y) : PayloadFits S a e := by
  cases h with
  | none => exact .none
  | some h => exact .some (himp _ _ (Nat.lt_succ_self _) (Nat.lt_succ_self _) h)

theorem forall₂_items {as es : List TypeDescriptor} (h : List.Forall₂ R as es)
    (himp : ∀ x y : TypeDescriptor, x.depth ≤ depthItems as → y.depth ≤ depthItems es →
      R x y → S x y) : List.Forall₂ S as es := by
  rw [List.forall₂_iff_zip] at h ⊢
  refine ⟨h.1, fun {a e} hmem => ?_⟩
  have hsides := List.of_mem_zip hmem
  exact himp a e (depth_le_items hsides.1) (depth_le_items hsides.2) (h.2 hmem)

theorem Structural.mono (h : Structural R actual expected)
    (himp : ∀ x y : TypeDescriptor, x.depth + y.depth < actual.depth + expected.depth →
      R x y → S x y) : Structural S actual expected := by
  cases h with
  | metatype => exact .metatype
  | typeOf h => exact .typeOf (himp _ _ (by simp only [depth]; omega) h)
  | array h => exact .array (himp _ _ (by simp only [depth]; omega) h)
  | dict h => exact .dict (himp _ _ (by simp only [depth]; omega) h)
  | structDict h =>
      refine .structDict fun field hmem => himp _ _ ?_ (h field hmem)
      have := depth_le_fields hmem
      simp only [depth]
      omega
  | tagged h => exact .tagged (himp _ _ (by simp only [depth]; omega) h)
  | tuple h =>
      refine .tuple (forall₂_items h fun x y hx hy => himp x y ?_)
      simp only [depth]
      omega
  | struct h =>
      refine .struct (h.mono fun name a e ha he => himp a e ?_)
      have ha := depth_le_fields ha
      have he := depth_le_fields he
      simp only [depth] at ha he ⊢
      omega
  | function hparameters hresult =>
      refine .function (forall₂_items hparameters fun x y hx hy => himp x y ?_)
        (himp _ _ ?_ hresult) <;> (simp only [depth]; omega)
  | leaf hleaf heq => exact .leaf hleaf heq

/-- The rules ask about shallower descriptors only. -/
theorem Assigns.mono (h : Assigns R actual expected)
    (himp : ∀ x y : TypeDescriptor, x.depth + y.depth < actual.depth + expected.depth →
      R x y → S x y) : Assigns S actual expected := by
  cases h with
  | never => exact .never
  | ofAny => exact .ofAny
  | toAny => exact .toAny
  | enums h =>
      refine .enums (h.mono fun name a e ha he hfits => hfits.variantType name
        fun x y hx hy => himp x y ?_)
      have ha := depth_le_variants ha
      have he := depth_le_variants he
      simp only [depth] at ha he ⊢
      omega
  | unionEnum h =>
      refine .unionEnum fun a hmem => himp _ _ ?_ (h a hmem)
      have := depth_le_items hmem
      simp only [depth]
      omega
  | toEnum henum hunion hmem h =>
      refine .toEnum henum hunion hmem (himp _ _ ?_ h)
      have := depth_le_variants hmem
      simp only [depth]
      omega
  | ofEnum henum h =>
      refine .ofEnum henum fun a hmem => himp _ _ ?_ (h a hmem)
      have := depth_le_variants hmem
      simp only [depth]
      omega
  | toUnion henum hmem h =>
      refine .toUnion henum hmem (himp _ _ ?_ h)
      have := depth_le_items hmem
      simp only [depth]
      omega
  | ofUnion henum hunion h =>
      refine .ofUnion henum hunion fun a hmem => himp _ _ ?_ (h a hmem)
      have := depth_le_items hmem
      simp only [depth]
      omega
  | structural h => exact .structural (h.mono himp)

theorem assignableRule_congr {f g : TypeDescriptor → TypeDescriptor → Bool}
    (h : ∀ a e : TypeDescriptor, a.depth + e.depth < actual.depth + expected.depth →
      f a e = g a e) : assignableRule f actual expected = assignableRule g actual expected := by
  rw [Bool.eq_iff_iff, assignableRule_iff, assignableRule_iff]
  exact ⟨fun hf => hf.mono fun a e hlt hae => h a e hlt ▸ hae,
    fun hg => hg.mono fun a e hlt hae => (h a e hlt).symm ▸ hae⟩

/-- Depth beyond the descriptors' own changes no call. -/
theorem assignableWithin_eq {depth : Nat} {actual expected : TypeDescriptor}
    (h : actual.depth + expected.depth < depth) :
    assignableWithin depth actual expected = assignable actual expected := by
  unfold assignable
  induction hdepth : actual.depth + expected.depth using Nat.strong_induction_on
    generalizing depth actual expected with
  | _ n ih =>
      subst hdepth
      obtain ⟨depth, rfl⟩ := Nat.exists_eq_add_of_lt h
      refine assignableRule_congr fun a e hlt => ?_
      rw [ih _ hlt (by omega) rfl, ih _ hlt hlt rfl]

theorem assignable_eq (actual expected : TypeDescriptor) :
    assignable actual expected = assignableRule assignable actual expected := by
  unfold assignable
  refine assignableRule_congr fun a e hlt => ?_
  rw [assignableWithin_eq hlt]
  rfl

/-- Assignability holds exactly by its rules. -/
theorem assignable_iff {actual expected : TypeDescriptor} :
    assignable actual expected = true ↔ Assigns (assignable · · = true) actual expected := by
  rw [assignable_eq, assignableRule_iff]

end Equation

end TypeDescriptor

end Telora
