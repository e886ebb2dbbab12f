import Mathlib.Data.List.Perm.Subperm
import Mathlib.Data.String.Basic
import Telora.Types.Assignable

/-!
# Assignability as an order

Without unions every descriptor is assignable to itself. Assignability composes along a
middle descriptor without unions, if the enums on the left have two variants or more: the
variants of an enum may be assignable one by one, but one enum is only assignable to
another one with the same variants.
-/

namespace Telora.TypeDescriptor

open Library

/-- The descriptors directly inside a descriptor. -/
def children : TypeDescriptor → List TypeDescriptor
  | .typeOf described => [described]
  | .array item => [item]
  | .dict item => [item]
  | .tagged _ payload => [payload]
  | .tuple items => items
  | .struct fields => fields.map (·.2)
  | .enum variants => variants.filterMap (·.2)
  | .union variants => variants
  | .function parameters result => result :: parameters
  | _ => []

theorem depth_child {d child : TypeDescriptor} (h : child ∈ d.children) :
    child.depth < d.depth := by
  cases d <;> simp only [children, List.mem_singleton, List.not_mem_nil] at h
  case typeOf | array | dict | tagged =>
    subst h
    exact Nat.lt_succ_self _
  case tuple items => exact Nat.lt_succ_of_le (depth_le_items h)
  case union variants => exact Nat.lt_succ_of_le (depth_le_items h)
  case struct fields =>
    obtain ⟨field, hmem, rfl⟩ := List.mem_map.mp h
    exact Nat.lt_succ_of_le (depth_le_fields hmem)
  case enum variants =>
    obtain ⟨⟨name, payload⟩, hmem, rfl⟩ := List.mem_filterMap.mp h
    have := depth_le_variants hmem
    simp only [enumVariantType, depth] at this ⊢
    omega
  case function parameters result =>
    obtain rfl | hmem := List.mem_cons.mp h
    · simp only [depth]
      omega
    · have := depth_le_items hmem
      simp only [depth]
      omega

/-- Induction along the parts. -/
theorem parts_induction {motive : TypeDescriptor → Prop}
    (step : ∀ d : TypeDescriptor, (∀ child ∈ d.children, motive child) → motive d)
    (d : TypeDescriptor) : motive d := by
  induction hdepth : d.depth using Nat.strong_induction_on generalizing d with
  | _ n ih =>
      subst hdepth
      exact step d fun child hmem => ih child.depth (depth_child hmem) child rfl

/-- A condition that holds of a descriptor and of all its parts. -/
inductive Everywhere (p : TypeDescriptor → Prop) : TypeDescriptor → Prop where
  | mk {d} : p d → (∀ child ∈ d.children, Everywhere p child) → Everywhere p d

namespace Everywhere

variable {p q : TypeDescriptor → Prop} {d : TypeDescriptor}

theorem holds (h : Everywhere p d) : p d := by
  cases h with
  | mk h _ => exact h

theorem child (h : Everywhere p d) {child : TypeDescriptor} (hmem : child ∈ d.children) :
    Everywhere p child := by
  cases h with
  | mk _ h => exact h child hmem

theorem mono (h : Everywhere p d) (himp : ∀ d, p d → q d) : Everywhere q d := by
  induction h with
  | mk h _ ih => exact .mk (himp _ h) ih

theorem and (h : Everywhere p d) (h' : Everywhere q d) : Everywhere (fun d => p d ∧ q d) d := by
  induction h with
  | mk h _ ih => exact .mk ⟨h, h'.holds⟩ fun child hmem => ih child hmem (h'.child hmem)

theorem field {fields : List (String × TypeDescriptor)} (h : Everywhere p (.struct fields))
    {field : String × TypeDescriptor} (hmem : field ∈ fields) : Everywhere p field.2 :=
  h.child (List.mem_map_of_mem hmem)

theorem payload {variants : List (String × Option TypeDescriptor)}
    (h : Everywhere p (.enum variants)) {name : String} {payload : TypeDescriptor}
    (hmem : (name, some payload) ∈ variants) : Everywhere p payload :=
  h.child (List.mem_filterMap.mpr ⟨_, hmem, rfl⟩)

end Everywhere

/-- The maps of a descriptor have increasing keys, as ordered maps have them. -/
def Ordered : TypeDescriptor → Prop
  | .struct fields => (fields.map (·.1)).Pairwise (· < ·)
  | .enum variants => (variants.map (·.1)).Pairwise (· < ·)
  | _ => True

def isAny : TypeDescriptor → Bool
  | .any => true
  | _ => false

/-- A descriptor of the program without `Any` in it. -/
def Concrete (d : TypeDescriptor) : Prop :=
  Everywhere (fun d => d.Ordered ∧ d.isAny = false) d

def NoUnion (d : TypeDescriptor) : Prop := Everywhere (fun d => d.isUnion = false) d

/-- An enum of at least two variants. -/
def Wide : TypeDescriptor → Prop
  | .enum variants => 2 ≤ variants.length
  | _ => True

def WideEnums (d : TypeDescriptor) : Prop := Everywhere Wide d

section Entries

variable {α : Type} {fits : α → α → Prop} {as es : List (String × α)}

theorem nodup_of_increasing {names : List String} (h : names.Pairwise (· < ·)) : names.Nodup :=
  h.imp fun hlt => ne_of_lt hlt

/-- Entries that agree one by one fit. -/
theorem entriesFit_of_forall₂ (h : List.Forall₂ (fun a e => a.1 = e.1 ∧ fits a.2 e.2) as es)
    (hnodup : (es.map (·.1)).Nodup) : EntriesFit fits as es := by
  refine ⟨h.length_eq, ?_⟩
  induction h with
  | nil =>
      intro entry hmem
      cases hmem
  | @cons a e as es hae _ ih =>
      obtain ⟨hname, hfits⟩ := hae
      rw [List.map_cons, List.nodup_cons] at hnodup
      obtain ⟨name, a⟩ := a
      obtain rfl : name = e.1 := hname
      intro entry hmem
      obtain rfl | hmem := List.mem_cons.mp hmem
      · exact ⟨a, Library.lookup_cons_self, hfits⟩
      · obtain ⟨x, hx, hfits⟩ := ih hnodup.2 entry hmem
        have hne : entry.1 ≠ e.1 := fun h => hnodup.1 (h ▸ List.mem_map_of_mem hmem)
        exact ⟨x, by rw [lookup_cons_ne hne, hx], hfits⟩

/-- With distinct names on both sides, every actual entry fits an expected one. -/
theorem EntriesFit.entry (h : EntriesFit fits as es) (has : (as.map (·.1)).Nodup)
    (hes : (es.map (·.1)).Nodup) {name : String} {a : α} (hmem : (name, a) ∈ as) :
    ∃ e, (name, e) ∈ es ∧ fits a e := by
  have hsub : es.map (·.1) ⊆ as.map (·.1) := by
    intro key hkey
    obtain ⟨entry, hentry, rfl⟩ := List.mem_map.mp hkey
    obtain ⟨x, hx, -⟩ := h.lookup entry hentry
    exact List.mem_map.mpr ⟨_, mem_of_lookup hx, rfl⟩
  have hperm : (es.map (·.1)).Perm (as.map (·.1)) :=
    (List.subperm_of_subset hes hsub).perm_of_length_le (by simp [h.length])
  obtain ⟨⟨key, e⟩, hentry, rfl⟩ := List.mem_map.mp (hperm.mem_iff.mpr (List.mem_map_of_mem hmem))
  obtain ⟨x, hx, hfits⟩ := h.lookup _ hentry
  obtain rfl : x = a := congrArg Prod.snd (List.inj_on_of_nodup_map has (mem_of_lookup hx) hmem rfl)
  exact ⟨e, hentry, hfits⟩

end Entries

section Equality

theorem eqItems_iff {as es : List TypeDescriptor} :
    eqItems as es = true ↔ List.Forall₂ (fun a e => a.eq e = true) as es := by
  induction as generalizing es with
  | nil => cases es <;> simp [eqItems]
  | cons a as ih => cases es <;> simp [eqItems, ih]

theorem eqFields_iff {as es : List (String × TypeDescriptor)} :
    eqFields as es = true ↔
      List.Forall₂ (fun a e => a.1 = e.1 ∧ a.2.eq e.2 = true) as es := by
  induction as generalizing es with
  | nil => cases es <;> simp [eqFields]
  | cons a as ih => cases es <;> simp [eqFields, ih]

theorem eqVariants_iff {as es : List (String × Option TypeDescriptor)} :
    eqVariants as es = true ↔
      List.Forall₂ (fun a e => a.1 = e.1 ∧ PayloadFits (fun x y => x.eq y = true) a.2 e.2) as es := by
  induction as generalizing es with
  | nil => cases es <;> simp [eqVariants]
  | cons a as ih =>
      obtain ⟨name, payload⟩ := a
      cases es with
      | nil => cases payload <;> simp [eqVariants]
      | cons e es =>
          obtain ⟨name', payload'⟩ := e
          rw [List.forall₂_cons, ← ih]
          cases payload <;> cases payload' <;>
            simp [eqVariants, and_assoc]

/-- What equality of two descriptors compares. -/
inductive EqualParts (R : TypeDescriptor → TypeDescriptor → Prop) :
    TypeDescriptor → TypeDescriptor → Prop where
  | any : EqualParts R .any .any
  | never : EqualParts R .never .never
  | leaf {a e} : a.isLeaf = true → a.eq e = true → EqualParts R a e
  | typeOf {a e} : R a e → EqualParts R (.typeOf a) (.typeOf e)
  | array {a e} : R a e → EqualParts R (.array a) (.array e)
  | dict {a e} : R a e → EqualParts R (.dict a) (.dict e)
  | tagged {tag a e} : R a e → EqualParts R (.tagged tag a) (.tagged tag e)
  | tuple {as es} : List.Forall₂ R as es → EqualParts R (.tuple as) (.tuple es)
  | struct {as es} : List.Forall₂ (fun a e => a.1 = e.1 ∧ R a.2 e.2) as es →
      EqualParts R (.struct as) (.struct es)
  | enum {as es} : List.Forall₂ (fun a e => a.1 = e.1 ∧ PayloadFits R a.2 e.2) as es →
      EqualParts R (.enum as) (.enum es)
  | union {as es} : List.Forall₂ R as es → EqualParts R (.union as) (.union es)
  | function {as es a e} : List.Forall₂ R as es → R a e →
      EqualParts R (.function as a) (.function es e)

theorem equalParts_of_eq {a e : TypeDescriptor} (h : a.eq e = true) :
    EqualParts (fun x y => x.eq y = true) a e := by
  cases hleaf : a.isLeaf with
  | true => exact .leaf hleaf h
  | false =>
      unfold eq at h
      split at h
      all_goals try cases hleaf
      · exact .any
      · exact .never
      · exact .typeOf h
      · exact .array h
      · exact .dict h
      · obtain ⟨htag, hpayload⟩ := Bool.and_eq_true_iff.mp h
        obtain rfl := eq_of_beq htag
        exact .tagged hpayload
      · exact .tuple (eqItems_iff.mp h)
      · exact .struct (eqFields_iff.mp h)
      · exact .enum (eqVariants_iff.mp h)
      · exact .union (eqItems_iff.mp h)
      · obtain ⟨hparameters, hresult⟩ := Bool.and_eq_true_iff.mp h
        exact .function (eqItems_iff.mp hparameters) hresult
      · cases h

theorem eq_of_equalParts {a e : TypeDescriptor}
    (h : EqualParts (fun x y => x.eq y = true) a e) : a.eq e = true := by
  cases h with
  | any | never => rfl
  | leaf _ heq => exact heq
  | typeOf h | array h | dict h => exact h
  | tagged h => exact Bool.and_eq_true_iff.mpr ⟨beq_self_eq_true _, h⟩
  | tuple h | union h => exact eqItems_iff.mpr h
  | struct h => exact eqFields_iff.mpr h
  | enum h => exact eqVariants_iff.mpr h
  | function hparameters hresult =>
      exact Bool.and_eq_true_iff.mpr ⟨eqItems_iff.mpr hparameters, hresult⟩

theorem eq_refl (d : TypeDescriptor) : d.eq d = true := by
  induction d using parts_induction with
  | step d ih =>
      refine eq_of_equalParts ?_
      cases d with
      | any => exact .any
      | never => exact .never
      | type | dyn | int | float | string | bytes => exact .leaf rfl rfl
      | bound _ | inference _ | opaqueType _ | atom _ => exact .leaf rfl (beq_self_eq_true _)
      | typeOf _ => exact .typeOf (ih _ List.mem_cons_self)
      | array _ => exact .array (ih _ List.mem_cons_self)
      | dict _ => exact .dict (ih _ List.mem_cons_self)
      | tagged _ _ => exact .tagged (ih _ List.mem_cons_self)
      | tuple items => exact .tuple (List.forall₂_same.mpr ih)
      | struct fields =>
          exact .struct (List.forall₂_same.mpr fun field hmem =>
            ⟨rfl, ih _ (List.mem_map_of_mem hmem)⟩)
      | enum variants =>
          refine .enum (List.forall₂_same.mpr fun variant hmem => ⟨rfl, ?_⟩)
          obtain ⟨name, payload⟩ := variant
          cases payload with
          | none => exact .none
          | some payload => exact .some (ih _ (List.mem_filterMap.mpr ⟨_, hmem, rfl⟩))
      | union variants => exact .union (List.forall₂_same.mpr ih)
      | function parameters result =>
          exact .function (List.forall₂_same.mpr fun item hmem => ih _ (List.mem_cons_of_mem _ hmem))
            (ih _ List.mem_cons_self)

theorem leaf_of_eq {a e : TypeDescriptor} (ha : a.isLeaf = true) (h : a.eq e = true) :
    e.isLeaf = true := by
  cases a <;> first
    | exact absurd ha Bool.false_ne_true
    | (cases e <;> first | rfl | exact absurd h Bool.false_ne_true)

theorem leaf_eq_symm {a e : TypeDescriptor} (ha : a.isLeaf = true) (h : a.eq e = true) :
    e.eq a = true := by
  cases a <;> first
    | exact absurd ha Bool.false_ne_true
    | (cases e <;> first
        | rfl
        | exact absurd h Bool.false_ne_true
        | (simp only [eq, beq_iff_eq] at h ⊢; exact h.symm))

theorem forall₂_flip {α : Type} {r s : α → α → Prop} {as es : List α} (h : List.Forall₂ r as es)
    (himp : ∀ a ∈ as, ∀ e, r a e → s e a) : List.Forall₂ s es as := by
  induction h with
  | nil => exact .nil
  | cons hr _ ih =>
      exact .cons (himp _ List.mem_cons_self _ hr)
        (ih fun a ha => himp a (List.mem_cons_of_mem _ ha))

theorem eq_symm {a e : TypeDescriptor} (heq : a.eq e = true) : e.eq a = true := by
  induction a using parts_induction generalizing e with
  | step a ih =>
      refine eq_of_equalParts ?_
      cases equalParts_of_eq heq with
      | any => exact .any
      | never => exact .never
      | leaf hleaf _ => exact .leaf (leaf_of_eq hleaf heq) (leaf_eq_symm hleaf heq)
      | typeOf h => exact .typeOf (ih _ List.mem_cons_self h)
      | array h => exact .array (ih _ List.mem_cons_self h)
      | dict h => exact .dict (ih _ List.mem_cons_self h)
      | tagged h => exact .tagged (ih _ List.mem_cons_self h)
      | tuple h => exact .tuple (forall₂_flip h fun x hx y hxy => ih x hx hxy)
      | struct h =>
          exact .struct (forall₂_flip h fun x hx y hxy =>
            ⟨hxy.1.symm, ih _ (List.mem_map_of_mem hx) hxy.2⟩)
      | enum h =>
          refine .enum (forall₂_flip h ?_)
          rintro ⟨name, payload⟩ hx ⟨name', payload'⟩ ⟨hname, hpayload⟩
          refine ⟨hname.symm, ?_⟩
          cases hpayload with
          | none => exact .none
          | some hpayload => exact .some (ih _ (List.mem_filterMap.mpr ⟨_, hx, rfl⟩) hpayload)
      | union h => exact .union (forall₂_flip h fun x hx y hxy => ih x hx hxy)
      | function hparameters hresult =>
          exact .function
            (forall₂_flip hparameters fun x hx y hxy => ih x (List.mem_cons_of_mem _ hx) hxy)
            (ih _ List.mem_cons_self hresult)

/-- Leaves are equal by their content. -/
theorem leaf_eq_trans {a b c : TypeDescriptor} (ha : a.isLeaf = true) (hab : a.eq b = true)
    (hbc : b.eq c = true) : a.eq c = true := by
  cases a <;> first
    | exact absurd ha Bool.false_ne_true
    | (cases b <;> first
        | exact absurd hab Bool.false_ne_true
        | (cases c <;> first
            | rfl
            | exact absurd hbc Bool.false_ne_true
            | (simp only [eq, beq_iff_eq] at hab hbc ⊢; exact hab.trans hbc)))

end Equality

section Reflexivity

theorem forall₂_of_mem {α β : Type} {p q : α → β → Prop} {as : List α} {es : List β}
    (h : List.Forall₂ p as es) (himp : ∀ a ∈ as, ∀ e ∈ es, p a e → q a e) :
    List.Forall₂ q as es := by
  induction h with
  | nil => exact .nil
  | cons hp _ ih =>
      exact .cons (himp _ List.mem_cons_self _ List.mem_cons_self hp)
        (ih fun a ha e he => himp a (List.mem_cons_of_mem _ ha) e (List.mem_cons_of_mem _ he))

/-- A descriptor without unions is assignable to every descriptor equal to it. -/
theorem assignable_of_eq {a e : TypeDescriptor} (ha : a.NoUnion) (he : Everywhere Ordered e)
    (heq : a.eq e = true) : assignable a e = true := by
  induction ha generalizing e with
  | @mk a hunion _ ih =>
      rw [assignable_iff]
      cases equalParts_of_eq heq with
      | any => exact .ofAny
      | never => exact .never
      | leaf hleaf heq => exact .structural (.leaf hleaf heq)
      | typeOf h =>
          exact .structural (.typeOf (ih _ List.mem_cons_self (he.child List.mem_cons_self) h))
      | array h =>
          exact .structural (.array (ih _ List.mem_cons_self (he.child List.mem_cons_self) h))
      | dict h =>
          exact .structural (.dict (ih _ List.mem_cons_self (he.child List.mem_cons_self) h))
      | tagged h =>
          exact .structural (.tagged (ih _ List.mem_cons_self (he.child List.mem_cons_self) h))
      | tuple h =>
          exact .structural (.tuple (forall₂_of_mem h fun x hx y hy => ih x hx (he.child hy)))
      | struct h =>
          refine .structural (.struct (entriesFit_of_forall₂ (forall₂_of_mem h ?_)
            (nodup_of_increasing he.holds)))
          exact fun x hx y hy hxy =>
            ⟨hxy.1, ih _ (List.mem_map_of_mem hx) (he.field hy) hxy.2⟩
      | enum h =>
          refine .enums (entriesFit_of_forall₂ (forall₂_of_mem h ?_)
            (nodup_of_increasing he.holds))
          rintro ⟨name, payload⟩ hx ⟨name', payload'⟩ hy ⟨hname, hpayload⟩
          refine ⟨hname, ?_⟩
          cases hpayload with
          | none => exact .none
          | some hpayload =>
              exact .some (ih _ (List.mem_filterMap.mpr ⟨_, hx, rfl⟩) (he.payload hy) hpayload)
      | union h => cases hunion
      | function hparameters hresult =>
          refine .structural (.function (forall₂_of_mem hparameters fun x hx y hy =>
            ih x (List.mem_cons_of_mem _ hx) (he.child (List.mem_cons_of_mem _ hy))) ?_)
          exact ih _ List.mem_cons_self (he.child List.mem_cons_self) hresult

end Reflexivity

section Variants

variable {p : TypeDescriptor → Prop}

theorem atomFromName_name (name : String) : (atomFromName name).name = name := by
  unfold atomFromName
  split
  · rename_i atom h
    exact ((builtinAtom_eq_some_iff name atom).mp h).symm
  · rfl

theorem atomFromName_injective {name name' : String}
    (h : atomFromName name = atomFromName name') : name = name' := by
  rw [← atomFromName_name name, h, atomFromName_name]

theorem Everywhere.variantType {variants : List (String × Option TypeDescriptor)}
    (h : Everywhere p (.enum variants)) (hatom : ∀ tag, p (.atom tag))
    (htagged : ∀ tag payload, p (.tagged tag payload)) {variant : String × Option TypeDescriptor}
    (hmem : variant ∈ variants) : Everywhere p (enumVariantType variant.1 variant.2) := by
  obtain ⟨name, payload⟩ := variant
  cases payload with
  | none => exact .mk (hatom _) fun child hchild => by cases hchild
  | some payload =>
      refine .mk (htagged _ _) fun child hchild => ?_
      obtain rfl := List.mem_singleton.mp hchild
      exact h.payload hmem

theorem variantType_assignable {name : String} {a e : Option TypeDescriptor}
    (h : PayloadFits (assignable · · = true) a e) :
    assignable (enumVariantType name a) (enumVariantType name e) = true := by
  rw [assignable_iff]
  cases h with
  | none => exact .structural (.leaf rfl (eq_refl _))
  | some h => exact .structural (.tagged h)

/-- The tag of the values of one variant. -/
def tag? : TypeDescriptor → Option Atom
  | .atom tag => some tag
  | .tagged tag _ => some tag
  | _ => none

/-- What a single variant is assignable to carries its tag, if it is no enum or union. -/
theorem tag_of_variantType {name : String} {payload : Option TypeDescriptor} {e : TypeDescriptor}
    (hany : e.isAny = false) (henum : e.isEnum = false) (hunion : e.isUnion = false)
    (h : assignable (enumVariantType name payload) e = true) :
    e.tag? = some (atomFromName name) := by
  have hstructural : Structural (assignable · · = true) (enumVariantType name payload) e := by
    have hassigns := assignable_iff.mp h
    cases payload <;> cases hassigns <;> first
      | assumption
      | exact absurd hany.symm Bool.false_ne_true
      | exact absurd henum.symm Bool.false_ne_true
      | exact absurd hunion.symm Bool.false_ne_true
  cases payload with
  | none =>
      cases hstructural with
      | leaf _ heq =>
          cases e <;> first
            | exact absurd heq Bool.false_ne_true
            | exact congrArg some (eq_of_beq heq).symm
  | some payload =>
      cases hstructural with
      | tagged _ => rfl
      | leaf hleaf _ => exact absurd hleaf Bool.false_ne_true

end Variants

section Transitivity

variable {a b c : TypeDescriptor}

structure RightPart (d : TypeDescriptor) : Prop where
  ordered : d.Ordered
  notAny : d.isAny = false

structure MiddlePart (d : TypeDescriptor) : Prop extends RightPart d where
  notUnion : d.isUnion = false

structure LeftPart (d : TypeDescriptor) : Prop extends MiddlePart d where
  wide : d.Wide

theorem Structural.left_not_enum {R : TypeDescriptor → TypeDescriptor → Prop}
    (h : Structural R a b) : a.isEnum = false := by
  cases h with
  | leaf hleaf _ => cases a <;> first | rfl | exact absurd hleaf Bool.false_ne_true
  | _ => rfl

theorem Structural.left_not_union {R : TypeDescriptor → TypeDescriptor → Prop}
    (h : Structural R a b) : a.isUnion = false := by
  cases h with
  | leaf hleaf _ => cases a <;> first | rfl | exact absurd hleaf Bool.false_ne_true
  | _ => rfl

theorem Structural.not_never {R : TypeDescriptor → TypeDescriptor → Prop}
    (h : Structural R a .never) : False := by
  cases h with
  | leaf hleaf heq => exact absurd (leaf_of_eq hleaf heq) Bool.false_ne_true

theorem Structural.right_not_enum {R : TypeDescriptor → TypeDescriptor → Prop}
    (h : Structural R a b) : b.isEnum = false := by
  cases h with
  | leaf hleaf heq =>
      have hb := leaf_of_eq hleaf heq
      cases b <;> first | rfl | exact absurd hb Bool.false_ne_true
  | _ => rfl

theorem forall₂_trans {R : TypeDescriptor → TypeDescriptor → Prop}
    {as bs cs : List TypeDescriptor} (hab : List.Forall₂ R as bs) (hbc : List.Forall₂ R bs cs)
    (htrans : ∀ x ∈ as, ∀ y ∈ bs, ∀ z ∈ cs, R x y → R y z → R x z) : List.Forall₂ R as cs := by
  induction hab generalizing cs with
  | nil =>
      cases hbc
      exact .nil
  | cons hxy _ ih =>
      cases hbc with
      | cons hyz hbc =>
          exact .cons (htrans _ List.mem_cons_self _ List.mem_cons_self _ List.mem_cons_self hxy hyz)
            (ih hbc fun x hx y hy z hz => htrans x (List.mem_cons_of_mem _ hx) y
              (List.mem_cons_of_mem _ hy) z (List.mem_cons_of_mem _ hz))

theorem EntriesFit.trans {α : Type} {fits : α → α → Prop} {as bs cs : List (String × α)}
    (hab : EntriesFit fits as bs) (hbc : EntriesFit fits bs cs)
    (htrans : ∀ name x y z, (name, x) ∈ as → (name, y) ∈ bs → (name, z) ∈ cs →
      fits x y → fits y z → fits x z) : EntriesFit fits as cs where
  length := hab.length.trans hbc.length
  lookup := by
    intro entry hmem
    obtain ⟨y, hy, hyz⟩ := hbc.lookup entry hmem
    have hymem := mem_of_lookup hy
    obtain ⟨x, hx, hxy⟩ := hab.lookup _ hymem
    exact ⟨x, hx, htrans entry.1 x y entry.2 (mem_of_lookup hx) hymem hmem hxy hyz⟩

/-- Composition of the structural rules, where the parts compose. -/
theorem Structural.trans {R : TypeDescriptor → TypeDescriptor → Prop}
    (hordered : Ordered a ∧ Ordered b) (hab : Structural R a b) (hbc : Structural R b c)
    (htrans : ∀ x ∈ a.children, ∀ y ∈ b.children, ∀ z ∈ c.children, R x y → R y z → R x z) :
    Structural R a c := by
  cases hab with
  | metatype =>
      cases hbc with
      | leaf _ heq =>
          cases c <;> first | exact .metatype | exact absurd heq Bool.false_ne_true
  | typeOf h =>
      cases hbc with
      | metatype => exact .metatype
      | typeOf h' =>
          exact .typeOf (htrans _ List.mem_cons_self _ List.mem_cons_self _ List.mem_cons_self h h')
      | leaf hleaf _ => exact absurd hleaf Bool.false_ne_true
  | array h =>
      cases hbc with
      | array h' =>
          exact .array (htrans _ List.mem_cons_self _ List.mem_cons_self _ List.mem_cons_self h h')
      | leaf hleaf _ => exact absurd hleaf Bool.false_ne_true
  | dict h =>
      cases hbc with
      | dict h' =>
          exact .dict (htrans _ List.mem_cons_self _ List.mem_cons_self _ List.mem_cons_self h h')
      | leaf hleaf _ => exact absurd hleaf Bool.false_ne_true
  | structDict h =>
      cases hbc with
      | dict h' =>
          exact .structDict fun field hmem => htrans _ (List.mem_map_of_mem hmem) _
            List.mem_cons_self _ List.mem_cons_self (h field hmem) h'
      | leaf hleaf _ => exact absurd hleaf Bool.false_ne_true
  | tagged h =>
      cases hbc with
      | tagged h' =>
          exact .tagged (htrans _ List.mem_cons_self _ List.mem_cons_self _ List.mem_cons_self h h')
      | leaf hleaf _ => exact absurd hleaf Bool.false_ne_true
  | tuple h =>
      cases hbc with
      | tuple h' => exact .tuple (forall₂_trans h h' htrans)
      | leaf hleaf _ => exact absurd hleaf Bool.false_ne_true
  | struct h =>
      cases hbc with
      | structDict h' =>
          refine .structDict fun field hmem => ?_
          obtain ⟨y, hy, hfits⟩ := h.entry (nodup_of_increasing hordered.1)
            (nodup_of_increasing hordered.2) hmem
          exact htrans _ (List.mem_map_of_mem hmem) _ (List.mem_map_of_mem hy) _
            List.mem_cons_self hfits (h' _ hy)
      | struct h' =>
          exact .struct (h.trans h' fun name x y z hx hy hz => htrans x (List.mem_map_of_mem hx) y
            (List.mem_map_of_mem hy) z (List.mem_map_of_mem hz))
      | leaf hleaf _ => exact absurd hleaf Bool.false_ne_true
  | function hparameters hresult =>
      cases hbc with
      | function hparameters' hresult' =>
          refine .function (forall₂_trans hparameters hparameters' fun x hx y hy z hz =>
            htrans x (List.mem_cons_of_mem _ hx) y (List.mem_cons_of_mem _ hy) z
              (List.mem_cons_of_mem _ hz)) ?_
          exact htrans _ List.mem_cons_self _ List.mem_cons_self _ List.mem_cons_self hresult hresult'
      | leaf hleaf _ => exact absurd hleaf Bool.false_ne_true
  | leaf hleaf heq =>
      have hb := leaf_of_eq hleaf heq
      cases hbc with
      | leaf _ heq' => exact .leaf hleaf (leaf_eq_trans hleaf heq heq')
      | _ => exact absurd hb Bool.false_ne_true

theorem depth_variantType {variants : List (String × Option TypeDescriptor)}
    {variant : String × Option TypeDescriptor} (h : variant ∈ variants) :
    (enumVariantType variant.1 variant.2).depth < (enum variants).depth :=
  Nat.lt_succ_of_le (depth_le_variants h)

/-- The variants of a wide enum have no common bound but an enum or a union. -/
theorem wide_not_below {variants : List (String × Option TypeDescriptor)} {e : TypeDescriptor}
    (hordered : Ordered (.enum variants)) (hwide : Wide (.enum variants))
    (hany : e.isAny = false) (henum : e.isEnum = false) (hunion : e.isUnion = false)
    (h : ∀ variant ∈ variants, assignable (enumVariantType variant.1 variant.2) e = true) :
    False := by
  match variants, hordered, hwide, h with
  | first :: second :: _, hordered, _, h =>
      have hfirst := tag_of_variantType hany henum hunion (h first List.mem_cons_self)
      have hsecond := tag_of_variantType hany henum hunion
        (h second (List.mem_cons_of_mem _ List.mem_cons_self))
      have hname := atomFromName_injective (Option.some.inj (hfirst.symm.trans hsecond))
      have hlt : first.1 < second.1 :=
        (List.pairwise_cons.mp hordered).1 _ List.mem_cons_self
      exact absurd hname (ne_of_lt hlt)

theorem assignable_trans_within (n : Nat) : ∀ {a b c : TypeDescriptor},
    a.depth + b.depth + c.depth < n → Everywhere LeftPart a → Everywhere MiddlePart b →
      Everywhere RightPart c → assignable a b = true → assignable b c = true →
      assignable a c = true := by
  induction n with
  | zero => exact fun h => absurd h (Nat.not_lt_zero _)
  | succ n ih =>
      intro a b c hn ha hb hc hab hbc
      rw [assignable_iff] at hab hbc
      have hleft {variants} (h : Everywhere LeftPart (.enum variants)) {variant}
          (hmem : variant ∈ variants) :
          Everywhere LeftPart (enumVariantType variant.1 variant.2) :=
        h.variantType (fun _ => ⟨⟨⟨trivial, rfl⟩, rfl⟩, trivial⟩)
          (fun _ _ => ⟨⟨⟨trivial, rfl⟩, rfl⟩, trivial⟩) hmem
      have hmiddle {variants} (h : Everywhere MiddlePart (.enum variants)) {variant}
          (hmem : variant ∈ variants) :
          Everywhere MiddlePart (enumVariantType variant.1 variant.2) :=
        h.variantType (fun _ => ⟨⟨trivial, rfl⟩, rfl⟩) (fun _ _ => ⟨⟨trivial, rfl⟩, rfl⟩) hmem
      have hright {variants} (h : Everywhere RightPart (.enum variants)) {variant}
          (hmem : variant ∈ variants) :
          Everywhere RightPart (enumVariantType variant.1 variant.2) :=
        h.variantType (fun _ => ⟨trivial, rfl⟩) (fun _ _ => ⟨trivial, rfl⟩) hmem
      cases hab with
      | never => exact assignable_iff.mpr .never
      | ofAny => exact absurd ha.holds.notAny.symm Bool.false_ne_true
      | toAny => exact absurd hb.holds.notAny.symm Bool.false_ne_true
      | @enums as bs hfits =>
          have has := nodup_of_increasing ha.holds.ordered
          have hbs := nodup_of_increasing hb.holds.ordered
          cases hbc with
          | toAny => exact absurd hc.holds.notAny.symm Bool.false_ne_true
          | @enums _ cs hfits' =>
              refine assignable_iff.mpr (.enums (hfits.trans hfits' ?_))
              rintro name x y z hx hy hz hxy hyz
              have hxd := depth_variantType hx
              have hyd := depth_variantType hy
              have hzd := depth_variantType hz
              cases hxy with
              | none => exact hyz
              | some hxy =>
                  cases hyz with
                  | some hyz =>
                      simp only [enumVariantType, depth] at hxd hyd hzd hn
                      exact .some (ih (by omega) (ha.payload hx) (hb.payload hy) (hc.payload hz)
                        hxy hyz)
          | ofEnum henum h =>
              refine assignable_iff.mpr (.ofEnum henum fun variant hmem => ?_)
              obtain ⟨y, hy, hxy⟩ := hfits.entry has hbs hmem
              have hxd := depth_variantType hmem
              have hyd := depth_variantType hy
              exact ih (by omega) (hleft ha hmem) (hmiddle hb hy) hc
                (variantType_assignable hxy) (h _ hy)
          | toEnum henum _ _ _ => exact absurd henum.symm Bool.false_ne_true
          | toUnion henum _ _ => exact absurd henum.symm Bool.false_ne_true
          | structural h => exact absurd h.left_not_enum.symm Bool.false_ne_true
      | unionEnum _ => exact absurd ha.holds.notUnion.symm Bool.false_ne_true
      | @toEnum _ bs y henum hunion hmem h =>
          have hyd := depth_variantType hmem
          cases hbc with
          | toAny => exact absurd hc.holds.notAny.symm Bool.false_ne_true
          | @enums _ cs hfits =>
              obtain ⟨z, hz, hyz⟩ := hfits.entry (nodup_of_increasing hb.holds.ordered)
                (nodup_of_increasing hc.holds.ordered) hmem
              have hzd := depth_variantType hz
              exact assignable_iff.mpr (.toEnum henum hunion hz (ih (by omega) ha (hmiddle hb hmem)
                (hright hc hz) h (variantType_assignable hyz)))
          | ofEnum _ h' => exact ih (by omega) ha (hmiddle hb hmem) hc h (h' _ hmem)
          | toEnum henum' _ _ _ => exact absurd henum'.symm Bool.false_ne_true
          | toUnion henum' _ _ => exact absurd henum'.symm Bool.false_ne_true
          | structural h => exact absurd h.left_not_enum.symm Bool.false_ne_true
      | ofEnum henum h =>
          exact (wide_not_below ha.holds.ordered ha.holds.wide hb.holds.notAny henum
            hb.holds.notUnion h).elim
      | toUnion _ _ _ => exact absurd hb.holds.notUnion.symm Bool.false_ne_true
      | ofUnion _ _ _ => exact absurd ha.holds.notUnion.symm Bool.false_ne_true
      | structural hab =>
          cases hbc with
          | never => exact hab.not_never.elim
          | ofAny => exact absurd hb.holds.notAny.symm Bool.false_ne_true
          | toAny => exact absurd hc.holds.notAny.symm Bool.false_ne_true
          | enums _ => exact absurd hab.right_not_enum.symm Bool.false_ne_true
          | unionEnum _ => exact absurd hb.holds.notUnion.symm Bool.false_ne_true
          | @toEnum _ cs z _ _ hmem h =>
              have hzd := depth_variantType hmem
              exact assignable_iff.mpr (.toEnum hab.left_not_enum hab.left_not_union hmem
                (ih (by omega) ha hb (hright hc hmem) (assignable_iff.mpr (.structural hab)) h))
          | ofEnum _ _ => exact absurd hab.right_not_enum.symm Bool.false_ne_true
          | @toUnion _ cs z _ hmem h =>
              have hzd : z.depth < (union cs).depth := depth_child hmem
              exact assignable_iff.mpr (.toUnion hab.left_not_enum hmem
                (ih (by omega) ha hb (hc.child hmem) (assignable_iff.mpr (.structural hab)) h))
          | ofUnion _ _ _ => exact absurd hb.holds.notUnion.symm Bool.false_ne_true
          | structural hbc =>
              refine assignable_iff.mpr (.structural (hab.trans
                ⟨ha.holds.ordered, hb.holds.ordered⟩ hbc fun x hx y hy z hz => ?_))
              have hxd := depth_child hx
              have hyd := depth_child hy
              have hzd := depth_child hz
              exact ih (by omega) (ha.child hx) (hb.child hy) (hc.child hz)

/-- Assignability composes along a middle descriptor without unions, if the left one has
none either and its enums are wide. -/
theorem assignable_trans (ha : a.Concrete) (haUnion : a.NoUnion) (haWide : a.WideEnums)
    (hb : b.Concrete) (hbUnion : b.NoUnion) (hc : c.Concrete) (hab : assignable a b = true)
    (hbc : assignable b c = true) : assignable a c = true :=
  assignable_trans_within _ (Nat.lt_succ_self _)
    (((ha.and haUnion).and haWide).mono fun _ ⟨⟨⟨hordered, hany⟩, hunion⟩, hwide⟩ =>
      ⟨⟨⟨hordered, hany⟩, hunion⟩, hwide⟩)
    ((hb.and hbUnion).mono fun _ ⟨⟨hordered, hany⟩, hunion⟩ => ⟨⟨hordered, hany⟩, hunion⟩)
    (hc.mono fun _ ⟨hordered, hany⟩ => ⟨hordered, hany⟩) hab hbc

end Transitivity

end Telora.TypeDescriptor
