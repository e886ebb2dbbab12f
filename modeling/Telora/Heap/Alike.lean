import Telora.Heap.StorageIndependence

/-!
# Copies across views

Values of two views that are copies of one another: equal leaves, containers with one
label whose components are copies, and links that lead to copies. Publication makes
copies in this sense, and so does an export that is imported again.
-/

namespace Telora

open Library

namespace HeapView

/-- Equal leaves, or containers with one label whose components are related. -/
def AgreeAcross (left right : HeapView) (related : RuntimeValue → RuntimeValue → Prop)
    (a b : RuntimeValue) : Prop :=
  (∃ leaf, left.leaf a = some leaf ∧ right.leaf b = some leaf) ∨
    ∃ label as bs, left.node a = some (label, as) ∧ right.node b = some (label, bs) ∧
      List.Forall₂ related as bs

/-- Links that are both empty, or lead to related values. -/
def LinksAcross (left right : HeapView) (related : RuntimeValue → RuntimeValue → Prop)
    (a b : RuntimeValue) : Prop :=
  ∃ link link' target target', a = .upLink link ∧ b = .upLink link' ∧
    left.upLink link = .ok target ∧ right.upLink link' = .ok target' ∧
    Option.Rel (fun x y : RichValue => related x.value y.value) target target'

theorem AgreeAcross.mono {left right : HeapView} {p q : RuntimeValue → RuntimeValue → Prop}
    (h : ∀ a b, p a b → q a b) {a b : RuntimeValue} (hagree : left.AgreeAcross right p a b) :
    left.AgreeAcross right q a b := by
  rcases hagree with hleaf | ⟨label, as, bs, ha, hb, hrel⟩
  · exact .inl hleaf
  · exact .inr ⟨label, as, bs, ha, hb, hrel.imp h⟩

theorem LinksAcross.mono {left right : HeapView} {p q : RuntimeValue → RuntimeValue → Prop}
    (h : ∀ a b, p a b → q a b) {a b : RuntimeValue} (hlinks : left.LinksAcross right p a b) :
    left.LinksAcross right q a b := by
  obtain ⟨link, link', target, target', ha, hb, htarget, htarget', hrel⟩ := hlinks
  refine ⟨link, link', target, target', ha, hb, htarget, htarget', ?_⟩
  cases hrel with
  | none => exact .none
  | some hrel => exact .some (h _ _ hrel)

/-- The step of being copies, as a monotone map of relations. -/
def alikeStep (left right : HeapView) :
    (RuntimeValue → RuntimeValue → Prop) →o (RuntimeValue → RuntimeValue → Prop) where
  toFun related a b := left.LinksAcross right related a b ∨ left.AgreeAcross right related a b
  monotone' _ _ h _ _ := Or.imp (LinksAcross.mono h) (AgreeAcross.mono h)

/-- Copies of one value, followed through links. -/
def Alike (left right : HeapView) : RuntimeValue → RuntimeValue → Prop :=
  (left.alikeStep right).gfp

section Facts

variable {left right view : HeapView}

theorem Alike.step {a b : RuntimeValue} (h : left.Alike right a b) :
    left.LinksAcross right (left.Alike right) a b ∨
      left.AgreeAcross right (left.Alike right) a b := by
  have := (left.alikeStep right).map_gfp
  rw [Alike, ← this] at h
  exact h

theorem Alike.of_step (related : RuntimeValue → RuntimeValue → Prop)
    (hstep : ∀ {a b}, related a b →
      left.LinksAcross right related a b ∨ left.AgreeAcross right related a b)
    {a b : RuntimeValue} (h : related a b) : left.Alike right a b :=
  (left.alikeStep right).le_gfp (fun _ _ => hstep) a b h

theorem agreeAcross_of_agree {related : RuntimeValue → RuntimeValue → Prop} {a b : RuntimeValue}
    (h : view.Agree Eq related a b) : view.AgreeAcross view related a b := by
  rcases h with ⟨leaf, _, ha, hb, rfl⟩ | hnode
  · exact .inl ⟨leaf, ha, hb⟩
  · exact .inr hnode

/-- A value is alike to an import of what it denotes. -/
theorem Reimported.alike {a b : RuntimeValue} (h : left.Reimported right a b) :
    left.Alike right a b :=
  .of_step _ (fun h => .inr h.content) h

/-- Copies of copies are copies. -/
theorem Alike.trans {third : HeapView} {a b c : RuntimeValue} (hab : left.Alike right a b)
    (hbc : right.Alike third b c) : left.Alike third a c := by
  refine .of_step (fun a c => ∃ b, left.Alike right a b ∧ right.Alike third b c) ?_ ⟨b, hab, hbc⟩
  rintro a c ⟨b, hab, hbc⟩
  rcases hab.step with
    ⟨link, link', target, target', rfl, rfl, htarget, htarget', hrel⟩ | ⟨leaf, ha, hb⟩ |
    ⟨label, as, bs, ha, hb, hrel⟩
  · rcases hbc.step with ⟨_, last, middle, target'', hlink, rfl, hmiddle, htarget'', hrel'⟩ |
      ⟨_, hb, -⟩ | ⟨_, _, _, hb, -, -⟩
    · obtain rfl := RuntimeValue.upLink.inj hlink
      obtain rfl := Except.ok.inj (htarget'.symm.trans hmiddle)
      refine .inl ⟨link, last, target, target'', rfl, rfl, htarget, htarget'', ?_⟩
      cases hrel with
      | none => cases hrel'; exact .none
      | some h =>
          cases hrel' with
          | some h' => exact .some ⟨_, h, h'⟩
    · cases hb
    · cases hb
  · rcases hbc.step with ⟨_, _, _, _, rfl, -⟩ | ⟨leaf', hb', hc⟩ | ⟨_, _, _, hb', -, -⟩
    · cases hb
    · obtain rfl := Option.some.inj (hb.symm.trans hb')
      exact .inr (.inl ⟨leaf, ha, hc⟩)
    · rw [leaf_eq_none_of_node hb'] at hb
      cases hb
  · rcases hbc.step with ⟨_, _, _, _, rfl, -⟩ | ⟨leaf', hb', -⟩ | ⟨label', bs', cs, hb', hc, hrel'⟩
    · cases hb
    · rw [leaf_eq_none_of_node hb] at hb'
      cases hb'
    · obtain ⟨rfl, rfl⟩ := Prod.mk.inj (Option.some.inj (hb.symm.trans hb'))
      exact .inr (.inr ⟨label, as, cs, ha, hc,
        forall₂_comp (fun h h' => ⟨_, h, h'⟩) hrel hrel'⟩)

theorem Alike.symm {a b : RuntimeValue} (h : left.Alike right a b) : right.Alike left b a := by
  refine .of_step (fun b a => left.Alike right a b) ?_ h
  intro b a hab
  rcases hab.step with ⟨link, link', target, target', rfl, rfl, htarget, htarget', hrel⟩ |
    ⟨leaf, ha, hb⟩ | ⟨label, as, bs, ha, hb, hrel⟩
  · refine .inl ⟨link', link, target', target, rfl, rfl, htarget', htarget, ?_⟩
    cases hrel with
    | none => exact .none
    | some h => exact .some h
  · exact .inr (.inl ⟨leaf, hb, ha⟩)
  · exact .inr (.inr ⟨label, bs, as, hb, ha, hrel.flip⟩)

/-- Values that correspond within a well-kinded view are alike. -/
theorem Corresponds.alike {rH : Handle → Handle → Prop} {rT : InternId → InternId → Prop}
    {rS : ShapeId → ShapeId → Prop} (h : view.Corresponds rH rT rS) (hkinded : view.WellKinded)
    (hinit : view.Initialized) {a b : RuntimeValue} (ha : view.ValueKinded a)
    (hrel : RuntimeValue.Rel rH rT a b) : view.Alike view a b := by
  refine .of_step (fun a b => view.ValueKinded a ∧ RuntimeValue.Rel rH rT a b) ?_ ⟨ha, hrel⟩
  rintro a b ⟨ha, hrel⟩
  rcases h.agree hkinded hinit ha hrel with ⟨link, link', rfl, rfl, hlinks⟩ | hagree
  · obtain ⟨object, hobject, hkind⟩ := HasKind.object hinit ha
    obtain ⟨_, hobject', hobjects⟩ := h.objects hlinks hobject
    cases hobjects <;> cases hkind
    rename_i value value' hvalue
    exact .inl ⟨link, link', some value, some value', rfl, rfl, upLink_eq_ok.mpr hobject,
      upLink_eq_ok.mpr hobject', .some ⟨hkinded hobject, hvalue.1⟩⟩
  · exact .inr (agreeAcross_of_agree hagree)

/-- A kinded value is alike to itself in a view that resolves more. -/
theorem Extends.alike (h : left.Extends right) (hkinded : left.WellKinded)
    (hinit : left.Initialized) {value : RuntimeValue} (hvalue : left.ValueKinded value) :
    left.Alike right value value := by
  refine .of_step (fun a b => a = b ∧ left.ValueKinded a) ?_ ⟨rfl, hvalue⟩
  rintro value _ ⟨rfl, hvalue⟩
  cases hcontainer : value.container with
  | some handle =>
      obtain ⟨label, components, hnode⟩ := hvalue.node hkinded hinit (by rw [hcontainer]; rfl)
      refine .inr (.inr ⟨label, components, components, hnode, h.fills.node hnode, ?_⟩)
      exact List.forall₂_same.mpr fun component hmem =>
        ⟨rfl, hkinded.components hnode component hmem⟩
  | none =>
      by_cases hlink : ∃ handle, value = .upLink handle
      · obtain ⟨handle, rfl⟩ := hlink
        obtain ⟨object, hobject, hkind⟩ := HasKind.object hinit hvalue
        cases object <;> cases hkind
        rename_i target
        refine .inl ⟨handle, handle, target, target, rfl, rfl, upLink_eq_ok.mpr hobject,
          upLink_eq_ok.mpr (h.objects hobject), ?_⟩
        cases target with
        | none => exact .none
        | some target => exact .some ⟨rfl, hkinded hobject⟩
      · obtain ⟨leaf, hleaf⟩ := hvalue.leaf hinit hcontainer fun handle heq => hlink ⟨handle, heq⟩
        exact .inr (.inl ⟨leaf, hleaf, h.fills.leaf hleaf⟩)

end Facts

end HeapView

section Storage

open HeapView

variable {target work target' : Heap} {root root' : RichValue}

/-- A published root is a copy of the root in the world before the publication. -/
theorem alike_of_publishRoot (hpub : Publishable target work)
    (hkinded : (world target work).WellKinded) (hinit : (world target work).Initialized)
    (hroot : (world target work).ValueKinded root.value)
    (h : publishRoot target work root = .ok (root', target')) :
    (world target work).Alike (world target' work) root.value root'.value := by
  have hpublished := published_of_publishRoot hpub hroot.refs (fun handle _ => hinit handle) h
  obtain ⟨hkinded', hinit'⟩ := hpublished.wellKinded hpub hroot.refs hkinded hinit
  obtain ⟨image, hiso⟩ := hpublished.isomorphic
  have hrel := @RichValue.Rel.restrict _ _ ((world target work).Reaches root.refs) _ _
    hiso.root_rel fun next hnext => .root hnext
  have hextends := hpublished.world_extends hpub
  exact (hextends.alike hkinded hinit hroot).trans
    ((hpublished.corresponds hpub hroot.refs hiso).alike hkinded' hinit'
      (hextends.valueKinded hroot) hrel.1)

/-- Everything else in that world is a copy of itself after the publication. -/
theorem alike_beside_publishRoot (hpub : Publishable target work)
    (hkinded : (world target work).WellKinded) (hinit : (world target work).Initialized)
    (hroot : (world target work).ValueKinded root.value)
    (h : publishRoot target work root = .ok (root', target')) {value : RuntimeValue}
    (hvalue : (world target work).ValueKinded value) :
    (world target work).Alike (world target' work) value value :=
  ((published_of_publishRoot hpub hroot.refs (fun handle _ => hinit handle) h).world_extends
    hpub).alike hkinded hinit hvalue

/-- A value that is exported and imported again is a copy of itself. -/
theorem alike_of_reimport {background : Option Heap} {heap heap' : Heap}
    {rich imported : RichValue} {value : Value} {next next' : Nat}
    (hbacked : Backed background heap)
    (hlink : ¬(⟨heap, background⟩ : HeapView).HoldsUpLink rich.value)
    (hexport : ((⟨heap, background⟩ : HeapView).exportValue rich).run next = .ok (value, next'))
    (himport : importValue background heap value = .ok (imported, heap')) :
    (⟨heap, background⟩ : HeapView).Alike ⟨heap', background⟩ rich.value imported.value := by
  obtain ⟨hdenotes, hcoherent, hclosed⟩ := denotes_of_exportValue hexport
  obtain ⟨_, _, himport', -, himported⟩ := importValue_spec hbacked hcoherent hclosed
  obtain ⟨rfl, rfl⟩ := Prod.mk.inj (Except.ok.inj (himport.symm.trans himport'))
  exact Reimported.alike ⟨hlink, value, value, hdenotes, himported, rfl⟩

end Storage

end Telora
