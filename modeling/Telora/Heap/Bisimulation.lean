import Telora.Heap.Graph
import Mathlib.Order.FixedPoints

/-!
# Bisimilar values

What a value is, whatever heap holds it: the content of a leaf, or the label of a
container with its components. Two values are bisimilar when their leaves are
equal under one fixed equality and their containers agree at every depth.
-/

namespace Telora

open Library

/-- The content of a value without components. -/
inductive Leaf where
  | int (value : Int)
  | float (value : F64)
  | atom (name : String)
  | string (text : String)
  | bytes (value : List UInt8)
  | nativeType (value : NativeType)
  | opaqueValue (value : OpaqueValue)
  | func (identity : Nat)
  | dyn (identity : Nat)
  deriving DecidableEq

/-- The fixed equality on leaves: floats as `f64`, native types by id, opaque values by
the equality they carry, functions and dynamic values by identity. -/
def Leaf.eq : Leaf → Leaf → Bool
  | .int left, .int right => left == right
  | .float left, .float right => left.eq right
  | .atom left, .atom right => left == right
  | .string left, .string right => left == right
  | .bytes left, .bytes right => left == right
  | .nativeType left, .nativeType right => left.id == right.id
  | .opaqueValue left, .opaqueValue right => left.logicalEq right
  | .func left, .func right => left == right
  | .dyn left, .dyn right => left == right
  | _, _ => false

theorem OpaqueValue.logicalEq_self (value : OpaqueValue) : value.logicalEq value = true := by
  cases h : value.equality <;> simp [OpaqueValue.logicalEq, h]

/-- Only a NaN differs from itself. -/
theorem Leaf.eq_self {a : Leaf} (h : ∀ x, a = .float x → x.isNaN = false) : a.eq a = true := by
  cases a with
  | float x => exact (F64.eq_self_iff x).mpr (h x rfl)
  | opaqueValue value => exact value.logicalEq_self
  | _ => simp [Leaf.eq]

/-- What kind of container a value is; a dict is labelled by its field names. -/
inductive Label where
  | array
  | tuple
  | tagged
  | dict (fields : List String)
  deriving DecidableEq

/-- The handle of a container. -/
def RuntimeValue.container : RuntimeValue → Option Handle
  | .array handle => some handle
  | .tuple handle => some handle
  | .tagged handle => some handle
  | .dict handle => some handle
  | _ => none

/-- A value that no comparison finds equal to itself. -/
def RuntimeValue.Irreflexive : RuntimeValue → Prop
  | .float value => value.isNaN = true
  | .upLink _ => True
  | _ => False

namespace HeapView

variable (view : HeapView)

/-- The content of a leaf. -/
def leaf : RuntimeValue → Option Leaf
  | .int value => some (.int value)
  | .float value => some (.float value)
  | .builtinAtom atom => some (.atom atom.name)
  | .atom id => (view.text id).toOption.map .atom
  | .shortString id => (view.text id).toOption.map .string
  | .string handle =>
      match view.object handle with
      | .ok (.string value) => some (.string value)
      | _ => none
  | .bytes handle =>
      match view.object handle with
      | .ok (.bytes value) => some (.bytes value)
      | _ => none
  | .nativeType handle =>
      match view.object handle with
      | .ok (.nativeType value) => some (.nativeType value)
      | _ => none
  | .opaqueValue handle =>
      match view.object handle with
      | .ok (.opaqueValue value) => some (.opaqueValue value)
      | _ => none
  | .func handle =>
      match view.object handle with
      | .ok (.closure identity _ _) => some (.func identity)
      | _ => none
  | .dyn handle =>
      match view.object handle with
      | .ok (.dyn identity _ _ _ _) => some (.dyn identity)
      | _ => none
  | _ => none

/-- The names of a shape's fields. -/
def fieldNames (shape : ShapeId) : Except HeapError (List String) := do
  (← view.shape shape).mapM view.text

/-- The label of a container and its components. -/
def node : RuntimeValue → Option (Label × List RuntimeValue)
  | .array handle =>
      match view.object handle with
      | .ok (.array values) => some (.array, values.map (·.value))
      | _ => none
  | .tuple handle =>
      match view.object handle with
      | .ok (.tuple values) => some (.tuple, values.map (·.value))
      | _ => none
  | .tagged handle =>
      match view.object handle with
      | .ok (.tagged tag payload) => some (.tagged, [tag.value, payload.value])
      | _ => none
  | .dict handle =>
      match view.object handle with
      | .ok (.dict shape values) =>
          (view.fieldNames shape).toOption.map fun names => (.dict names, values.map (·.value))
      | _ => none
  | _ => none

/-- One step of a bisimulation: equal leaves, or containers with one label whose
components are related. -/
def Agree (leafEq : Leaf → Leaf → Prop) (related : RuntimeValue → RuntimeValue → Prop)
    (left right : RuntimeValue) : Prop :=
  (∃ a b, view.leaf left = some a ∧ view.leaf right = some b ∧ leafEq a b) ∨
    ∃ label lefts rights, view.node left = some (label, lefts) ∧
      view.node right = some (label, rights) ∧ List.Forall₂ related lefts rights

theorem Agree.mono {view : HeapView} {leafEq : Leaf → Leaf → Prop}
    {p q : RuntimeValue → RuntimeValue → Prop} (h : ∀ a b, p a b → q a b) {left right : RuntimeValue}
    (hagree : view.Agree leafEq p left right) : view.Agree leafEq q left right := by
  rcases hagree with hleaf | ⟨label, lefts, rights, hleft, hright, hrel⟩
  · exact .inl hleaf
  · exact .inr ⟨label, lefts, rights, hleft, hright, hrel.imp h⟩

/-- The step of bisimilarity, as a monotone map of relations. -/
def bisimilarStep : (RuntimeValue → RuntimeValue → Prop) →o (RuntimeValue → RuntimeValue → Prop) where
  toFun related := view.Agree (fun a b => a.eq b = true) related
  monotone' _ _ h _ _ := Agree.mono h

/-- Values whose unfoldings agree at every depth. -/
def Bisimilar : RuntimeValue → RuntimeValue → Prop := view.bisimilarStep.gfp

/-- The step of the comparison: identical containers agree without being entered. -/
def sharedStep : (RuntimeValue → RuntimeValue → Prop) →o (RuntimeValue → RuntimeValue → Prop) where
  toFun related left right :=
    (left = right ∧ left.container.isSome) ∨ view.Agree (fun a b => a.eq b = true) related left right
  monotone' _ _ h _ _ := Or.imp id (Agree.mono h)

/-- Values that agree up to containers they share. -/
def SharedEqual : RuntimeValue → RuntimeValue → Prop := view.sharedStep.gfp

/-- Copies of one value: the same leaves in the same containers, wherever they are
stored and however their parts are shared. An up-link is copied to an up-link. -/
def copyStep : (RuntimeValue → RuntimeValue → Prop) →o (RuntimeValue → RuntimeValue → Prop) where
  toFun related left right :=
    (∃ h h', left = .upLink h ∧ right = .upLink h') ∨ view.Agree Eq related left right
  monotone' _ _ h _ _ := Or.imp id (Agree.mono h)

def SameStructure : RuntimeValue → RuntimeValue → Prop := view.copyStep.gfp

/-- A component of a container. -/
def Child (value component : RuntimeValue) : Prop :=
  ∃ label components, view.node value = some (label, components) ∧ component ∈ components

/-- Some container on the way down from the value holds a NaN or an up-link. -/
def Tainted (value : RuntimeValue) : Prop :=
  ∃ component, Relation.TransGen view.Child value component ∧ component.Irreflexive

section Facts

variable {view : HeapView}

/-- A value is not both a leaf and a container. -/
theorem leaf_eq_none_of_node {value : RuntimeValue} {label : Label} {components : List RuntimeValue}
    (h : view.node value = some (label, components)) : view.leaf value = none := by
  cases value <;> first | rfl | cases h

theorem container_of_node {value : RuntimeValue} {label : Label} {components : List RuntimeValue}
    (h : view.node value = some (label, components)) : value.container.isSome := by
  cases value <;> first | rfl | cases h

theorem eq_float_of_leaf {value : RuntimeValue} {x : F64} (h : view.leaf value = some (.float x)) :
    value = .float x := by
  cases value with
  | float y =>
      simp only [leaf, Option.some.injEq, Leaf.float.injEq] at h
      rw [h]
  | int => simp [leaf] at h
  | builtinAtom => simp [leaf] at h
  | atom => simp [leaf] at h
  | shortString => simp [leaf] at h
  | _ =>
      simp only [leaf] at h
      first | cases h | (split at h <;> cases h)

theorem Bisimilar.agree {left right : RuntimeValue} (h : view.Bisimilar left right) :
    view.Agree (fun a b => a.eq b = true) view.Bisimilar left right := by
  have := view.bisimilarStep.map_gfp
  rw [Bisimilar, ← this] at h
  exact h

theorem Bisimilar.of_agree (related : RuntimeValue → RuntimeValue → Prop)
    (hstep : ∀ {a b}, related a b → view.Agree (fun a b => a.eq b = true) related a b)
    {left right : RuntimeValue} (h : related left right) : view.Bisimilar left right :=
  view.bisimilarStep.le_gfp (fun _ _ => hstep) left right h

theorem SharedEqual.agree {left right : RuntimeValue} (h : view.SharedEqual left right) :
    (left = right ∧ left.container.isSome) ∨
      view.Agree (fun a b => a.eq b = true) view.SharedEqual left right := by
  have := view.sharedStep.map_gfp
  rw [SharedEqual, ← this] at h
  exact h

theorem SharedEqual.of_agree (related : RuntimeValue → RuntimeValue → Prop)
    (hstep : ∀ {a b}, related a b → (a = b ∧ a.container.isSome) ∨
      view.Agree (fun a b => a.eq b = true) related a b)
    {left right : RuntimeValue} (h : related left right) : view.SharedEqual left right :=
  view.sharedStep.le_gfp (fun _ _ => hstep) left right h

theorem SameStructure.agree {left right : RuntimeValue} (h : view.SameStructure left right) :
    (∃ h h', left = .upLink h ∧ right = .upLink h') ∨
      view.Agree Eq view.SameStructure left right := by
  have := view.copyStep.map_gfp
  rw [SameStructure, ← this] at h
  exact h

theorem SameStructure.of_agree (related : RuntimeValue → RuntimeValue → Prop)
    (hstep : ∀ {a b}, related a b → (∃ h h', a = .upLink h ∧ b = .upLink h') ∨
      view.Agree Eq related a b)
    {left right : RuntimeValue} (h : related left right) : view.SameStructure left right :=
  view.copyStep.le_gfp (fun _ _ => hstep) left right h

theorem Bisimilar.shared {left right : RuntimeValue} (h : view.Bisimilar left right) :
    view.SharedEqual left right :=
  .of_agree _ (fun h => .inr h.agree) h

theorem SameStructure.symm {left right : RuntimeValue} (h : view.SameStructure left right) :
    view.SameStructure right left := by
  refine .of_agree (fun a b => view.SameStructure b a) ?_ h
  intro a b hab
  rcases hab.agree with ⟨h, h', rfl, rfl⟩ | ⟨x, y, hx, hy, rfl⟩ | ⟨label, bs, as, hb, ha, hrel⟩
  · exact .inl ⟨h', h, rfl, rfl⟩
  · exact .inr (.inl ⟨x, x, hy, hx, rfl⟩)
  · exact .inr (.inr ⟨label, as, bs, ha, hb, hrel.flip⟩)

/-- A leaf agrees with leaves only, a container with containers only. -/
theorem Agree.leaf_left {leafEq : Leaf → Leaf → Prop}
    {related : RuntimeValue → RuntimeValue → Prop} {left right : RuntimeValue} {a : Leaf}
    (h : view.Agree leafEq related left right) (ha : view.leaf left = some a) :
    ∃ b, view.leaf right = some b ∧ leafEq a b := by
  rcases h with ⟨a', b, ha', hb, hab⟩ | ⟨label, lefts, rights, hleft, -, -⟩
  · obtain rfl := Option.some.inj (ha.symm.trans ha')
    exact ⟨b, hb, hab⟩
  · rw [leaf_eq_none_of_node hleft] at ha
    cases ha

theorem Agree.node_left {leafEq : Leaf → Leaf → Prop}
    {related : RuntimeValue → RuntimeValue → Prop} {left right : RuntimeValue} {label : Label}
    {lefts : List RuntimeValue} (h : view.Agree leafEq related left right)
    (hleft : view.node left = some (label, lefts)) :
    ∃ rights, view.node right = some (label, rights) ∧ List.Forall₂ related lefts rights := by
  rcases h with ⟨a, b, ha, -, -⟩ | ⟨label', lefts', rights, hleft', hright, hrel⟩
  · rw [leaf_eq_none_of_node hleft] at ha
    cases ha
  · rw [hleft] at hleft'
    obtain ⟨rfl, rfl⟩ := Prod.mk.inj (Option.some.inj hleft')
    exact ⟨rights, hright, hrel⟩

/-- A copy of a value is bisimilar to the same values. -/
theorem SameStructure.bisimilar {value copy other : RuntimeValue}
    (hcopy : view.SameStructure value copy) (h : view.Bisimilar value other) :
    view.Bisimilar copy other := by
  refine .of_agree (fun a b => ∃ v, view.SameStructure v a ∧ view.Bisimilar v b) ?_
    ⟨value, hcopy, h⟩
  rintro a b ⟨v, hva, hvb⟩
  have hagree := hvb.agree
  rcases hva.agree with ⟨h, h', rfl, rfl⟩ | ⟨x, _, hx, ha, rfl⟩ | ⟨label, vs, as, hv, ha, hrel⟩
  · rcases hagree with ⟨_, _, hleaf, -⟩ | ⟨_, _, _, hnode, -⟩
    · cases hleaf
    · cases hnode
  · obtain ⟨y, hy, hxy⟩ := hagree.leaf_left hx
    exact .inl ⟨x, y, ha, hy, hxy⟩
  · obtain ⟨bs, hb, hbs⟩ := hagree.node_left hv
    exact .inr ⟨label, as, bs, ha, hb,
      forall₂_comp (fun h₁ h₂ => ⟨_, h₁, h₂⟩) hrel.flip hbs⟩

theorem SameStructure.bisimilar_right {value copy other : RuntimeValue}
    (hcopy : view.SameStructure value copy) (h : view.Bisimilar other value) :
    view.Bisimilar other copy := by
  refine .of_agree (fun b a => ∃ v, view.SameStructure v a ∧ view.Bisimilar b v) ?_
    ⟨value, hcopy, h⟩
  rintro b a ⟨v, hva, hbv⟩
  rcases hbv.agree with ⟨x, y, hx, hy, hxy⟩ | ⟨label, bs, vs, hb, hv, hbs⟩
  · rcases hva.agree with ⟨h, h', rfl, rfl⟩ | hagree
    · cases hy
    · obtain ⟨_, ha, rfl⟩ := hagree.leaf_left hy
      exact .inl ⟨x, y, hx, ha, hxy⟩
  · rcases hva.agree with ⟨h, h', rfl, rfl⟩ | hagree
    · cases hv
    · obtain ⟨as, ha, has⟩ := hagree.node_left hv
      exact .inr ⟨label, bs, as, hb, ha, forall₂_comp (fun h₁ h₂ => ⟨_, h₂, h₁⟩) hbs has⟩

/-- Every component below a value has its copy below a copy of the value. -/
theorem SameStructure.below {value copy component : RuntimeValue}
    (hcopy : view.SameStructure value copy) (hpath : Relation.TransGen view.Child value component) :
    ∃ component', Relation.TransGen view.Child copy component' ∧
      view.SameStructure component component' := by
  have hstep : ∀ {v c next}, view.SameStructure v c → view.Child v next →
      ∃ next', view.Child c next' ∧ view.SameStructure next next' := by
    rintro v c next hvc ⟨label, components, hnode, hmem⟩
    rcases hvc.agree with ⟨h, h', rfl, rfl⟩ | hagree
    · cases hnode
    · obtain ⟨rights, hright, hrel⟩ := hagree.node_left hnode
      obtain ⟨next', hmem', hsame⟩ := forall₂_mem_left hrel hmem
      exact ⟨next', ⟨label, rights, hright, hmem'⟩, hsame⟩
  induction hpath with
  | single hchild =>
      obtain ⟨next', hchild', hsame⟩ := hstep hcopy hchild
      exact ⟨next', .single hchild', hsame⟩
  | tail _ hchild ih =>
      obtain ⟨middle, hmiddle, hsame⟩ := ih
      obtain ⟨next', hchild', hsame'⟩ := hstep hsame hchild
      exact ⟨next', .tail hmiddle hchild', hsame'⟩

theorem SameStructure.irreflexive {value copy : RuntimeValue}
    (hcopy : view.SameStructure value copy) (h : value.Irreflexive) : copy.Irreflexive := by
  rcases hcopy.agree with ⟨h, h', rfl, rfl⟩ | hagree
  · exact trivial
  · cases value with
    | float x =>
        obtain ⟨_, hleaf, rfl⟩ := hagree.leaf_left rfl
        rw [eq_float_of_leaf hleaf]
        exact h
    | upLink handle =>
        rcases hagree with ⟨_, _, hleaf, -⟩ | ⟨_, _, _, hnode, -⟩
        · cases hleaf
        · cases hnode
    | _ => cases h

/-- A copy holds what the value holds. -/
theorem SameStructure.tainted {value copy : RuntimeValue}
    (hcopy : view.SameStructure value copy) (h : view.Tainted value) : view.Tainted copy := by
  obtain ⟨component, hpath, hirreflexive⟩ := h
  obtain ⟨component', hpath', hsame⟩ := hcopy.below hpath
  exact ⟨component', hpath', hsame.irreflexive hirreflexive⟩

/-- Every component below a value is bisimilar to one below a bisimilar value. -/
theorem Bisimilar.below {left right component : RuntimeValue} (h : view.Bisimilar left right)
    (hpath : Relation.TransGen view.Child left component) :
    ∃ component', view.Bisimilar component component' := by
  have hdescend : ∀ {v w c}, view.Bisimilar v w → view.Child v c →
      ∃ c', view.Bisimilar c c' := by
    rintro v w c hvw ⟨label, components, hnode, hmem⟩
    obtain ⟨rights, -, hrel⟩ := hvw.agree.node_left hnode
    obtain ⟨c', -, hc⟩ := forall₂_mem_left hrel hmem
    exact ⟨c', hc⟩
  induction hpath with
  | single hchild => exact hdescend h hchild
  | tail _ hchild ih =>
      obtain ⟨middle, hmiddle⟩ := ih
      exact hdescend hmiddle hchild

/-- A tainted value is bisimilar to no value, not even to itself. -/
theorem Tainted.not_bisimilar {left right : RuntimeValue} (h : view.Tainted left) :
    ¬view.Bisimilar left right := by
  obtain ⟨component, hpath, hirreflexive⟩ := h
  intro hbisimilar
  obtain ⟨component', hcomponent⟩ := hbisimilar.below hpath
  cases component with
  | float x =>
      obtain ⟨b, -, heq⟩ := hcomponent.agree.leaf_left rfl
      cases b <;> simp only [Leaf.eq, Bool.false_eq_true] at heq
      rw [F64.eq, show x.isNaN = true from hirreflexive] at heq
      cases heq
  | upLink handle =>
      rcases hcomponent.agree with ⟨_, _, hleaf, -⟩ | ⟨_, _, _, hnode, -⟩
      · cases hleaf
      · cases hnode
  | _ => cases hirreflexive

/-- An untainted value has untainted components, none of them a NaN or an up-link. -/
theorem Child.untainted {value component : RuntimeValue} (hchild : view.Child value component)
    (h : ¬view.Tainted value) : ¬view.Tainted component ∧ ¬component.Irreflexive := by
  refine ⟨?_, fun hirreflexive => h ⟨component, .single hchild, hirreflexive⟩⟩
  rintro ⟨other, hpath, hirreflexive⟩
  exact h ⟨other, .head hchild hpath, hirreflexive⟩

end Facts

section Kinded

variable {view : HeapView}

theorem ShapeKinded.fieldNames {shape : ShapeId} (h : view.ShapeKinded shape) :
    ∃ names, view.fieldNames shape = .ok names := by
  obtain ⟨fields, hfields, htexts⟩ := h
  obtain ⟨names, hnames⟩ := exists_mapM_eq_ok htexts
  exact ⟨names, bind_eq_ok.mpr ⟨fields, hfields, hnames⟩⟩

/-- A kinded container has a label and components. -/
theorem ValueKinded.node (hkinded : view.WellKinded) (hinit : view.Initialized)
    {value : RuntimeValue} (h : view.ValueKinded value) (hcontainer : value.container.isSome) :
    ∃ label components, view.node value = some (label, components) := by
  cases value with
  | array handle =>
      obtain ⟨object, hobject, hkind⟩ := HasKind.object hinit h
      cases object <;> cases hkind
      exact ⟨_, _, by rw [HeapView.node, hobject]⟩
  | tuple handle =>
      obtain ⟨object, hobject, hkind⟩ := HasKind.object hinit h
      cases object <;> cases hkind
      exact ⟨_, _, by rw [HeapView.node, hobject]⟩
  | tagged handle =>
      obtain ⟨object, hobject, hkind⟩ := HasKind.object hinit h
      cases object <;> cases hkind
      exact ⟨_, _, by rw [HeapView.node, hobject]⟩
  | dict handle =>
      obtain ⟨object, hobject, hkind⟩ := HasKind.object hinit h
      cases object <;> cases hkind
      obtain ⟨names, hnames⟩ := (hkinded hobject).1.fieldNames
      exact ⟨_, _, by simp only [HeapView.node, hobject, hnames]; rfl⟩
  | _ => cases hcontainer

/-- A kinded value that is no container is a leaf or an up-link. -/
theorem ValueKinded.leaf (hinit : view.Initialized) {value : RuntimeValue}
    (h : view.ValueKinded value) (hcontainer : value.container = none)
    (hlink : ∀ handle, value ≠ .upLink handle) : ∃ a, view.leaf value = some a := by
  cases value with
  | int n => exact ⟨_, rfl⟩
  | float x => exact ⟨_, rfl⟩
  | builtinAtom a => exact ⟨_, rfl⟩
  | atom id =>
      obtain ⟨text, htext⟩ := h
      exact ⟨_, by rw [HeapView.leaf, htext]; rfl⟩
  | shortString id =>
      obtain ⟨text, htext⟩ := h
      exact ⟨_, by rw [HeapView.leaf, htext]; rfl⟩
  | upLink handle => exact absurd rfl (hlink handle)
  | array handle => cases hcontainer
  | tuple handle => cases hcontainer
  | tagged handle => cases hcontainer
  | dict handle => cases hcontainer
  | _ =>
      obtain ⟨object, hobject, hkind⟩ := HasKind.object hinit h
      cases object <;> cases hkind
      exact ⟨_, by rw [HeapView.leaf, hobject]⟩

/-- The components of a container are kinded. -/
theorem WellKinded.components (hkinded : view.WellKinded) {value : RuntimeValue} {label : Label}
    {components : List RuntimeValue} (h : view.node value = some (label, components)) :
    ∀ component ∈ components, view.ValueKinded component := by
  cases value with
  | array handle =>
      simp only [HeapView.node] at h
      split at h
      · rename_i values hobject
        obtain ⟨-, rfl⟩ := Prod.mk.inj (Option.some.inj h)
        simpa [ObjectKinded] using hkinded hobject
      · cases h
  | tuple handle =>
      simp only [HeapView.node] at h
      split at h
      · rename_i values hobject
        obtain ⟨-, rfl⟩ := Prod.mk.inj (Option.some.inj h)
        simpa [ObjectKinded] using hkinded hobject
      · cases h
  | tagged handle =>
      simp only [HeapView.node] at h
      split at h
      · rename_i tag payload hobject
        obtain ⟨-, rfl⟩ := Prod.mk.inj (Option.some.inj h)
        obtain ⟨-, htag, hpayload⟩ := hkinded hobject
        simpa using ⟨htag, hpayload⟩
      · cases h
  | dict handle =>
      simp only [HeapView.node] at h
      split at h
      · rename_i shape values hobject
        obtain ⟨names, -, h⟩ := Option.map_eq_some_iff.mp h
        obtain ⟨-, rfl⟩ := Prod.mk.inj h
        simpa using (hkinded hobject).2
      · cases h
  | _ => cases h

/-- A kinded value without a NaN or an up-link below it. -/
def Plain (view : HeapView) (value : RuntimeValue) : Prop :=
  view.ValueKinded value ∧ ¬view.Tainted value

theorem Plain.component (hkinded : view.WellKinded) {value : RuntimeValue} {label : Label}
    {components : List RuntimeValue} (h : view.Plain value)
    (hnode : view.node value = some (label, components)) {component : RuntimeValue}
    (hmem : component ∈ components) : view.Plain component ∧ ¬component.Irreflexive := by
  obtain ⟨huntainted, hreflexive⟩ := Child.untainted ⟨label, components, hnode, hmem⟩ h.2
  exact ⟨⟨hkinded.components hnode component hmem, huntainted⟩, hreflexive⟩

/-- A plain value agrees with itself up to shared containers, unless it is a NaN or an
up-link itself. -/
theorem Plain.shared_self (hinit : view.Initialized) {value : RuntimeValue}
    (h : view.Plain value) (hreflexive : ¬value.Irreflexive) : view.SharedEqual value value := by
  refine .of_agree (fun x y => x = y ∧ x = value) ?_ ⟨rfl, rfl⟩
  rintro x _ ⟨rfl, rfl⟩
  cases hc : x.container with
  | some handle => exact .inl ⟨rfl, rfl⟩
  | none =>
      obtain ⟨leaf, hleaf⟩ := h.1.leaf hinit hc fun handle heq => hreflexive (heq ▸ trivial)
      refine .inr (.inl ⟨leaf, leaf, hleaf, hleaf, Leaf.eq_self ?_⟩)
      rintro y rfl
      rw [eq_float_of_leaf hleaf] at hreflexive
      exact Bool.eq_false_iff.mpr hreflexive

/-- When either side is plain, agreement up to shared containers is bisimilarity. -/
theorem SharedEqual.bisimilar (hkinded : view.WellKinded) (hinit : view.Initialized)
    {left right : RuntimeValue} (h : view.SharedEqual left right)
    (hplain : view.Plain left ∨ view.Plain right) : view.Bisimilar left right := by
  refine .of_agree (fun a b => view.SharedEqual a b ∧ (view.Plain a ∨ view.Plain b))
    ?_ ⟨h, hplain⟩
  rintro a b ⟨hshared, hplain⟩
  rcases hshared.agree with ⟨rfl, hcontainer⟩ | hleaf | ⟨label, as, bs, hnode, hnode', hrel⟩
  · -- a container compared with itself: each component agrees with itself
    have ha : view.Plain a := hplain.elim id id
    obtain ⟨label, components, hnode⟩ := ha.1.node hkinded hinit hcontainer
    refine .inr ⟨label, components, components, hnode, hnode, List.forall₂_same.mpr ?_⟩
    intro component hmem
    obtain ⟨hcomponent, hreflexive⟩ := ha.component hkinded hnode hmem
    exact ⟨hcomponent.shared_self hinit hreflexive, .inl hcomponent⟩
  · exact .inl hleaf
  · refine .inr ⟨label, as, bs, hnode, hnode', ?_⟩
    refine List.forall₂_iff_get.mpr ⟨hrel.length_eq, fun i hi hi' => ⟨hrel.get hi hi', ?_⟩⟩
    exact hplain.imp (fun h => (h.component hkinded hnode (List.get_mem _ _)).1)
      fun h => (h.component hkinded hnode' (List.get_mem _ _)).1

end Kinded

end HeapView

end Telora
