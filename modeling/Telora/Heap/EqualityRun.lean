import Telora.Heap.Equality
import Telora.Heap.Bisimulation

/-!
# Runs of a comparison

In a well-kinded view the comparison of two leaves is the fixed equality of their
contents, and the comparison of two containers enters their pair once and then
compares label and components.
-/

namespace Telora

open Library

/-- The sorts of leaves. -/
inductive LeafKind where
  | int | float | atom | string | bytes | nativeType | opaqueValue | func | dyn
  deriving DecidableEq

def Leaf.kind : Leaf → LeafKind
  | .int _ => .int
  | .float _ => .float
  | .atom _ => .atom
  | .string _ => .string
  | .bytes _ => .bytes
  | .nativeType _ => .nativeType
  | .opaqueValue _ => .opaqueValue
  | .func _ => .func
  | .dyn _ => .dyn

def RuntimeValue.leafKind : RuntimeValue → Option LeafKind
  | .int _ => some .int
  | .float _ => some .float
  | .builtinAtom _ => some .atom
  | .atom _ => some .atom
  | .shortString _ => some .string
  | .string _ => some .string
  | .bytes _ => some .bytes
  | .nativeType _ => some .nativeType
  | .opaqueValue _ => some .opaqueValue
  | .func _ => some .func
  | .dyn _ => some .dyn
  | _ => none

/-- Containers of one kind. -/
inductive SameKind : RuntimeValue → RuntimeValue → Prop where
  | array {l r} : SameKind (.array l) (.array r)
  | tuple {l r} : SameKind (.tuple l) (.tuple r)
  | tagged {l r} : SameKind (.tagged l) (.tagged r)
  | dict {l r} : SameKind (.dict l) (.dict r)

theorem Leaf.kind_eq_of_eq {a b : Leaf} (h : a.eq b = true) : a.kind = b.kind := by
  cases a <;> cases b <;> first | rfl | cases h

namespace HeapView

variable {view : HeapView}

theorem leafKind_of_leaf {value : RuntimeValue} {a : Leaf} (h : view.leaf value = some a) :
    value.leafKind = some a.kind := by
  cases value with
  | int => obtain rfl := Option.some.inj h; rfl
  | float => obtain rfl := Option.some.inj h; rfl
  | builtinAtom => obtain rfl := Option.some.inj h; rfl
  | atom => obtain ⟨_, -, rfl⟩ := Option.map_eq_some_iff.mp h; rfl
  | shortString => obtain ⟨_, -, rfl⟩ := Option.map_eq_some_iff.mp h; rfl
  | _ =>
      simp only [leaf] at h
      first
        | cases h
        | (split at h
           · obtain rfl := Option.some.inj h
             rfl
           · cases h)

/-- The answer on two leaves. -/
def leafAnswer : Option Leaf → Option Leaf → Bool
  | some a, some b => a.eq b
  | _, _ => false

/-- Values of different sorts are unequal. -/
theorem leavesEqual_of_kind_ne {left right : RuntimeValue}
    (hleft : ∀ handle, left ≠ .upLink handle) (hright : ∀ handle, right ≠ .upLink handle)
    (hkind : left.leafKind ≠ right.leafKind ∨ left.leafKind = none) :
    view.leavesEqual left right = .ok false := by
  cases left <;> cases right <;>
    first
      | rfl
      | exact absurd rfl (hleft _)
      | exact absurd rfl (hright _)
      | simp [RuntimeValue.leafKind] at hkind

theorem leafAnswer_of_kind_ne {left right : RuntimeValue}
    (hkind : left.leafKind ≠ right.leafKind ∨ left.leafKind = none) :
    leafAnswer (view.leaf left) (view.leaf right) = false := by
  cases hl : view.leaf left with
  | none => rfl
  | some a =>
      cases hr : view.leaf right with
      | none => rfl
      | some b =>
          rw [leafKind_of_leaf hl, leafKind_of_leaf hr] at hkind
          refine Bool.eq_false_iff.mpr fun heq => ?_
          rcases hkind with hne | hnone
          · exact hne (by rw [Leaf.kind_eq_of_eq heq])
          · cases hnone

/-- Ids are compared as the texts they name. -/
theorem idsEqual_eq {left right : InternId} {a b : String} (hleft : view.text left = .ok a)
    (hright : view.text right = .ok b) : view.idsEqual left right = .ok (a == b) := by
  unfold idsEqual
  split
  · rename_i hstorage
    obtain ⟨heap, hheap, ha⟩ := text_eq_ok.mp hleft
    obtain ⟨heap', hheap', hb⟩ := text_eq_ok.mp hright
    rw [← hstorage, hheap] at hheap'
    obtain rfl := Except.ok.inj hheap'
    refine congrArg Except.ok ?_
    rw [Bool.eq_iff_iff, beq_iff_eq, beq_iff_eq]
    constructor
    · rintro rfl
      exact Option.some.inj (ha.symm.trans hb)
    · rintro rfl
      have hslot := heap.text.resolve_injective ha hb
      cases left
      cases right
      cases hstorage
      cases hslot
      rfl
  · rw [hleft, hright]
    rfl

theorem stringText_shortString {id : InternId} {text : String} (h : view.text id = .ok text) :
    view.stringText (.shortString id) = .ok (some text) := by
  simp only [stringText, h]
  rfl

theorem stringText_string {handle : Handle} {text : String}
    (h : view.object handle = .ok (.string text)) :
    view.stringText (.string handle) = .ok (some text) := by
  simp only [stringText, h]
  rfl

theorem stringsEqual_eq {left right : RuntimeValue} {a b : String}
    (hleft : view.stringText left = .ok (some a)) (hright : view.stringText right = .ok (some b)) :
    view.stringsEqual left right = .ok (a == b) := by
  simp only [stringsEqual, hleft, hright]
  refine congrArg Except.ok ?_
  rw [Bool.eq_iff_iff]
  simp

/-- On kinded values of no common container kind the comparison is that of the leaves. -/
theorem leavesEqual_eq (hinit : view.Initialized) {left right : RuntimeValue}
    (hleft : view.ValueKinded left) (hright : view.ValueKinded right)
    (hleftLink : ∀ handle, left ≠ .upLink handle)
    (hrightLink : ∀ handle, right ≠ .upLink handle) :
    view.leavesEqual left right = .ok (leafAnswer (view.leaf left) (view.leaf right)) := by
  by_cases hkind : left.leafKind ≠ right.leafKind ∨ left.leafKind = none
  · rw [leavesEqual_of_kind_ne hleftLink hrightLink hkind, leafAnswer_of_kind_ne hkind]
  · rw [not_or, not_not] at hkind
    obtain ⟨hkind, hsome⟩ := hkind
    cases left with
    | int n =>
        cases right <;> cases hkind
        rfl
    | float x =>
        cases right <;> cases hkind
        rfl
    | builtinAtom a =>
        cases right <;> cases hkind
        · rename_i b
          refine congrArg Except.ok ?_
          rw [Bool.eq_iff_iff]
          simp [leafAnswer, leaf, Leaf.eq, BuiltinAtom.name_injective.eq_iff]
        · rename_i id
          obtain ⟨text, htext⟩ := hright
          rw [leavesEqual, atomText, atomText, leaf, leaf, htext]
          change Except.ok (some a.name == some text) = Except.ok (a.name == text)
          simp
    | atom id =>
        obtain ⟨text, htext⟩ := hleft
        cases right <;> cases hkind
        · rename_i b
          rw [leavesEqual, atomText, atomText, leaf, leaf, htext]
          change Except.ok (some text == some b.name) = Except.ok (text == b.name)
          simp
        · rename_i id'
          obtain ⟨text', htext'⟩ := hright
          rw [leavesEqual, idsEqual_eq htext htext', leaf, leaf, htext, htext']
          rfl
    | shortString id =>
        obtain ⟨text, htext⟩ := hleft
        cases right <;> cases hkind
        · rename_i id'
          obtain ⟨text', htext'⟩ := hright
          rw [leavesEqual, idsEqual_eq htext htext', leaf, leaf, htext, htext']
          rfl
        · rename_i handle
          obtain ⟨object, hobject, hkind⟩ := HasKind.object hinit hright
          cases object <;> cases hkind
          rw [leavesEqual, stringsEqual_eq (stringText_shortString htext)
            (stringText_string hobject), leaf, leaf, htext, hobject]
          rfl
    | string handle =>
        obtain ⟨object, hobject, hobjectKind⟩ := HasKind.object hinit hleft
        cases object <;> cases hobjectKind
        cases right <;> cases hkind
        · rename_i id
          obtain ⟨text, htext⟩ := hright
          rw [leavesEqual, stringsEqual_eq (stringText_string hobject)
            (stringText_shortString htext), leaf, leaf, htext, hobject]
          rfl
        · rename_i handle'
          obtain ⟨object', hobject', hkind'⟩ := HasKind.object hinit hright
          cases object' <;> cases hkind'
          rw [leavesEqual, leaf, leaf, hobject, hobject']
          split
          · rename_i heq
            rw [heq, hobject'] at hobject
            cases hobject
            simp [leafAnswer, Leaf.eq, pure, Except.pure]
          · exact stringsEqual_eq (stringText_string hobject) (stringText_string hobject')
    | bytes handle =>
        obtain ⟨object, hobject, hobjectKind⟩ := HasKind.object hinit hleft
        cases object <;> cases hobjectKind
        cases right <;> cases hkind
        rename_i handle'
        obtain ⟨object', hobject', hkind'⟩ := HasKind.object hinit hright
        cases object' <;> cases hkind'
        rw [leavesEqual, bytesEqual, leaf, leaf, hobject, hobject']
        split
        · rename_i heq
          rw [heq, hobject'] at hobject
          cases hobject
          simp [leafAnswer, Leaf.eq, pure, Except.pure]
        · rfl
    | nativeType handle =>
        obtain ⟨object, hobject, hobjectKind⟩ := HasKind.object hinit hleft
        cases object <;> cases hobjectKind
        cases right <;> cases hkind
        rename_i handle'
        obtain ⟨object', hobject', hkind'⟩ := HasKind.object hinit hright
        cases object' <;> cases hkind'
        rw [leavesEqual, nativeTypeEqual, leaf, leaf, hobject, hobject']
        split
        · rename_i heq
          rw [heq, hobject'] at hobject
          cases hobject
          simp [leafAnswer, Leaf.eq, pure, Except.pure]
        · rfl
    | opaqueValue handle =>
        obtain ⟨object, hobject, hobjectKind⟩ := HasKind.object hinit hleft
        cases object <;> cases hobjectKind
        cases right <;> cases hkind
        rename_i handle'
        obtain ⟨object', hobject', hkind'⟩ := HasKind.object hinit hright
        cases object' <;> cases hkind'
        rw [leavesEqual, opaqueEqual, leaf, leaf, hobject, hobject']
        split
        · rename_i heq
          rw [heq, hobject'] at hobject
          cases hobject
          simp [leafAnswer, Leaf.eq, pure, Except.pure, OpaqueValue.logicalEq_self]
        · rfl
    | func handle =>
        obtain ⟨object, hobject, hobjectKind⟩ := HasKind.object hinit hleft
        cases object <;> cases hobjectKind
        cases right <;> cases hkind
        rename_i handle'
        obtain ⟨object', hobject', hkind'⟩ := HasKind.object hinit hright
        cases object' <;> cases hkind'
        rw [leavesEqual, closureIdentity, closureIdentity, leaf, leaf, hobject, hobject']
        rfl
    | dyn handle =>
        obtain ⟨object, hobject, hobjectKind⟩ := HasKind.object hinit hleft
        cases object <;> cases hobjectKind
        cases right <;> cases hkind
        rename_i handle'
        obtain ⟨object', hobject', hkind'⟩ := HasKind.object hinit hright
        cases object' <;> cases hkind'
        rw [leavesEqual, dynIdentity, dynIdentity, leaf, leaf, hobject, hobject']
        rfl
    | upLink handle => exact absurd rfl (hleftLink handle)
    | _ => exact absurd rfl hsome

/-- Everything but two containers of one kind is compared as leaves. -/
theorem valuesEqualWith_leaves {left right : RuntimeValue} (h : ¬SameKind left right)
    (fuel : Nat) :
    valuesEqualWith view (fuel + 1) left right = liftM (view.leavesEqual left right) := by
  cases left <;> cases right <;> first | rfl | exact absurd (by constructor) h

private theorem liftM_ok {σ ε α : Type} (a : α) :
    (liftM (Except.ok a : Except ε α) : StateT σ (Except ε) α) = pure a := rfl

/-- Field names are compared one by one. -/
theorem fieldsEqual_eq {fields fields' : List InternId} {names names' : List String}
    (hnames : List.Forall₂ (fun field name => view.text field = .ok name) fields names)
    (hnames' : List.Forall₂ (fun field name => view.text field = .ok name) fields' names')
    (hlength : fields.length = fields'.length) :
    view.fieldsEqual (fields.zip fields') = .ok (decide (names = names')) := by
  induction hnames generalizing fields' names' with
  | nil =>
      cases fields' with
      | nil => cases hnames'; rfl
      | cons field rest => cases hlength
  | @cons field name fields names hname _ ih =>
      cases hnames' with
      | nil => cases hlength
      | @cons field' name' fields' names' hname' hrest =>
          have htail := ih hrest (Nat.succ.inj hlength)
          rw [List.zip_cons_cons, fieldsEqual, hname, hname']
          change (if name = name' then _ else _) = _
          by_cases heq : name = name'
          · rw [if_pos heq, htail]
            simp [heq]
          · rw [if_neg heq]
            simp [heq, pure, Except.pure]

/-- Two containers of one kind: their pair is entered, then labels and components are
compared. -/
theorem valuesEqualWith_containers (hkinded : view.WellKinded) (hinit : view.Initialized)
    {left right : RuntimeValue} (hleft : view.ValueKinded left) (hright : view.ValueKinded right)
    (hkind : SameKind left right) :
    ∃ leftHandle rightHandle label label', ∃ lefts rights : List RuntimeValue,
      left.container = some leftHandle ∧ right.container = some rightHandle ∧
      view.node left = some (label, lefts) ∧ view.node right = some (label', rights) ∧
      ∀ fuel, valuesEqualWith view (fuel + 1) left right =
        enterPair leftHandle rightHandle
          (if label = label' ∧ lefts.length = rights.length then
            pairsEqual (valuesEqualWith view fuel) (lefts.zip rights)
          else pure false) := by
  cases hkind with
  | @array l r =>
      obtain ⟨object, hobject, hk⟩ := HasKind.object hinit hleft
      cases object <;> cases hk
      obtain ⟨object', hobject', hk'⟩ := HasKind.object hinit hright
      cases object' <;> cases hk'
      rename_i lefts rights
      refine ⟨l, r, .array, .array, _, _, rfl, rfl, by rw [node, hobject],
        by rw [node, hobject'], fun fuel => ?_⟩
      rw [valuesEqualWith, sequenceHandlesEqual, sequenceValues, sequenceValues, hobject, hobject']
      congr 1
      change valueSlicesEqual (valuesEqualWith view fuel) lefts rights = _
      simp [valueSlicesEqual]
  | @tuple l r =>
      obtain ⟨object, hobject, hk⟩ := HasKind.object hinit hleft
      cases object <;> cases hk
      obtain ⟨object', hobject', hk'⟩ := HasKind.object hinit hright
      cases object' <;> cases hk'
      rename_i lefts rights
      refine ⟨l, r, .tuple, .tuple, _, _, rfl, rfl, by rw [node, hobject],
        by rw [node, hobject'], fun fuel => ?_⟩
      rw [valuesEqualWith, sequenceHandlesEqual, sequenceValues, sequenceValues, hobject, hobject']
      congr 1
      change valueSlicesEqual (valuesEqualWith view fuel) lefts rights = _
      simp [valueSlicesEqual]
  | @tagged l r =>
      obtain ⟨object, hobject, hk⟩ := HasKind.object hinit hleft
      cases object <;> cases hk
      obtain ⟨object', hobject', hk'⟩ := HasKind.object hinit hright
      cases object' <;> cases hk'
      rename_i tag payload tag' payload'
      refine ⟨l, r, .tagged, .tagged, _, _, rfl, rfl,
        by rw [node, hobject], by rw [node, hobject'], fun fuel => ?_⟩
      rw [valuesEqualWith, taggedHandlesEqual, taggedParts, taggedParts, hobject, hobject']
      congr 1
  | @dict l r =>
      obtain ⟨object, hobject, hk⟩ := HasKind.object hinit hleft
      cases object <;> cases hk
      obtain ⟨object', hobject', hk'⟩ := HasKind.object hinit hright
      cases object' <;> cases hk'
      rename_i shape lefts shape' rights
      obtain ⟨⟨fields, hfields, htexts⟩, -⟩ := hkinded hobject
      obtain ⟨⟨fields', hfields', htexts'⟩, -⟩ := hkinded hobject'
      obtain ⟨names, hnames⟩ := exists_mapM_eq_ok htexts
      obtain ⟨names', hnames'⟩ := exists_mapM_eq_ok htexts'
      have hnode : view.fieldNames shape = .ok names := bind_eq_ok.mpr ⟨fields, hfields, hnames⟩
      have hnode' : view.fieldNames shape' = .ok names' :=
        bind_eq_ok.mpr ⟨fields', hfields', hnames'⟩
      refine ⟨l, r, .dict names, .dict names', _, _, rfl, rfl,
        by simp only [node, hobject, hnode]; rfl, by simp only [node, hobject', hnode']; rfl,
        fun fuel => ?_⟩
      have hparts : view.dictParts l = .ok (shape, lefts) := by
        rw [dictParts, hobject]
        rfl
      have hparts' : view.dictParts r = .ok (shape', rights) := by
        rw [dictParts, hobject']
        rfl
      rw [valuesEqualWith, dictHandlesEqual, hparts, hparts']
      simp only [hfields, hfields', liftM_ok, pure_bind]
      congr 1
      by_cases hlen : fields.length = fields'.length
      · rw [if_neg (not_not.mpr hlen), fieldsEqual_eq (mapM_eq_ok.mp hnames)
          (mapM_eq_ok.mp hnames') hlen, liftM_ok, pure_bind]
        by_cases heq : names = names'
        · simp [heq, valueSlicesEqual]
        · simp [heq]
      · rw [if_pos hlen, if_neg]
        rintro ⟨hlabel, -⟩
        obtain rfl := Label.dict.inj hlabel
        exact hlen ((mapM_eq_ok.mp hnames).length_eq.trans (mapM_eq_ok.mp hnames').length_eq.symm)

end HeapView

end Telora
