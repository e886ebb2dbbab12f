import Telora.Heap.EqualitySound
import Telora.Heap.RoundTrip

/-!
# When equality ignores storage

A comparison always ends. Its answer does not depend on where an operand is stored
exactly when the operand holds no NaN and no up-link inside a container: the shortcut on
identical handles finds such a container equal to itself and different from its copies.

The comparison is the structural congruence that identical containers enter without
being read: reflexive but for NaNs and up-links, and transitive as far as the opaque
values are.
-/

namespace Telora

open Library Bytecode

namespace HeapView

variable {view : HeapView}

section Answers

/-- The run behind a comparison. -/
def equalRun (view : HeapView) (left right : RichValue) :
    Except HeapError (Bool × List (Handle × Handle)) :=
  (valuesEqualWith view (view.handleCount * view.handleCount + 1) left.value right.value).run []

theorem valuesEqual_eq_map (left right : RichValue) :
    view.valuesEqual left right = (view.equalRun left right).map Prod.fst := by
  change Prod.fst <$> view.equalRun left right = _
  cases view.equalRun left right <;> rfl

theorem visitedWithin_nil : view.VisitedWithin (view.handleCount * view.handleCount + 1) [] := by
  refine ⟨List.nodup_nil, List.nil_subset _, ?_⟩
  rw [List.length_product, length_handles]
  exact Nat.lt_succ_self _

/-- A comparison answers, unless it meets an up-link below its operands. -/
theorem valuesEqual_ends (hkinded : view.WellKinded) (hinit : view.Initialized)
    {left right : RichValue} (hleft : view.ValueKinded left.value)
    (hright : view.ValueKinded right.value) :
    (∃ answer, view.valuesEqual left right = .ok answer) ∨
      view.valuesEqual left right = .error upLinkEscaped ∧
        (view.HoldsUpLink left.value ∨ view.HoldsUpLink right.value) := by
  have hends := valuesEqualWith_ends hkinded hinit _ left.value right.value [] hleft hright
    visitedWithin_nil
  rw [valuesEqual_eq_map]
  cases hrun : view.equalRun left right with
  | ok result => exact .inl ⟨result.1, rfl⟩
  | error e =>
      obtain ⟨rfl, hlink⟩ := hends.of_error hrun
      exact .inr ⟨rfl, hlink⟩

/-- A comparison answers true exactly when its operands agree up to shared containers. -/
theorem valuesEqual_iff (hkinded : view.WellKinded) (hinit : view.Initialized)
    {left right : RichValue} (hleft : view.ValueKinded left.value)
    (hright : view.ValueKinded right.value) :
    view.valuesEqual left right = .ok true ↔ view.SharedEqual left.value right.value := by
  have hends := valuesEqualWith_ends hkinded hinit _ left.value right.value [] hleft hright
    visitedWithin_nil
  rw [valuesEqual_eq_map]
  constructor
  · intro h
    obtain ⟨⟨answer, visited⟩, hrun, rfl⟩ := map_eq_ok.mp h
    exact sharedEqual_of_run hkinded hinit hleft hright hrun
  · intro hequal
    have htrue := valuesEqualWith_true hkinded hinit
      (view.handleCount * view.handleCount + 1) left.value right.value [] hleft hright hequal
    cases hrun : view.equalRun left right with
    | ok result => exact congrArg Except.ok (htrue.of_ok hrun)
    | error e =>
        -- it fails on up-links only, and not for want of fuel
        have hfuel := htrue.of_error hrun
        have hlink := (hends.of_error hrun).1
        exact absurd (hfuel.symm.trans hlink) (by simp [outOfFuel, upLinkEscaped])

/-- Leaves that are equal are bisimilar. -/
theorem bisimilar_of_leaf {left right : RuntimeValue} {a b : Leaf} (ha : view.leaf left = some a)
    (hb : view.leaf right = some b) (h : a.eq b = true) : view.Bisimilar left right := by
  refine .of_agree (fun x y => x = left ∧ y = right) ?_ ⟨rfl, rfl⟩
  rintro _ _ ⟨rfl, rfl⟩
  exact .inl ⟨a, b, ha, hb, h⟩

/-- Opaque values are compared by the equality of the left one. -/
theorem valuesEqual_opaqueValue (hkinded : view.WellKinded) (hinit : view.Initialized)
    {handle handle' : Handle} {value value' : OpaqueValue}
    (hobject : view.object handle = .ok (.opaqueValue value))
    (hobject' : view.object handle' = .ok (.opaqueValue value')) :
    view.valuesEqual (.unknown (.opaqueValue handle)) (.unknown (.opaqueValue handle')) =
      .ok true ↔ value.logicalEq value' = true := by
  have hleaf : view.leaf (.opaqueValue handle) = some (.opaqueValue value) := by
    rw [leaf, hobject]
  have hleaf' : view.leaf (.opaqueValue handle') = some (.opaqueValue value') := by
    rw [leaf, hobject']
  have hiff := @valuesEqual_iff view hkinded hinit (.unknown (.opaqueValue handle))
    (.unknown (.opaqueValue handle')) ⟨_, hobject, .inr rfl⟩ ⟨_, hobject', .inr rfl⟩
  rw [hiff]
  constructor
  · intro hequal
    rcases hequal.agree with ⟨-, hcontainer⟩ | hagree
    · cases hcontainer
    · obtain ⟨b, hb, heq⟩ := hagree.leaf_left hleaf
      obtain rfl := Option.some.inj (hleaf'.symm.trans hb)
      exact heq
  · exact fun heq => (bisimilar_of_leaf hleaf hleaf' heq).shared

/-- A comparison is symmetric exactly when the opaque values of the view are. -/
theorem valuesEqual_comm_iff (hkinded : view.WellKinded) (hinit : view.Initialized) :
    (∀ left right : RichValue, view.ValueKinded left.value → view.ValueKinded right.value →
      view.valuesEqual left right = view.valuesEqual right left) ↔ view.OpaqueSymmetric := by
  constructor
  · intro hcomm handle handle' value value' hobject hobject'
    have h := hcomm (.unknown (.opaqueValue handle)) (.unknown (.opaqueValue handle'))
      ⟨_, hobject, .inr rfl⟩ ⟨_, hobject', .inr rfl⟩
    rw [Bool.eq_iff_iff, ← valuesEqual_opaqueValue hkinded hinit hobject hobject',
      ← valuesEqual_opaqueValue hkinded hinit hobject' hobject, h]
  · intro hsymmetric left right hleft hright
    have hmirrored := valuesEqualWith_mirrored hkinded hinit hsymmetric
      (view.handleCount * view.handleCount + 1) hleft hright []
    rw [valuesEqual_eq_map, valuesEqual_eq_map]
    change view.equalRun right left = (view.equalRun left right).map _ at hmirrored
    rw [hmirrored]
    cases view.equalRun left right <;> rfl

end Answers

section Independence

/-- The answer on two operands is what their structures say: true exactly when they are
bisimilar, and the same on every copy of the operands. -/
def PairIndependent (view : HeapView) (left right : RichValue) : Prop :=
  (view.valuesEqual left right = .ok true ↔ view.Bisimilar left.value right.value) ∧
    ∀ left' right' : RichValue, view.ValueKinded left'.value → view.ValueKinded right'.value →
      view.SameStructure left.value left'.value → view.SameStructure right.value right'.value →
      (view.valuesEqual left' right' = .ok true ↔ view.valuesEqual left right = .ok true)

/-- Every comparison with the operand, on either side, ignores storage. -/
def StorageIndependent (view : HeapView) (operand : RichValue) : Prop :=
  ∀ other : RichValue, view.ValueKinded other.value →
    view.PairIndependent operand other ∧ view.PairIndependent other operand

/-- When one operand is untainted the answer is bisimilarity. -/
theorem valuesEqual_iff_bisimilar (hkinded : view.WellKinded) (hinit : view.Initialized)
    {left right : RichValue} (hleft : view.ValueKinded left.value)
    (hright : view.ValueKinded right.value)
    (huntainted : ¬view.Tainted left.value ∨ ¬view.Tainted right.value) :
    view.valuesEqual left right = .ok true ↔ view.Bisimilar left.value right.value := by
  rw [valuesEqual_iff hkinded hinit hleft hright]
  exact ⟨fun h => h.bisimilar hkinded hinit
    (huntainted.imp (fun h => ⟨hleft, h⟩) fun h => ⟨hright, h⟩), Bisimilar.shared⟩

/-- A pair with an untainted operand ignores storage. -/
theorem pairIndependent_of_untainted (hkinded : view.WellKinded) (hinit : view.Initialized)
    {left right : RichValue} (hleft : view.ValueKinded left.value)
    (hright : view.ValueKinded right.value)
    (huntainted : ¬view.Tainted left.value ∨ ¬view.Tainted right.value) :
    view.PairIndependent left right := by
  refine ⟨valuesEqual_iff_bisimilar hkinded hinit hleft hright huntainted, ?_⟩
  intro left' right' hleft' hright' hcopyLeft hcopyRight
  have huntainted' : ¬view.Tainted left'.value ∨ ¬view.Tainted right'.value :=
    huntainted.imp (fun h htainted => h (hcopyLeft.symm.tainted htainted))
      fun h htainted => h (hcopyRight.symm.tainted htainted)
  rw [valuesEqual_iff_bisimilar hkinded hinit hleft' hright' huntainted',
    valuesEqual_iff_bisimilar hkinded hinit hleft hright huntainted]
  constructor
  · exact fun h => hcopyRight.symm.bisimilar_right (hcopyLeft.symm.bisimilar h)
  · exact fun h => hcopyRight.bisimilar_right (hcopyLeft.bisimilar h)

/-- A tainted value is a container, and a comparison with itself does not enter it. -/
theorem Tainted.sharedEqual {value : RuntimeValue} (h : view.Tainted value) :
    view.SharedEqual value value := by
  obtain ⟨component, hpath, -⟩ := h
  obtain ⟨next, ⟨label, components, hnode, -⟩, -⟩ := Relation.TransGen.head'_iff.mp hpath
  exact .of_agree (fun a b => a = value ∧ b = value)
    (fun ⟨ha, hb⟩ => .inl ⟨ha.trans hb.symm, ha ▸ container_of_node hnode⟩) ⟨rfl, rfl⟩

theorem storageIndependent_iff (hkinded : view.WellKinded) (hinit : view.Initialized)
    {operand : RichValue} (hoperand : view.ValueKinded operand.value) :
    view.StorageIndependent operand ↔ ¬view.Tainted operand.value := by
  constructor
  · intro hindependent htainted
    have hequal := (valuesEqual_iff hkinded hinit hoperand hoperand).mpr htainted.sharedEqual
    exact htainted.not_bisimilar ((hindependent operand hoperand).1.1.mp hequal)
  · intro huntainted other hother
    exact ⟨pairIndependent_of_untainted hkinded hinit hoperand hother (.inl huntainted),
      pairIndependent_of_untainted hkinded hinit hother hoperand (.inr huntainted)⟩

end Independence

section Exported

variable {view' : HeapView} {links : Prop}

/-- The content of a public value without components. -/
def valueLeaf : Value → Option Leaf
  | .int value => some (.int value)
  | .float value => some (.float value)
  | .string text => some (.string text)
  | .bytes value => some (.bytes value)
  | .nativeType value => some (.nativeType value)
  | .opaqueValue value => some (.opaqueValue value)
  | .atom atom => some (.atom atom.name)
  | .func identity _ _ => some (.func identity)
  | .dyn identity _ _ _ _ => some (.dyn identity)
  | _ => none

/-- The label of a public container and its components. -/
def valueNode : Value → Option (Label × List Value)
  | .array values => some (.array, values)
  | .tuple values => some (.tuple, values)
  | .tagged tag payload => some (.tagged, [.atom tag, payload])
  | .dict fields values => some (.dict fields, values)
  | _ => none

/-- A value that is no up-link has the content of the value it denotes. -/
theorem Denotes.content {value : RuntimeValue} {w : Value} (h : view.Denotes links value w)
    (hlink : ∀ handle, value ≠ .upLink handle) :
    (∃ a, valueLeaf w = some a ∧ view.leaf value = some a) ∨
      ∃ label components ws, valueNode w = some (label, ws) ∧
        view.node value = some (label, components) ∧
        List.Forall₂ (view.Denotes links) components ws := by
  cases h with
  | int => exact .inl ⟨_, rfl, rfl⟩
  | float => exact .inl ⟨_, rfl, rfl⟩
  | builtinAtom hname => exact .inl ⟨_, rfl, by rw [leaf, ← hname]⟩
  | atom htext => exact .inl ⟨_, rfl, by rw [leaf, htext]; rfl⟩
  | shortString htext => exact .inl ⟨_, rfl, by rw [leaf, htext]; rfl⟩
  | upLink => exact absurd rfl (hlink _)
  | array hobject hvalues => exact .inr ⟨_, _, _, rfl, by rw [node, hobject], hvalues.forall₂⟩
  | tuple hobject hvalues => exact .inr ⟨_, _, _, rfl, by rw [node, hobject], hvalues.forall₂⟩
  | tagged hobject htag hpayload =>
      exact .inr ⟨_, _, _, rfl, by rw [node, hobject], .cons htag (.cons hpayload .nil)⟩
  | dict hobject hnames hvalues =>
      exact .inr ⟨_, _, _, rfl, by rw [node, hobject]; simp only [hnames]; rfl, hvalues.forall₂⟩
  | func hobject _ _ => exact .inl ⟨_, rfl, by rw [leaf, hobject]⟩
  | dyn hobject _ _ => exact .inl ⟨_, rfl, by rw [leaf, hobject]⟩
  | _ hobject => exact .inl ⟨_, rfl, by rw [leaf, hobject]⟩

theorem canonicalValues_eq {ws ws' : List Value} (h : canonicalValues ws = canonicalValues ws') :
    List.Forall₂ Value.Same ws ws' := by
  induction ws generalizing ws' with
  | nil =>
      cases ws' with
      | nil => exact .nil
      | cons w' rest => cases h
  | cons w rest ih =>
      cases ws' with
      | nil => cases h
      | cons w' rest' =>
          obtain ⟨hhead, htail⟩ := List.cons.inj h
          exact .cons hhead (ih htail)

theorem valueLeaf_canonical (w : Value) : valueLeaf w.canonical = valueLeaf w := by
  cases w with
  | atom a => exact congrArg (fun name => some (Leaf.atom name)) a.canonical_name
  | _ => rfl

theorem valueNode_canonical (w : Value) :
    valueNode w.canonical = (valueNode w).map fun node => (node.1, canonicalValues node.2) := by
  cases w <;> rfl

/-- The same values have the same content. -/
theorem same_content {w w' : Value} (h : w.Same w') :
    valueLeaf w = valueLeaf w' ∧
      ∀ label ws, valueNode w = some (label, ws) →
        ∃ ws', valueNode w' = some (label, ws') ∧ List.Forall₂ Value.Same ws ws' := by
  constructor
  · rw [← valueLeaf_canonical w, show w.canonical = w'.canonical from h, valueLeaf_canonical]
  · intro label ws hnode
    have heq := valueNode_canonical w
    rw [show w.canonical = w'.canonical from h, valueNode_canonical, hnode] at heq
    obtain ⟨⟨label', ws'⟩, hnode', hpair⟩ := Option.map_eq_some_iff.mp heq
    obtain ⟨rfl, hvalues⟩ := Prod.mk.inj hpair
    exact ⟨ws', hnode', canonicalValues_eq hvalues.symm⟩

theorem not_upLink_of_denotes {value : RuntimeValue} {w : Value}
    (h : view.Denotes False value w) (handle : Handle) : value ≠ .upLink handle := by
  rintro rfl
  cases h with
  | upLink hfalse _ _ => exact hfalse.elim

/-- A value without up-links and an import of the value it denotes. -/
def Reimported (view view' : HeapView) (value copy : RuntimeValue) : Prop :=
  ¬view.HoldsUpLink value ∧ ∃ w w', view.Denotes True value w ∧ view'.Denotes False copy w' ∧
    w.Same w'

/-- What a value is does not change while slots are filled. -/
theorem Fills.leaf (h : view.Fills view') {value : RuntimeValue} {a : Leaf}
    (hleaf : view.leaf value = some a) : view'.leaf value = some a := by
  have htext : ∀ {id : InternId} {f : String → Leaf},
      (view.text id).toOption.map f = some a → (view'.text id).toOption.map f = some a := by
    intro id f hid
    cases htext : view.text id with
    | error e => rw [htext] at hid; cases hid
    | ok text => rwa [h.texts htext, ← htext]
  cases value with
  | int => exact hleaf
  | float => exact hleaf
  | builtinAtom => exact hleaf
  | atom => exact htext hleaf
  | shortString => exact htext hleaf
  | array => cases hleaf
  | tuple => cases hleaf
  | tagged => cases hleaf
  | dict => cases hleaf
  | upLink => cases hleaf
  | _ handle =>
      cases hobject : view.object handle with
      | error e => simp [HeapView.leaf, hobject] at hleaf
      | ok object =>
          by_cases hreserved : object = .reserved
          · simp [HeapView.leaf, hobject, hreserved] at hleaf
          · rw [HeapView.leaf, hobject] at hleaf
            rw [HeapView.leaf, h.objects hobject hreserved]
            exact hleaf

theorem Fills.node (h : view.Fills view') {value : RuntimeValue} {label : Label}
    {components : List RuntimeValue} (hnode : view.node value = some (label, components)) :
    view'.node value = some (label, components) := by
  cases value with
  | dict handle =>
      cases hobject : view.object handle with
      | error e => simp [HeapView.node, hobject] at hnode
      | ok object =>
          cases object with
          | dict shape values =>
              rw [HeapView.node, hobject] at hnode
              rw [HeapView.node, h.objects hobject (by simp)]
              dsimp only at hnode ⊢
              cases hfields : view.fieldNames shape with
              | error e => simp [hfields, Except.toOption] at hnode
              | ok fields => rwa [h.fieldNames hfields, ← hfields]
          | _ => simp [HeapView.node, hobject] at hnode
  | array handle | tuple handle | tagged handle =>
      cases hobject : view.object handle with
      | error e => simp [HeapView.node, hobject] at hnode
      | ok object =>
          by_cases hreserved : object = .reserved
          · simp [HeapView.node, hobject, hreserved] at hnode
          · rw [HeapView.node, hobject] at hnode
            rw [HeapView.node, h.objects hobject hreserved]
            exact hnode
  | _ => cases hnode

/-- A value and an import of what it denotes are one leaf, or containers with one label. -/
theorem Reimported.content {a b : RuntimeValue} (h : view.Reimported view' a b) :
    (∃ leaf, view.leaf a = some leaf ∧ view'.leaf b = some leaf) ∨
      ∃ label as bs, view.node a = some (label, as) ∧ view'.node b = some (label, bs) ∧
        List.Forall₂ (view.Reimported view') as bs := by
  obtain ⟨hlink, w, w', ha, hb, hsame⟩ := h
  have hnotLink : ∀ handle, a ≠ .upLink handle := by
    rintro handle rfl
    exact hlink ⟨handle, .refl⟩
  obtain ⟨hleafSame, hnodeSame⟩ := same_content hsame
  rcases ha.content hnotLink with ⟨l, hl, hleaf⟩ | ⟨label, components, ws, hws, hnode, hrel⟩
  · rcases hb.content (not_upLink_of_denotes hb) with ⟨m, hm, hleaf'⟩ | ⟨_, _, _, hnode', -, -⟩
    · obtain rfl := Option.some.inj (hl.symm.trans (hleafSame.trans hm))
      exact .inl ⟨l, hleaf, hleaf'⟩
    · rw [hleafSame] at hl
      cases w' <;> cases hl <;> cases hnode'
  · obtain ⟨ws', hws', hcomponentsSame⟩ := hnodeSame label ws hws
    rcases hb.content (not_upLink_of_denotes hb) with
      ⟨n, hn, -⟩ | ⟨label', components', ws'', hws'', hnode', hrel'⟩
    · cases w' <;> cases hn <;> cases hws'
    · rw [hws'] at hws''
      obtain ⟨rfl, rfl⟩ := Prod.mk.inj (Option.some.inj hws'')
      refine .inr ⟨label, components, components', hnode, hnode', ?_⟩
      obtain ⟨hlength, hdenotes⟩ := List.forall₂_iff_get.mp hrel
      obtain ⟨hlength', hdenotes'⟩ := List.forall₂_iff_get.mp hrel'
      obtain ⟨hlengthSame, hsames⟩ := List.forall₂_iff_get.mp hcomponentsSame
      refine List.forall₂_iff_get.mpr ⟨by omega, fun i hi hi' => ⟨?_, ?_⟩⟩
      · exact fun h => hlink (.of_child ⟨label, components, hnode, List.get_mem _ _⟩ h)
      · exact ⟨_, _, hdenotes i hi (by omega), hdenotes' i hi' (by omega),
          hsames i (by omega) (by omega)⟩

/-- A value and an import of what it denotes have the same structure. -/
theorem Reimported.sameStructure (hfills : view.Fills view') {value copy : RuntimeValue}
    (h : view.Reimported view' value copy) : view'.SameStructure value copy := by
  refine .of_agree _ ?_ h
  intro a b h
  rcases h.content with ⟨leaf, ha, hb⟩ | ⟨label, as, bs, ha, hb, hrel⟩
  · exact .inr (.inl ⟨leaf, leaf, hfills.leaf ha, hb, rfl⟩)
  · exact .inr (.inr ⟨label, as, bs, hfills.node ha, hb, hrel⟩)

end Exported

end HeapView

section Storage

open HeapView

/-- A published root, in the world over the extended heap, is a copy of its source. -/
theorem sameStructure_of_publishRoot {target work target' : Heap} {root root' : RichValue}
    (hpub : Publishable target work) (hkinded : (world target work).WellKinded)
    (hinit : (world target work).Initialized)
    (hroot : (world target work).ValueKinded root.value)
    (h : publishRoot target work root = .ok (root', target')) :
    (world target' work).WellKinded ∧ (world target' work).Initialized ∧
      (world target' work).SameStructure root.value root'.value := by
  have hpublished := published_of_publishRoot hpub hroot.refs
    (fun handle _ => hinit handle) h
  obtain ⟨hkinded', hinit'⟩ := hpublished.wellKinded hpub hroot.refs hkinded hinit
  exact ⟨hkinded', hinit', hpublished.sameStructure hpub hroot.refs hkinded hinit hroot⟩

/-- A value that is exported and imported again is a copy of itself. -/
theorem sameStructure_of_reimport {background : Option Heap} {heap heap' : Heap}
    {rich imported : RichValue} {value : Value} {next next' : Nat}
    (hbacked : Backed background heap)
    (hkinded : (⟨heap, background⟩ : HeapView).WellKinded)
    (hinit : (⟨heap, background⟩ : HeapView).Initialized)
    (hlink : ¬(⟨heap, background⟩ : HeapView).HoldsUpLink rich.value)
    (hexport : ((⟨heap, background⟩ : HeapView).exportValue rich).run next = .ok (value, next'))
    (himport : importValue background heap value = .ok (imported, heap')) :
    (⟨heap', background⟩ : HeapView).WellKinded ∧
      (⟨heap', background⟩ : HeapView).Initialized ∧
      (⟨heap', background⟩ : HeapView).SameStructure rich.value imported.value := by
  obtain ⟨hdenotes, hcoherent, hclosed⟩ := denotes_of_exportValue hexport
  obtain ⟨_, _, himport', happends, himported⟩ := importValue_spec hbacked hcoherent hclosed
  obtain ⟨rfl, rfl⟩ := Prod.mk.inj (Except.ok.inj (himport.symm.trans himport'))
  obtain ⟨hkinded', hinit'⟩ := happends.wellKinded hkinded hinit
  have hreimported : (⟨heap, background⟩ : HeapView).Reimported ⟨heap', background⟩ rich.value
      imported.value := ⟨hlink, value, value, hdenotes, himported, rfl⟩
  exact ⟨hkinded', hinit',
    hreimported.sameStructure (happends.toGrows.extends background).fills⟩

/-- A comparison ends, it is symmetric exactly when the opaque values are, and it ignores
where an operand is stored exactly when the operand is untainted; publication, and export
followed by import, make copies in this sense. -/
theorem valuesEqual_ignores_storage_iff (view : HeapView) (hkinded : view.WellKinded)
    (hinit : view.Initialized) :
    (∀ left right : RichValue, view.ValueKinded left.value → view.ValueKinded right.value →
      (∃ answer, view.valuesEqual left right = .ok answer) ∨
        view.valuesEqual left right = .error upLinkEscaped ∧
          (view.HoldsUpLink left.value ∨ view.HoldsUpLink right.value)) ∧
    ((∀ left right : RichValue, view.ValueKinded left.value → view.ValueKinded right.value →
      view.valuesEqual left right = view.valuesEqual right left) ↔ view.OpaqueSymmetric) ∧
    (∀ operand : RichValue, view.ValueKinded operand.value →
      (view.StorageIndependent operand ↔ ¬view.Tainted operand.value)) ∧
    (∀ (target work target' : Heap) (root root' : RichValue), view = world target work →
      Publishable target work → view.ValueKinded root.value →
      publishRoot target work root = .ok (root', target') →
      (world target' work).WellKinded ∧ (world target' work).Initialized ∧
        (world target' work).SameStructure root.value root'.value) ∧
    ∀ (rich imported : RichValue) (value : Value) (heap' : Heap) (next next' : Nat),
      Backed view.background view.current → ¬view.HoldsUpLink rich.value →
      (view.exportValue rich).run next = .ok (value, next') →
      importValue view.background view.current value = .ok (imported, heap') →
      (⟨heap', view.background⟩ : HeapView).WellKinded ∧
        (⟨heap', view.background⟩ : HeapView).Initialized ∧
        (⟨heap', view.background⟩ : HeapView).SameStructure rich.value imported.value := by
  refine ⟨fun _ _ => valuesEqual_ends hkinded hinit, valuesEqual_comm_iff hkinded hinit,
    fun _ => storageIndependent_iff hkinded hinit, ?_, ?_⟩
  · rintro target work target' root root' rfl hpub hroot h
    exact sameStructure_of_publishRoot hpub hkinded hinit hroot h
  · intro rich imported value heap' next next' hbacked hlink hexport himport
    exact sameStructure_of_reimport hbacked hkinded hinit hlink hexport himport

/-- Two arrays that each hold a NaN. -/
def nanHeap : Heap :=
  { Heap.work with
    objects := [.array [.unknown (.float F64.nan)], .array [.unknown (.float F64.nan)]] }

def nanView : HeapView := ⟨nanHeap, none⟩

theorem nanView_object {handle : Handle} {object : Object} (h : nanView.object handle = .ok object) :
    object = .array [.unknown (.float F64.nan)] := by
  obtain ⟨heap, hheap, hslot⟩ := HeapView.object_eq_ok.mp h
  cases hs : handle.storage <;> rw [hs] at hheap <;> cases hheap
  have hmem := List.mem_of_getElem? hslot
  simpa [nanView, nanHeap] using hmem

theorem nanView_kinded : nanView.WellKinded ∧ nanView.Initialized := by
  constructor
  · intro handle object h
    rw [nanView_object h]
    intro value hmem
    rw [List.mem_singleton.mp hmem]
    trivial
  · intro handle h
    cases nanView_object h

theorem nanView_sameStructure :
    nanView.SameStructure (.array ⟨.work, 0⟩) (.array ⟨.work, 1⟩) := by
  refine .of_agree (fun a b => (a = .array ⟨.work, 0⟩ ∧ b = .array ⟨.work, 1⟩) ∨
    (a = .float F64.nan ∧ b = .float F64.nan)) ?_ (.inl ⟨rfl, rfl⟩)
  rintro _ _ (⟨rfl, rfl⟩ | ⟨rfl, rfl⟩)
  · exact .inr (.inr ⟨.array, _, _, rfl, rfl, .cons (.inr ⟨rfl, rfl⟩) .nil⟩)
  · exact .inr (.inl ⟨_, _, rfl, rfl, rfl⟩)

/-- An array with a NaN equals itself and differs from its copy. -/
theorem nan_array_differs_from_its_copy :
    nanView.WellKinded ∧ nanView.Initialized ∧
      nanView.SameStructure (.array ⟨.work, 0⟩) (.array ⟨.work, 1⟩) ∧
      nanView.valuesEqual (.unknown (.array ⟨.work, 0⟩)) (.unknown (.array ⟨.work, 0⟩)) =
        .ok true ∧
      nanView.valuesEqual (.unknown (.array ⟨.work, 0⟩)) (.unknown (.array ⟨.work, 1⟩)) =
        .ok false :=
  ⟨nanView_kinded.1, nanView_kinded.2, nanView_sameStructure, rfl, rfl⟩

theorem valuesEqual_ignores_storage_iff_nan :
    nanView.StorageIndependent (.unknown (.array ⟨.work, 0⟩)) ↔
      ¬nanView.Tainted (.array ⟨.work, 0⟩) :=
  (valuesEqual_ignores_storage_iff nanView nanView_kinded.1 nanView_kinded.2).2.2.1
    (.unknown (.array ⟨.work, 0⟩)) ⟨.array [.unknown (.float F64.nan)], rfl, .inr rfl⟩

end Storage

theorem F64.eq_trans {x y z : F64} (hxy : F64.eq x y = true) (hyz : F64.eq y z = true) :
    F64.eq x z = true := by
  simp only [F64.eq, Bool.and_eq_true, Bool.or_eq_true, beq_iff_eq] at hxy hyz ⊢
  obtain ⟨⟨hx, -⟩, hxy⟩ := hxy
  obtain ⟨⟨-, hz⟩, hyz⟩ := hyz
  refine ⟨⟨hx, hz⟩, ?_⟩
  rcases hxy with rfl | ⟨hzero, hzero'⟩
  · exact hyz
  · rcases hyz with rfl | ⟨-, hzero''⟩
    · exact .inr ⟨hzero, hzero'⟩
    · exact .inr ⟨hzero, hzero''⟩

/-- Equal leaves of a chain have equal ends, if the opaque ones do. -/
theorem Leaf.eq_trans {a b c : Leaf} (hvalues : ∀ x y z, a = .opaqueValue x → b = .opaqueValue y →
      c = .opaqueValue z → x.logicalEq y = true → y.logicalEq z = true → x.logicalEq z = true)
    (hab : a.eq b = true) (hbc : b.eq c = true) : a.eq c = true := by
  cases a <;> cases b <;> simp only [Leaf.eq, Bool.false_eq_true] at hab <;>
    cases c <;> simp only [Leaf.eq, Bool.false_eq_true] at hbc ⊢
  case float.float.float => exact F64.eq_trans hab hbc
  case opaqueValue.opaqueValue.opaqueValue => exact hvalues _ _ _ rfl rfl rfl hab hbc
  all_goals exact beq_iff_eq.mpr ((beq_iff_eq.mp hab).trans (beq_iff_eq.mp hbc))

namespace HeapView

section Relation

variable {view : HeapView}

/-- Chains of equal opaque values have equal ends. -/
def OpaqueTransitive (view : HeapView) : Prop :=
  ∀ handle₁ handle₂ handle₃ value₁ value₂ value₃,
    view.object handle₁ = .ok (.opaqueValue value₁) →
    view.object handle₂ = .ok (.opaqueValue value₂) →
    view.object handle₃ = .ok (.opaqueValue value₃) →
    value₁.logicalEq value₂ = true → value₂.logicalEq value₃ = true →
    value₁.logicalEq value₃ = true

theorem SharedEqual.trans (htransitive : view.OpaqueTransitive) {a b c : RuntimeValue}
    (hab : view.SharedEqual a b) (hbc : view.SharedEqual b c) : view.SharedEqual a c := by
  refine .of_agree (fun x z => view.SharedEqual x z ∨
    ∃ y, view.SharedEqual x y ∧ view.SharedEqual y z) ?_ (.inr ⟨b, hab, hbc⟩)
  rintro x z (hxz | ⟨y, hxy, hyz⟩)
  · exact hxz.agree.imp id (Agree.mono fun _ _ h => .inl h)
  · rcases hxy.agree with ⟨rfl, -⟩ | hagree
    · exact hyz.agree.imp id (Agree.mono fun _ _ h => .inl h)
    · rcases hyz.agree with ⟨rfl, -⟩ | hagree'
      · exact .inr (hagree.mono fun _ _ h => .inl h)
      · rcases hagree with ⟨k, l, hk, hl, hkl⟩ | ⟨label, xs, ys, hx, hy, hrel⟩
        · obtain ⟨m, hm, hlm⟩ := hagree'.leaf_left hl
          refine .inr (.inl ⟨k, m, hk, hm, Leaf.eq_trans ?_ hkl hlm⟩)
          rintro u v w rfl rfl rfl huv hvw
          obtain ⟨handle₁, h₁⟩ := object_of_leaf_opaque hk
          obtain ⟨handle₂, h₂⟩ := object_of_leaf_opaque hl
          obtain ⟨handle₃, h₃⟩ := object_of_leaf_opaque hm
          exact htransitive _ _ _ _ _ _ h₁ h₂ h₃ huv hvw
        · obtain ⟨zs, hz, hrel'⟩ := hagree'.node_left hy
          exact .inr (.inr ⟨label, xs, zs, hx, hz,
            forall₂_comp (fun hxy hyz => .inr ⟨_, hxy, hyz⟩) hrel hrel'⟩)

/-- A value agrees with itself unless it is a NaN or an up-link. -/
theorem sharedEqual_self_iff (hinit : view.Initialized) {value : RuntimeValue}
    (h : view.ValueKinded value) : view.SharedEqual value value ↔ ¬value.Irreflexive := by
  constructor
  · intro hequal hirreflexive
    cases value with
    | float x =>
        rcases hequal.agree with ⟨-, hcontainer⟩ | hagree
        · cases hcontainer
        · obtain ⟨b, hb, heq⟩ := hagree.leaf_left rfl
          obtain rfl := Option.some.inj hb
          exact absurd ((F64.eq_self_iff x).mp heq) (by rw [show x.isNaN = true from hirreflexive]; simp)
    | upLink handle =>
        rcases hequal.agree with ⟨-, hcontainer⟩ | ⟨_, _, hleaf, -⟩ | ⟨_, _, _, hnode, -⟩
        · cases hcontainer
        · cases hleaf
        · cases hnode
    | _ => cases hirreflexive
  · intro hreflexive
    by_cases htainted : view.Tainted value
    · exact htainted.sharedEqual
    · exact Plain.shared_self hinit ⟨h, htainted⟩ hreflexive

/-- A comparison is transitive exactly when the opaque values of the view are. -/
theorem valuesEqual_trans_iff (hkinded : view.WellKinded) (hinit : view.Initialized) :
    (∀ left middle right : RichValue, view.ValueKinded left.value →
      view.ValueKinded middle.value → view.ValueKinded right.value →
      view.valuesEqual left middle = .ok true → view.valuesEqual middle right = .ok true →
      view.valuesEqual left right = .ok true) ↔ view.OpaqueTransitive := by
  constructor
  · intro htrans handle₁ handle₂ handle₃ value₁ value₂ value₃ h₁ h₂ h₃ h₁₂ h₂₃
    have hkind : ∀ {handle value}, view.object handle = .ok (.opaqueValue value) →
        view.ValueKinded (.opaqueValue handle) := fun h => ⟨_, h, .inr rfl⟩
    rw [← valuesEqual_opaqueValue hkinded hinit h₁ h₃]
    apply htrans (.unknown (.opaqueValue handle₁)) (.unknown (.opaqueValue handle₂))
      (.unknown (.opaqueValue handle₃)) (hkind h₁) (hkind h₂) (hkind h₃)
    · exact (valuesEqual_opaqueValue hkinded hinit h₁ h₂).mpr h₁₂
    · exact (valuesEqual_opaqueValue hkinded hinit h₂ h₃).mpr h₂₃
  · intro htransitive left middle right hleft hmiddle hright hlm hmr
    rw [valuesEqual_iff hkinded hinit hleft hright]
    exact ((valuesEqual_iff hkinded hinit hleft hmiddle).mp hlm).trans htransitive
      ((valuesEqual_iff hkinded hinit hmiddle hright).mp hmr)

/-- Containers agree when they are one, or when their labels and components do. -/
theorem sharedEqual_containers_iff {left right : RuntimeValue} {label label' : Label}
    {lefts rights : List RuntimeValue} (hnode : view.node left = some (label, lefts))
    (hnode' : view.node right = some (label', rights)) :
    view.SharedEqual left right ↔
      left = right ∨ label = label' ∧ List.Forall₂ view.SharedEqual lefts rights := by
  constructor
  · intro h
    rcases h.agree with ⟨hsame, -⟩ | hagree
    · exact .inl hsame
    · obtain ⟨rights', hright', hrel⟩ := hagree.node_left hnode
      rw [hnode'] at hright'
      obtain ⟨rfl, rfl⟩ := Prod.mk.inj (Option.some.inj hright')
      exact .inr ⟨rfl, hrel⟩
  · rintro (rfl | ⟨rfl, hrel⟩)
    · exact .of_agree (fun a b => a = b ∧ a = left)
        (fun h => .inl ⟨h.1, h.2 ▸ container_of_node hnode⟩) ⟨rfl, rfl⟩
    · refine .of_agree (fun a b => view.SharedEqual a b ∨ a = left ∧ b = right) ?_ (.inr ⟨rfl, rfl⟩)
      rintro a b (hab | ⟨rfl, rfl⟩)
      · exact hab.agree.imp id (Agree.mono fun _ _ h => .inl h)
      · exact .inr (.inr ⟨label, lefts, rights, hnode, hnode', hrel.imp fun _ _ h => .inl h⟩)

/-- The comparison is reflexive but for NaNs and up-links, it is transitive exactly when
the opaque values are, and it compares different containers by their components. -/
theorem valuesEqual_congruence (view : HeapView) (hkinded : view.WellKinded)
    (hinit : view.Initialized) :
    (∀ value : RichValue, view.ValueKinded value.value →
      (view.valuesEqual value value = .ok true ↔ ¬value.value.Irreflexive)) ∧
    ((∀ left middle right : RichValue, view.ValueKinded left.value →
      view.ValueKinded middle.value → view.ValueKinded right.value →
      view.valuesEqual left middle = .ok true → view.valuesEqual middle right = .ok true →
      view.valuesEqual left right = .ok true) ↔ view.OpaqueTransitive) ∧
    ∀ (left right : RichValue) (label label' : Label) (lefts rights : List RuntimeValue),
      view.ValueKinded left.value → view.ValueKinded right.value →
      view.node left.value = some (label, lefts) → view.node right.value = some (label', rights) →
      (view.valuesEqual left right = .ok true ↔ left.value = right.value ∨
        label = label' ∧ List.Forall₂ (fun a b =>
          view.valuesEqual (.unknown a) (.unknown b) = .ok true) lefts rights) := by
  refine ⟨fun value hvalue => ?_, valuesEqual_trans_iff hkinded hinit, ?_⟩
  · rw [valuesEqual_iff hkinded hinit hvalue hvalue]
    exact sharedEqual_self_iff hinit hvalue
  · intro left right label label' lefts rights hleft hright hnode hnode'
    have hequal : ∀ a ∈ lefts, ∀ b ∈ rights,
        (view.valuesEqual (.unknown a) (.unknown b) = .ok true ↔ view.SharedEqual a b) :=
      fun a ha b hb => valuesEqual_iff hkinded hinit (hkinded.components hnode a ha)
        (hkinded.components hnode' b hb)
    rw [valuesEqual_iff hkinded hinit hleft hright, sharedEqual_containers_iff hnode hnode']
    refine or_congr Iff.rfl (and_congr Iff.rfl ?_)
    simp only [List.forall₂_iff_get]
    refine and_congr Iff.rfl (forall_congr' fun i => forall_congr' fun hi => forall_congr' fun hi' => ?_)
    exact (hequal _ (List.get_mem _ _) _ (List.get_mem _ _)).symm

/-- An array that holds a NaN equals itself, and not the array next to it. -/
theorem valuesEqual_congruence_nan :
    nanView.valuesEqual (.unknown (.array ⟨.work, 0⟩)) (.unknown (.array ⟨.work, 0⟩)) = .ok true ∧
      nanView.valuesEqual (.unknown (.array ⟨.work, 0⟩)) (.unknown (.array ⟨.work, 1⟩)) ≠
        .ok true := by
  obtain ⟨hreflexive, -, hcomponents⟩ :=
    valuesEqual_congruence nanView nanView_kinded.1 nanView_kinded.2
  have hfirst : nanView.ValueKinded (.array ⟨.work, 0⟩) :=
    ⟨.array [.unknown (.float F64.nan)], rfl, .inr rfl⟩
  have hsecond : nanView.ValueKinded (.array ⟨.work, 1⟩) :=
    ⟨.array [.unknown (.float F64.nan)], rfl, .inr rfl⟩
  refine ⟨(hreflexive (.unknown (.array ⟨.work, 0⟩)) hfirst).mpr id, fun hequal => ?_⟩
  rcases (hcomponents (.unknown (.array ⟨.work, 0⟩)) (.unknown (.array ⟨.work, 1⟩)) .array .array
    [.float F64.nan] [.float F64.nan] hfirst hsecond rfl rfl).mp hequal with hsame | ⟨-, hrel⟩
  · cases hsame
  · have hnan : nanView.valuesEqual (.unknown (.float F64.nan)) (.unknown (.float F64.nan)) =
        .ok true := by
      cases hrel with
      | cons hhead _ => exact hhead
    exact (hreflexive (.unknown (.float F64.nan)) trivial).mp hnan rfl

end Relation

end HeapView

end Telora
