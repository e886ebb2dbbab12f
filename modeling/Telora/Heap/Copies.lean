import Telora.Heap.Bisimulation
import Telora.Heap.Publication

/-!
# Copies keep structure and kinds

A graph whose references correspond to those of another graph of one view has the
same structure. A publication is such a copy: its root has the structure of the
root it was made from, and the view over the extended main heap is well kinded.
-/

namespace Telora

open Library

/-- Corresponding objects are of one kind. -/
theorem Object.Rel.kind {rH : Handle → Handle → Prop} {rT : InternId → InternId → Prop}
    {rS : ShapeId → ShapeId → Prop} {object object' : Object}
    (h : Object.Rel rH rT rS object object') : object'.kind = object.kind := by
  cases h <;> rfl

theorem RuntimeValue.Rel.isAtom {rH : Handle → Handle → Prop} {rT : InternId → InternId → Prop}
    {value value' : RuntimeValue} (h : RuntimeValue.Rel rH rT value value') (hatom : value.IsAtom) :
    value'.IsAtom := by
  cases h <;> trivial

namespace HeapView

section Growth

/-- A view that resolves what another view resolves, to the same. -/
structure Extends (view view' : HeapView) : Prop where
  objects : ∀ {handle object}, view.object handle = .ok object → view'.object handle = .ok object
  texts : ∀ {id text}, view.text id = .ok text → view'.text id = .ok text
  shapes : ∀ {id fields}, view.shape id = .ok fields → view'.shape id = .ok fields

/-- References that lead from kinded references of one view to kinded ones of another. -/
structure KeepsKinds (view view' : HeapView) (rH : Handle → Handle → Prop)
    (rT : InternId → InternId → Prop) (rS : ShapeId → ShapeId → Prop) : Prop where
  objects : ∀ {handle handle' kind}, rH handle handle' → view.HasKind handle kind →
    view'.HasKind handle' kind
  texts : ∀ {id id'}, rT id id' → view.Has (.text id) → view'.Has (.text id')
  shapes : ∀ {id id'}, rS id id' → view.ShapeKinded id → view'.ShapeKinded id'

variable {view view' : HeapView} {rH : Handle → Handle → Prop} {rT : InternId → InternId → Prop}
  {rS : ShapeId → ShapeId → Prop}

theorem KeepsKinds.value (h : KeepsKinds view view' rH rT rS) {value value' : RuntimeValue}
    (hrel : RuntimeValue.Rel rH rT value value') (hkinded : view.ValueKinded value) :
    view'.ValueKinded value' := by
  cases hrel with
  | int => trivial
  | float => trivial
  | builtinAtom => trivial
  | atom ht => exact h.texts ht hkinded
  | shortString ht => exact h.texts ht hkinded
  | _ hh => exact h.objects hh hkinded

theorem KeepsKinds.values (h : KeepsKinds view view' rH rT rS) {values values' : List RichValue}
    (hrel : List.Forall₂ (RichValue.Rel rH rT) values values')
    (hkinded : ∀ value ∈ values, view.ValueKinded value.value) :
    ∀ value ∈ values', view'.ValueKinded value.value := by
  intro value' hmem'
  obtain ⟨value, hmem, hvalue⟩ := forall₂_mem_right hrel hmem'
  exact h.value hvalue.1 (hkinded value hmem)

theorem KeepsKinds.object (h : KeepsKinds view view' rH rT rS) {object object' : Object}
    (hrel : Object.Rel rH rT rS object object') (hkinded : view.ObjectKinded object) :
    view'.ObjectKinded object' := by
  cases hrel with
  | string => trivial
  | bytes => trivial
  | nativeType => trivial
  | opaqueValue => trivial
  | array hvalues => exact h.values hvalues hkinded
  | tuple hvalues => exact h.values hvalues hkinded
  | tagged htag hpayload =>
      obtain ⟨hatom, hkindedTag, hkindedPayload⟩ := hkinded
      exact ⟨htag.1.isAtom hatom, h.value htag.1 hkindedTag, h.value hpayload.1 hkindedPayload⟩
  | dict hshape hvalues => exact ⟨h.shapes hshape hkinded.1, h.values hvalues hkinded.2⟩
  | closure hprototype hvalues =>
      refine ⟨?_, h.values hvalues hkinded.2⟩
      cases hprototype with
      | bytecode hh => exact h.objects hh hkinded.1
      | native => trivial
  | dyn hdescriptor hvalue => exact ⟨h.value hdescriptor.1 hkinded.1, h.value hvalue.1 hkinded.2⟩
  | upLink hvalue => exact h.value hvalue.1 hkinded
  | byteCodeProto hvalues htexts hprototypes =>
      refine ⟨h.values hvalues hkinded.1, fun id' hmem' => ?_, fun prototype' hmem' => ?_⟩
      · obtain ⟨id, hmem, hid⟩ := forall₂_mem_right htexts hmem'
        exact h.texts hid (hkinded.2.1 id hmem)
      · obtain ⟨prototype, hmem, hprototype⟩ := forall₂_mem_right hprototypes hmem'
        obtain ⟨handle, rfl, hkind⟩ := hkinded.2.2 prototype hmem
        cases hprototype with
        | bytecode hh => exact ⟨_, rfl, h.objects hh hkind⟩

/-- A larger view keeps every kind. -/
theorem Extends.keepsKinds (h : Extends view view') : KeepsKinds view view' Eq Eq Eq where
  objects := by
    rintro handle _ kind rfl ⟨object, hobject, hkind⟩
    exact ⟨object, h.objects hobject, hkind⟩
  texts := by
    rintro id _ rfl ⟨text, htext⟩
    exact ⟨text, h.texts htext⟩
  shapes := by
    rintro id _ rfl ⟨fields, hfields, htexts⟩
    refine ⟨fields, h.shapes hfields, fun field hmem => ?_⟩
    obtain ⟨text, htext⟩ := htexts field hmem
    exact ⟨text, h.texts htext⟩

theorem Extends.valueKinded (h : Extends view view') {value : RuntimeValue}
    (hkinded : view.ValueKinded value) : view'.ValueKinded value := by
  refine h.keepsKinds.value ?_ hkinded
  cases value <;> constructor <;> rfl

theorem Extends.objectKinded (h : Extends view view') {object : Object}
    (hkinded : view.ObjectKinded object) : view'.ObjectKinded object := by
  by_cases hempty : object = .reserved ∨ object = .upLink none
  · rcases hempty with rfl | rfl <;> trivial
  · rw [not_or] at hempty
    refine h.keepsKinds.object (Object.Rel.of_refs hempty.1 hempty.2 fun ref _ => ?_) hkinded
    cases ref <;> constructor <;> rfl

end Growth

section Structure

variable {view : HeapView}

/-- Relations of the references of a view along which its objects, texts and shapes
correspond. -/
structure Corresponds (view : HeapView) (rH : Handle → Handle → Prop)
    (rT : InternId → InternId → Prop) (rS : ShapeId → ShapeId → Prop) : Prop where
  objects : ∀ {handle handle' object}, rH handle handle' → view.object handle = .ok object →
    ∃ object', view.object handle' = .ok object' ∧ Object.Rel rH rT rS object object'
  texts : ∀ {id id'}, rT id id' → ∃ text, view.text id = .ok text ∧ view.text id' = .ok text
  shapes : ∀ {id id'}, rS id id' → ∃ fields fields', view.shape id = .ok fields ∧
    view.shape id' = .ok fields' ∧ List.Forall₂ rT fields fields'

variable {rH : Handle → Handle → Prop} {rT : InternId → InternId → Prop}
  {rS : ShapeId → ShapeId → Prop}

/-- Corresponding shapes have the same field names. -/
theorem Corresponds.fieldNames (h : view.Corresponds rH rT rS) {id id' : ShapeId}
    (hrel : rS id id') : ∃ names, view.fieldNames id = .ok names ∧ view.fieldNames id' = .ok names := by
  have hnames : ∀ {fields fields'}, List.Forall₂ rT fields fields' →
      ∃ names, fields.mapM view.text = .ok names ∧ fields'.mapM view.text = .ok names := by
    intro fields fields' hfields
    induction hfields with
    | nil => exact ⟨[], rfl, rfl⟩
    | cons hfield _ ih =>
        obtain ⟨names, hleft, hright⟩ := ih
        obtain ⟨name, hname, hname'⟩ := h.texts hfield
        exact ⟨name :: names, by rw [List.mapM_cons, hname, hleft]; rfl,
          by rw [List.mapM_cons, hname', hright]; rfl⟩
  obtain ⟨fields, fields', hfields, hfields', hrel'⟩ := h.shapes hrel
  obtain ⟨names, hleft, hright⟩ := hnames hrel'
  exact ⟨names, bind_eq_ok.mpr ⟨fields, hfields, hleft⟩, bind_eq_ok.mpr ⟨fields', hfields', hright⟩⟩

/-- Corresponding values of a well-kinded view are links that correspond, or agree. -/
theorem Corresponds.agree (h : view.Corresponds rH rT rS)
    (hkinded : view.WellKinded) (hinit : view.Initialized) {a b : RuntimeValue}
    (ha : view.ValueKinded a) (hrel : RuntimeValue.Rel rH rT a b) :
    (∃ link link', a = .upLink link ∧ b = .upLink link' ∧ rH link link') ∨
      view.Agree Eq (fun a b => view.ValueKinded a ∧ RuntimeValue.Rel rH rT a b) a b := by
  have hvalues : ∀ {values values' : List RichValue},
      (∀ value ∈ values, view.ValueKinded value.value) →
      List.Forall₂ (RichValue.Rel rH rT) values values' →
      List.Forall₂ (fun a b => view.ValueKinded a ∧ RuntimeValue.Rel rH rT a b)
        (values.map (·.value)) (values'.map (·.value)) := by
    intro values values' hkinded hrel
    rw [List.forall₂_map_left_iff, List.forall₂_map_right_iff]
    exact List.forall₂_iff_get.mpr ⟨hrel.length_eq, fun i hi hi' =>
      ⟨hkinded _ (List.get_mem _ _), (hrel.get hi hi').1⟩⟩
  cases hrel with
  | int => exact .inr (.inl ⟨_, _, rfl, rfl, rfl⟩)
  | float => exact .inr (.inl ⟨_, _, rfl, rfl, rfl⟩)
  | builtinAtom => exact .inr (.inl ⟨_, _, rfl, rfl, rfl⟩)
  | atom ht =>
      obtain ⟨text, htext, htext'⟩ := h.texts ht
      exact .inr (.inl ⟨.atom text, _, by rw [leaf, htext]; rfl, by rw [leaf, htext']; rfl, rfl⟩)
  | shortString ht =>
      obtain ⟨text, htext, htext'⟩ := h.texts ht
      exact .inr (.inl ⟨.string text, _, by rw [leaf, htext]; rfl, by rw [leaf, htext']; rfl, rfl⟩)
  | upLink hh => exact .inl ⟨_, _, rfl, rfl, hh⟩
  | array hh =>
      obtain ⟨object, hobject, hkind⟩ := HasKind.object hinit ha
      obtain ⟨_, hobject', hobjects⟩ := h.objects hh hobject
      cases hobjects <;> cases hkind
      rename_i hcomponents
      exact .inr (.inr ⟨.array, _, _, by rw [node, hobject], by rw [node, hobject'],
        hvalues (hkinded hobject) hcomponents⟩)
  | tuple hh =>
      obtain ⟨object, hobject, hkind⟩ := HasKind.object hinit ha
      obtain ⟨_, hobject', hobjects⟩ := h.objects hh hobject
      cases hobjects <;> cases hkind
      rename_i hcomponents
      exact .inr (.inr ⟨.tuple, _, _, by rw [node, hobject], by rw [node, hobject'],
        hvalues (hkinded hobject) hcomponents⟩)
  | tagged hh =>
      obtain ⟨object, hobject, hkind⟩ := HasKind.object hinit ha
      obtain ⟨_, hobject', hobjects⟩ := h.objects hh hobject
      cases hobjects <;> cases hkind
      rename_i htag hpayload
      obtain ⟨-, htagKinded, hpayloadKinded⟩ := hkinded hobject
      exact .inr (.inr ⟨.tagged, _, _, by rw [node, hobject], by rw [node, hobject'],
        .cons ⟨htagKinded, htag.1⟩ (.cons ⟨hpayloadKinded, hpayload.1⟩ .nil)⟩)
  | dict hh =>
      obtain ⟨object, hobject, hkind⟩ := HasKind.object hinit ha
      obtain ⟨_, hobject', hobjects⟩ := h.objects hh hobject
      cases hobjects <;> cases hkind
      rename_i hshape hcomponents
      obtain ⟨names, hnames, hnames'⟩ := h.fieldNames hshape
      exact .inr (.inr ⟨.dict names, _, _, by rw [node, hobject]; simp only [hnames]; rfl,
        by rw [node, hobject']; simp only [hnames']; rfl, hvalues (hkinded hobject).2 hcomponents⟩)
  | _ hh =>
      obtain ⟨object, hobject, hkind⟩ := HasKind.object hinit ha
      obtain ⟨_, hobject', hobjects⟩ := h.objects hh hobject
      cases hobjects <;> cases hkind
      exact .inr (.inl ⟨_, _, by rw [leaf, hobject], by rw [leaf, hobject'], rfl⟩)

/-- Corresponding values of a well-kinded view have the same structure. -/
theorem Corresponds.sameStructure (h : view.Corresponds rH rT rS)
    (hkinded : view.WellKinded) (hinit : view.Initialized) {value value' : RuntimeValue}
    (hvalue : view.ValueKinded value) (hrel : RuntimeValue.Rel rH rT value value') :
    view.SameStructure value value' := by
  refine .of_agree (fun a b => view.ValueKinded a ∧ RuntimeValue.Rel rH rT a b) ?_
    ⟨hvalue, hrel⟩
  rintro a b ⟨ha, hrel⟩
  rcases h.agree hkinded hinit ha hrel with ⟨link, link', rfl, rfl, -⟩ | hagree
  · exact .inl ⟨link, link', rfl, rfl⟩
  · exact .inr hagree

end Structure

end HeapView

section Publication

variable {target work target' : Heap} {root root' : RichValue}

theorem world_main (hmain : target.storage = .main) (hwork : work.storage = .work) :
    (world target work).heap .main = .ok target := by
  simp [HeapView.heap, world, hmain, hwork, Option.filter]

/-- Publication extends the world over the main heap. -/
theorem Published.world_extends (hpub : Publishable target work)
    (h : Published target work root root' target') :
    (world target work).Extends (world target' work) := by
  have hheap : ∀ {storage heap}, (world target work).heap storage = .ok heap →
      ∃ heap', (world target' work).heap storage = .ok heap' ∧ heap.objects <+: heap'.objects ∧
        heap.text.values <+: heap'.text.values ∧ heap.shapes.values <+: heap'.shapes.values := by
    intro storage heap hheap
    cases storage with
    | work => exact ⟨heap, hheap, List.prefix_refl _, List.prefix_refl _, List.prefix_refl _⟩
    | main =>
        obtain rfl := Except.ok.inj
          ((world_main hpub.target_selfContained.storage hpub.work_storage).symm.trans hheap)
        exact ⟨target', world_main h.selfContained.storage hpub.work_storage,
          h.objects, h.text, h.shapes⟩
  constructor
  · intro handle object hobject
    obtain ⟨heap, hheap', hslot⟩ := HeapView.object_eq_ok.mp hobject
    obtain ⟨heap', hheap'', hobjects, -, -⟩ := hheap hheap'
    exact HeapView.object_eq_ok.mpr ⟨heap', hheap'', getElem?_of_isPrefix hobjects hslot⟩
  · intro id text htext
    obtain ⟨heap, hheap', hslot⟩ := HeapView.text_eq_ok.mp htext
    obtain ⟨heap', hheap'', -, htexts, -⟩ := hheap hheap'
    exact HeapView.text_eq_ok.mpr ⟨heap', hheap'', getElem?_of_isPrefix htexts hslot⟩
  · intro id fields hfields
    obtain ⟨heap, hheap', hslot⟩ := HeapView.shape_eq_ok.mp hfields
    obtain ⟨heap', hheap'', -, -, hshapes⟩ := hheap hheap'
    exact HeapView.shape_eq_ok.mpr ⟨heap', hheap'', getElem?_of_isPrefix hshapes hslot⟩

/-- The handles of the published graph, with their images. -/
def PublishedTo (target work : Heap) (root : RichValue) (image : Handle → Handle)
    (handle handle' : Handle) : Prop :=
  (world target work).Reaches root.refs handle ∧ handle' = image handle

/-- What resolves in the published heap resolves in the world over it. -/
theorem world_object (hmain : target.storage = .main) (hwork : work.storage = .work)
    {handle : Handle} {object : Object} (h : target.object handle = .ok object) :
    (world target work).object handle = .ok object := by
  obtain ⟨hstorage, hslot⟩ := Heap.object_eq_ok.mp h
  rw [HeapView.object_eq_ok, hstorage, hmain]
  exact ⟨target, world_main hmain hwork, hslot⟩

theorem world_text (hmain : target.storage = .main) (hwork : work.storage = .work)
    {id : InternId} {text : String} (h : target.resolveText id = .ok text) :
    (world target work).text id = .ok text := by
  obtain ⟨hstorage, hslot⟩ := Heap.resolveText_eq_ok.mp h
  rw [HeapView.text_eq_ok, hstorage, hmain]
  exact ⟨target, world_main hmain hwork, hslot⟩

theorem world_shape (hmain : target.storage = .main) (hwork : work.storage = .work)
    {id : ShapeId} {fields : List InternId} (h : target.shape id = .ok fields) :
    (world target work).shape id = .ok fields := by
  obtain ⟨hstorage, hslot⟩ := Heap.shape_eq_ok.mp h
  rw [HeapView.shape_eq_ok, hstorage, hmain]
  exact ⟨target, world_main hmain hwork, hslot⟩

/-- A published graph and its source correspond in the world over the extended heap. -/
theorem Published.corresponds (hpub : Publishable target work)
    (hroot : ∀ ref ∈ root.refs, (world target work).Has ref)
    (h : Published target work root root' target') {image : Handle → Handle}
    (hiso : Isomorphic target work root root' target' image) :
    (world target' work).Corresponds (PublishedTo target work root image)
      (SameText target work target') (SameShape target work target') := by
  have hext := h.world_extends hpub
  have hmain := h.selfContained.storage
  constructor
  · rintro handle _ object ⟨hreach, rfl⟩ hobject
    obtain ⟨source, hsource⟩ := hreach.has hpub.closed.objects hroot
    obtain rfl := Except.ok.inj ((hext.objects hsource).symm.trans hobject)
    obtain ⟨object', hobject', hrel⟩ := hiso.objects handle source hreach hsource
    exact ⟨object', world_object hmain hpub.work_storage hobject',
      hrel.restrict fun next hnext => hreach.step ⟨source, hsource, hnext⟩⟩
  · rintro id id' ⟨text, htext, htext'⟩
    exact ⟨text, hext.texts htext, world_text hmain hpub.work_storage htext'⟩
  · rintro id id' ⟨fields, fields', hfields, hfields', hrel⟩
    exact ⟨fields, fields', hext.shapes hfields, world_shape hmain hpub.work_storage hfields', hrel⟩

/-- Publication leads from kinded references to kinded ones. -/
theorem Published.keepsKinds (hpub : Publishable target work)
    (hinit : (world target work).Initialized)
    (h : Published target work root root' target') {image : Handle → Handle}
    (hiso : Isomorphic target work root root' target' image) :
    HeapView.KeepsKinds (world target work) (world target' work)
      (PublishedTo target work root image) (SameText target work target')
      (SameShape target work target') := by
  have hmain := h.selfContained.storage
  constructor
  · rintro handle _ kind ⟨hreach, rfl⟩ hkind
    obtain ⟨object, hobject, hkind⟩ := hkind.object hinit
    obtain ⟨object', hobject', hrel⟩ := hiso.objects handle object hreach hobject
    exact ⟨object', world_object hmain hpub.work_storage hobject', .inr (hrel.kind.trans hkind)⟩
  · rintro id id' ⟨text, -, htext'⟩ -
    exact ⟨text, world_text hmain hpub.work_storage htext'⟩
  · rintro id id' ⟨fields, fields', hfields, hfields', hrel⟩ -
    refine ⟨fields', world_shape hmain hpub.work_storage hfields', fun field' hmem' => ?_⟩
    obtain ⟨field, -, text, -, htext'⟩ := forall₂_mem_right hrel hmem'
    exact ⟨text, world_text hmain hpub.work_storage htext'⟩

/-- An object of the world over the extended heap was there before, or is the copy of
an object of the published graph. -/
theorem Published.object_cases (hpub : Publishable target work)
    (h : Published target work root root' target') {image : Handle → Handle}
    (hiso : Isomorphic target work root root' target' image) {handle : Handle} {object : Object}
    (hobject : (world target' work).object handle = .ok object) :
    (world target work).object handle = .ok object ∨
      ∃ source, (world target work).Reaches root.refs source ∧ image source = handle := by
  obtain ⟨heap, hheap, hslot⟩ := HeapView.object_eq_ok.mp hobject
  obtain ⟨storage, slot⟩ := handle
  cases storage with
  | work => exact .inl (HeapView.object_eq_ok.mpr ⟨heap, hheap, hslot⟩)
  | main =>
      obtain rfl := Except.ok.inj
        ((world_main h.selfContained.storage hpub.work_storage).symm.trans hheap)
      by_cases hold : slot < target.objects.length
      · refine .inl (HeapView.object_eq_ok.mpr ⟨target,
          world_main hpub.target_selfContained.storage hpub.work_storage, ?_⟩)
        obtain ⟨rest, hrest⟩ := h.objects
        rwa [← hrest, List.getElem?_append_left hold] at hslot
      · obtain ⟨source, ⟨-, hreach, himage⟩, -⟩ := hiso.once slot (Nat.le_of_not_lt hold)
          (List.getElem?_eq_some_iff.mp hslot).1
        exact .inr ⟨source, hreach, himage⟩

/-- The world over the extended heap is well kinded and initialized. -/
theorem Published.wellKinded (hpub : Publishable target work)
    (hroot : ∀ ref ∈ root.refs, (world target work).Has ref)
    (hkinded : (world target work).WellKinded) (hinit : (world target work).Initialized)
    (h : Published target work root root' target') :
    (world target' work).WellKinded ∧ (world target' work).Initialized := by
  obtain ⟨image, hiso⟩ := h.isomorphic
  have hcopy : ∀ {handle object}, (world target' work).object handle = .ok object →
      (world target work).object handle = .ok object ∨
        ∃ source, (world target work).ObjectKinded source ∧
          Object.Rel (PublishedTo target work root image) (SameText target work target')
            (SameShape target work target') source object := by
    intro handle object hobject
    refine (h.object_cases hpub hiso hobject).imp id ?_
    rintro ⟨handle, hreach, rfl⟩
    obtain ⟨source, hsource⟩ := hreach.has hpub.closed.objects hroot
    obtain ⟨object', hobject', hrel⟩ := hiso.objects handle source hreach hsource
    obtain rfl := Except.ok.inj
      ((world_object h.selfContained.storage hpub.work_storage hobject').symm.trans hobject)
    exact ⟨source, hkinded hsource, hrel.restrict fun next hnext =>
      hreach.step ⟨source, hsource, hnext⟩⟩
  constructor
  · intro handle object hobject
    rcases hcopy hobject with hold | ⟨source, hsource, hrel⟩
    · exact (h.world_extends hpub).objectKinded (hkinded hold)
    · exact (h.keepsKinds hpub hinit hiso).object hrel hsource
  · intro handle hreserved
    rcases hcopy hreserved with hold | ⟨source, -, hrel⟩
    · exact hinit handle hold
    · exact hrel.ready.2.1 rfl

/-- A published root is a copy of its source: it has the same structure. -/
theorem Published.sameStructure (hpub : Publishable target work)
    (hroot : ∀ ref ∈ root.refs, (world target work).Has ref)
    (hkinded : (world target work).WellKinded) (hinit : (world target work).Initialized)
    (hvalue : (world target work).ValueKinded root.value)
    (h : Published target work root root' target') :
    (world target' work).SameStructure root.value root'.value := by
  obtain ⟨hkinded', hinit'⟩ := h.wellKinded hpub hroot hkinded hinit
  obtain ⟨image, hiso⟩ := h.isomorphic
  have hrel := @RichValue.Rel.restrict _ _ ((world target work).Reaches root.refs) _ _ hiso.root_rel
    fun next hnext => .root hnext
  exact (h.corresponds hpub hroot hiso).sameStructure hkinded' hinit'
    ((h.world_extends hpub).valueKinded hvalue) hrel.1

end Publication

end Telora
