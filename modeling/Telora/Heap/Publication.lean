import Telora.Heap.CopyRun

/-!
# Publication preserves meaning

A finished copy has closed every slot it opened, so each forwarded object
corresponds to its source. Committing appends the pending tables at the slots
they predicted, and the graph below the published root is an isomorphic copy of
the graph below the root, inside a main heap that still stands alone.
-/

namespace Telora

open Library PendingCopy

namespace PendingCopy

section Commit

variable {target work : Heap} {roots : List Ref} {p : PendingCopy}

private theorem foldl_intern (texts : List String) (heap : Heap) (hnodup : texts.Nodup)
    (hfresh : ∀ text ∈ texts, heap.text.find text = none) :
    (texts.foldl (fun heap text => (heap.intern text).2) heap).text.values =
        heap.text.values ++ texts ∧
      (texts.foldl (fun heap text => (heap.intern text).2) heap).storage = heap.storage ∧
      (texts.foldl (fun heap text => (heap.intern text).2) heap).objects = heap.objects ∧
      (texts.foldl (fun heap text => (heap.intern text).2) heap).shapes = heap.shapes := by
  induction texts generalizing heap with
  | nil => simp
  | cons text rest ih =>
      obtain ⟨hnotMem, hrest⟩ := List.nodup_cons.mp hnodup
      have hnew := hfresh text List.mem_cons_self
      have hvalues : (heap.intern text).2.text.values = heap.text.values ++ [text] := by
        simp only [Heap.intern]
        rw [InternTable.insert_of_fresh hnew]
        rfl
      have hstep := ih (heap.intern text).2 hrest fun other hother => by
        rw [InternTable.find_eq_none_iff, hvalues, List.mem_append, not_or]
        refine ⟨(InternTable.find_eq_none_iff _ _).mp
          (hfresh other (List.mem_cons_of_mem _ hother)), ?_⟩
        rw [List.mem_singleton]
        rintro rfl
        exact hnotMem hother
      rw [hvalues, List.append_assoc] at hstep
      exact hstep

private theorem foldl_internShape (shapes : List (List InternId)) (heap : Heap)
    (hnodup : shapes.Nodup) (hfresh : ∀ fields ∈ shapes, heap.shapes.find fields = none) :
    (shapes.foldl (fun heap fields => (heap.internShape fields).2) heap).shapes.values =
        heap.shapes.values ++ shapes ∧
      (shapes.foldl (fun heap fields => (heap.internShape fields).2) heap).storage =
        heap.storage ∧
      (shapes.foldl (fun heap fields => (heap.internShape fields).2) heap).objects =
        heap.objects ∧
      (shapes.foldl (fun heap fields => (heap.internShape fields).2) heap).text = heap.text := by
  induction shapes generalizing heap with
  | nil => simp
  | cons fields rest ih =>
      obtain ⟨hnotMem, hrest⟩ := List.nodup_cons.mp hnodup
      have hnew := hfresh fields List.mem_cons_self
      have hvalues : (heap.internShape fields).2.shapes.values =
          heap.shapes.values ++ [fields] := by
        simp only [Heap.internShape]
        rw [InternTable.insert_of_fresh hnew]
        rfl
      have hstep := ih (heap.internShape fields).2 hrest fun other hother => by
        rw [InternTable.find_eq_none_iff, hvalues, List.mem_append, not_or]
        refine ⟨(InternTable.find_eq_none_iff _ _).mp
          (hfresh other (List.mem_cons_of_mem _ hother)), ?_⟩
        rw [List.mem_singleton]
        rintro rfl
        exact hnotMem hother
      rw [hvalues, List.append_assoc] at hstep
      exact hstep

/-- Committing appends each pending table at the base it was predicted from. -/
theorem commit_tables (htexts : ∀ text ∈ p.text.values, target.text.find text = none)
    (hnodup : p.shapes.Nodup) (hshapes : ∀ fields ∈ p.shapes, target.shapes.find fields = none) :
    (p.commit target).storage = target.storage ∧
      (p.commit target).objects = target.objects ++ p.objects ∧
      (p.commit target).text.values = p.texts target ∧
      (p.commit target).shapes.values = p.allShapes target := by
  obtain ⟨htext, hstorage, hobjects, hkept⟩ := foldl_intern p.text.values
    { target with objects := target.objects ++ p.objects } p.text.values_nodup htexts
  have hfresh : ∀ fields ∈ p.shapes, (p.text.values.foldl
      (fun (heap : Heap) text => (heap.intern text).2)
      { target with objects := target.objects ++ p.objects }).shapes.find fields = none := by
    rw [hkept]
    exact hshapes
  obtain ⟨hvalues, hstorage', hobjects', htext'⟩ := foldl_internShape p.shapes _ hnodup hfresh
  unfold PendingCopy.commit
  refine ⟨hstorage'.trans hstorage, hobjects'.trans hobjects, ?_, ?_⟩
  · rw [htext', htext]
    rfl
  · rw [hvalues, hkept]
    rfl

theorem Invariant.commit (hinv : Invariant target work roots p) :
    (p.commit target).storage = target.storage ∧
      (p.commit target).objects = target.objects ++ p.objects ∧
      (p.commit target).text.values = p.texts target ∧
      (p.commit target).shapes.values = p.allShapes target :=
  commit_tables hinv.text_fresh hinv.shapes_nodup hinv.shapes_fresh

end Commit

end PendingCopy

/-- A reference into the main heap. -/
def Ref.IsMain : Ref → Prop
  | .object handle => handle.storage = .main
  | .text id => id.storage = .main
  | .shape id => id.storage = .main

/-- A reference to a slot of a main heap. -/
def Ref.In (heap : Heap) : Ref → Prop
  | .object handle => handle.storage = .main ∧ handle.slot < heap.objects.length
  | .text id => id.storage = .main ∧ id.slot < heap.text.values.length
  | .shape id => id.storage = .main ∧ id.slot < heap.shapes.values.length

theorem Ref.In.isMain {heap : Heap} {ref : Ref} (h : ref.In heap) : ref.IsMain := by
  cases ref <;> exact h.1

/-- Slots of a heap stay when its tables grow. -/
theorem Ref.In.mono {heap heap' : Heap} {ref : Ref} (h : ref.In heap)
    (hobjects : heap.objects <+: heap'.objects) (htext : heap.text.values <+: heap'.text.values)
    (hshapes : heap.shapes.values <+: heap'.shapes.values) : ref.In heap' := by
  cases ref with
  | object handle => exact ⟨h.1, lt_of_lt_of_le h.2 hobjects.length_le⟩
  | text id => exact ⟨h.1, lt_of_lt_of_le h.2 htext.length_le⟩
  | shape id => exact ⟨h.1, lt_of_lt_of_le h.2 hshapes.length_le⟩

/-- A main heap seen alone resolves exactly the references to its own slots. -/
theorem has_iff_in {heap : Heap} (hstorage : heap.storage = .main) (ref : Ref) :
    (⟨heap, none⟩ : HeapView).Has ref ↔ ref.In heap := by
  have hheap : ∀ {storage found}, (⟨heap, none⟩ : HeapView).heap storage = .ok found ↔
      storage = .main ∧ heap = found := by
    intro storage found
    cases storage <;> simp [HeapView.heap, hstorage]
  cases ref with
  | object handle =>
      simp only [HeapView.Has, Ref.In, HeapView.object_eq_ok, hheap]
      constructor
      · rintro ⟨object, _, ⟨hmain, rfl⟩, hslot⟩
        exact ⟨hmain, (List.getElem?_eq_some_iff.mp hslot).1⟩
      · rintro ⟨hmain, hlt⟩
        exact ⟨_, heap, ⟨hmain, rfl⟩, List.getElem?_eq_getElem hlt⟩
  | text id =>
      simp only [HeapView.Has, Ref.In, HeapView.text_eq_ok, hheap]
      constructor
      · rintro ⟨text, _, ⟨hmain, rfl⟩, hslot⟩
        exact ⟨hmain, heap.text.resolve_lt hslot⟩
      · rintro ⟨hmain, hlt⟩
        obtain ⟨text, htext⟩ := (heap.text.resolve_isSome_iff id.slot).mpr hlt
        exact ⟨text, heap, ⟨hmain, rfl⟩, htext⟩
  | shape id =>
      simp only [HeapView.Has, Ref.In, HeapView.shape_eq_ok, hheap]
      constructor
      · rintro ⟨fields, _, ⟨hmain, rfl⟩, hslot⟩
        exact ⟨hmain, heap.shapes.resolve_lt hslot⟩
      · rintro ⟨hmain, hlt⟩
        obtain ⟨fields, hfields⟩ := (heap.shapes.resolve_isSome_iff id.slot).mpr hlt
        exact ⟨fields, heap, ⟨hmain, rfl⟩, hfields⟩

/-- A main heap stands alone when its objects and shapes refer to its own slots. -/
theorem selfContained_iff {heap : Heap} : heap.SelfContained ↔
    heap.storage = .main ∧
      (∀ object ∈ heap.objects, (object ≠ .reserved ∧ object ≠ .upLink none) ∧
        ∀ ref ∈ object.refs, ref.In heap) ∧
      ∀ fields ∈ heap.shapes.values, ∀ field ∈ fields, (Ref.text field).In heap := by
  have hheap : heap.storage = .main → (⟨heap, none⟩ : HeapView).heap .main = .ok heap :=
    fun hstorage => by simp [HeapView.heap, hstorage]
  constructor
  · intro h
    refine ⟨h.storage, fun object hobject => ⟨h.initialized object hobject, ?_⟩, ?_⟩
    · intro ref href
      obtain ⟨slot, hslot⟩ := List.mem_iff_getElem?.mp hobject
      have hread : (⟨heap, none⟩ : HeapView).object ⟨.main, slot⟩ = .ok object :=
        HeapView.object_eq_ok.mpr ⟨heap, hheap h.storage, hslot⟩
      exact (has_iff_in h.storage ref).mp (h.closed.objects hread ref href)
    · intro fields hfields field hfield
      obtain ⟨slot, hslot⟩ := List.mem_iff_getElem?.mp hfields
      have hread : (⟨heap, none⟩ : HeapView).shape ⟨.main, slot⟩ = .ok fields :=
        HeapView.shape_eq_ok.mpr ⟨heap, hheap h.storage, hslot⟩
      exact (has_iff_in h.storage _).mp (h.closed.shapes hread field hfield)
  · rintro ⟨hstorage, hobjects, hshapes⟩
    refine ⟨hstorage, ⟨?_, ?_⟩, fun object hobject => (hobjects object hobject).1⟩
    · intro handle object hread ref href
      obtain ⟨_, hfound, hslot⟩ := HeapView.object_eq_ok.mp hread
      have hmain := ((has_iff_in hstorage (.object handle)).mp ⟨object, hread⟩).1
      rw [hmain, hheap hstorage] at hfound
      obtain rfl := Except.ok.inj hfound
      exact (has_iff_in hstorage ref).mpr
        ((hobjects object (List.mem_of_getElem? hslot)).2 ref href)
    · intro id fields hread field hfield
      obtain ⟨_, hfound, hslot⟩ := HeapView.shape_eq_ok.mp hread
      have hmain := ((has_iff_in hstorage (.shape id)).mp ⟨fields, hread⟩).1
      rw [hmain, hheap hstorage] at hfound
      obtain rfl := Except.ok.inj hfound
      exact (has_iff_in hstorage _).mpr (hshapes fields (List.mem_of_getElem? hslot) field hfield)

section Foreign

theorem containsForeign_value {rich : RichValue} (h : ∀ ref ∈ rich.refs, Ref.IsMain ref) :
    rich.containsForeign .main = false := by
  obtain ⟨value, provenance⟩ := rich
  cases value <;>
    simp_all [RichValue.containsForeign, RuntimeValue.containsForeign, RichValue.refs,
      RuntimeValue.refs, Ref.IsMain]

theorem containsForeign_values {values : List RichValue}
    (h : ∀ ref ∈ values.flatMap RichValue.refs, Ref.IsMain ref) :
    values.any (·.containsForeign .main) = false := by
  rw [List.any_eq_false]
  intro value hvalue
  rw [containsForeign_value fun ref href => h ref (List.mem_flatMap.mpr ⟨value, hvalue, href⟩)]
  exact Bool.false_ne_true

theorem containsForeign_object {object : Object}
    (hready : object ≠ .reserved) (hlinked : object ≠ .upLink none)
    (h : ∀ ref ∈ object.refs, Ref.IsMain ref) : object.containsForeign .main = false := by
  cases object with
  | reserved => exact absurd rfl hready
  | array values => exact containsForeign_values h
  | tuple values => exact containsForeign_values h
  | tagged tag payload =>
      simp only [Object.containsForeign, Bool.or_eq_false_iff]
      exact ⟨containsForeign_value fun ref href => h ref (List.mem_append_left _ href),
        containsForeign_value fun ref href => h ref (List.mem_append_right _ href)⟩
  | dict shape values =>
      simp only [Object.containsForeign, Bool.or_eq_false_iff, bne_eq_false_iff_eq]
      exact ⟨h _ List.mem_cons_self,
        containsForeign_values fun ref href => h ref (List.mem_cons_of_mem _ href)⟩
  | closure identity prototype upvalues =>
      exact containsForeign_values fun ref href => h ref (List.mem_append_right _ href)
  | dyn identity descriptor value scheme origin =>
      simp only [Object.containsForeign, Bool.or_eq_false_iff]
      exact ⟨containsForeign_value fun ref href => h ref (List.mem_append_left _ href),
        containsForeign_value fun ref href => h ref (List.mem_append_right _ href)⟩
  | upLink value =>
      cases value with
      | none => exact absurd rfl hlinked
      | some value => exact containsForeign_value h
  | byteCodeProto code values text prototypes =>
      simp only [Object.containsForeign, Bool.or_eq_false_iff]
      refine ⟨⟨containsForeign_values fun ref href => h ref (List.mem_append_left _ href), ?_⟩, ?_⟩
      · rw [List.any_eq_false]
        intro id hid
        have := h (.text id) (List.mem_append_right _
          (List.mem_append_left _ (List.mem_map_of_mem hid)))
        simpa [Ref.IsMain] using this
      · rw [List.any_eq_false]
        intro prototype hmem
        cases prototype with
        | native function => exact Bool.false_ne_true
        | bytecode handle =>
            have := h (.object handle) (List.mem_append_right _ (List.mem_append_right _
              (List.mem_flatMap.mpr ⟨_, hmem, List.mem_cons_self⟩)))
            simpa [Ref.IsMain] using this
  | _ => rfl

end Foreign

/-- A text of the world and a text of the published heap that read the same. -/
def SameText (target work target' : Heap) (id id' : InternId) : Prop :=
  ∃ text, (world target work).text id = .ok text ∧ target'.resolveText id' = .ok text

/-- Shapes that list the same field names. -/
def SameShape (target work target' : Heap) (id id' : ShapeId) : Prop :=
  ∃ fields fields', (world target work).shape id = .ok fields ∧
    target'.shape id' = .ok fields' ∧ List.Forall₂ (SameText target work target') fields fields'

/-- The published graph is the source graph under a renaming of its handles. -/
structure Isomorphic (target work : Heap) (root root' : RichValue) (target' : Heap)
    (image : Handle → Handle) : Prop where
  /-- A main object is shared. -/
  shared : ∀ handle, handle.storage = .main → image handle = handle
  /-- A work object gets a new slot. -/
  fresh : ∀ handle, (world target work).Reaches root.refs handle → handle.storage = .work →
    (image handle).storage = .main ∧ target.objects.length ≤ (image handle).slot
  /-- Every new slot is the copy of exactly one work object of the graph. -/
  once : ∀ slot, target.objects.length ≤ slot → slot < target'.objects.length →
    ∃! handle, handle.storage = .work ∧ (world target work).Reaches root.refs handle ∧
      image handle = ⟨.main, slot⟩
  injective : ∀ handle handle', (world target work).Reaches root.refs handle →
    (world target work).Reaches root.refs handle' → image handle = image handle' →
    handle = handle'
  root_rel : RichValue.Rel (fun handle handle' => handle' = image handle)
    (SameText target work target') root root'
  objects : ∀ handle object, (world target work).Reaches root.refs handle →
    (world target work).object handle = .ok object →
    ∃ object', target'.object (image handle) = .ok object' ∧
      Object.Rel (fun handle handle' => handle' = image handle) (SameText target work target')
        (SameShape target work target') object object'

/-- What a publication returns: the root and all it reaches lie in a main heap that
stands alone and extends the old one, and every slot handed out was kept. -/
structure Published (target work : Heap) (root root' : RichValue) (target' : Heap) : Prop where
  selfContained : target'.SelfContained
  root_main : ∀ ref ∈ root'.refs, (⟨target', none⟩ : HeapView).Has ref
  objects : target.objects <+: target'.objects
  text : target.text.values <+: target'.text.values
  shapes : target.shapes.values <+: target'.shapes.values
  isomorphic : ∃ image, Isomorphic target work root root' target' image
  committed : ∃ pending : PendingCopy,
    (copyValue target ⟨work, none⟩ (copyObject target ⟨work, none⟩ (work.objects.length + 1))
      root).run (.new target) = .ok (root', pending) ∧
    (∀ n < pending.objects.length,
      target'.objects[pending.objectBase + n]? = pending.objects[n]?) ∧
    (∀ n < pending.text.values.length,
      target'.text.values[pending.textBase + n]? = pending.text.values[n]?) ∧
    ∀ n < pending.shapes.length,
      target'.shapes.values[pending.shapeBase + n]? = pending.shapes[n]?

section Finished

variable {target work : Heap} {root root' : RichValue} {p : PendingCopy}

/-- A copy that closed every slot it opened. -/
structure Finished (target work : Heap) (root root' : RichValue) (p : PendingCopy) : Prop where
  publishable : Publishable target work
  invariant : Invariant target work root.refs p
  closed : ∀ i : Nat, p.objects[i]? ≠ some Object.reserved
  root_rel : RichValue.Rel (ObjectTo target p) (TextTo target work p) root root'

/-- A forwarded object is copied, at the slot it was forwarded to. -/
theorem Finished.copied (h : Finished target work root root' p) {handle copied : Handle}
    (hlookup : p.objectsForwarded.lookup handle = some copied) :
    ∃ i object object', copied = ⟨.main, target.objects.length + i⟩ ∧
      work.object handle = .ok object ∧ p.objects[i]? = some object' ∧
      ObjectCopied target work p object object' := by
  obtain ⟨-, -, i, hi, rfl⟩ := h.invariant.forwarded hlookup
  obtain ⟨other, object, object', hother, hobject, hslot, hstatus⟩ := h.invariant.filled i hi
  obtain rfl := h.invariant.injective hlookup hother
  rcases hstatus with rfl | hcopied
  · exact absurd hslot (h.closed i)
  · exact ⟨i, object, object', rfl, hobject, hslot, hcopied⟩

/-- Every handle of the graph has a place to go. -/
theorem Finished.objectTo (h : Finished target work root root' p) {handle : Handle}
    (hreach : (world target work).Reaches root.refs handle) :
    ∃ copied, ObjectTo target p handle copied := by
  obtain ⟨start, hstart, hpath⟩ := hreach
  induction hpath with
  | refl =>
      obtain ⟨_, -, hrel⟩ := forall₂_mem_left (@RuntimeValue.Rel.refs _ _ (fun _ _ => True) _ _
        h.root_rel.1) hstart
      cases hrel with
      | object hto => exact ⟨_, hto⟩
  | tail _ hedge ih =>
      obtain ⟨object, hobject, hnext⟩ := hedge
      obtain ⟨copied, ⟨hmain, -, -⟩ | ⟨hwork, hlookup⟩⟩ := ih
      · have hslot := (world_object_main h.publishable hmain).mp hobject
        have hin := ((selfContained_iff.mp h.publishable.target_selfContained).2.1 object
          (List.mem_of_getElem? hslot)).2 _ hnext
        exact ⟨_, .inl ⟨hin.1, rfl, hin.2⟩⟩
      · obtain ⟨i, source, object', -, hsource, -, hcopied⟩ := h.copied hlookup
        obtain rfl : source = object := by
          have := (world_object_work h.publishable hwork).mp hobject
          rw [hsource] at this
          exact Except.ok.inj this
        obtain ⟨_, -, hrel⟩ := forall₂_mem_left (Object.Rel.refs hcopied) hnext
        cases hrel with
        | object hto => exact ⟨_, hto⟩

/-- The place a reference goes to is a slot of the committed heap. -/
theorem Finished.in_commit (h : Finished target work root root' p) {ref ref' : Ref}
    (hrel : Ref.Rel (ObjectTo target p) (TextTo target work p) (ShapeTo target work p) ref ref') :
    ref'.In (p.commit target) := by
  obtain ⟨-, hobjects, htext, hshapes⟩ := h.invariant.commit
  cases hrel with
  | object hto =>
      rcases hto with ⟨hmain, rfl, hlt⟩ | ⟨-, hlookup⟩
      · refine ⟨hmain, ?_⟩
        rw [hobjects, List.length_append]
        omega
      · obtain ⟨-, -, i, hi, rfl⟩ := h.invariant.forwarded hlookup
        refine ⟨rfl, ?_⟩
        rw [hobjects, List.length_append]
        exact Nat.add_lt_add_left hi _
  | text hto =>
      obtain ⟨hmain, _, -, hslot⟩ := hto
      exact ⟨hmain, by rw [htext]; exact (List.getElem?_eq_some_iff.mp hslot).1⟩
  | shape hto =>
      obtain ⟨hmain, _, _, -, hslot, -⟩ := hto
      exact ⟨hmain, by rw [hshapes]; exact (List.getElem?_eq_some_iff.mp hslot).1⟩

/-- Each pending object is the copy of a work object. -/
theorem Finished.pending (h : Finished target work root root' p) {copied : Object}
    (hmem : copied ∈ p.objects) : ∃ object, ObjectCopied target work p object copied := by
  obtain ⟨i, hi⟩ := List.mem_iff_getElem?.mp hmem
  obtain ⟨_, object, copied', -, -, hslot, hstatus⟩ :=
    h.invariant.filled i (List.getElem?_eq_some_iff.mp hi).1
  obtain rfl : copied' = copied := Option.some.inj (hslot.symm.trans hi)
  rcases hstatus with rfl | hcopied
  · exact absurd hi (h.closed i)
  · exact ⟨object, hcopied⟩

theorem Finished.pending_refs (h : Finished target work root root' p) {copied : Object}
    (hmem : copied ∈ p.objects) : ∀ ref ∈ copied.refs, ref.In (p.commit target) := by
  obtain ⟨object, hcopied⟩ := h.pending hmem
  intro ref href
  obtain ⟨_, -, hrel⟩ := forall₂_mem_right (Object.Rel.refs hcopied) href
  exact h.in_commit hrel

/-- The check of the copied graph never fails. -/
theorem Finished.validate (h : Finished target work root root' p) : p.validate = .ok () := by
  unfold PendingCopy.validate
  rw [if_neg]
  rw [h.invariant.targetStorage, List.any_eq_true]
  rintro ⟨copied, hmem, hforeign⟩
  obtain ⟨object, hcopied⟩ := h.pending hmem
  obtain ⟨-, hready, hlinked⟩ := Object.Rel.ready hcopied
  rw [containsForeign_object hready hlinked fun ref href => (h.pending_refs hmem ref href).isMain]
    at hforeign
  cases hforeign

/-- The committed heap extends the target. -/
theorem Finished.commit_extends (h : Finished target work root root' p) :
    target.objects <+: (p.commit target).objects ∧
      target.text.values <+: (p.commit target).text.values ∧
      target.shapes.values <+: (p.commit target).shapes.values := by
  obtain ⟨-, hobjects, htext, hshapes⟩ := h.invariant.commit
  rw [hobjects, htext, hshapes]
  exact ⟨List.prefix_append _ _, List.prefix_append _ _, List.prefix_append _ _⟩

theorem Finished.selfContained (h : Finished target work root root' p) :
    (p.commit target).SelfContained := by
  obtain ⟨hstorage, hobjects, htext, hshapes⟩ := h.invariant.commit
  obtain ⟨hmain, htargetObjects, htargetShapes⟩ :=
    selfContained_iff.mp h.publishable.target_selfContained
  obtain ⟨hextObjects, hextText, hextShapes⟩ := h.commit_extends
  refine selfContained_iff.mpr ⟨hstorage.trans hmain, ?_, ?_⟩
  · intro object hmem
    rw [hobjects] at hmem
    rcases List.mem_append.mp hmem with hold | hnew
    · obtain ⟨hready, hrefs⟩ := htargetObjects object hold
      exact ⟨hready, fun ref href => (hrefs ref href).mono hextObjects hextText hextShapes⟩
    · obtain ⟨source, hcopied⟩ := h.pending hnew
      exact ⟨(Object.Rel.ready hcopied).2, h.pending_refs hnew⟩
  · intro fields hmem field hfield
    rw [hshapes] at hmem
    rcases List.mem_append.mp hmem with hold | hnew
    · exact (htargetShapes fields hold field hfield).mono hextObjects hextText hextShapes
    · obtain ⟨hfieldMain, hlt⟩ := h.invariant.shapes_main fields hnew field hfield
      exact ⟨hfieldMain, by rw [htext]; exact hlt⟩

/-- Where a handle goes: main handles stay, work handles are forwarded. -/
def image (p : PendingCopy) (handle : Handle) : Handle :=
  match handle.storage with
  | .main => handle
  | .work => (p.objectsForwarded.lookup handle).getD handle

theorem image_eq_of_objectTo {handle copied : Handle} (h : ObjectTo target p handle copied) :
    copied = image p handle := by
  rcases h with ⟨hmain, rfl, -⟩ | ⟨hwork, hlookup⟩
  · simp [image, hmain]
  · simp [image, hwork, hlookup]

theorem Finished.sameText (h : Finished target work root root' p) {id copied : InternId}
    (hto : TextTo target work p id copied) :
    SameText target work (p.commit target) id copied := by
  obtain ⟨hstorage, -, htext, -⟩ := h.invariant.commit
  obtain ⟨hmain, text, hread, hslot⟩ := hto
  refine ⟨text, hread, Heap.resolveText_eq_ok.mpr ⟨?_, ?_⟩⟩
  · rw [hmain, hstorage, h.publishable.target_selfContained.storage]
  · rw [InternTable.resolve, htext, hslot]

theorem Finished.sameShape (h : Finished target work root root' p) {id copied : ShapeId}
    (hto : ShapeTo target work p id copied) :
    SameShape target work (p.commit target) id copied := by
  obtain ⟨hstorage, -, -, hshapes⟩ := h.invariant.commit
  obtain ⟨hmain, fields, fields', hread, hslot, hrel⟩ := hto
  refine ⟨fields, fields', hread, Heap.shape_eq_ok.mpr ⟨?_, ?_⟩,
    hrel.imp fun _ _ => h.sameText⟩
  · rw [hmain, hstorage, h.publishable.target_selfContained.storage]
  · rw [InternTable.resolve, hshapes, hslot]

/-- A reference to a main slot stays where it is and reads the same. -/
theorem Finished.rel_self (h : Finished target work root root' p) {ref : Ref}
    (hin : ref.In target) :
    Ref.Rel (fun handle handle' => handle' = image p handle)
      (SameText target work (p.commit target)) (SameShape target work (p.commit target))
      ref ref := by
  obtain ⟨-, hextText, hextShapes⟩ := h.commit_extends
  have htext : ∀ {id : InternId}, id.storage = .main → id.slot < target.text.values.length →
      TextTo target work p id id := by
    intro id hmain hlt
    have hslot := List.getElem?_eq_getElem hlt
    exact ⟨hmain, _, (world_text_main h.publishable hmain).mpr hslot,
      getElem?_of_isPrefix (List.prefix_append _ _) hslot⟩
  cases ref with
  | object handle => exact .object (by simp [image, hin.1])
  | text id => exact .text (h.sameText (htext hin.1 hin.2))
  | shape id =>
      have hslot := List.getElem?_eq_getElem hin.2
      refine .shape (h.sameShape ⟨hin.1, _, _, (world_shape_main h.publishable hin.1).mpr hslot,
        getElem?_of_isPrefix (List.prefix_append _ _) hslot, List.forall₂_same.mpr ?_⟩)
      intro field hfield
      have hfieldIn := (selfContained_iff.mp h.publishable.target_selfContained).2.2 _
        (List.mem_of_getElem? hslot) field hfield
      exact htext hfieldIn.1 hfieldIn.2

theorem Finished.isomorphic (h : Finished target work root root' p) :
    Isomorphic target work root root' (p.commit target) (image p) := by
  obtain ⟨hstorage, hobjects, -, -⟩ := h.invariant.commit
  have hmainStorage := h.publishable.target_selfContained.storage
  have hlookup : ∀ {handle}, (world target work).Reaches root.refs handle →
      handle.storage = .work →
      ∃ i, p.objectsForwarded.lookup handle = some ⟨.main, target.objects.length + i⟩ ∧
        image p handle = ⟨.main, target.objects.length + i⟩ := by
    intro handle hreach hwork
    obtain ⟨copied, ⟨hmain, -, -⟩ | ⟨-, hl⟩⟩ := h.objectTo hreach
    · rw [hwork] at hmain
      cases hmain
    · obtain ⟨-, -, i, -, rfl⟩ := h.invariant.forwarded hl
      exact ⟨i, hl, (@image_eq_of_objectTo target _ _ _ (.inr ⟨hwork, hl⟩)).symm⟩
  refine {
    shared := fun handle hmain => by simp [image, hmain]
    fresh := ?_
    once := ?_
    injective := ?_
    root_rel := h.root_rel.imp (fun _ _ => image_eq_of_objectTo) fun _ _ => h.sameText
    objects := ?_ }
  · intro handle hreach hwork
    obtain ⟨i, -, himage⟩ := hlookup hreach hwork
    rw [himage]
    exact ⟨rfl, Nat.le_add_right _ _⟩
  · intro slot hle hlt
    rw [hobjects, List.length_append] at hlt
    obtain ⟨handle, object, _, hl, hobject, -, -⟩ :=
      h.invariant.filled (slot - target.objects.length) (by omega)
    obtain ⟨hwork, hreach, -⟩ := h.invariant.forwarded hl
    rw [Nat.add_sub_cancel' hle] at hl
    refine ⟨handle, ⟨hwork, hreach, (@image_eq_of_objectTo target _ _ _
      (.inr ⟨hwork, hl⟩)).symm⟩, ?_⟩
    rintro other ⟨hwork', hreach', himage'⟩
    obtain ⟨i, hl', himage⟩ := hlookup hreach' hwork'
    rw [himage] at himage'
    rw [himage'] at hl'
    exact h.invariant.injective hl' hl
  · intro handle handle' hreach hreach' heq
    obtain ⟨copied, hto⟩ := h.objectTo hreach
    obtain ⟨copied', hto'⟩ := h.objectTo hreach'
    have hsame : copied = copied' := by
      rw [image_eq_of_objectTo hto, image_eq_of_objectTo hto', heq]
    subst hsame
    rcases hto with ⟨hmain, hc, hlt⟩ | ⟨hwork, hl⟩ <;>
      rcases hto' with ⟨hmain', hc', hlt'⟩ | ⟨hwork', hl'⟩
    · rw [← hc, hc']
    · obtain ⟨-, -, i, -, hi⟩ := h.invariant.forwarded hl'
      rw [← hc, hi] at hlt
      exact absurd hlt (Nat.not_lt.mpr (Nat.le_add_right _ _))
    · obtain ⟨-, -, i, -, hi⟩ := h.invariant.forwarded hl
      rw [← hc', hi] at hlt'
      exact absurd hlt' (Nat.not_lt.mpr (Nat.le_add_right _ _))
    · exact h.invariant.injective hl hl'
  · intro handle object hreach hobject
    obtain ⟨copied, hto⟩ := h.objectTo hreach
    rw [← image_eq_of_objectTo hto]
    rcases hto with ⟨hmain, rfl, -⟩ | ⟨hwork, hl⟩
    · have hslot := (world_object_main h.publishable hmain).mp hobject
      obtain ⟨hready, hrefs⟩ := (selfContained_iff.mp h.publishable.target_selfContained).2.1
        object (List.mem_of_getElem? hslot)
      refine ⟨object, Heap.object_eq_ok.mpr ⟨?_, ?_⟩,
        .of_refs hready.1 hready.2 fun ref href => h.rel_self (hrefs ref href)⟩
      · rw [hmain, hstorage, hmainStorage]
      · rw [hobjects]
        exact getElem?_of_isPrefix (List.prefix_append _ _) hslot
    · obtain ⟨i, source, object', rfl, hsource, hslot, hcopied⟩ := h.copied hl
      have hread := (world_object_work h.publishable hwork).mp hobject
      obtain rfl : source = object := Except.ok.inj (hsource.symm.trans hread)
      refine ⟨object', Heap.object_eq_ok.mpr ⟨?_, ?_⟩, Object.Rel.imp
        (fun _ _ => image_eq_of_objectTo) (fun _ _ => h.sameText) (fun _ _ => h.sameShape) hcopied⟩
      · rw [hstorage, hmainStorage]
      · rw [hobjects, List.getElem?_append_right (Nat.le_add_right _ _), Nat.add_sub_cancel_left,
          hslot]

theorem Finished.published (h : Finished target work root root' p)
    (hrun : (copyValue target ⟨work, none⟩
      (copyObject target ⟨work, none⟩ (work.objects.length + 1)) root).run (.new target) =
        .ok (root', p)) :
    Published target work root root' (p.commit target) := by
  obtain ⟨-, hobjects, htext, hshapes⟩ := h.invariant.commit
  obtain ⟨hextObjects, hextText, hextShapes⟩ := h.commit_extends
  refine {
    selfContained := h.selfContained
    root_main := ?_
    objects := hextObjects
    text := hextText
    shapes := hextShapes
    isomorphic := ⟨image p, h.isomorphic⟩
    committed := ⟨p, hrun, ?_, ?_, ?_⟩ }
  · intro ref href
    obtain ⟨_, -, hrel⟩ := forall₂_mem_right (@RuntimeValue.Rel.refs _ _
      (ShapeTo target work p) _ _ h.root_rel.1) href
    exact (has_iff_in h.selfContained.storage ref).mpr (h.in_commit hrel)
  · intro n hn
    rw [hobjects, h.invariant.objectBase, List.getElem?_append_right (Nat.le_add_right _ _),
      Nat.add_sub_cancel_left]
  · intro n hn
    rw [htext, texts, h.invariant.textBase, List.getElem?_append_right (Nat.le_add_right _ _),
      Nat.add_sub_cancel_left]
  · intro n hn
    rw [hshapes, allShapes, h.invariant.shapeBase,
      List.getElem?_append_right (Nat.le_add_right _ _), Nat.add_sub_cancel_left]

/-- The copy of a root finishes, unless the graph below it has an empty up-link. -/
theorem copyRoot_runs {fail : HeapError → Prop} (hpub : Publishable target work)
    (hroot : ∀ ref ∈ root.refs, (world target work).Has ref)
    (hready : ∀ handle, (world target work).Reaches root.refs handle →
      (world target work).object handle ≠ .ok .reserved)
    (hfail : (∃ handle, (world target work).Reaches root.refs handle ∧
      (world target work).object handle = .ok (.upLink none)) → ∀ e, fail e) :
    Runs (copyValue target ⟨work, none⟩
        (copyObject target ⟨work, none⟩ (work.objects.length + 1)) root) (.new target)
      (Finished target work root) fail := by
  have hinv : Invariant target work root.refs (.new target) :=
    invariant_new hpub.target_selfContained.storage
  have hcopies : Copies target work root.refs
      (copyObject target ⟨work, none⟩ (work.objects.length + 1)) fail (.new target) root.refs :=
    fun handle hmem p _ hinv' => copyObject_runs hpub hready hfail _ hinv' (by omega)
      (.root hmem) (hroot _ hmem)
  refine (copyValue_runs hpub hinv hcopies hroot).imp ?_ fun _ h => h
  rintro root' p ⟨hinv', hext, hrel⟩
  exact ⟨hpub, hinv', fun i => hext.closed i (Nat.zero_le i), hrel⟩

/-- Publishing a root runs its copy, checks it and commits it. -/
theorem publishRoot_eq (hpub : Publishable target work) :
    publishRoot target work root =
      (copyValue target ⟨work, none⟩
        (copyObject target ⟨work, none⟩ (work.objects.length + 1)) root).run (.new target) >>=
      fun result => result.2.validate >>= fun _ => .ok (result.1, result.2.commit target) := by
  have hguard : ¬(target.storage ≠ .main ∨ work.storage ≠ .work) := by
    simp [hpub.target_selfContained.storage, hpub.work_storage]
  unfold publishRoot copyRoots
  rw [if_neg hguard]
  cases hrun : (copyValue target ⟨work, none⟩
      (copyObject target ⟨work, none⟩ (work.objects.length + 1)) root).run (.new target) with
  | error e =>
      simp only [List.mapM_cons, List.mapM_nil, StateT.run_bind, hrun]
      rfl
  | ok result =>
      simp only [List.mapM_cons, List.mapM_nil, StateT.run_bind, hrun]
      cases hvalid : result.2.validate with
      | error e =>
          change ((result.2.validate >>= fun _ => Except.ok _) >>= fun _ => _) =
            (result.2.validate >>= fun _ => _)
          rw [hvalid]
          rfl
      | ok _ =>
          change ((result.2.validate >>= fun _ => Except.ok _) >>= fun _ => _) =
            (result.2.validate >>= fun _ => _)
          rw [hvalid]
          rfl

end Finished

/-- A publication that succeeds returns an isomorphic copy. -/
theorem published_of_publishRoot {target work target' : Heap} {root root' : RichValue}
    (hpub : Publishable target work)
    (hroot : ∀ ref ∈ root.refs, (world target work).Has ref)
    (hready : ∀ handle, (world target work).Reaches root.refs handle →
      (world target work).object handle ≠ .ok .reserved)
    (h : publishRoot target work root = .ok (root', target')) :
    Published target work root root' target' := by
  rw [publishRoot_eq hpub] at h
  obtain ⟨⟨copied, p⟩, hrun, h⟩ := bind_eq_ok.mp h
  have hfinished := (@copyRoot_runs _ _ _ (fun _ => True) hpub hroot hready
    fun _ _ => trivial).of_ok hrun
  obtain ⟨_, -, h⟩ := bind_eq_ok.mp h
  obtain ⟨rfl, rfl⟩ := Prod.mk.inj (Except.ok.inj h)
  exact hfinished.published hrun

/-- Publication preserves meaning: it succeeds exactly when the graph has no empty
up-link, and then returns an isomorphic copy inside the extended main heap. -/
theorem publishRoot_preserves (target work : Heap) (root : RichValue)
    (hpub : Publishable target work)
    (hroot : ∀ ref ∈ root.refs, (world target work).Has ref)
    (hready : ∀ handle, (world target work).Reaches root.refs handle →
      (world target work).object handle ≠ .ok .reserved) :
    ((∃ root' target', publishRoot target work root = .ok (root', target')) ↔
      ∀ handle, (world target work).Reaches root.refs handle →
        (world target work).object handle ≠ .ok (.upLink none)) ∧
    ∀ root' target', publishRoot target work root = .ok (root', target') →
      Published target work root root' target' := by
  refine ⟨⟨?_, fun hlinked => ?_⟩, fun _ _ => published_of_publishRoot hpub hroot hready⟩
  · rintro ⟨root', target', h⟩ handle hreach hempty
    obtain ⟨image, hiso⟩ := (published_of_publishRoot hpub hroot hready h).isomorphic
    obtain ⟨_, -, hrel⟩ := hiso.objects handle _ hreach hempty
    exact (Object.Rel.ready hrel).1.2 rfl
  · have hruns := @copyRoot_runs _ _ _ (fun _ => False) hpub hroot hready
      fun ⟨handle, hreach, hempty⟩ => absurd hempty (hlinked handle hreach)
    rw [publishRoot_eq hpub]
    cases hrun : (copyValue target ⟨work, none⟩
        (copyObject target ⟨work, none⟩ (work.objects.length + 1)) root).run (.new target) with
    | error e => exact (hruns.of_error hrun).elim
    | ok result =>
        refine ⟨result.1, result.2.commit target, bind_eq_ok.mpr ⟨result, rfl, ?_⟩⟩
        exact bind_eq_ok.mpr ⟨(), (hruns.of_ok hrun).validate, rfl⟩

/-- The empty main heap stands alone. -/
theorem selfContained_main : Heap.main.SelfContained :=
  selfContained_iff.mpr ⟨rfl, fun _ h => absurd h List.not_mem_nil,
    fun _ h => absurd h List.not_mem_nil⟩

/-- One publication into a main heap: a root of a closed world is published from it. -/
def Publishes (target target' : Heap) : Prop :=
  ∃ work root root', work.storage = .work ∧ (world target work).Closed ∧
    (∀ ref ∈ root.refs, (world target work).Has ref) ∧
    (∀ handle, (world target work).Reaches root.refs handle →
      (world target work).object handle ≠ .ok .reserved) ∧
    publishRoot target work root = .ok (root', target')

/-- A heap that stands alone is published into: it is extended and still stands alone. -/
theorem Publishes.published {target target' : Heap} (hself : target.SelfContained)
    (h : Publishes target target') :
    target'.SelfContained ∧ target.objects <+: target'.objects ∧
      target.text.values <+: target'.text.values ∧
      target.shapes.values <+: target'.shapes.values := by
  obtain ⟨work, root, root', hwork, hclosed, hroot, hready, hpublish⟩ := h
  have hpublished := published_of_publishRoot ⟨hwork, hself, hclosed⟩ hroot hready hpublish
  exact ⟨hpublished.selfContained, hpublished.objects, hpublished.text, hpublished.shapes⟩

/-- A work heap with an array that holds itself twice. -/
def cycleHeap : Heap :=
  { Heap.work with
    objects := [.array [.unknown (.array ⟨.work, 0⟩), .unknown (.array ⟨.work, 0⟩)]] }

theorem cycleHeap_object {handle : Handle} {object : Object}
    (h : (world .main cycleHeap).object handle = .ok object) :
    object = .array [.unknown (.array ⟨.work, 0⟩), .unknown (.array ⟨.work, 0⟩)] := by
  obtain ⟨⟨storage⟩, slot⟩ := handle
  · obtain ⟨_, hheap, hslot⟩ := HeapView.object_eq_ok.mp h
    cases hheap
    exact List.mem_singleton.mp (List.mem_of_getElem? hslot)
  · obtain ⟨_, hheap, hslot⟩ := HeapView.object_eq_ok.mp h
    cases hheap
    cases hslot

theorem publishRoot_preserves_cycle : ∃ root' target',
    publishRoot .main cycleHeap (.unknown (.array ⟨.work, 0⟩)) = .ok (root', target') ∧
      Published .main cycleHeap (.unknown (.array ⟨.work, 0⟩)) root' target' := by
  have hself : (world .main cycleHeap).Has (.object ⟨.work, 0⟩) := ⟨_, rfl⟩
  have hpub : Publishable .main cycleHeap := by
    refine ⟨rfl, selfContained_main, ⟨fun h ref href => ?_, fun h => ?_⟩⟩
    · rw [cycleHeap_object h] at href
      have : ref = .object ⟨.work, 0⟩ := by simpa [Object.refs, RichValue.refs,
        RichValue.unknown, RuntimeValue.refs] using href
      exact this ▸ hself
    · obtain ⟨heap, hheap, hslot⟩ := HeapView.shape_eq_ok.mp h
      rename_i id _
      cases hs : id.storage <;> rw [hs] at hheap <;> cases hheap <;> cases hslot
  have hspec := publishRoot_preserves .main cycleHeap (.unknown (.array ⟨.work, 0⟩)) hpub
    (fun ref href => by
      obtain rfl := List.mem_singleton.mp href
      exact hself)
    (fun handle _ h => by cases cycleHeap_object h)
  obtain ⟨root', target', h⟩ := hspec.1.mpr fun handle _ h => by cases cycleHeap_object h
  exact ⟨root', target', h, hspec.2 root' target' h⟩

end Telora
