import Telora.Heap.Import
import Telora.Heap.Dicts

/-!
# Shapes in order

A heap is in order when the texts of each of its shapes strictly increase, whichever heaps they
are interned in, and each of its dicts has a value for every field of its shape. What is said of
ids stays so while the tables of both heaps only grow, so a heap stays in order when what is new
in it is.
-/

namespace Telora

open Library

namespace HeapView

/-- The texts of some ids strictly increase. -/
def Increasing (view : HeapView) (ids : List InternId) : Prop :=
  ∃ names, ids.mapM view.text = .ok names ∧ names.Pairwise (· < ·)

/-- There is a value for every field of a shape. -/
def Fits (view : HeapView) (shape : ShapeId) (values : List RichValue) : Prop :=
  ∃ ids, view.shape shape = .ok ids ∧ ids.length = values.length

/-- A view in which the texts and shapes of another one are found. -/
structure Resolves (view view' : HeapView) : Prop where
  texts : ∀ {id text}, view.text id = .ok text → view'.text id = .ok text
  shapes : ∀ {id fields}, view.shape id = .ok fields → view'.shape id = .ok fields

section Resolves

variable {view view' : HeapView}

theorem Resolves.names (h : view.Resolves view') {ids : List InternId} {names : List String}
    (hnames : ids.mapM view.text = .ok names) : ids.mapM view'.text = .ok names :=
  mapM_eq_ok.mpr ((mapM_eq_ok.mp hnames).imp fun _ _ => h.texts)

theorem Increasing.resolves {ids : List InternId} (hids : view.Increasing ids)
    (h : view.Resolves view') : view'.Increasing ids := by
  obtain ⟨names, hnames, hsorted⟩ := hids
  exact ⟨names, h.names hnames, hsorted⟩

theorem Fits.resolves {shape : ShapeId} {values : List RichValue} (hfits : view.Fits shape values)
    (h : view.Resolves view') : view'.Fits shape values := by
  obtain ⟨ids, hshape, hlength⟩ := hfits
  exact ⟨ids, h.shapes hshape, hlength⟩

end Resolves

end HeapView

namespace Heap

/-- A heap whose tables grew. -/
structure Widens (heap heap' : Heap) : Prop where
  storage : heap'.storage = heap.storage
  text : heap.text.values <+: heap'.text.values
  shapes : heap.shapes.values <+: heap'.shapes.values

/-- The shapes and dicts of a heap are in order. -/
structure Ordered (heap : Heap) (background : Option Heap) : Prop where
  shapes : ∀ ids ∈ heap.shapes.values, (⟨heap, background⟩ : HeapView).Increasing ids
  dicts : ∀ shape values, Object.dict shape values ∈ heap.objects →
    (⟨heap, background⟩ : HeapView).Fits shape values

section Widens

variable {heap heap' heap'' : Heap} {background : Option Heap}

theorem Widens.refl (heap : Heap) : heap.Widens heap :=
  ⟨rfl, List.prefix_refl _, List.prefix_refl _⟩

theorem Widens.trans (h : heap.Widens heap') (h' : heap'.Widens heap'') : heap.Widens heap'' :=
  ⟨h'.storage.trans h.storage, h.text.trans h'.text, h.shapes.trans h'.shapes⟩

theorem Grows.widens (h : heap.Grows heap') : heap.Widens heap' := ⟨h.storage, h.text, h.shapes⟩

theorem resolves_of_heaps {view view' : HeapView}
    (h : ∀ {storage found}, view.heap storage = .ok found →
      ∃ found', view'.heap storage = .ok found' ∧ found.Widens found') : view.Resolves view' where
  texts := by
    intro id text htext
    obtain ⟨found, hfound, hslot⟩ := HeapView.text_eq_ok.mp htext
    obtain ⟨found', hfound', hwidens⟩ := h hfound
    exact HeapView.text_eq_ok.mpr ⟨found', hfound', getElem?_of_isPrefix hwidens.text hslot⟩
  shapes := by
    intro id fields hfields
    obtain ⟨found, hfound, hslot⟩ := HeapView.shape_eq_ok.mp hfields
    obtain ⟨found', hfound', hwidens⟩ := h hfound
    exact HeapView.shape_eq_ok.mpr ⟨found', hfound', getElem?_of_isPrefix hwidens.shapes hslot⟩

/-- The heap in front grows. -/
theorem Widens.resolves (h : heap.Widens heap') (background : Option Heap) :
    (⟨heap, background⟩ : HeapView).Resolves ⟨heap', background⟩ := by
  apply resolves_of_heaps
  intro storage found hfound
  by_cases hcurrent : storage = heap.storage
  · subst hcurrent
    rw [current_heap] at hfound
    obtain rfl := Except.ok.inj hfound
    exact ⟨heap', by rw [← h.storage, current_heap], h⟩
  · exact ⟨found, (other_heap h.storage hcurrent).trans hfound, .refl found⟩

/-- The heap behind grows. -/
theorem Widens.resolves_behind {main main' work : Heap} (h : main.Widens main')
    (hmain : main.storage = .main) (hwork : work.storage = .work) :
    (world main work).Resolves (world main' work) := by
  apply resolves_of_heaps
  intro storage found hfound
  cases storage with
  | work =>
      simp only [HeapView.heap, world] at hfound ⊢
      exact ⟨found, hfound, .refl found⟩
  | main =>
      obtain rfl := Except.ok.inj (hfound.symm.trans (world_main hmain hwork))
      exact ⟨main', world_main (h.storage.trans hmain) hwork, h⟩

/-- A main heap is seen behind a work heap as it is alone. -/
theorem resolves_world {main work : Heap} (hmain : main.storage = .main)
    (hwork : work.storage = .work) : (⟨main, none⟩ : HeapView).Resolves (world main work) := by
  apply resolves_of_heaps
  intro storage found hfound
  cases storage with
  | work => simp [HeapView.heap, hmain] at hfound
  | main =>
      simp only [HeapView.heap, if_pos hmain] at hfound
      obtain rfl := Except.ok.inj hfound
      exact ⟨main, world_main hmain hwork, .refl main⟩

/-- A heap stays in order when its tables grow and the shapes and dicts that are new are in
order. -/
theorem Ordered.widens (h : heap.Ordered background) (hwidens : heap.Widens heap')
    (hshapes : ∀ ids ∈ heap'.shapes.values, ids ∈ heap.shapes.values ∨
      (⟨heap', background⟩ : HeapView).Increasing ids)
    (hdicts : ∀ shape values, Object.dict shape values ∈ heap'.objects →
      Object.dict shape values ∈ heap.objects ∨
        (⟨heap', background⟩ : HeapView).Fits shape values) : heap'.Ordered background where
  shapes := fun ids hmem => (hshapes ids hmem).elim
    (fun hold => (h.shapes ids hold).resolves (hwidens.resolves background)) id
  dicts := fun shape values hmem => (hdicts shape values hmem).elim
    (fun hold => (h.dicts shape values hold).resolves (hwidens.resolves background)) id

theorem Ordered.behind {main main' work : Heap} (h : work.Ordered (some main))
    (hwidens : main.Widens main') (hmain : main.storage = .main) (hwork : work.storage = .work) :
    work.Ordered (some main') where
  shapes := fun ids hmem =>
    (h.shapes ids hmem).resolves (hwidens.resolves_behind hmain hwork)
  dicts := fun shape values hmem =>
    (h.dicts shape values hmem).resolves (hwidens.resolves_behind hmain hwork)

theorem ordered_new (storage : Storage) (background : Option Heap) :
    (Heap.new storage).Ordered background where
  shapes := fun _ h => (List.not_mem_nil h).elim
  dicts := fun _ _ h => (List.not_mem_nil h).elim

end Widens

section Operations

variable {heap : Heap} {background : Option Heap}

theorem Ordered.intern (h : heap.Ordered background) (text : String) :
    (heap.intern text).2.Ordered background ∧ heap.Widens (heap.intern text).2 := by
  have hwidens : heap.Widens (heap.intern text).2 :=
    ⟨rfl, InternTable.insert_extends _ _, List.prefix_refl _⟩
  exact ⟨h.widens hwidens (fun _ => .inl) fun _ _ => .inl, hwidens⟩

theorem Ordered.internIn (h : heap.Ordered background) (text : String) :
    (heap.internIn background text).2.Ordered background ∧
      heap.Widens (heap.internIn background text).2 := by
  rw [Heap.internIn]
  split
  · exact ⟨h, .refl heap⟩
  · exact h.intern text

theorem Ordered.internShape (h : heap.Ordered background) {ids : List InternId}
    (hids : (⟨heap, background⟩ : HeapView).Increasing ids) :
    (heap.internShape ids).2.Ordered background ∧ heap.Widens (heap.internShape ids).2 := by
  have hwidens : heap.Widens (heap.internShape ids).2 :=
    ⟨rfl, List.prefix_refl _, InternTable.insert_extends _ _⟩
  refine ⟨h.widens hwidens (fun found hmem => ?_) fun _ _ => .inl, hwidens⟩
  rcases InternTable.mem_insert hmem with hold | rfl
  · exact .inl hold
  · exact .inr (hids.resolves (hwidens.resolves background))

theorem Ordered.allocate (h : heap.Ordered background) {object : Object}
    (hobject : ∀ shape values, object = .dict shape values →
      (⟨heap, background⟩ : HeapView).Fits shape values) :
    (heap.allocate object).2.Ordered background ∧ heap.Widens (heap.allocate object).2 := by
  have hwidens : heap.Widens (heap.allocate object).2 :=
    (allocate_spec heap background object).1.widens
  refine ⟨h.widens hwidens (fun _ => .inl) fun shape values hmem => ?_, hwidens⟩
  rcases List.mem_append.mp hmem with hold | hnew
  · exact .inl hold
  · exact .inr ((hobject shape values (List.mem_singleton.mp hnew).symm).resolves
      (hwidens.resolves background))

/-- Any object but a dict can be put into a slot. -/
theorem Ordered.set (h : heap.Ordered background) {slot : Nat} {object : Object}
    (hobject : ∀ shape values, object ≠ .dict shape values) :
    ({ heap with objects := heap.objects.set slot object } : Heap).Ordered background ∧
      heap.Widens { heap with objects := heap.objects.set slot object } := by
  have hwidens : heap.Widens { heap with objects := heap.objects.set slot object } :=
    ⟨rfl, List.prefix_refl _, List.prefix_refl _⟩
  refine ⟨h.widens hwidens (fun _ => .inl) fun shape values hmem => .inl ?_, hwidens⟩
  rcases List.mem_or_eq_of_mem_set hmem with hold | hnew
  · exact hold
  · exact absurd hnew.symm (hobject shape values)

theorem Ordered.initializeSlot (h : heap.Ordered background) {heap' : Heap} {handle : Handle}
    {object : Object} (hslot : heap.initializeSlot handle object = .ok heap')
    (hobject : ∀ shape values, object ≠ .dict shape values) :
    heap'.Ordered background ∧ heap.Widens heap' := by
  unfold Heap.initializeSlot at hslot
  split at hslot
  · cases hslot
  · obtain rfl := Except.ok.inj hslot
    exact h.set hobject
  · cases hslot

theorem Ordered.initializeUpLink (h : heap.Ordered background) {heap' : Heap} {handle : Handle}
    {value : RichValue} (hslot : heap.initializeUpLink handle value = .ok heap') :
    heap'.Ordered background ∧ heap.Widens heap' := by
  unfold Heap.initializeUpLink at hslot
  rw [ite_error_eq_ok] at hslot
  obtain ⟨-, hslot⟩ := hslot
  split at hslot
  · cases hslot
  · obtain rfl := Except.ok.inj hslot
    exact h.set fun _ _ h => nomatch h
  · cases hslot
  · cases hslot

end Operations

end Heap

end Telora
