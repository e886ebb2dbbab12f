import Telora.Heap.Export

/-!
# Import builds a graph of the value

An import only appends to the heap, and what it returns denotes the value that was
imported, whatever objects, texts and shapes the heap held before.
-/

namespace Telora

open Library Bytecode

section Growing

/-- A heap that was appended to. -/
structure Heap.Grows (heap heap' : Heap) : Prop where
  storage : heap'.storage = heap.storage
  objects : heap.objects <+: heap'.objects
  text : heap.text.values <+: heap'.text.values
  shapes : heap.shapes.values <+: heap'.shapes.values

theorem Heap.Grows.refl (heap : Heap) : heap.Grows heap :=
  ⟨rfl, List.prefix_refl _, List.prefix_refl _, List.prefix_refl _⟩

theorem Heap.Grows.trans {a b c : Heap} (hab : a.Grows b) (hbc : b.Grows c) : a.Grows c :=
  ⟨hbc.storage.trans hab.storage, hab.objects.trans hbc.objects, hab.text.trans hbc.text,
    hab.shapes.trans hbc.shapes⟩

/-- A heap and the background it shares texts with: a background is a main heap, and
only a work heap has one. -/
def Backed (background : Option Heap) (heap : Heap) : Prop :=
  ∀ main, background = some main → main.storage = .main ∧ heap.storage = .work

variable {background : Option Heap} {heap heap' : Heap}

theorem Backed.grows (h : Backed background heap) (hgrows : heap.Grows heap') :
    Backed background heap' := fun main hmain =>
  ⟨(h main hmain).1, hgrows.storage.trans (h main hmain).2⟩

theorem current_heap (heap : Heap) (background : Option Heap) :
    (⟨heap, background⟩ : HeapView).heap heap.storage = .ok heap := by
  unfold HeapView.heap
  cases heap.storage <;> simp

/-- A storage other than the current one resolves in the background alone. -/
theorem other_heap (hstorage : heap'.storage = heap.storage) {storage : Storage}
    (hother : storage ≠ heap.storage) :
    (⟨heap', background⟩ : HeapView).heap storage =
      (⟨heap, background⟩ : HeapView).heap storage := by
  cases storage with
  | work => simp [HeapView.heap, hstorage, Ne.symm hother]
  | main =>
      have hmain : heap.storage ≠ .main := Ne.symm hother
      simp [HeapView.heap, hstorage, hmain]

theorem Heap.Grows.extends (h : heap.Grows heap') (background : Option Heap) :
    (⟨heap, background⟩ : HeapView).Extends ⟨heap', background⟩ := by
  have hheap : ∀ {storage found}, (⟨heap, background⟩ : HeapView).heap storage = .ok found →
      ∃ found', (⟨heap', background⟩ : HeapView).heap storage = .ok found' ∧
        found.Grows found' := by
    intro storage found hfound
    by_cases hcurrent : storage = heap.storage
    · subst hcurrent
      rw [current_heap] at hfound
      obtain rfl := Except.ok.inj hfound
      exact ⟨heap', by rw [← h.storage, current_heap], h⟩
    · exact ⟨found, (other_heap h.storage hcurrent).trans hfound, .refl found⟩
  constructor
  · intro handle object hobject
    obtain ⟨found, hfound, hslot⟩ := HeapView.object_eq_ok.mp hobject
    obtain ⟨found', hfound', hgrows⟩ := hheap hfound
    exact HeapView.object_eq_ok.mpr ⟨found', hfound', getElem?_of_isPrefix hgrows.objects hslot⟩
  · intro id text htext
    obtain ⟨found, hfound, hslot⟩ := HeapView.text_eq_ok.mp htext
    obtain ⟨found', hfound', hgrows⟩ := hheap hfound
    exact HeapView.text_eq_ok.mpr ⟨found', hfound', getElem?_of_isPrefix hgrows.text hslot⟩
  · intro id fields hfields
    obtain ⟨found, hfound, hslot⟩ := HeapView.shape_eq_ok.mp hfields
    obtain ⟨found', hfound', hgrows⟩ := hheap hfound
    exact HeapView.shape_eq_ok.mpr ⟨found', hfound', getElem?_of_isPrefix hgrows.shapes hslot⟩

/-- A heap that was appended to by settled objects. -/
structure Heap.Appends (background : Option Heap) (heap heap' : Heap) : Prop extends
  Heap.Grows heap heap' where
  settled : ∀ {slot object}, heap.objects.length ≤ slot → heap'.objects[slot]? = some object →
    (⟨heap', background⟩ : HeapView).Settled object

/-- Growth of the tables alone. -/
theorem Heap.Grows.appends (h : heap.Grows heap') (hobjects : heap'.objects = heap.objects) :
    heap.Appends background heap' where
  toGrows := h
  settled := by
    intro slot object hle hslot
    rw [hobjects, List.getElem?_eq_none hle] at hslot
    cases hslot

/-- An allocated object is found at its handle. -/
theorem allocate_spec (heap : Heap) (background : Option Heap) (object : Object) :
    heap.Grows (heap.allocate object).2 ∧
      (⟨(heap.allocate object).2, background⟩ : HeapView).object (heap.allocate object).1 =
        .ok object := by
  refine ⟨⟨rfl, List.prefix_append _ _, List.prefix_refl _, List.prefix_refl _⟩, ?_⟩
  refine HeapView.object_eq_ok.mpr ⟨(heap.allocate object).2, current_heap _ _, ?_⟩
  simp [Heap.allocate]

theorem allocate_appends {object : Object}
    (h : (⟨heap, background⟩ : HeapView).Settled object) :
    heap.Appends background (heap.allocate object).2 where
  toGrows := (allocate_spec heap background object).1
  settled := by
    intro slot found hle hslot
    have hlt := (List.getElem?_eq_some_iff.mp hslot).1
    obtain rfl : slot = heap.objects.length := by
      simp only [Heap.allocate, List.length_append, List.length_singleton] at hlt
      omega
    obtain rfl : object = found := by simpa [Heap.allocate] using hslot
    exact h.fills ((allocate_spec heap background object).1.extends background).fills

/-- The id of a text reads that text. -/
theorem internIn_spec (hbacked : Backed background heap) (text : String) :
    heap.Appends background (heap.internIn background text).2 ∧
      (⟨(heap.internIn background text).2, background⟩ : HeapView).text
        (heap.internIn background text).1 = .ok text := by
  unfold Heap.internIn
  cases hfind : background.bind (·.findText text) with
  | none =>
      refine ⟨Heap.Grows.appends ⟨rfl, List.prefix_refl _, InternTable.insert_extends _ _,
        List.prefix_refl _⟩ rfl, ?_⟩
      exact HeapView.text_eq_ok.mpr ⟨(heap.intern text).2, current_heap _ _,
        InternTable.insert_resolve _ _⟩
  | some id =>
      obtain ⟨main, hmain, hid⟩ := Option.bind_eq_some_iff.mp hfind
      obtain ⟨slot, hslot, rfl⟩ := Option.map_eq_some_iff.mp hid
      obtain ⟨hstorage, hwork⟩ := hbacked main hmain
      refine ⟨(Heap.Grows.refl heap).appends rfl, HeapView.text_eq_ok.mpr ⟨main, ?_,
        (InternTable.find_eq_some_iff _ _ _).mp hslot⟩⟩
      simp [HeapView.heap, hmain, hstorage, hwork, Option.filter]

theorem internShape_spec (heap : Heap) (background : Option Heap) (fields : List InternId) :
    heap.Appends background (heap.internShape fields).2 ∧
      (⟨(heap.internShape fields).2, background⟩ : HeapView).shape (heap.internShape fields).1 =
        .ok fields :=
  ⟨Heap.Grows.appends
      ⟨rfl, List.prefix_refl _, List.prefix_refl _, InternTable.insert_extends _ _⟩ rfl,
    HeapView.shape_eq_ok.mpr ⟨(heap.internShape fields).2, current_heap _ _,
      InternTable.insert_resolve _ _⟩⟩

theorem string_spec (hbacked : Backed background heap) (text : String) :
    heap.Appends background (heap.string background text).2 ∧
      (⟨(heap.string background text).2, background⟩ : HeapView).Denotes False
        (heap.string background text).1 (.string text) := by
  unfold Heap.string
  split
  · obtain ⟨happends, htext⟩ := internIn_spec hbacked text
    exact ⟨happends, .shortString htext⟩
  · exact ⟨allocate_appends .string,
      .string (allocate_spec heap background (.string text)).2⟩

theorem atom_spec (hbacked : Backed background heap) (text : String) :
    heap.Appends background (heap.atom background text).2 ∧
      (⟨(heap.atom background text).2, background⟩ : HeapView).Denotes False
        (heap.atom background text).1 (.atom (.named text)) := by
  unfold Heap.atom
  cases hbuiltin : builtinAtom text with
  | some known =>
      exact ⟨(Heap.Grows.refl heap).appends rfl, .builtinAtom ((builtinAtom_eq_some_iff _ _).mp hbuiltin)⟩
  | none =>
      obtain ⟨happends, htext⟩ := internIn_spec hbacked text
      exact ⟨happends, .atom htext⟩

end Growing

section Importing

variable (background : Option Heap) (base : Nat) (all opened : List FunctionRef)

/-- The state of an import that started with `base` objects: every linked function is
still open, or its prototype denotes it, and every new object is settled, unless it is
held open for a function. -/
structure Imports (state : Importing) : Prop where
  backed : Backed background state.heap
  linked : ∀ {address handle}, state.forwarded.lookup address = some handle →
    ∃ f ∈ all, f.address = address ∧
      (f ∈ opened ∨ (⟨state.heap, background⟩ : HeapView).DenotesFunction False handle f)
  fresh : ∀ {slot object}, base ≤ slot → state.heap.objects[slot]? = some object →
    (object = .reserved ∧ ∃ f ∈ opened,
      state.forwarded.lookup f.address = some ⟨state.heap.storage, slot⟩) ∨
      (⟨state.heap, background⟩ : HeapView).Settled object

/-- An import goes on: the heap was appended to and no link was forgotten. -/
structure Advances (state state' : Importing) : Prop where
  grows : state.heap.Grows state'.heap
  forwarded : ∀ {address handle}, state.forwarded.lookup address = some handle →
    state'.forwarded.lookup address = some handle

/-- A step of an import keeps its invariant. -/
structure Imported (state state' : Importing) : Prop extends
  Imports background base all opened state', Advances state state'

variable {background base all opened} {s s' s'' : Importing} {α : Type}

theorem Advances.refl (s : Importing) : Advances s s := ⟨.refl _, id⟩

theorem Advances.trans (h : Advances s s') (h' : Advances s' s'') : Advances s s'' :=
  ⟨h.grows.trans h'.grows, h'.forwarded ∘ h.forwarded⟩

theorem Advances.fills (h : Advances s s') :
    (⟨s.heap, background⟩ : HeapView).Fills ⟨s'.heap, background⟩ :=
  (h.grows.extends background).fills

theorem Imported.fills (h : Imported background base all opened s s') :
    (⟨s.heap, background⟩ : HeapView).Fills ⟨s'.heap, background⟩ :=
  h.toAdvances.fills

theorem Imported.trans (h : Imported background base all opened s s')
    (h' : Imported background base all opened s' s'') : Imported background base all opened s s'' :=
  ⟨h'.toImports, h.toAdvances.trans h'.toAdvances⟩

theorem Imports.imported (h : Imports background base all opened s) :
    Imported background base all opened s s :=
  ⟨h, .refl s⟩

theorem Imports.appends (h : Imports background base all opened s) {heap : Heap}
    (happends : s.heap.Appends background heap) :
    Imported background base all opened s { s with heap } where
  backed := h.backed.grows happends.toGrows
  linked := by
    intro address handle hlookup
    obtain ⟨f, hmem, haddress, hstatus⟩ := h.linked hlookup
    exact ⟨f, hmem, haddress, hstatus.imp id
      (HeapView.DenotesFunction.fills (happends.toGrows.extends background).fills)⟩
  fresh := by
    intro slot object hle hslot
    by_cases hnew : s.heap.objects.length ≤ slot
    · exact .inr (happends.settled hnew hslot)
    · obtain ⟨rest, hrest⟩ := happends.objects
      rw [← hrest, List.getElem?_append_left (Nat.lt_of_not_le hnew)] at hslot
      refine (h.fresh hle hslot).imp ?_ fun hsettled =>
        hsettled.fills (happends.toGrows.extends background).fills
      rintro ⟨rfl, f, hmem, hlookup⟩
      exact ⟨rfl, f, hmem, by rw [hlookup, happends.storage]⟩
  grows := happends.toGrows
  forwarded := id

theorem onHeap_runs (h : Imports background base all opened s) {operation : Heap → α × Heap}
    (happends : s.heap.Appends background (operation s.heap).2) {post : α → Importing → Prop}
    {fail : HeapError → Prop}
    (hpost : Imported background base all opened s { s with heap := (operation s.heap).2 } →
      post (operation s.heap).1 { s with heap := (operation s.heap).2 }) :
    Runs (onHeap operation) s post fail :=
  hpost (h.appends happends)

/-- Allocating a settled object ends the import of a value. -/
theorem allocate_runs (h : Imports background base all opened s) {object : Object}
    (hsettled : (⟨s.heap, background⟩ : HeapView).Settled object)
    {post : Handle → Importing → Prop} {fail : HeapError → Prop}
    (hpost : ∀ handle s', Imported background base all opened s s' →
      (⟨s'.heap, background⟩ : HeapView).object handle = .ok object → post handle s') :
    Runs (onHeap (·.allocate object)) s post fail :=
  onHeap_runs h (allocate_appends hsettled) fun himported =>
    hpost _ _ himported (allocate_spec s.heap background object).2

theorem importAtom_runs (h : Imports background base all opened s) (atom : Atom)
    {fail : HeapError → Prop} :
    Runs (importAtom background atom) s (fun value s' => Imported background base all opened s s' ∧
      (⟨s'.heap, background⟩ : HeapView).Denotes False value (.atom atom)) fail := by
  cases atom with
  | builtin atom => exact .pure ⟨h.imported, .builtinAtom rfl⟩
  | named name =>
      obtain ⟨happends, hdenotes⟩ := atom_spec h.backed name
      change Runs (onHeap (·.atom background name)) s _ _
      exact onHeap_runs h happends fun himported => ⟨himported, hdenotes⟩

theorem internTexts_runs (h : Imports background base all opened s) (texts : List String)
    {fail : HeapError → Prop} :
    Runs (texts.mapM fun text => onHeap (·.internIn background text)) s
      (fun ids s' => Imported background base all opened s s' ∧
        ids.mapM (⟨s'.heap, background⟩ : HeapView).text = .ok texts) fail := by
  let rel := fun (s : Importing) text id =>
    (⟨s.heap, background⟩ : HeapView).text id = .ok text
  have hmono : ∀ {a b x y}, Advances a b → rel a x y → rel b x y := fun hab hrel =>
    hab.fills.texts hrel
  refine (@Runs.mapM _ _ _ _ _ _ _ _ (Imports background base all opened) _ rel Advances.refl
    Advances.trans hmono (fun text _ s' _ hs' => ?_) h).imp ?_ fun _ => id
  · obtain ⟨happends, htext⟩ := internIn_spec hs'.backed text
    exact onHeap_runs hs' happends fun himported => ⟨himported.toImports, himported.toAdvances, htext⟩
  · rintro ids s' ⟨hs', hadvances, hrel⟩
    exact ⟨⟨hs', hadvances⟩, mapM_eq_ok.mpr hrel.flip⟩

/-- Filling a reserved slot keeps what the view resolves. -/
theorem initializeSlot_fills {heap : Heap} {handle : Handle} {object : Object}
    (hreserved : heap.objects[handle.slot]? = some .reserved)
    (hstorage : handle.storage = heap.storage) (background : Option Heap) :
    (⟨heap, background⟩ : HeapView).Fills
        ⟨{ heap with objects := heap.objects.set handle.slot object }, background⟩ ∧
      (⟨{ heap with objects := heap.objects.set handle.slot object }, background⟩ :
        HeapView).object handle = .ok object := by
  let filled : Heap := { heap with objects := heap.objects.set handle.slot object }
  have hheap : ∀ {storage found}, (⟨heap, background⟩ : HeapView).heap storage = .ok found →
      storage = heap.storage ∧ found = heap ∨
        storage ≠ heap.storage ∧ (⟨filled, background⟩ : HeapView).heap storage = .ok found := by
    intro storage found hfound
    by_cases hcurrent : storage = heap.storage
    · subst hcurrent
      rw [current_heap] at hfound
      exact .inl ⟨rfl, (Except.ok.inj hfound).symm⟩
    · have hother : (⟨filled, background⟩ : HeapView).heap storage = .ok found :=
        (@other_heap background heap filled rfl storage hcurrent).trans hfound
      exact .inr ⟨hcurrent, hother⟩
  have hcurrent : (⟨filled, background⟩ : HeapView).heap heap.storage = .ok filled :=
    current_heap filled background
  have hlt := (List.getElem?_eq_some_iff.mp hreserved).1
  refine ⟨⟨?_, ?_, ?_⟩, ?_⟩
  · intro other found hfound hfilled
    obtain ⟨owner, howner, hslot⟩ := HeapView.object_eq_ok.mp hfound
    rcases hheap howner with ⟨hsame, rfl⟩ | ⟨-, howner'⟩
    · refine HeapView.object_eq_ok.mpr ⟨filled, by rw [hsame, hcurrent], ?_⟩
      have hne : handle.slot ≠ other.slot := by
        intro heq
        rw [← heq, hreserved] at hslot
        exact hfilled (Option.some.inj hslot).symm
      rw [List.getElem?_set_ne hne]
      exact hslot
    · exact HeapView.object_eq_ok.mpr ⟨owner, howner', hslot⟩
  · intro id text htext
    obtain ⟨owner, howner, hslot⟩ := HeapView.text_eq_ok.mp htext
    rcases hheap howner with ⟨hsame, rfl⟩ | ⟨-, howner'⟩
    · exact HeapView.text_eq_ok.mpr ⟨filled, by rw [hsame, hcurrent], hslot⟩
    · exact HeapView.text_eq_ok.mpr ⟨owner, howner', hslot⟩
  · intro id fields hfields
    obtain ⟨owner, howner, hslot⟩ := HeapView.shape_eq_ok.mp hfields
    rcases hheap howner with ⟨hsame, rfl⟩ | ⟨-, howner'⟩
    · exact HeapView.shape_eq_ok.mpr ⟨filled, by rw [hsame, hcurrent], hslot⟩
    · exact HeapView.shape_eq_ok.mpr ⟨owner, howner', hslot⟩
  · refine HeapView.object_eq_ok.mpr ⟨filled, by rw [hstorage, hcurrent], ?_⟩
    exact List.getElem?_set_self hlt

/-- Opening a function reserves its slot and records its link. -/
theorem Imports.reserve (h : Imports background base all opened s) {f : FunctionRef} (hmem : f ∈ all)
    (hfresh : s.forwarded.lookup f.address = none) :
    Imports background base all (f :: opened)
        ⟨s.heap.reserve.2, (f.address, s.heap.reserve.1) :: s.forwarded⟩ ∧
      Advances s ⟨s.heap.reserve.2, (f.address, s.heap.reserve.1) :: s.forwarded⟩ := by
  obtain ⟨hgrows, -⟩ := allocate_spec s.heap background .reserved
  have hkept : ∀ {address handle}, s.forwarded.lookup address = some handle →
      List.lookup address ((f.address, s.heap.reserve.1) :: s.forwarded) = some handle := by
    intro address handle hlookup
    rw [lookup_cons_ne ?_, hlookup]
    rintro rfl
    rw [hfresh] at hlookup
    cases hlookup
  refine ⟨⟨h.backed.grows hgrows, ?_, ?_⟩, hgrows, hkept⟩
  · intro address handle hlookup
    by_cases haddress : address = f.address
    · exact ⟨f, hmem, haddress.symm, .inl List.mem_cons_self⟩
    · rw [lookup_cons_ne haddress] at hlookup
      obtain ⟨g, hg, hsame, hstatus⟩ := h.linked hlookup
      exact ⟨g, hg, hsame, hstatus.imp (List.mem_cons_of_mem _)
        (HeapView.DenotesFunction.fills (hgrows.extends background).fills)⟩
  · intro slot object hle hslot
    by_cases hnew : s.heap.objects.length ≤ slot
    · have hlt := (List.getElem?_eq_some_iff.mp hslot).1
      obtain rfl : slot = s.heap.objects.length := by
        simp only [Heap.reserve, Heap.allocate, List.length_append, List.length_singleton] at hlt
        omega
      obtain rfl : Object.reserved = object := by
        simpa [Heap.reserve, Heap.allocate] using hslot
      exact .inl ⟨rfl, f, List.mem_cons_self, lookup_cons_self⟩
    · obtain ⟨rest, hrest⟩ := hgrows.objects
      change (s.heap.allocate .reserved).2.objects[slot]? = some object at hslot
      rw [← hrest, List.getElem?_append_left (Nat.lt_of_not_le hnew)] at hslot
      refine (h.fresh hle hslot).imp ?_ fun hsettled =>
        hsettled.fills (hgrows.extends background).fills
      rintro ⟨rfl, g, hg, hlookup⟩
      exact ⟨rfl, g, List.mem_cons_of_mem _ hg, hkept hlookup⟩

/-- Closing a function fills its slot with a prototype that denotes it. -/
theorem Imported.close {f : FunctionRef} {handle : Handle} {object : Object}
    (hstart : Advances s s') (hhandle : handle = ⟨s.heap.storage, s.heap.objects.length⟩)
    (hopen : s'.heap.objects[handle.slot]? = some .reserved)
    (hlookup : s'.forwarded.lookup f.address = some handle)
    (h : Imported background base all (f :: opened) s' s'')
    (hsettled : (⟨s''.heap, background⟩ : HeapView).Settled object)
    (hdenotes : (⟨{ s''.heap with objects := s''.heap.objects.set handle.slot object },
      background⟩ : HeapView).DenotesFunction False handle f) :
    s''.heap.initializeSlot handle object =
        .ok { s''.heap with objects := s''.heap.objects.set handle.slot object } ∧
      Imported background base all opened s
        { s'' with heap := { s''.heap with objects := s''.heap.objects.set handle.slot object } } := by
  have hreserved := getElem?_of_isPrefix h.grows.objects hopen
  have hstorage : handle.storage = s''.heap.storage := by
    rw [h.grows.storage, hstart.grows.storage, hhandle]
  have hadvances := hstart.trans h.toAdvances
  have hfills := (@initializeSlot_fills s''.heap handle object hreserved hstorage background).1
  refine ⟨?_, ⟨fun main hmain => h.backed main hmain, ?_, ?_⟩, ⟨⟨hadvances.grows.storage, ?_,
    hadvances.grows.text, hadvances.grows.shapes⟩, hadvances.forwarded⟩⟩
  · rw [Heap.initializeSlot, Heap.object_eq_ok.mpr ⟨hstorage, hreserved⟩]
  · intro address linked hlinked
    obtain ⟨g, hg, haddress, hstatus⟩ := h.linked hlinked
    refine ⟨g, hg, haddress, ?_⟩
    rcases hstatus with hmem | hden
    · rcases List.mem_cons.mp hmem with rfl | hmem
      · -- the function that is closed here: its link is the slot just filled
        rw [← haddress] at hlinked
        obtain rfl := Option.some.inj ((h.forwarded hlookup).symm.trans hlinked)
        exact .inr hdenotes
      · exact .inl hmem
    · exact .inr (hden.fills hfills)
  · intro slot found hle hslot
    change (s''.heap.objects.set handle.slot object)[slot]? = some found at hslot
    by_cases hsame : handle.slot = slot
    · subst hsame
      rw [List.getElem?_set_self (List.getElem?_eq_some_iff.mp hreserved).1] at hslot
      exact .inr (Option.some.inj hslot ▸ hsettled.fills hfills)
    · rw [List.getElem?_set_ne hsame] at hslot
      refine (h.fresh hle hslot).imp ?_ fun hsettled => hsettled.fills hfills
      rintro ⟨rfl, g, hg, hlinked⟩
      rcases List.mem_cons.mp hg with rfl | hg
      · -- the slot held open for the function that is closed here is the filled one
        have := Option.some.inj ((h.forwarded hlookup).symm.trans hlinked)
        exact absurd (congrArg Handle.slot this) hsame
      · exact ⟨rfl, g, hg, hlinked⟩
  · obtain ⟨rest, hrest⟩ := hadvances.grows.objects
    have hslot : handle.slot = s.heap.objects.length := by rw [hhandle]
    change s.heap.objects <+: s''.heap.objects.set handle.slot object
    rw [← hrest, hslot, List.set_append_right _ _ (le_refl _)]
    exact List.prefix_append _ _

/-- What is imported of a value whose functions are all known. -/
structure Importable (all opened : List FunctionRef) (functions : List FunctionRef) (size : Nat) :
    Prop where
  known : functions ⊆ all
  below : ∀ f ∈ opened, size < sizeOf f

theorem Importable.mono {functions functions' : List FunctionRef} {size size' : Nat}
    (h : Importable all opened functions size) (hsub : functions' ⊆ functions)
    (hsize : size' ≤ size) : Importable all opened functions' size' :=
  ⟨fun _ hmem => h.known (hsub hmem), fun f hf => hsize.trans_lt (h.below f hf)⟩

variable {externals : String → Option RichValue}

mutual

/-- The import of a value returns a runtime value that denotes it. -/
theorem importValueWith_runs (hcoherent : Coherent all) (hclosed : ∀ f ∈ all, f.Closed)
    {opened : List FunctionRef} {s : Importing} (hs : Imports background base all opened s) :
    ∀ value : Value, Importable all opened value.functions (sizeOf value) →
      Runs (importValueWith background externals value) s
        (fun imported s' => Imported background base all opened s s' ∧
          (⟨s'.heap, background⟩ : HeapView).Denotes False imported.value value) fun _ => False
  | .int _, _ => .pure ⟨hs.imported, .int⟩
  | .float _, _ => .pure ⟨hs.imported, .float⟩
  | .string text, _ => by
      obtain ⟨happends, hdenotes⟩ := string_spec hs.backed text
      exact .bind (onHeap_runs hs happends fun himported => .pure ⟨himported, hdenotes⟩)
  | .bytes _, _ => .bind (allocate_runs hs .bytes fun _ _ himported hobject =>
      .pure ⟨himported, .bytes hobject⟩)
  | .nativeType _, _ => .bind (allocate_runs hs .nativeType fun _ _ himported hobject =>
      .pure ⟨himported, .nativeType hobject⟩)
  | .opaqueValue _, _ => .bind (allocate_runs hs .opaqueValue fun _ _ himported hobject =>
      .pure ⟨himported, .opaqueValue hobject⟩)
  | .atom atom, _ => .bind ((importAtom_runs hs atom).imp (fun _ _ h => .pure h) fun _ => id)
  | .tagged tag payload, hmeasure => by
      refine .bind ((importAtom_runs hs tag).imp ?_ fun _ => id)
      rintro tag' s₁ ⟨himported, htag⟩
      refine .bind ((importValueWith_runs hcoherent hclosed himported.toImports payload
        (hmeasure.mono (fun _ h => h) (by simp))).imp ?_ fun _ => id)
      rintro payload' s₂ ⟨himported', hpayload⟩
      have htag' := htag.fills himported'.fills
      refine .bind (allocate_runs himported'.toImports (htag'.settled_tagged hpayload)
        fun _ _ himported'' hobject => ?_)
      have hfills := himported''.fills
      exact .pure ⟨himported.trans (himported'.trans himported''),
        .tagged hobject (htag'.fills hfills) (hpayload.fills hfills)⟩
  | .array values, hmeasure => by
      refine .bind ((importValues_runs hcoherent hclosed hs values
        (hmeasure.mono (fun _ h => h) (by simp))).imp ?_ fun _ => id)
      rintro values' s₁ ⟨himported, hvalues⟩
      refine .bind (allocate_runs himported.toImports hvalues.settled_array
        fun _ _ himported' hobject => .pure ⟨himported.trans himported', .array hobject ?_⟩)
      exact hvalues.fills himported'.fills
  | .tuple values, hmeasure => by
      refine .bind ((importValues_runs hcoherent hclosed hs values
        (hmeasure.mono (fun _ h => h) (by simp))).imp ?_ fun _ => id)
      rintro values' s₁ ⟨himported, hvalues⟩
      refine .bind (allocate_runs himported.toImports hvalues.settled_tuple
        fun _ _ himported' hobject => .pure ⟨himported.trans himported', .tuple hobject ?_⟩)
      exact hvalues.fills himported'.fills
  | .dict fields values, hmeasure => by
      refine .bind ((internTexts_runs hs fields).imp ?_ fun _ => id)
      rintro ids s₁ ⟨himported, hids⟩
      obtain ⟨happends, hshape⟩ := internShape_spec s₁.heap background ids
      refine .bind (onHeap_runs himported.toImports happends fun himported₁ => ?_)
      refine .bind ((importValues_runs hcoherent hclosed himported₁.toImports values
        (hmeasure.mono (fun _ h => h) (by simp))).imp ?_ fun _ => id)
      rintro values' s₂ ⟨himported₂, hvalues⟩
      have hshape₂ := himported₂.fills.shapes hshape
      have hids₂ := (himported₁.trans himported₂).fills.mapM_text hids
      refine .bind (allocate_runs himported₂.toImports (hvalues.settled_dict hshape₂ hids₂)
        fun _ _ himported₃ hobject => ?_)
      have hfills := himported₃.fills
      exact .pure ⟨himported.trans (himported₁.trans (himported₂.trans himported₃)),
        .dict hobject (bind_eq_ok.mpr ⟨ids, hfills.shapes hshape₂, hfills.mapM_text hids₂⟩)
          (hvalues.fills hfills)⟩
  | .func identity prototype upvalues, hmeasure => by
      refine .bind ((importPrototype_runs hcoherent hclosed hs prototype
        (hmeasure.mono (List.subset_append_left _ _) (by simp; omega))).imp ?_ fun _ => id)
      rintro prototype' s₁ ⟨himported, hprototype⟩
      refine .bind ((importValues_runs hcoherent hclosed himported.toImports upvalues
        (hmeasure.mono (List.subset_append_right _ _) (by simp))).imp ?_ fun _ => id)
      rintro upvalues' s₂ ⟨himported', hupvalues⟩
      have hprototype' := hprototype.fills himported'.fills
      refine .bind (allocate_runs himported'.toImports (hupvalues.settled_closure hprototype')
        fun _ _ himported'' hobject => ?_)
      have hfills := himported''.fills
      exact .pure ⟨himported.trans (himported'.trans himported''),
        .func hobject (hprototype'.fills hfills) (hupvalues.fills hfills)⟩
  | .dyn identity descriptor value scheme origin, hmeasure => by
      refine .bind ((importValueWith_runs hcoherent hclosed hs descriptor
        (hmeasure.mono (List.subset_append_left _ _) (by simp; omega))).imp ?_ fun _ => id)
      rintro descriptor' s₁ ⟨himported, hdescriptor⟩
      refine .bind ((importValueWith_runs hcoherent hclosed himported.toImports value
        (hmeasure.mono (List.subset_append_right _ _) (by simp; omega))).imp ?_ fun _ => id)
      rintro value' s₂ ⟨himported', hvalue⟩
      have hdescriptor' := hdescriptor.fills himported'.fills
      refine .bind (allocate_runs himported'.toImports (hdescriptor'.settled_dyn hvalue)
        fun _ _ himported'' hobject => ?_)
      have hfills := himported''.fills
      exact .pure ⟨himported.trans (himported'.trans himported''),
        .dyn hobject (hdescriptor'.fills hfills) (hvalue.fills hfills)⟩

theorem importValues_runs (hcoherent : Coherent all) (hclosed : ∀ f ∈ all, f.Closed)
    {opened : List FunctionRef} {s : Importing} (hs : Imports background base all opened s) :
    ∀ values : List Value, Importable all opened (valuesFunctions values) (sizeOf values) →
      Runs (importValues background externals values) s
        (fun imported s' => Imported background base all opened s s' ∧
          (⟨s'.heap, background⟩ : HeapView).DenotesAll False imported values) fun _ => False
  | [], _ => .pure ⟨hs.imported, .nil⟩
  | value :: rest, hmeasure => by
      refine .bind ((importValueWith_runs hcoherent hclosed hs value
        (hmeasure.mono (List.subset_append_left _ _) (by simp; omega))).imp ?_ fun _ => id)
      rintro value' s₁ ⟨himported, hvalue⟩
      refine .bind ((importValues_runs hcoherent hclosed himported.toImports rest
        (hmeasure.mono (List.subset_append_right _ _) (by simp))).imp ?_ fun _ => id)
      rintro rest' s₂ ⟨himported', hrest⟩
      exact .pure ⟨himported.trans himported',
        .cons (hvalue.fills himported'.fills) hrest⟩

theorem importPrototype_runs (hcoherent : Coherent all) (hclosed : ∀ f ∈ all, f.Closed)
    {opened : List FunctionRef} {s : Importing} (hs : Imports background base all opened s) :
    ∀ prototype : Prototype, Importable all opened prototype.functions (sizeOf prototype) →
      Runs (importPrototype background externals prototype) s
        (fun imported s' => Imported background base all opened s s' ∧
          (⟨s'.heap, background⟩ : HeapView).DenotesPrototype False imported prototype) fun _ => False
  | .native _, _ => .pure ⟨hs.imported, .native⟩
  | .bytecode function, hmeasure => by
      refine .bind ((linkBytecodeWith_runs hcoherent hclosed hs function
        (hmeasure.mono (fun _ h => h) (by simp))).imp ?_ fun _ => id)
      rintro handle s₁ ⟨himported, hfunction⟩
      exact .pure ⟨himported, .bytecode hfunction⟩

/-- Linking a function returns a handle whose prototype denotes it. -/
theorem linkBytecodeWith_runs (hcoherent : Coherent all) (hclosed : ∀ f ∈ all, f.Closed)
    {opened : List FunctionRef} {s : Importing} (hs : Imports background base all opened s) :
    ∀ function : FunctionRef, Importable all opened function.functions (sizeOf function) →
      Runs (linkBytecodeWith background externals function) s
        (fun handle s' => Imported background base all opened s s' ∧
          (⟨s'.heap, background⟩ : HeapView).DenotesFunction False handle function) fun _ => False
  | .mk address (.mk code values keys text prototypes), hmeasure => by
      let function : FunctionRef := .mk address (.mk code values keys text prototypes)
      have hmem : function ∈ all := hmeasure.known List.mem_cons_self
      refine .bind (.get ?_)
      cases hlookup : s.forwarded.lookup address with
      | some handle =>
          obtain ⟨g, hg, haddress, hstatus⟩ := hs.linked hlookup
          obtain rfl : g = function := hcoherent g hg function hmem haddress
          -- an open function is larger than every function below it
          exact .pure ⟨hs.imported, hstatus.resolve_left fun hopen =>
            absurd (hmeasure.below _ hopen) (lt_irrefl _)⟩
      | none =>
          obtain ⟨hopened, hstart⟩ := hs.reserve hmem hlookup
          have hbelow : Importable all (function :: opened)
              (valuesFunctions values ++ prototypesFunctions prototypes)
              (max (sizeOf values) (sizeOf prototypes)) := by
            have hsize : max (sizeOf values) (sizeOf prototypes) < sizeOf function := by
              simp [function]
              omega
            refine ⟨fun g hg => hmeasure.known (List.mem_cons_of_mem _ hg), fun g hg => ?_⟩
            rcases List.mem_cons.mp hg with rfl | hg
            · exact hsize
            · exact hsize.trans (hmeasure.below g hg)
          refine .bind (.bind (.update ?_))
          refine .bind ((linkValues_runs hcoherent hclosed hopened values keys
            (hclosed function hmem) (hbelow.mono (List.subset_append_left _ _)
              (le_max_left _ _))).imp ?_ fun _ => id)
          rintro values' s₁ ⟨himported₁, hvalues⟩
          refine .bind ((internTexts_runs himported₁.toImports text).imp ?_ fun _ => id)
          rintro ids s₂ ⟨himported₂, hids⟩
          refine .bind ((linkPrototypes_runs hcoherent hclosed himported₂.toImports prototypes
            (hbelow.mono (List.subset_append_right _ _) (le_max_right _ _))).imp ?_ fun _ => id)
          rintro prototypes' s₃ ⟨himported₃, hprototypes⟩
          have hall := himported₁.trans (himported₂.trans himported₃)
          have hopen : (s.heap.reserve).2.objects[s.heap.objects.length]? = some .reserved := by
            simp [Heap.reserve, Heap.allocate]
          have hreserved := getElem?_of_isPrefix hall.grows.objects hopen
          have hstorage : s₃.heap.storage = s.heap.storage := hall.grows.storage
          obtain ⟨hfills, hobject⟩ := @initializeSlot_fills s₃.heap s.heap.reserve.1
            (.byteCodeProto code values' ids prototypes') hreserved hstorage.symm background
          have hvalues' := hvalues.fills (himported₂.trans himported₃).fills
          have hids' := himported₃.fills.mapM_text hids
          have hdenotes := @HeapView.DenotesFunction.mk _ _ _ address _ _ _ _ _ keys _ _ hobject
            (hvalues'.fills hfills) (hfills.mapM_text hids') (hprototypes.fills hfills)
          obtain ⟨hfilled, hclose⟩ :=
            hall.close hstart rfl hopen lookup_cons_self
              (hvalues'.settled_byteCodeProto hids' hprototypes) hdenotes
          refine .bind (.get (.bind (.lift (fun heap hheap => ?_) fun e he => ?_)))
          · obtain rfl := Except.ok.inj (hfilled.symm.trans hheap)
            exact .bind (.update (.pure ⟨hclose, hdenotes⟩))
          · cases hfilled.symm.trans he

/-- The links of a closed function are imported. -/
theorem linkValues_runs (hcoherent : Coherent all) (hclosed : ∀ f ∈ all, f.Closed)
    {opened : List FunctionRef} {s : Importing} (hs : Imports background base all opened s) :
    ∀ (values : List Value) (keys : List (Option String)), (∀ key ∈ keys, key = none) →
      Importable all opened (valuesFunctions values) (sizeOf values) →
      Runs (linkValues background externals values keys) s
        (fun imported s' => Imported background base all opened s s' ∧
          (⟨s'.heap, background⟩ : HeapView).DenotesAll False imported values) fun _ => False
  | [], _, _, _ => .pure ⟨hs.imported, .nil⟩
  | value :: rest, keys, hkeys, hmeasure => by
      have hkey : keys.head?.join = none := by
        cases keys with
        | nil => rfl
        | cons key keys => exact hkeys key List.mem_cons_self
      have hvalue := importValueWith_runs hcoherent hclosed hs value
        (hmeasure.mono (List.subset_append_left _ _) (by simp; omega))
      rw [linkValues, hkey]
      refine .bind (hvalue.imp ?_ fun _ => id)
      rintro value' s₁ ⟨himported, hvalue⟩
      refine .bind ((linkValues_runs hcoherent hclosed himported.toImports rest keys.tail
        (fun key hmem => hkeys key (List.mem_of_mem_tail hmem))
        (hmeasure.mono (List.subset_append_right _ _) (by simp))).imp ?_ fun _ => id)
      rintro rest' s₂ ⟨himported', hrest⟩
      exact .pure ⟨himported.trans himported',
        .cons (hvalue.fills himported'.fills) hrest⟩

theorem linkPrototypes_runs (hcoherent : Coherent all) (hclosed : ∀ f ∈ all, f.Closed)
    {opened : List FunctionRef} {s : Importing} (hs : Imports background base all opened s) :
    ∀ functions : List FunctionRef,
      Importable all opened (prototypesFunctions functions) (sizeOf functions) →
      Runs (linkPrototypes background externals functions) s
        (fun imported s' => Imported background base all opened s s' ∧
          (⟨s'.heap, background⟩ : HeapView).DenotesFunctions False imported functions) fun _ => False
  | [], _ => .pure ⟨hs.imported, .nil⟩
  | function :: rest, hmeasure => by
      refine .bind ((linkBytecodeWith_runs hcoherent hclosed hs function
        (hmeasure.mono (List.subset_append_left _ _) (by simp; omega))).imp ?_ fun _ => id)
      rintro handle s₁ ⟨himported, hfunction⟩
      refine .bind ((linkPrototypes_runs hcoherent hclosed himported.toImports rest
        (hmeasure.mono (List.subset_append_right _ _) (by simp))).imp ?_ fun _ => id)
      rintro rest' s₂ ⟨himported', hrest⟩
      exact .pure ⟨himported.trans himported',
        .cons (hfunction.fills himported'.fills) hrest⟩

end

end Importing

end Telora
