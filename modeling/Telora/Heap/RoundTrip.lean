import Telora.Heap.Import

/-!
# Import undoes export

Importing a public value always succeeds, and exporting what was imported returns the
same value. An export fails exactly where the graph is cyclic or has an unfilled slot.

A main heap only grows. What was published stays what it was through every later
publication, for the graphs below it and for the values it is exported to.
-/

namespace Telora

open Library Bytecode

section Heaps

variable {background : Option Heap} {heap heap' : Heap}

/-- A well-kinded and initialized view stays so when its heap is appended to. -/
theorem Heap.Appends.wellKinded (h : heap.Appends background heap')
    (hkinded : (⟨heap, background⟩ : HeapView).WellKinded)
    (hinit : (⟨heap, background⟩ : HeapView).Initialized) :
    (⟨heap', background⟩ : HeapView).WellKinded ∧
      (⟨heap', background⟩ : HeapView).Initialized := by
  have hcases : ∀ {handle object}, (⟨heap', background⟩ : HeapView).object handle = .ok object →
      (⟨heap, background⟩ : HeapView).object handle = .ok object ∨
        (⟨heap', background⟩ : HeapView).Settled object := by
    intro handle object hobject
    obtain ⟨owner, howner, hslot⟩ := HeapView.object_eq_ok.mp hobject
    by_cases hcurrent : handle.storage = heap.storage
    · rw [hcurrent, ← h.storage, current_heap] at howner
      obtain rfl := Except.ok.inj howner
      by_cases hnew : heap.objects.length ≤ handle.slot
      · exact .inr (h.settled hnew hslot)
      · refine .inl (HeapView.object_eq_ok.mpr ⟨heap, by rw [hcurrent, current_heap], ?_⟩)
        obtain ⟨rest, hrest⟩ := h.objects
        rwa [← hrest, List.getElem?_append_left (Nat.lt_of_not_le hnew)] at hslot
    · rw [other_heap h.storage hcurrent] at howner
      exact .inl (HeapView.object_eq_ok.mpr ⟨owner, howner, hslot⟩)
  constructor
  · intro handle object hobject
    rcases hcases hobject with hold | hsettled
    · exact (h.toGrows.extends background).objectKinded (hkinded hold)
    · exact hsettled.kinded
  · intro handle hreserved
    rcases hcases hreserved with hold | hsettled
    · exact hinit handle hold
    · exact hsettled.ready rfl

/-- A value whose functions are held at addresses of their own and have no external
links is imported by appending to the heap. -/
theorem importValue_spec (hbacked : Backed background heap) {value : Value}
    (hcoherent : Coherent value.functions) (hclosed : ∀ f ∈ value.functions, f.Closed) :
    ∃ imported heap', importValue background heap value = .ok (imported, heap') ∧
      heap.Appends background heap' ∧
      (⟨heap', background⟩ : HeapView).Denotes False imported.value value := by
  have hstart : Imports background heap.objects.length value.functions [] ⟨heap, []⟩ := by
    refine ⟨hbacked, ?_, ?_⟩
    · intro address handle hlookup
      cases hlookup
    · intro slot object hle hslot
      rw [List.getElem?_eq_none hle] at hslot
      cases hslot
  have hruns := @importValueWith_runs _ _ _ (fun _ => none) hcoherent hclosed [] _ hstart value
    ⟨fun _ h => h, fun _ h => absurd h List.not_mem_nil⟩
  cases hrun : (importValueWith background (fun _ => none) value).run ⟨heap, []⟩ with
  | error e => exact (hruns.of_error hrun).elim
  | ok result =>
      obtain ⟨himported, hdenotes⟩ := hruns.of_ok hrun
      refine ⟨result.1, result.2.heap, by rw [importValue, hrun]; rfl, ⟨himported.grows, ?_⟩,
        hdenotes⟩
      intro slot object hle hslot
      refine (himported.fresh hle hslot).resolve_left ?_
      rintro ⟨-, f, hmem, -⟩
      exact absurd hmem List.not_mem_nil

end Heaps

namespace HeapView

variable {view : HeapView}

/-- A value with a denotation is exported to the same value. -/
theorem exportValue_of_denotes {links : Prop} {rich : RichValue} {value : Value}
    (h : view.Denotes links rich.value value) (next : Nat) :
    ∃ value' next', (view.exportValue rich).run next = .ok (value', next') ∧ value'.Same value := by
  have hstart : view.Descending (view.handleCount + 1) [] rich.value.refs :=
    ⟨⟨List.nodup_nil, List.nil_subset _, by rw [length_handles]; exact Nat.lt_succ_self _⟩,
      fun _ hmem => absurd hmem List.not_mem_nil⟩
  have hruns := h.exports (n := next) hstart
  cases hrun : (view.exportValue rich).run next with
  | error e => exact (hruns.of_error hrun).elim
  | ok result => exact ⟨result.1, result.2, rfl, hruns.of_ok hrun⟩

/-- Two values that a runtime value denotes are the same. -/
theorem Denotes.same {links : Prop} {value : RuntimeValue} {left right : Value}
    (h : view.Denotes links value left) (h' : view.Denotes links value right) :
    left.Same right := by
  have hrich : ∀ {w}, view.Denotes links value w →
      view.Denotes links (RichValue.unknown value).value w := id
  obtain ⟨exported, next, hexport, hsame⟩ := exportValue_of_denotes (hrich h) 0
  obtain ⟨exported', next', hexport', hsame'⟩ := exportValue_of_denotes (hrich h') 0
  obtain ⟨rfl, -⟩ := Prod.mk.inj (Except.ok.inj (hexport.symm.trans hexport'))
  exact hsame.symm.trans hsame'

/-- An export that succeeds returns what the value denotes, in functions that can be
imported again. -/
theorem denotes_of_exportValue {rich : RichValue} {value : Value} {next next' : Nat}
    (h : (view.exportValue rich).run next = .ok (value, next')) :
    view.Denotes True rich.value value ∧ Coherent value.functions ∧
      ∀ f ∈ value.functions, f.Closed := by
  obtain ⟨hdenotes, halloc⟩ := ((export_sound view _).1 [] rich.value next).of_ok h
  exact ⟨hdenotes, halloc.coherent, halloc.closed⟩

/-- An export fails exactly on a cyclic or an unfilled graph. -/
theorem exportValue_error_iff (hkinded : view.WellKinded) {rich : RichValue}
    (hvalue : view.ValueKinded rich.value) (next : Nat) :
    (∃ e, (view.exportValue rich).run next = .error e) ↔
      view.Cyclic rich.value.refs ∨ view.Unfilled rich.value.refs := by
  have hiff := exists_denotes_iff hkinded hvalue
  constructor
  · rintro ⟨e, he⟩
    by_contra hnone
    obtain ⟨w, hw⟩ := hiff.mpr (not_or.mp hnone)
    obtain ⟨_, _, hok, -⟩ := exportValue_of_denotes hw next
    cases he.symm.trans hok
  · intro hbad
    cases hrun : (view.exportValue rich).run next with
    | error e => exact ⟨e, rfl⟩
    | ok result =>
        have hgood := hiff.mp ⟨_, (denotes_of_exportValue hrun).1⟩
        exact absurd hbad (not_or.mpr hgood)

end HeapView

/-- Import undoes export: every closed public value is imported into every heap over its
background, and exporting what was imported returns the same value; an export fails
exactly on a graph that is cyclic or has an unfilled slot. -/
theorem import_undoes_export :
    (∀ (background : Option Heap) (heap : Heap) (value : Value), Backed background heap →
      Coherent value.functions → (∀ f ∈ value.functions, f.Closed) →
      ∃ imported heap', importValue background heap value = .ok (imported, heap') ∧
        ∀ next, ∃ value' next',
          ((⟨heap', background⟩ : HeapView).exportValue imported).run next =
            .ok (value', next') ∧ value'.Same value) ∧
    ∀ (view : HeapView) (rich : RichValue) (next : Nat), view.WellKinded →
      view.ValueKinded rich.value →
      ((∃ e, (view.exportValue rich).run next = .error e) ↔
        view.Cyclic rich.value.refs ∨ view.Unfilled rich.value.refs) := by
  constructor
  · intro background heap value hbacked hcoherent hclosed
    obtain ⟨imported, heap', himport, -, hdenotes⟩ := importValue_spec hbacked hcoherent hclosed
    exact ⟨imported, heap', himport, HeapView.exportValue_of_denotes hdenotes⟩
  · exact fun view rich next hkinded hvalue => HeapView.exportValue_error_iff hkinded hvalue next

/-- A function that two closures share. -/
def sharedFunction : FunctionRef := .mk 1 (.mk ⟨"shared", 0, 0, 1, [], []⟩ [.int 3] [none] ["name"] [])

/-- Two closures over one function, next to a dict of atoms. -/
def sharedValue : Value :=
  .tuple [.func 0 (.bytecode sharedFunction) [], .func 1 (.bytecode sharedFunction) [],
    .dict ["absent", "present"] [.atom (.named "None"), .atom (.named "Here")]]

theorem sharedValue_functions {f : FunctionRef} (h : f ∈ sharedValue.functions) :
    f = sharedFunction := by
  simpa [sharedValue, sharedFunction, Value.functions, valuesFunctions, Prototype.functions,
    FunctionRef.functions, prototypesFunctions] using h

theorem import_undoes_export_shared :
    (∃ imported heap', importValue none .work sharedValue = .ok (imported, heap') ∧
      ∀ next, ∃ value' next', ((⟨heap', none⟩ : HeapView).exportValue imported).run next =
        .ok (value', next') ∧ value'.Same sharedValue) ∧
    ∃ e, ((world .main cycleHeap).exportValue (.unknown (.array ⟨.work, 0⟩))).run 0 = .error e := by
  constructor
  · refine import_undoes_export.1 none .work sharedValue (fun _ h => nomatch h) ?_ ?_
    · intro f hf g hg _
      rw [sharedValue_functions hf, sharedValue_functions hg]
    · intro f hf key hkey
      rw [sharedValue_functions hf] at hkey
      exact List.mem_singleton.mp hkey
  · have hobject : (world .main cycleHeap).object ⟨.work, 0⟩ =
        .ok (.array [.unknown (.array ⟨.work, 0⟩), .unknown (.array ⟨.work, 0⟩)]) := rfl
    have hkind : (world .main cycleHeap).HasKind ⟨.work, 0⟩ .array := ⟨_, hobject, .inr rfl⟩
    refine (import_undoes_export.2 (world .main cycleHeap) (.unknown (.array ⟨.work, 0⟩)) 0 ?_
      hkind).mpr (.inl ⟨⟨.work, 0⟩, .root List.mem_cons_self, .single ⟨_, hobject, ?_⟩⟩)
    · intro handle object h
      rw [cycleHeap_object h]
      intro value hmem
      have : value = .unknown (.array ⟨.work, 0⟩) := by simpa using hmem
      rw [this]
      exact hkind
    · exact List.mem_cons_self

namespace HeapView

variable {view view' : HeapView}

/-- Below the references of a closed view, a larger view reaches nothing else. -/
theorem Extends.reaches_iff (h : view.Extends view') (hclosed : view.Closed) {refs : List Ref}
    (hrefs : ∀ ref ∈ refs, view.Has ref) (handle : Handle) :
    view'.Reaches refs handle ↔ view.Reaches refs handle := by
  constructor
  · rintro ⟨start, hstart, hpath⟩
    induction hpath with
    | refl => exact .root hstart
    | tail _ hedge ih =>
        obtain ⟨object, hobject, hnext⟩ := hedge
        obtain ⟨old, hold⟩ := ih.has hclosed.objects hrefs
        obtain rfl := Except.ok.inj ((h.objects hold).symm.trans hobject)
        exact ih.step ⟨old, hold, hnext⟩
  · rintro ⟨start, hstart, hpath⟩
    refine ⟨start, hstart, Relation.ReflTransGen.mono (fun _ _ hedge => ?_) _ _ hpath⟩
    exact hedge.imp fun _ hobject => ⟨h.objects hobject.1, hobject.2⟩

end HeapView

section Publications

variable {target later : Heap}

/-- A main heap that another one extends resolves nothing that the other does not. -/
theorem extends_of_isPrefix (hself : target.SelfContained) (hlater : later.SelfContained)
    (hobjects : target.objects <+: later.objects)
    (htexts : target.text.values <+: later.text.values)
    (hshapes : target.shapes.values <+: later.shapes.values) :
    (⟨target, none⟩ : HeapView).Extends ⟨later, none⟩ := by
  have hheap : ∀ {storage heap}, (⟨target, none⟩ : HeapView).heap storage = .ok heap →
      heap = target ∧ (⟨later, none⟩ : HeapView).heap storage = .ok later := by
    intro storage heap h
    obtain ⟨hmain, heq⟩ := (PendingCopy.selfContained_heap hself).mp h
    exact ⟨heq, (PendingCopy.selfContained_heap hlater).mpr ⟨hmain, rfl⟩⟩
  constructor
  · intro handle object hobject
    obtain ⟨heap, h, hslot⟩ := HeapView.object_eq_ok.mp hobject
    obtain ⟨rfl, hnow⟩ := hheap h
    exact HeapView.object_eq_ok.mpr ⟨later, hnow, getElem?_of_isPrefix hobjects hslot⟩
  · intro id text htext
    obtain ⟨heap, h, hslot⟩ := HeapView.text_eq_ok.mp htext
    obtain ⟨rfl, hnow⟩ := hheap h
    exact HeapView.text_eq_ok.mpr ⟨later, hnow, getElem?_of_isPrefix htexts hslot⟩
  · intro id fields hfields
    obtain ⟨heap, h, hslot⟩ := HeapView.shape_eq_ok.mp hfields
    obtain ⟨rfl, hnow⟩ := hheap h
    exact HeapView.shape_eq_ok.mpr ⟨later, hnow, getElem?_of_isPrefix hshapes hslot⟩

/-- A run of publications only extends the main heap, and leaves it standing alone. -/
theorem publications_extend (hself : target.SelfContained)
    (h : Relation.ReflTransGen Publishes target later) :
    later.SelfContained ∧ (⟨target, none⟩ : HeapView).Extends ⟨later, none⟩ := by
  induction h with
  | refl => exact ⟨hself, ⟨id, id, id⟩⟩
  | tail _ hstep ih =>
      obtain ⟨hmiddle, hext⟩ := ih
      obtain ⟨hlater, hobjects, htexts, hshapes⟩ := hstep.published hmiddle
      have hext' := extends_of_isPrefix hmiddle hlater hobjects htexts hshapes
      exact ⟨hlater, fun h => hext'.objects (hext.objects h), fun h => hext'.texts (hext.texts h),
        fun h => hext'.shapes (hext.shapes h)⟩

/-- What was published stays: in every run of publications the main heap stands alone,
and below references that resolved at some point later publications change no object,
add none, and leave what a value is exported to. -/
theorem publications_preserve (hbuilt : Relation.ReflTransGen Publishes .main target)
    (hlater : Relation.ReflTransGen Publishes target later) :
    later.SelfContained ∧
    (∀ refs : List Ref, (∀ ref ∈ refs, (⟨target, none⟩ : HeapView).Has ref) → ∀ handle,
      ((⟨later, none⟩ : HeapView).Reaches refs handle ↔
        (⟨target, none⟩ : HeapView).Reaches refs handle) ∧
      ((⟨later, none⟩ : HeapView).Reaches refs handle →
        (⟨later, none⟩ : HeapView).object handle = (⟨target, none⟩ : HeapView).object handle)) ∧
    ∀ (rich : RichValue) (value : Value) (next next' : Nat),
      ((⟨target, none⟩ : HeapView).exportValue rich).run next = .ok (value, next') →
      ∀ start, ∃ value' next'',
        ((⟨later, none⟩ : HeapView).exportValue rich).run start = .ok (value', next'') ∧
          value'.Same value := by
  have hself := (publications_extend selfContained_main hbuilt).1
  obtain ⟨hlaterSelf, hext⟩ := publications_extend hself hlater
  refine ⟨hlaterSelf, fun refs hrefs handle => ?_, fun rich value next next' hexport start => ?_⟩
  · have hiff := hext.reaches_iff hself.closed hrefs handle
    refine ⟨hiff, fun hreach => ?_⟩
    obtain ⟨object, hobject⟩ := (hiff.mp hreach).has hself.closed.objects hrefs
    rw [hobject, hext.objects hobject]
  · have hdenotes := (HeapView.denotes_of_exportValue hexport).1
    exact HeapView.exportValue_of_denotes (HeapView.Denotes.fills hext.fills hdenotes) start

/-- A work heap with a string. -/
def noteHeap : Heap := { Heap.work with objects := [.string "note"] }

/-- Main heaps into which the string was published once and twice. -/
def notedHeap : Heap := { Heap.main with objects := [.string "note"] }
def twiceNotedHeap : Heap := { Heap.main with objects := [.string "note", .string "note"] }

theorem noteHeap_publishes {target target' : Heap} {root' : RichValue}
    (htarget : target.storage = .main)
    (hobjects : ∀ object ∈ target.objects, object = .string "note")
    (hshapes : target.shapes.values = [])
    (h : publishRoot target noteHeap (.unknown (.string ⟨.work, 0⟩)) = .ok (root', target')) :
    Publishes target target' := by
  have hheap : ∀ {storage heap}, (world target noteHeap).heap storage = .ok heap →
      heap = noteHeap ∨ heap = target := by
    intro storage heap h
    cases storage with
    | work => exact .inl (Except.ok.inj h).symm
    | main => exact .inr (Except.ok.inj ((world_main htarget rfl).symm.trans h)).symm
  have hnotes : ∀ {handle object}, (world target noteHeap).object handle = .ok object →
      object = .string "note" := by
    intro handle object hobject
    obtain ⟨heap, h, hslot⟩ := HeapView.object_eq_ok.mp hobject
    have hmem := List.mem_of_getElem? hslot
    rcases hheap h with rfl | rfl
    · exact List.mem_singleton.mp hmem
    · exact hobjects object hmem
  refine ⟨noteHeap, _, root', rfl, ⟨fun hobject ref href => ?_, fun hfields => ?_⟩, ?_, ?_, h⟩
  · rw [hnotes hobject] at href
    cases href
  · obtain ⟨heap, h, hslot⟩ := HeapView.shape_eq_ok.mp hfields
    rcases hheap h with rfl | rfl
    · cases hslot
    · rw [InternTable.resolve, hshapes] at hslot
      cases hslot
  · intro ref href
    obtain rfl := List.mem_singleton.mp href
    exact ⟨_, rfl⟩
  · intro handle _ hreserved
    cases hnotes hreserved

/-- A published string stays what it was when it is published again. -/
theorem publications_preserve_note :
    ((⟨notedHeap, none⟩ : HeapView).exportValue (.unknown (.string ⟨.main, 0⟩))).run 0 =
      .ok (.string "note", 0) ∧
    twiceNotedHeap.SelfContained ∧ ∃ value next,
      ((⟨twiceNotedHeap, none⟩ : HeapView).exportValue (.unknown (.string ⟨.main, 0⟩))).run 0 =
        .ok (value, next) ∧ value.Same (.string "note") := by
  have hexport : ((⟨notedHeap, none⟩ : HeapView).exportValue
      (.unknown (.string ⟨.main, 0⟩))).run 0 = .ok (.string "note", 0) := rfl
  have hfirst : Publishes .main notedHeap :=
    @noteHeap_publishes _ _ (.unknown (.string ⟨.main, 0⟩)) rfl
      (fun _ h => absurd h List.not_mem_nil) rfl rfl
  have hsecond : Publishes notedHeap twiceNotedHeap :=
    @noteHeap_publishes _ _ (.unknown (.string ⟨.main, 1⟩)) rfl
      (fun _ h => List.mem_singleton.mp h) rfl rfl
  obtain ⟨hself, -, hexports⟩ := publications_preserve (.single hfirst) (.single hsecond)
  exact ⟨hexport, hself, hexports _ _ _ _ hexport 0⟩

end Publications

end Telora
