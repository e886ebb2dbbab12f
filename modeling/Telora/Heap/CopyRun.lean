import Telora.Heap.CopyInvariant

/-!
# Runs of a copy

Every operation of a copy keeps the invariant, grows the pending tables and
returns the place its argument goes to. It fails only below an up-link that was
never initialized.
-/

namespace Telora.PendingCopy

open Library

section World

variable {target work : Heap}

theorem world_heap_main (h : Publishable target work) :
    (world target work).heap .main = .ok target := by
  have hmain := h.target_selfContained.storage
  simp [world, HeapView.heap, h.work_storage, Option.filter, hmain]

theorem world_heap_work (h : Publishable target work) {background : Option Heap} :
    (⟨work, background⟩ : HeapView).heap .work = .ok work := by
  simp [HeapView.heap, h.work_storage]

theorem world_text_main (h : Publishable target work) {id : InternId} {text : String}
    (hid : id.storage = .main) :
    (world target work).text id = .ok text ↔ target.text.resolve id.slot = some text := by
  rw [HeapView.text_eq_ok, hid, world_heap_main h]
  simp

theorem world_shape_main (h : Publishable target work) {id : ShapeId} {fields : List InternId}
    (hid : id.storage = .main) :
    (world target work).shape id = .ok fields ↔ target.shapes.resolve id.slot = some fields := by
  rw [HeapView.shape_eq_ok, hid, world_heap_main h]
  simp

theorem world_object_main (h : Publishable target work) {handle : Handle} {object : Object}
    (hhandle : handle.storage = .main) :
    (world target work).object handle = .ok object ↔
      target.objects[handle.slot]? = some object := by
  rw [HeapView.object_eq_ok, hhandle, world_heap_main h]
  simp

theorem world_object_work (h : Publishable target work) {handle : Handle} {object : Object}
    (hhandle : handle.storage = .work) {background : Option Heap} :
    (⟨work, background⟩ : HeapView).object handle = .ok object ↔
      work.object handle = .ok object := by
  rw [HeapView.object_eq_ok, hhandle, world_heap_work h, Heap.object_eq_ok]
  simp [hhandle, h.work_storage]

theorem world_text_work (h : Publishable target work) {id : InternId} {text : String}
    (hid : id.storage = .work) {background : Option Heap} :
    (⟨work, background⟩ : HeapView).text id = .ok text ↔ work.resolveText id = .ok text := by
  rw [HeapView.text_eq_ok, hid, world_heap_work h, Heap.resolveText_eq_ok]
  simp [hid, h.work_storage]

theorem world_shape_work (h : Publishable target work) {id : ShapeId} {fields : List InternId}
    (hid : id.storage = .work) {background : Option Heap} :
    (⟨work, background⟩ : HeapView).shape id = .ok fields ↔ work.shape id = .ok fields := by
  rw [HeapView.shape_eq_ok, hid, world_heap_work h, Heap.shape_eq_ok]
  simp [hid, h.work_storage]

/-- The view of a heap that stands alone resolves main references only. -/
theorem selfContained_heap (h : target.SelfContained) {storage : Storage} {heap : Heap} :
    (⟨target, none⟩ : HeapView).heap storage = .ok heap ↔ storage = .main ∧ heap = target := by
  cases storage <;> simp [HeapView.heap, h.storage, eq_comm]

theorem selfContained_text (h : target.SelfContained) {id : InternId}
    (hhas : (⟨target, none⟩ : HeapView).Has (.text id)) :
    id.storage = .main ∧ ∃ text, target.text.resolve id.slot = some text := by
  obtain ⟨text, htext⟩ := hhas
  obtain ⟨_, hheap, hresolve⟩ := HeapView.text_eq_ok.mp htext
  obtain ⟨hmain, rfl⟩ := (selfContained_heap h).mp hheap
  exact ⟨hmain, text, hresolve⟩

theorem selfContained_shape (h : target.SelfContained) {id : ShapeId} (hid : id.storage = .main)
    {fields : List InternId} (hfields : target.shapes.resolve id.slot = some fields) :
    ∀ field ∈ fields, field.storage = .main ∧
      ∃ text, target.text.resolve field.slot = some text := by
  have hshape : (⟨target, none⟩ : HeapView).shape id = .ok fields :=
    HeapView.shape_eq_ok.mpr ⟨target, (selfContained_heap h).mpr ⟨hid, rfl⟩, hfields⟩
  exact fun field hfield => selfContained_text h (h.closed.shapes hshape field hfield)

theorem Storage.eq_work_of_ne_main {storage : Storage} (h : storage ≠ .main) : storage = .work := by
  cases storage with
  | work => rfl
  | main => exact absurd rfl h

end World

section Steps

variable {target work : Heap} {roots : List Ref} {p : PendingCopy}

theorem Invariant.forwardText (h : Invariant target work roots p) {id copied : InternId}
    (hto : TextTo target work p id copied) :
    Invariant target work roots (p.forwardText id copied) ∧ Extends p (p.forwardText id copied) := by
  refine ⟨{ h with textForwarded := ?_ }, { Extends.refl p with }⟩
  intro other found hlookup
  by_cases hother : other = id
  · subst hother
    rw [PendingCopy.forwardText, lookup_cons_self] at hlookup
    obtain rfl := Option.some.inj hlookup
    exact hto
  · rw [PendingCopy.forwardText, lookup_cons_ne hother] at hlookup
    exact h.textForwarded hlookup

theorem Invariant.insertText (h : Invariant target work roots p) {text : String}
    (htarget : target.text.find text = none) (hpending : p.text.find text = none) :
    Invariant target work roots { p with text := (p.text.insert text).1 } ∧
      Extends p { p with text := (p.text.insert text).1 } := by
  have hgrows : Extends p { p with text := (p.text.insert text).1 } :=
    { Extends.refl p with text := p.text.insert_extends text }
  have hlength := (@Grows.texts target _ _ hgrows.toGrows).length_le
  refine ⟨{ h with
    filled := ?_
    textForwarded := fun hl => (h.textForwarded hl).grows hgrows.toGrows
    text_fresh := ?_
    shapesForwarded := fun hl => (h.shapesForwarded hl).grows hgrows.toGrows
    shapes_main := fun fields hf field hfield =>
      ⟨(h.shapes_main fields hf field hfield).1,
        lt_of_lt_of_le (h.shapes_main fields hf field hfield).2 hlength⟩ }, hgrows⟩
  · intro i hi
    obtain ⟨handle, object, copied, hlookup, hobject, hcopied, hstatus⟩ := h.filled i hi
    exact ⟨handle, object, copied, hlookup, hobject, hcopied,
      hstatus.imp id (ObjectCopied.grows hgrows.toGrows)⟩
  · intro other hother
    rw [InternTable.insert_of_fresh hpending] at hother
    rcases List.mem_append.mp hother with hold | hnew
    · exact h.text_fresh other hold
    · rw [List.mem_singleton.mp hnew, htarget]

theorem Invariant.forwardShape (h : Invariant target work roots p) {id copied : ShapeId}
    (hto : ShapeTo target work p id copied) :
    Invariant target work roots (p.forwardShape id copied) ∧
      Extends p (p.forwardShape id copied) := by
  refine ⟨{ h with shapesForwarded := ?_ }, { Extends.refl p with }⟩
  intro other found hlookup
  by_cases hother : other = id
  · subst hother
    rw [PendingCopy.forwardShape, lookup_cons_self] at hlookup
    obtain rfl := Option.some.inj hlookup
    exact hto
  · rw [PendingCopy.forwardShape, lookup_cons_ne hother] at hlookup
    exact h.shapesForwarded hlookup

theorem Invariant.appendShape (h : Invariant target work roots p) {fields : List InternId}
    (htarget : target.shapes.find fields = none) (hpending : fields ∉ p.shapes)
    (hmain : ∀ field ∈ fields, field.storage = .main ∧ field.slot < (p.texts target).length) :
    Invariant target work roots { p with shapes := p.shapes ++ [fields] } ∧
      Extends p { p with shapes := p.shapes ++ [fields] } := by
  have hgrows : Extends p { p with shapes := p.shapes ++ [fields] } :=
    { Extends.refl p with shapes := List.prefix_append _ _ }
  refine ⟨{ h with
    filled := ?_
    shapesForwarded := fun hl => (h.shapesForwarded hl).grows hgrows.toGrows
    shapes_fresh := ?_
    shapes_nodup := ?_
    shapes_main := ?_ }, hgrows⟩
  · intro i hi
    obtain ⟨handle, object, copied, hlookup, hobject, hcopied, hstatus⟩ := h.filled i hi
    exact ⟨handle, object, copied, hlookup, hobject, hcopied,
      hstatus.imp id (ObjectCopied.grows hgrows.toGrows)⟩
  · intro other hother
    rcases List.mem_append.mp hother with hold | hnew
    · exact h.shapes_fresh other hold
    · rw [List.mem_singleton.mp hnew, htarget]
  · exact List.nodup_append.mpr ⟨h.shapes_nodup, List.nodup_singleton _, fun a ha b hb heq =>
      hpending (by rw [← List.mem_singleton.mp hb, ← heq]; exact ha)⟩
  · intro other hother
    rcases List.mem_append.mp hother with hold | hnew
    · exact h.shapes_main other hold
    · rw [List.mem_singleton.mp hnew]
      exact hmain

end Steps

section Runs

variable {target work : Heap} {roots : List Ref} {p : PendingCopy} {fail : HeapError → Prop}

theorem copyText_runs (hpub : Publishable target work) (hinv : Invariant target work roots p)
    {id : InternId} (hhas : (world target work).Has (.text id)) :
    Runs (copyText target ⟨work, none⟩ id) p
      (fun copied p' => Invariant target work roots p' ∧ Extends p p' ∧
        TextTo target work p' id copied) fail := by
  obtain ⟨text, htext⟩ := hhas
  unfold copyText
  refine .bind (.get ?_)
  split
  · rename_i hstorage
    rw [hinv.targetStorage] at hstorage
    have hslot := (world_text_main hpub hstorage).mp htext
    have hresolve : target.resolveText id = .ok text :=
      Heap.resolveText_eq_ok.mpr ⟨hstorage.trans hpub.target_selfContained.storage.symm, hslot⟩
    rw [hresolve]
    refine .bind (.lift (fun _ _ => .pure ?_) fun _ h => nomatch h)
    exact ⟨hinv, .refl p, hstorage, text, htext, getElem?_of_isPrefix (List.prefix_append _ _) hslot⟩
  · rename_i hstorage
    rw [hinv.targetStorage] at hstorage
    have hwork := Storage.eq_work_of_ne_main hstorage
    split
    · rename_i forwarded hforwarded
      exact .pure ⟨hinv, .refl p, hinv.textForwarded hforwarded⟩
    · have hsource : (⟨work, none⟩ : HeapView).text id = .ok text :=
        (world_text_work hpub hwork).mpr ((world_text_work hpub hwork).mp htext)
      rw [hsource]
      refine .bind (.lift ?_ fun _ h => nomatch h)
      rintro _ ⟨⟩
      split
      · rename_i copied hfind
        obtain ⟨slot, hslot, rfl⟩ := Option.map_eq_some_iff.mp hfind
        have hto : TextTo target work p id ⟨target.storage, slot⟩ :=
          ⟨hpub.target_selfContained.storage, text, htext,
            getElem?_of_isPrefix (List.prefix_append _ _) ((target.text.find_eq_some_iff _ _).mp hslot)⟩
        obtain ⟨hinv', hext⟩ := hinv.forwardText hto
        exact .bind (.update (.pure ⟨hinv', hext, hto⟩))
      · rename_i hmissing
        have htarget : target.text.find text = none := Option.map_eq_none_iff.mp hmissing
        split
        · rename_i slot hslot
          have hto : TextTo target work p id ⟨p.targetStorage, p.textBase + slot⟩ := by
            refine ⟨hinv.targetStorage, text, htext, ?_⟩
            rw [hinv.textBase, texts, List.getElem?_append_right (Nat.le_add_right _ _),
              Nat.add_sub_cancel_left]
            exact (p.text.find_eq_some_iff _ _).mp hslot
          obtain ⟨hinv', hext⟩ := hinv.forwardText hto
          exact .bind (.update (.pure ⟨hinv', hext, hto⟩))
        · rename_i hpending
          obtain ⟨hinv₁, hext₁⟩ := hinv.insertText htarget hpending
          have hto : TextTo target work { p with text := (p.text.insert text).1 } id
              ⟨p.targetStorage, p.textBase + (p.text.insert text).2⟩ := by
            refine ⟨hinv.targetStorage, text, htext, ?_⟩
            rw [hinv.textBase, texts, List.getElem?_append_right (Nat.le_add_right _ _),
              Nat.add_sub_cancel_left]
            exact p.text.insert_resolve text
          obtain ⟨hinv₂, hext₂⟩ := hinv₁.forwardText hto
          exact .bind (.update (.bind (.update (.pure ⟨hinv₂, hext₁.trans hext₂, hto⟩))))

theorem copyTexts_runs (hpub : Publishable target work) (hinv : Invariant target work roots p)
    {ids : List InternId} (hhas : ∀ id ∈ ids, (world target work).Has (.text id)) :
    Runs (ids.mapM (copyText target ⟨work, none⟩)) p
      (fun copied p' => Invariant target work roots p' ∧ Extends p p' ∧
        List.Forall₂ (TextTo target work p') ids copied) fail :=
  Runs.mapM Extends.refl Extends.trans (fun h => TextTo.grows h.toGrows)
    (fun id hid _ _ hinv' => copyText_runs hpub hinv' (hhas id hid)) hinv

theorem copyShape_runs (hpub : Publishable target work) (hinv : Invariant target work roots p)
    {id : ShapeId} (hhas : (world target work).Has (.shape id)) :
    Runs (copyShape target ⟨work, none⟩ id) p
      (fun copied p' => Invariant target work roots p' ∧ Extends p p' ∧
        ShapeTo target work p' id copied) fail := by
  obtain ⟨fields, hfields⟩ := hhas
  unfold copyShape
  refine .bind (.get ?_)
  split
  · rename_i hstorage
    rw [hinv.targetStorage] at hstorage
    have hslot := (world_shape_main hpub hstorage).mp hfields
    have hresolve : target.shape id = .ok fields :=
      Heap.shape_eq_ok.mpr ⟨hstorage.trans hpub.target_selfContained.storage.symm, hslot⟩
    rw [hresolve]
    refine .bind (.lift (fun _ _ => .pure ?_) fun _ h => nomatch h)
    refine ⟨hinv, .refl p, hstorage, fields, fields, hfields,
      getElem?_of_isPrefix (List.prefix_append _ _) hslot, List.forall₂_same.mpr ?_⟩
    intro field hfield
    obtain ⟨hmain, text, htext⟩ :=
      selfContained_shape hpub.target_selfContained hstorage hslot field hfield
    exact ⟨hmain, text, (world_text_main hpub hmain).mpr htext,
      getElem?_of_isPrefix (List.prefix_append _ _) htext⟩
  · rename_i hstorage
    rw [hinv.targetStorage] at hstorage
    have hwork := Storage.eq_work_of_ne_main hstorage
    split
    · rename_i forwarded hforwarded
      exact .pure ⟨hinv, .refl p, hinv.shapesForwarded hforwarded⟩
    · have hsource : (⟨work, none⟩ : HeapView).shape id = .ok fields :=
        (world_shape_work hpub hwork).mpr ((world_shape_work hpub hwork).mp hfields)
      rw [hsource]
      refine .bind (.lift ?_ fun _ h => nomatch h)
      rintro _ ⟨⟩
      have hhasFields := fun field hfield => hpub.closed.shapes hfields field hfield
      refine .bind ((copyTexts_runs hpub hinv hhasFields).imp ?_ fun _ h => h)
      rintro copiedFields p₁ ⟨hinv₁, hext₁, hcopied⟩
      refine .bind (.get ?_)
      split
      · rename_i slot hslot
        have hto : ShapeTo target work p₁ id ⟨p₁.targetStorage, slot⟩ :=
          ⟨hinv₁.targetStorage, fields, copiedFields, hfields,
            getElem?_of_isPrefix (List.prefix_append _ _)
              ((target.shapes.find_eq_some_iff _ _).mp hslot), hcopied⟩
        obtain ⟨hinv₂, hext₂⟩ := hinv₁.forwardShape hto
        exact .bind (.update (.pure ⟨hinv₂, hext₁.trans hext₂, hto⟩))
      · rename_i htarget
        split
        · rename_i index hindex
          have hto : ShapeTo target work p₁ id ⟨p₁.targetStorage, p₁.shapeBase + index⟩ := by
            refine ⟨hinv₁.targetStorage, fields, copiedFields, hfields, ?_, hcopied⟩
            obtain ⟨hlt, heq, -⟩ := List.findIdx?_eq_some_iff_getElem.mp hindex
            rw [hinv₁.shapeBase, allShapes, List.getElem?_append_right (Nat.le_add_right _ _),
              Nat.add_sub_cancel_left, List.getElem?_eq_getElem hlt, eq_of_beq heq]
          obtain ⟨hinv₂, hext₂⟩ := hinv₁.forwardShape hto
          exact .bind (.update (.pure ⟨hinv₂, hext₁.trans hext₂, hto⟩))
        · rename_i hmissing
          have hnew : copiedFields ∉ p₁.shapes := fun hmem => by
            simpa using List.findIdx?_eq_none_iff.mp hmissing copiedFields hmem
          have hmain : ∀ field ∈ copiedFields,
              field.storage = .main ∧ field.slot < (p₁.texts target).length := by
            intro field hfield
            obtain ⟨_, -, hstorage, _, -, hslot⟩ := forall₂_mem_right hcopied hfield
            exact ⟨hstorage, (List.getElem?_eq_some_iff.mp hslot).1⟩
          obtain ⟨hinv₂, hext₂⟩ := hinv₁.appendShape htarget hnew hmain
          have hto : ShapeTo target work { p₁ with shapes := p₁.shapes ++ [copiedFields] } id
              ⟨p₁.targetStorage, p₁.shapeBase + p₁.shapes.length⟩ := by
            refine ⟨hinv₁.targetStorage, fields, copiedFields, hfields, ?_, hcopied⟩
            simp [hinv₁.shapeBase, allShapes]
          obtain ⟨hinv₃, hext₃⟩ := hinv₂.forwardShape hto
          exact .bind (.update (.bind (.update
            (.pure ⟨hinv₃, (hext₁.trans hext₂).trans hext₃, hto⟩))))

section Values

variable {copyObject : Handle → Copy Handle}

/-- A copier of handles keeps the invariant on some references, from any later state. -/
def Copies (target work : Heap) (roots : List Ref) (copyObject : Handle → Copy Handle)
    (fail : HeapError → Prop) (p : PendingCopy) (refs : List Ref) : Prop :=
  ∀ handle, .object handle ∈ refs → ∀ p', Extends p p' → Invariant target work roots p' →
    Runs (copyObject handle) p' (fun copied p'' => Invariant target work roots p'' ∧
      Extends p' p'' ∧ ObjectTo target p'' handle copied) fail

theorem Copies.mono {refs refs' : List Ref} {p p' : PendingCopy}
    (h : Copies target work roots copyObject fail p refs) (hext : Extends p p')
    (hsub : refs' ⊆ refs) : Copies target work roots copyObject fail p' refs' :=
  fun handle hhandle p'' hext' hinv => h handle (hsub hhandle) p'' (hext.trans hext') hinv

theorem copyValue_runs (hpub : Publishable target work) (hinv : Invariant target work roots p)
    {rich : RichValue} (hcopies : Copies target work roots copyObject fail p rich.refs)
    (hhas : ∀ ref ∈ rich.refs, (world target work).Has ref) :
    Runs (copyValue target ⟨work, none⟩ copyObject rich) p
      (fun copied p' => Invariant target work roots p' ∧ Extends p p' ∧
        RichValue.Rel (ObjectTo target p') (TextTo target work p') rich copied) fail := by
  obtain ⟨value, provenance⟩ := rich
  have hobject : ∀ (kind : Handle → RuntimeValue) (handle : Handle), .object handle ∈ value.refs →
      (∀ copied p', ObjectTo target p' handle copied →
        RuntimeValue.Rel (ObjectTo target p') (TextTo target work p') value (kind copied)) →
      Runs (kind <$> copyObject handle) p (fun copied p' => Invariant target work roots p' ∧
        Extends p p' ∧ RuntimeValue.Rel (ObjectTo target p') (TextTo target work p')
          value copied) fail :=
    fun kind handle hhandle hrel => .map ((hcopies handle hhandle p (.refl p) hinv).imp
      (fun copied p' h => ⟨h.1, h.2.1, hrel copied p' h.2.2⟩) fun _ h => h)
  have htext : ∀ (kind : InternId → RuntimeValue) (id : InternId), .text id ∈ value.refs →
      (∀ copied p', TextTo target work p' id copied →
        RuntimeValue.Rel (ObjectTo target p') (TextTo target work p') value (kind copied)) →
      Runs (kind <$> copyText target ⟨work, none⟩ id) p (fun copied p' =>
        Invariant target work roots p' ∧ Extends p p' ∧
          RuntimeValue.Rel (ObjectTo target p') (TextTo target work p') value copied) fail :=
    fun kind id hid hrel => .map ((copyText_runs hpub hinv (hhas _ hid)).imp
      (fun copied p' h => ⟨h.1, h.2.1, hrel copied p' h.2.2⟩) fun _ h => h)
  have hreturn : ∀ copied p', (Invariant target work roots p' ∧ Extends p p' ∧
      RuntimeValue.Rel (ObjectTo target p') (TextTo target work p') value copied) →
      Runs (pure (RichValue.withValue ⟨value, provenance⟩ copied)) p'
        (fun copied p' => Invariant target work roots p' ∧ Extends p p' ∧
          RichValue.Rel (ObjectTo target p') (TextTo target work p') ⟨value, provenance⟩ copied)
        fail :=
    fun _ _ h => .pure ⟨h.1, h.2.1, h.2.2, rfl⟩
  unfold copyValue
  cases value with
  | int value => exact .bind (.pure (hreturn _ _ ⟨hinv, .refl p, .int⟩))
  | float value => exact .bind (.pure (hreturn _ _ ⟨hinv, .refl p, .float⟩))
  | builtinAtom atom => exact .bind (.pure (hreturn _ _ ⟨hinv, .refl p, .builtinAtom⟩))
  | atom id =>
      exact .bind ((htext .atom id List.mem_cons_self fun _ _ => .atom).imp hreturn fun _ h => h)
  | shortString id =>
      exact .bind ((htext .shortString id List.mem_cons_self fun _ _ => .shortString).imp
        hreturn fun _ h => h)
  | string handle =>
      exact .bind ((hobject .string handle List.mem_cons_self fun _ _ => .string).imp
        hreturn fun _ h => h)
  | bytes handle =>
      exact .bind ((hobject .bytes handle List.mem_cons_self fun _ _ => .bytes).imp
        hreturn fun _ h => h)
  | nativeType handle =>
      exact .bind ((hobject .nativeType handle List.mem_cons_self fun _ _ => .nativeType).imp
        hreturn fun _ h => h)
  | opaqueValue handle =>
      exact .bind ((hobject .opaqueValue handle List.mem_cons_self fun _ _ => .opaqueValue).imp
        hreturn fun _ h => h)
  | array handle =>
      exact .bind ((hobject .array handle List.mem_cons_self fun _ _ => .array).imp
        hreturn fun _ h => h)
  | tuple handle =>
      exact .bind ((hobject .tuple handle List.mem_cons_self fun _ _ => .tuple).imp
        hreturn fun _ h => h)
  | tagged handle =>
      exact .bind ((hobject .tagged handle List.mem_cons_self fun _ _ => .tagged).imp
        hreturn fun _ h => h)
  | dict handle =>
      exact .bind ((hobject .dict handle List.mem_cons_self fun _ _ => .dict).imp
        hreturn fun _ h => h)
  | func handle =>
      exact .bind ((hobject .func handle List.mem_cons_self fun _ _ => .func).imp
        hreturn fun _ h => h)
  | dyn handle =>
      exact .bind ((hobject .dyn handle List.mem_cons_self fun _ _ => .dyn).imp
        hreturn fun _ h => h)
  | upLink handle =>
      exact .bind ((hobject .upLink handle List.mem_cons_self fun _ _ => .upLink).imp
        hreturn fun _ h => h)

theorem copyValues_runs (hpub : Publishable target work) (hinv : Invariant target work roots p)
    {values : List RichValue}
    (hcopies : Copies target work roots copyObject fail p (values.flatMap RichValue.refs))
    (hhas : ∀ ref ∈ values.flatMap RichValue.refs, (world target work).Has ref) :
    Runs (values.mapM (copyValue target ⟨work, none⟩ copyObject)) p
      (fun copied p' => Invariant target work roots p' ∧ Extends p p' ∧
        List.Forall₂ (RichValue.Rel (ObjectTo target p') (TextTo target work p'))
          values copied) fail := by
  refine Runs.mapM Extends.refl Extends.trans (fun h => RichValue.Rel.imp
    (fun _ _ => ObjectTo.grows h.toGrows) (fun _ _ => TextTo.grows h.toGrows)) ?_ hinv
  intro value hvalue p' hext hinv'
  have hsub : value.refs ⊆ values.flatMap RichValue.refs :=
    fun ref href => List.mem_flatMap.mpr ⟨value, hvalue, href⟩
  exact copyValue_runs hpub hinv' (hcopies.mono hext hsub) fun ref href => hhas ref (hsub href)

theorem copyPrototype_runs (hinv : Invariant target work roots p) {prototype : RuntimePrototype}
    (hcopies : Copies target work roots copyObject fail p prototype.refs) :
    Runs (copyPrototype copyObject prototype) p
      (fun copied p' => Invariant target work roots p' ∧ Extends p p' ∧
        RuntimePrototype.Rel (ObjectTo target p') prototype copied) fail := by
  cases prototype with
  | native function => exact .pure ⟨hinv, .refl p, .native⟩
  | bytecode handle =>
      refine .map ((hcopies handle List.mem_cons_self p (.refl p) hinv).imp ?_ fun _ h => h)
      exact fun _ _ h => ⟨h.1, h.2.1, .bytecode h.2.2⟩

theorem copyPrototypes_runs (hinv : Invariant target work roots p)
    {prototypes : List RuntimePrototype}
    (hcopies : Copies target work roots copyObject fail p
      (prototypes.flatMap RuntimePrototype.refs)) :
    Runs (prototypes.mapM (copyPrototype copyObject)) p
      (fun copied p' => Invariant target work roots p' ∧ Extends p p' ∧
        List.Forall₂ (RuntimePrototype.Rel (ObjectTo target p')) prototypes copied) fail := by
  refine Runs.mapM Extends.refl Extends.trans (fun h => RuntimePrototype.Rel.imp
    (fun _ _ => ObjectTo.grows h.toGrows)) ?_ hinv
  intro prototype hprototype p' hext hinv'
  exact copyPrototype_runs hinv' (hcopies.mono hext fun ref href =>
    List.mem_flatMap.mpr ⟨prototype, hprototype, href⟩)

/-- The copy of an object's data corresponds to it; only an empty up-link has none. -/
theorem copyObjectData_runs (hpub : Publishable target work)
    (hinv : Invariant target work roots p) {object : Object}
    (hcopies : Copies target work roots copyObject fail p object.refs)
    (hhas : ∀ ref ∈ object.refs, (world target work).Has ref)
    (hready : object ≠ .reserved) (hfail : object = .upLink none → ∀ e, fail e) :
    Runs (copyObjectData target ⟨work, none⟩ copyObject object) p
      (fun copied p' => Invariant target work roots p' ∧ Extends p p' ∧
        ObjectCopied target work p' object copied) fail := by
  cases object with
  | reserved => exact absurd rfl hready
  | string value => exact .pure ⟨hinv, .refl p, .string⟩
  | bytes value => exact .pure ⟨hinv, .refl p, .bytes⟩
  | nativeType value => exact .pure ⟨hinv, .refl p, .nativeType⟩
  | opaqueValue value => exact .pure ⟨hinv, .refl p, .opaqueValue⟩
  | array values =>
      refine .bind ((copyValues_runs hpub hinv hcopies hhas).imp ?_ fun _ h => h)
      exact fun _ _ h => .pure ⟨h.1, h.2.1, .array h.2.2⟩
  | tuple values =>
      refine .bind ((copyValues_runs hpub hinv hcopies hhas).imp ?_ fun _ h => h)
      exact fun _ _ h => .pure ⟨h.1, h.2.1, .tuple h.2.2⟩
  | tagged tag payload =>
      have hleft := List.subset_append_left tag.refs payload.refs
      have hright := List.subset_append_right tag.refs payload.refs
      refine .bind ((copyValue_runs hpub hinv (hcopies.mono (.refl p) hleft)
        fun ref href => hhas ref (hleft href)).imp ?_ fun _ h => h)
      rintro tag' p₁ ⟨hinv₁, hext₁, htag⟩
      refine .bind ((copyValue_runs hpub hinv₁ (hcopies.mono hext₁ hright)
        fun ref href => hhas ref (hright href)).imp ?_ fun _ h => h)
      rintro payload' p₂ ⟨hinv₂, hext₂, hpayload⟩
      refine .pure ⟨hinv₂, hext₁.trans hext₂, .tagged (htag.imp ?_ ?_) hpayload⟩
      · exact fun _ _ => ObjectTo.grows hext₂.toGrows
      · exact fun _ _ => TextTo.grows hext₂.toGrows
  | dict shape values =>
      have hvalues : values.flatMap RichValue.refs ⊆ (Object.dict shape values).refs :=
        List.subset_cons_self _ _
      refine .bind ((copyShape_runs hpub hinv (hhas _ List.mem_cons_self)).imp ?_ fun _ h => h)
      rintro shape' p₁ ⟨hinv₁, hext₁, hshape⟩
      refine .bind ((copyValues_runs hpub hinv₁ (hcopies.mono hext₁ hvalues)
        fun ref href => hhas ref (hvalues href)).imp ?_ fun _ h => h)
      rintro values' p₂ ⟨hinv₂, hext₂, hrel⟩
      exact .pure ⟨hinv₂, hext₁.trans hext₂, .dict (hshape.grows hext₂.toGrows) hrel⟩
  | closure identity prototype upvalues =>
      have hleft := List.subset_append_left prototype.refs (upvalues.flatMap RichValue.refs)
      have hright := List.subset_append_right prototype.refs (upvalues.flatMap RichValue.refs)
      refine .bind ((copyPrototype_runs hinv (hcopies.mono (.refl p) hleft)).imp ?_ fun _ h => h)
      rintro prototype' p₁ ⟨hinv₁, hext₁, hprototype⟩
      refine .bind ((copyValues_runs hpub hinv₁ (hcopies.mono hext₁ hright)
        fun ref href => hhas ref (hright href)).imp ?_ fun _ h => h)
      rintro upvalues' p₂ ⟨hinv₂, hext₂, hrel⟩
      refine .pure ⟨hinv₂, hext₁.trans hext₂, .closure (hprototype.imp ?_) hrel⟩
      exact fun _ _ => ObjectTo.grows hext₂.toGrows
  | dyn identity descriptor value scheme origin =>
      have hleft := List.subset_append_left descriptor.refs value.refs
      have hright := List.subset_append_right descriptor.refs value.refs
      refine .bind ((copyValue_runs hpub hinv (hcopies.mono (.refl p) hleft)
        fun ref href => hhas ref (hleft href)).imp ?_ fun _ h => h)
      rintro descriptor' p₁ ⟨hinv₁, hext₁, hdescriptor⟩
      refine .bind ((copyValue_runs hpub hinv₁ (hcopies.mono hext₁ hright)
        fun ref href => hhas ref (hright href)).imp ?_ fun _ h => h)
      rintro value' p₂ ⟨hinv₂, hext₂, hvalue⟩
      refine .pure ⟨hinv₂, hext₁.trans hext₂, .dyn (hdescriptor.imp ?_ ?_) hvalue⟩
      · exact fun _ _ => ObjectTo.grows hext₂.toGrows
      · exact fun _ _ => TextTo.grows hext₂.toGrows
  | upLink value =>
      cases value with
      | none => exact .throw (hfail rfl _)
      | some value =>
          refine .bind ((copyValue_runs hpub hinv hcopies hhas).imp ?_ fun _ h => h)
          exact fun _ _ h => .pure ⟨h.1, h.2.1, .upLink h.2.2⟩
  | byteCodeProto code values text prototypes =>
      have hvalues : values.flatMap RichValue.refs ⊆
          (Object.byteCodeProto code values text prototypes).refs :=
        List.subset_append_left _ _
      have htexts : text.map .text ⊆ (Object.byteCodeProto code values text prototypes).refs :=
        fun ref href => List.mem_append_right _ (List.mem_append_left _ href)
      have hprototypes : prototypes.flatMap RuntimePrototype.refs ⊆
          (Object.byteCodeProto code values text prototypes).refs :=
        fun ref href => List.mem_append_right _ (List.mem_append_right _ href)
      refine .bind ((copyValues_runs hpub hinv (hcopies.mono (.refl p) hvalues)
        fun ref href => hhas ref (hvalues href)).imp ?_ fun _ h => h)
      rintro values' p₁ ⟨hinv₁, hext₁, hrel⟩
      refine .bind ((copyTexts_runs hpub hinv₁ fun id hid =>
        hhas _ (htexts (List.mem_map_of_mem hid))).imp ?_ fun _ h => h)
      rintro text' p₂ ⟨hinv₂, hext₂, htext⟩
      refine .bind ((copyPrototypes_runs hinv₂
        (hcopies.mono (hext₁.trans hext₂) hprototypes)).imp ?_ fun _ h => h)
      rintro prototypes' p₃ ⟨hinv₃, hext₃, hprototype⟩
      refine .pure ⟨hinv₃, (hext₁.trans hext₂).trans hext₃, .byteCodeProto (hrel.imp ?_)
        (htext.imp fun _ _ => TextTo.grows hext₃.toGrows) hprototype⟩
      exact fun _ _ => RichValue.Rel.imp (fun _ _ => ObjectTo.grows (hext₂.trans hext₃).toGrows)
        (fun _ _ => TextTo.grows (hext₂.trans hext₃).toGrows)

end Values

section Objects

theorem Invariant.openSlot (hinv : Invariant target work roots p) {handle : Handle}
    {object : Object} (hobject : work.object handle = .ok object)
    (hwork : work.storage = .work) (hreach : (world target work).Reaches roots handle)
    (hnew : p.objectsForwarded.lookup handle = none) :
    Invariant target work roots
        (p.openSlot handle ⟨.main, target.objects.length + p.objects.length⟩) ∧
      Grows p (p.openSlot handle ⟨.main, target.objects.length + p.objects.length⟩) := by
  obtain ⟨hstorage, hslot⟩ := Heap.object_eq_ok.mp hobject
  have hold : ∀ {h c}, p.objectsForwarded.lookup h = some c → h ≠ handle := fun hl heq => by
    rw [heq, hnew] at hl
    cases hl
  have hlookup : ∀ {h c}, (p.openSlot handle
      ⟨.main, target.objects.length + p.objects.length⟩).objectsForwarded.lookup h = some c →
      (h = handle ∧ c = ⟨.main, target.objects.length + p.objects.length⟩) ∨
        p.objectsForwarded.lookup h = some c := by
    intro h c hl
    by_cases heq : h = handle
    · subst heq
      rw [PendingCopy.openSlot, lookup_cons_self] at hl
      exact .inl ⟨rfl, (Option.some.inj hl).symm⟩
    · rw [PendingCopy.openSlot, lookup_cons_ne heq] at hl
      exact .inr hl
  have hgrows : Grows p (p.openSlot handle
      ⟨.main, target.objects.length + p.objects.length⟩) :=
    { objects := List.prefix_append _ _
      forwarded := fun hl => by rw [PendingCopy.openSlot, lookup_cons_ne (hold hl), hl]
      text := List.prefix_refl _
      shapes := List.prefix_refl _ }
  refine ⟨{ hinv with
    forwarded := ?_
    injective := ?_
    filled := ?_
    keys_nodup := ?_
    keys_length := ?_
    keys_work := ?_
    textForwarded := fun hl => (hinv.textForwarded hl).grows hgrows
    shapesForwarded := fun hl => (hinv.shapesForwarded hl).grows hgrows }, hgrows⟩
  · intro h c hl
    rcases hlookup hl with ⟨rfl, rfl⟩ | hl
    · exact ⟨hstorage.trans hwork, hreach, p.objects.length, by simp [PendingCopy.openSlot], rfl⟩
    · obtain ⟨hs, hr, i, hi, rfl⟩ := hinv.forwarded hl
      refine ⟨hs, hr, i, ?_, rfl⟩
      simp only [PendingCopy.openSlot, List.length_append, List.length_singleton]
      omega
  · intro h h' c hl hl'
    rcases hlookup hl with ⟨hh, hc⟩ | hpast <;> rcases hlookup hl' with ⟨hh', hc'⟩ | hpast'
    · rw [hh, hh']
    · obtain ⟨-, -, i, hi, hi'⟩ := hinv.forwarded hpast'
      simp only [hc, Handle.mk.injEq, true_and] at hi'
      omega
    · obtain ⟨-, -, i, hi, hi'⟩ := hinv.forwarded hpast
      simp only [hc', Handle.mk.injEq, true_and] at hi'
      omega
    · exact hinv.injective hpast hpast'
  · intro i hi
    simp only [PendingCopy.openSlot, List.length_append, List.length_singleton] at hi
    rcases Nat.lt_succ_iff_lt_or_eq.mp hi with hlt | rfl
    · obtain ⟨h, o, c, hl, ho, hc, hstatus⟩ := hinv.filled i hlt
      exact ⟨h, o, c, hgrows.forwarded hl, ho, getElem?_of_isPrefix hgrows.objects hc,
        hstatus.imp id (ObjectCopied.grows hgrows)⟩
    · exact ⟨handle, object, .reserved, lookup_cons_self, hobject,
        by simp [PendingCopy.openSlot], .inl rfl⟩
  · exact List.nodup_cons.mpr ⟨not_mem_keys_of_lookup hnew, hinv.keys_nodup⟩
  · simp [PendingCopy.openSlot, hinv.keys_length]
  · intro entry hentry
    rcases List.mem_cons.mp hentry with rfl | hentry
    · exact ⟨hstorage.trans hwork, (List.getElem?_eq_some_iff.mp hslot).1⟩
    · exact hinv.keys_work entry hentry

/-- Filling an open slot with the copy of its object keeps the invariant. -/
theorem Invariant.closeSlot (hinv : Invariant target work roots p) {handle : Handle} {i : Nat}
    {object copied : Object}
    (hlookup : p.objectsForwarded.lookup handle = some ⟨.main, target.objects.length + i⟩)
    (hobject : work.object handle = .ok object)
    (hcopied : ObjectCopied target work p object copied) :
    Invariant target work roots
      (p.closeSlot ⟨.main, target.objects.length + i⟩ copied) := by
  have hlength : (p.closeSlot ⟨.main, target.objects.length + i⟩ copied).objects.length =
      p.objects.length := by
    simp [PendingCopy.closeSlot]
  refine { hinv with
    forwarded := fun hl => by rw [hlength]; exact hinv.forwarded hl
    filled := ?_
    keys_length := by rw [hlength]; exact hinv.keys_length }
  intro j hj
  rw [hlength] at hj
  by_cases hji : j = i
  · subst hji
    refine ⟨handle, object, copied, hlookup, hobject, ?_, .inr hcopied⟩
    simp [PendingCopy.closeSlot, hinv.objectBase, hj]
  · obtain ⟨h, o, c, hl, ho, hc, hstatus⟩ := hinv.filled j hj
    refine ⟨h, o, c, hl, ho, ?_, hstatus⟩
    have hij : ¬i = j := fun heq => hji heq.symm
    simp [PendingCopy.closeSlot, hinv.objectBase, List.getElem?_set_ne hij, hc]

/-- Opening a slot, copying below it and closing it again extends the pending copy. -/
theorem extends_closeSlot {p₁ p₂ : PendingCopy} {copied : Object}
    (hbase : p₂.objectBase = target.objects.length)
    (hopen : p₁.objects = p.objects ++ [.reserved]) (hgrows : Grows p p₁) (hext : Extends p₁ p₂)
    (hready : copied ≠ .reserved) :
    Extends p (p₂.closeSlot ⟨.main, target.objects.length + p.objects.length⟩ copied) := by
  have hset : (p₂.closeSlot ⟨.main, target.objects.length + p.objects.length⟩ copied).objects =
      p₂.objects.set p.objects.length copied := by
    simp [PendingCopy.closeSlot, hbase]
  obtain ⟨rest, hrest⟩ := hext.objects
  rw [hopen, List.append_assoc] at hrest
  refine {
    objects := ?_
    forwarded := hext.forwarded ∘ hgrows.forwarded
    text := hgrows.text.trans hext.text
    shapes := hgrows.shapes.trans hext.shapes
    closed := ?_ }
  · refine ⟨copied :: rest, ?_⟩
    rw [hset, ← hrest]
    simp
  · intro i hi
    rw [hset]
    by_cases hlast : i = p.objects.length
    · subst hlast
      rw [← hrest]
      simpa using hready
    · rw [List.getElem?_set_ne fun heq => hlast heq.symm]
      refine hext.closed i ?_
      rw [hopen, List.length_append, List.length_singleton]
      omega

theorem ObjectCopied.ne_reserved {object copied : Object}
    (h : ObjectCopied target work p object copied) : copied ≠ .reserved := by
  rintro rfl
  cases h

/-- With fuel for every object that is not forwarded yet, copying a handle of the graph
fails only when the graph has an empty up-link. -/
theorem copyObject_runs (hpub : Publishable target work)
    (hready : ∀ handle, (world target work).Reaches roots handle →
      (world target work).object handle ≠ .ok .reserved)
    (hfail : (∃ handle, (world target work).Reaches roots handle ∧
      (world target work).object handle = .ok (.upLink none)) → ∀ e, fail e)
    (fuel : Nat) {p : PendingCopy} (hinv : Invariant target work roots p)
    (hfuel : work.objects.length < fuel + p.objects.length) {handle : Handle}
    (hreach : (world target work).Reaches roots handle)
    (hhas : (world target work).Has (.object handle)) :
    Runs (copyObject target ⟨work, none⟩ fuel handle) p
      (fun copied p' => Invariant target work roots p' ∧ Extends p p' ∧
        ObjectTo target p' handle copied) fail := by
  induction fuel generalizing p handle with
  | zero => exact absurd hinv.length_le (by omega)
  | succ fuel ih =>
      obtain ⟨object, hobject⟩ := hhas
      unfold copyObject
      refine .bind (.get ?_)
      split
      · rename_i hstorage
        rw [hinv.targetStorage] at hstorage
        have hslot := (world_object_main hpub hstorage).mp hobject
        have hresolve : target.object handle = .ok object :=
          Heap.object_eq_ok.mpr ⟨hstorage.trans hpub.target_selfContained.storage.symm, hslot⟩
        rw [hresolve]
        refine .bind (.lift (fun _ _ => .pure ⟨hinv, .refl p, .inl ⟨hstorage, rfl, ?_⟩⟩)
          fun _ h => nomatch h)
        exact (List.getElem?_eq_some_iff.mp hslot).1
      · rename_i hstorage
        rw [hinv.targetStorage] at hstorage
        have hwork := Storage.eq_work_of_ne_main hstorage
        split
        · rename_i forwarded hforwarded
          exact .pure ⟨hinv, .refl p, .inr ⟨hwork, hforwarded⟩⟩
        · rename_i hnew
          have hobjectWork := (world_object_work hpub hwork).mp hobject
          have hsource : (⟨work, none⟩ : HeapView).object handle = .ok object :=
            (world_object_work hpub hwork).mpr hobjectWork
          rw [hsource]
          refine .bind (.lift ?_ fun _ h => nomatch h)
          rintro _ ⟨⟩
          split
          · exact absurd hobject (hready handle hreach)
          · rename_i hnotReserved
            rw [hinv.targetStorage, hinv.objectBase]
            refine .bind (.update ?_)
            obtain ⟨hinv₁, hgrows₁⟩ :=
              hinv.openSlot hobjectWork hpub.work_storage hreach hnew
            have hlength₁ : (p.openSlot handle
                ⟨.main, target.objects.length + p.objects.length⟩).objects.length =
                p.objects.length + 1 := by
              simp [PendingCopy.openSlot]
            have hcopies : Copies target work roots (copyObject target ⟨work, none⟩ fuel) fail
                (p.openSlot handle ⟨.main, target.objects.length + p.objects.length⟩)
                object.refs := by
              intro next hnext p' hext hinv'
              have hle := hext.objects.length_le
              refine ih hinv' (by omega) (hreach.step ⟨object, hobject, hnext⟩) ?_
              exact hpub.closed.objects hobject _ hnext
            refine .bind ((copyObjectData_runs hpub hinv₁ hcopies
              (fun ref href => hpub.closed.objects hobject ref href)
              (fun heq => hnotReserved heq) ?_).imp ?_ fun _ h => h)
            · rintro rfl e
              exact hfail ⟨handle, hreach, hobject⟩ e
            · rintro copied p₂ ⟨hinv₂, hext₂, hcopied⟩
              have hlookup := hext₂.forwarded (@lookup_cons_self _ _ _ _ _ p.objectsForwarded)
              refine .bind (.update (.pure ⟨hinv₂.closeSlot hlookup hobjectWork hcopied, ?_,
                .inr ⟨hwork, hlookup⟩⟩))
              exact extends_closeSlot hinv₂.objectBase rfl hgrows₁ hext₂ hcopied.ne_reserved

end Objects

end Runs

end Telora.PendingCopy
