import Telora.Heap.ShapeImports
import Telora.Heap.Publication

/-!
# Copies keep the shapes in order

A pending copy hands its shapes on field by field, each to an id of the same text, so a copied
shape lists the texts of its source in the same order. Nothing is asked of the graph that is
copied but that the two heaps are in order.
-/

namespace Telora

open Library PendingCopy

namespace PendingCopy

section Orderly

variable (target work : Heap)

/-- The text that an id will have once the pending texts are appended. -/
def TextAt (p : PendingCopy) (id : InternId) (name : String) : Prop :=
  id.storage = .main ∧ (p.texts target)[id.slot]? = some name

/-- An object that has a value for every field if it is a dict. -/
def DictFits (p : PendingCopy) (object : Object) : Prop :=
  ∀ shape values, object = .dict shape values → shape.storage = .main ∧
    ∃ fields : List InternId, (p.allShapes target)[shape.slot]? = some fields ∧
      fields.length = values.length

/-- The shapes and dicts of a pending copy are in order. -/
structure Orderly (p : PendingCopy) : Prop where
  targetStorage : p.targetStorage = .main
  textBase : p.textBase = target.text.values.length
  shapeBase : p.shapeBase = target.shapes.values.length
  textForwarded : ∀ {id copied}, p.textForwarded.lookup id = some copied →
    TextTo target work p id copied
  text_fresh : ∀ text ∈ p.text.values, target.text.find text = none
  shapesForwarded : ∀ {id copied}, p.shapesForwarded.lookup id = some copied →
    ShapeTo target work p id copied
  shapes_fresh : ∀ fields ∈ p.shapes, target.shapes.find fields = none
  shapes_nodup : p.shapes.Nodup
  shapes : ∀ fields ∈ p.shapes, ∃ names : List String,
    List.Forall₂ (TextAt target p) fields names ∧ names.Pairwise (· < ·)
  dicts : ∀ object ∈ p.objects, DictFits target p object

/-- The tables of a pending copy grow. -/
structure Spreads (p p' : PendingCopy) : Prop where
  text : p.text.values <+: p'.text.values
  shapes : p.shapes <+: p'.shapes

variable {target work} {p p' p'' : PendingCopy}

theorem Spreads.refl (p : PendingCopy) : Spreads p p := ⟨List.prefix_refl _, List.prefix_refl _⟩

theorem Spreads.trans (h : Spreads p p') (h' : Spreads p' p'') : Spreads p p'' :=
  ⟨h.text.trans h'.text, h.shapes.trans h'.shapes⟩

theorem Spreads.texts (h : Spreads p p') : p.texts target <+: p'.texts target :=
  (List.prefix_append_right_inj _).mpr h.text

theorem Spreads.allShapes (h : Spreads p p') : p.allShapes target <+: p'.allShapes target :=
  (List.prefix_append_right_inj _).mpr h.shapes

theorem TextAt.spreads (h : Spreads p p') {id : InternId} {name : String}
    (hat : TextAt target p id name) : TextAt target p' id name :=
  ⟨hat.1, getElem?_of_isPrefix h.texts hat.2⟩

theorem TextTo.spreads (h : Spreads p p') {id copied : InternId}
    (hto : TextTo target work p id copied) : TextTo target work p' id copied := by
  obtain ⟨hstorage, text, htext, hslot⟩ := hto
  exact ⟨hstorage, text, htext, getElem?_of_isPrefix h.texts hslot⟩

theorem ShapeTo.spreads (h : Spreads p p') {id copied : ShapeId}
    (hto : ShapeTo target work p id copied) : ShapeTo target work p' id copied := by
  obtain ⟨hstorage, fields, fields', hfields, hslot, hrel⟩ := hto
  exact ⟨hstorage, fields, fields', hfields, getElem?_of_isPrefix h.allShapes hslot,
    hrel.imp fun _ _ => TextTo.spreads h⟩

/-- The copies of some ids have their texts. -/
theorem textAt_of_textTo {ids copied : List InternId} {names : List String}
    (hnames : ids.mapM (world target work).text = .ok names)
    (hto : List.Forall₂ (TextTo target work p) ids copied) :
    List.Forall₂ (TextAt target p) copied names := by
  refine forall₂_comp ?_ hto.flip (mapM_eq_ok.mp hnames)
  rintro id' id name ⟨hstorage, text, htext, hslot⟩ hname
  obtain rfl := Except.ok.inj (htext.symm.trans hname)
  exact ⟨hstorage, hslot⟩

theorem orderly_new (h : target.storage = .main) : Orderly target work (.new target) where
  targetStorage := h
  textBase := rfl
  shapeBase := rfl
  textForwarded := fun h => nomatch h
  text_fresh := fun _ h => (List.not_mem_nil h).elim
  shapesForwarded := fun h => nomatch h
  shapes_fresh := fun _ h => (List.not_mem_nil h).elim
  shapes_nodup := List.nodup_nil
  shapes := fun _ h => (List.not_mem_nil h).elim
  dicts := fun _ h => (List.not_mem_nil h).elim

end Orderly

section Steps

variable {target work : Heap} {p : PendingCopy}

theorem Orderly.forwardText (h : Orderly target work p) {id copied : InternId}
    (hto : TextTo target work p id copied) :
    Orderly target work (p.forwardText id copied) ∧ Spreads p (p.forwardText id copied) := by
  refine ⟨{ h with textForwarded := ?_ },
    List.prefix_refl _, List.prefix_refl _⟩
  intro other found hlookup
  by_cases hother : other = id
  · subst hother
    rw [PendingCopy.forwardText, lookup_cons_self] at hlookup
    obtain rfl := Option.some.inj hlookup
    exact hto
  · rw [PendingCopy.forwardText, lookup_cons_ne hother] at hlookup
    exact h.textForwarded hlookup

theorem Orderly.insertText (h : Orderly target work p) {text : String}
    (htarget : target.text.find text = none) (hpending : p.text.find text = none) :
    Orderly target work { p with text := (p.text.insert text).1 } ∧
      Spreads p { p with text := (p.text.insert text).1 } := by
  have hspreads : Spreads p { p with text := (p.text.insert text).1 } :=
    ⟨p.text.insert_extends text, List.prefix_refl _⟩
  refine ⟨{ h with
    textForwarded := fun hl => (h.textForwarded hl).spreads hspreads
    text_fresh := ?_
    shapesForwarded := fun hl => (h.shapesForwarded hl).spreads hspreads
    shapes := ?_ }, hspreads⟩
  · intro other hother
    rcases InternTable.mem_insert hother with hold | rfl
    · exact h.text_fresh other hold
    · exact htarget
  · intro fields hfields
    obtain ⟨names, hnames, hsorted⟩ := h.shapes fields hfields
    exact ⟨names, hnames.imp fun _ _ => TextAt.spreads hspreads, hsorted⟩

theorem Orderly.forwardShape (h : Orderly target work p) {id copied : ShapeId}
    (hto : ShapeTo target work p id copied) :
    Orderly target work (p.forwardShape id copied) ∧ Spreads p (p.forwardShape id copied) := by
  refine ⟨{ h with shapesForwarded := ?_ },
    List.prefix_refl _, List.prefix_refl _⟩
  intro other found hlookup
  by_cases hother : other = id
  · subst hother
    rw [PendingCopy.forwardShape, lookup_cons_self] at hlookup
    obtain rfl := Option.some.inj hlookup
    exact hto
  · rw [PendingCopy.forwardShape, lookup_cons_ne hother] at hlookup
    exact h.shapesForwarded hlookup

theorem Orderly.appendShape (h : Orderly target work p) {fields : List InternId}
    (htarget : target.shapes.find fields = none) (hpending : fields ∉ p.shapes)
    {names : List String} (hnames : List.Forall₂ (TextAt target p) fields names)
    (hsorted : names.Pairwise (· < ·)) :
    Orderly target work { p with shapes := p.shapes ++ [fields] } ∧
      Spreads p { p with shapes := p.shapes ++ [fields] } := by
  have hspreads : Spreads p { p with shapes := p.shapes ++ [fields] } :=
    ⟨List.prefix_refl _, List.prefix_append _ _⟩
  refine ⟨{ h with
    shapesForwarded := fun hl => (h.shapesForwarded hl).spreads hspreads
    shapes_fresh := ?_
    shapes_nodup := ?_
    shapes := ?_
    dicts := ?_ }, hspreads⟩
  · intro other hother
    rcases List.mem_append.mp hother with hold | hnew
    · exact h.shapes_fresh other hold
    · rw [List.mem_singleton.mp hnew, htarget]
  · exact List.nodup_append.mpr ⟨h.shapes_nodup, List.nodup_singleton _, fun a ha b hb heq =>
      hpending (by rw [← List.mem_singleton.mp hb, ← heq]; exact ha)⟩
  · intro other hother
    rcases List.mem_append.mp hother with hold | hnew
    · exact h.shapes other hold
    · exact ⟨names, List.mem_singleton.mp hnew ▸ hnames, hsorted⟩
  · intro object hmem shape values hdict
    obtain ⟨hstorage, found, hfound, hlength⟩ := h.dicts object hmem shape values hdict
    exact ⟨hstorage, found, getElem?_of_isPrefix hspreads.allShapes hfound, hlength⟩

/-- Slots are opened, and filled with objects in order. -/
theorem Orderly.openSlot (h : Orderly target work p) (handle copied : Handle) :
    Orderly target work (p.openSlot handle copied) := by
  refine { h with dicts := fun object hmem => ?_ }
  rcases List.mem_append.mp hmem with hold | hnew
  · exact h.dicts object hold
  · rw [List.mem_singleton.mp hnew]
    exact fun _ _ hdict => nomatch hdict

theorem Orderly.closeSlot (h : Orderly target work p) (copied : Handle) {object : Object}
    (hobject : DictFits target p object) : Orderly target work (p.closeSlot copied object) := by
  refine { h with dicts := fun other hmem => ?_ }
  rcases List.mem_or_eq_of_mem_set hmem with hold | rfl
  · exact h.dicts other hold
  · exact hobject

end Steps

section Runs

variable {target work : Heap} {α β : Type}

/-- The heaps of a copy. -/
structure Copied (target work : Heap) : Prop where
  target_storage : target.storage = .main
  work_storage : work.storage = .work
  target_ordered : target.Ordered none
  work_ordered : work.Ordered (some target)

/-- Every run of a copy keeps the pending copy in order, and its result is as described. -/
def InOrder (target work : Heap) (x : Copy α) (post : PendingCopy → α → Prop) : Prop :=
  ∀ p, Orderly target work p →
    Runs x p (fun a p' => Orderly target work p' ∧ Spreads p p' ∧ post p' a) fun _ => True

namespace InOrder

variable {post : PendingCopy → α → Prop} {post' : PendingCopy → β → Prop}

theorem pure {a : α} (h : ∀ p, post p a) : InOrder target work (Pure.pure a) post :=
  fun p hp => .pure ⟨hp, .refl p, h p⟩

theorem throw {e : HeapError} : InOrder target work (MonadExcept.throw e : Copy α) post :=
  fun _ _ => .throw trivial

theorem bind {x : Copy β} {f : β → Copy α} (hx : InOrder target work x post')
    (hf : ∀ b p, Orderly target work p → post' p b →
      Runs (f b) p (fun a p' => Orderly target work p' ∧ Spreads p p' ∧ post p' a) fun _ => True) :
    InOrder target work (x >>= f) post := by
  intro p hp
  refine .bind ((hx p hp).imp ?_ fun _ h => h)
  rintro b p₁ ⟨hp₁, hspreads, hb⟩
  refine (hf b p₁ hp₁ hb).imp ?_ fun _ h => h
  rintro a p₂ ⟨hp₂, hspreads', ha⟩
  exact ⟨hp₂, hspreads.trans hspreads', ha⟩

/-- The same when nothing is asked of the first result. -/
theorem andThen {x : Copy β} {f : β → Copy α} (hx : InOrder target work x fun _ _ => True)
    (hf : ∀ b, InOrder target work (f b) post) : InOrder target work (x >>= f) post :=
  hx.bind fun b p hp _ => hf b p hp

theorem weaken {x : Copy α} (hx : InOrder target work x post) :
    InOrder target work x fun _ _ => True :=
  fun p hp => (hx p hp).imp (fun _ _ h => ⟨h.1, h.2.1, trivial⟩) fun _ h => h

theorem map {x : Copy β} {f : β → α} (hx : InOrder target work x fun _ _ => True) :
    InOrder target work (f <$> x) fun _ _ => True := by
  rw [← bind_pure_comp]
  exact hx.andThen fun _ => .pure fun _ => trivial

/-- A traversal has a result for every element. -/
theorem mapM {f : β → Copy α} (hf : ∀ b, InOrder target work (f b) fun _ _ => True)
    (values : List β) :
    InOrder target work (values.mapM f) fun _ copied => copied.length = values.length := by
  induction values with
  | nil => exact .pure fun _ => rfl
  | cons value rest ih =>
      rw [List.mapM_cons]
      refine (hf value).andThen fun copied => ih.bind fun others p hp hothers => ?_
      exact .pure ⟨hp, .refl p, congrArg (· + 1) hothers⟩

end InOrder

/-- The text of a copied id is the text of its source. -/
theorem copyText_inOrder (h : Copied target work) (id : InternId) :
    InOrder target work (copyText target ⟨work, none⟩ id) fun p copied =>
      TextTo target work p id copied := by
  intro p hp
  unfold copyText
  refine .bind (.get ?_)
  split
  · rename_i hstorage
    rw [hp.targetStorage] at hstorage
    refine .bind (.lift (fun text htext => .pure ?_) fun _ _ => trivial)
    obtain ⟨-, hslot⟩ := Heap.resolveText_eq_ok.mp htext
    refine ⟨hp, .refl p, hstorage, text, ?_, getElem?_of_isPrefix (List.prefix_append _ _) hslot⟩
    exact HeapView.text_eq_ok.mpr
      ⟨target, by rw [hstorage, world_main h.target_storage h.work_storage], hslot⟩
  · rename_i hstorage
    rw [hp.targetStorage] at hstorage
    have hwork := Storage.eq_work_of_ne_main hstorage
    split
    · rename_i forwarded hforwarded
      exact .pure ⟨hp, .refl p, hp.textForwarded hforwarded⟩
    · refine .bind (.lift (fun text hsource => ?_) fun _ _ => trivial)
      have htext : (world target work).text id = .ok text := by
        obtain ⟨found, hfound, hslot⟩ := HeapView.text_eq_ok.mp hsource
        rw [hwork] at hfound
        exact HeapView.text_eq_ok.mpr ⟨found, by rw [hwork]; exact hfound, hslot⟩
      split
      · rename_i copied hfind
        obtain ⟨slot, hslot, rfl⟩ := Option.map_eq_some_iff.mp hfind
        have hto : TextTo target work p id ⟨target.storage, slot⟩ :=
          ⟨h.target_storage, text, htext, getElem?_of_isPrefix (List.prefix_append _ _)
            ((target.text.find_eq_some_iff _ _).mp hslot)⟩
        exact .bind (.update (.pure ⟨(hp.forwardText hto).1, (hp.forwardText hto).2, hto⟩))
      · rename_i hmissing
        have htarget : target.text.find text = none := Option.map_eq_none_iff.mp hmissing
        split
        · rename_i slot hslot
          have hto : TextTo target work p id ⟨p.targetStorage, p.textBase + slot⟩ := by
            refine ⟨hp.targetStorage, text, htext, ?_⟩
            rw [hp.textBase, texts, List.getElem?_append_right (Nat.le_add_right _ _),
              Nat.add_sub_cancel_left]
            exact (p.text.find_eq_some_iff _ _).mp hslot
          exact .bind (.update (.pure ⟨(hp.forwardText hto).1, (hp.forwardText hto).2, hto⟩))
        · rename_i hpending
          obtain ⟨hp₁, hspreads⟩ := hp.insertText htarget hpending
          have hto : TextTo target work { p with text := (p.text.insert text).1 } id
              ⟨p.targetStorage, p.textBase + (p.text.insert text).2⟩ := by
            refine ⟨hp.targetStorage, text, htext, ?_⟩
            rw [hp.textBase, texts, List.getElem?_append_right (Nat.le_add_right _ _),
              Nat.add_sub_cancel_left]
            exact p.text.insert_resolve text
          obtain ⟨hp₂, hspreads'⟩ := hp₁.forwardText hto
          exact .bind (.update (.bind (.update (.pure ⟨hp₂, hspreads.trans hspreads', hto⟩))))

theorem copyTexts_inOrder (h : Copied target work) (ids : List InternId) :
    InOrder target work (ids.mapM (copyText target ⟨work, none⟩)) fun p copied =>
      List.Forall₂ (TextTo target work p) ids copied := by
  intro p hp
  let rel := fun (p : PendingCopy) id copied => TextTo target work p id copied
  have hmono : ∀ {a b x y}, Spreads a b → rel a x y → rel b x y := fun hspreads =>
    TextTo.spreads hspreads
  exact @Runs.mapM _ _ _ _ _ _ _ _ (Orderly target work) _ rel Spreads.refl Spreads.trans hmono
    (fun id _ p' _ hp' => copyText_inOrder h id p' hp') hp

/-- The texts of a copied shape are those of its source, in the same order. -/
theorem copyShape_inOrder (h : Copied target work) (id : ShapeId) :
    InOrder target work (copyShape target ⟨work, none⟩ id) fun p copied =>
      ShapeTo target work p id copied := by
  intro p hp
  unfold copyShape
  refine .bind (.get ?_)
  split
  · rename_i hstorage
    rw [hp.targetStorage] at hstorage
    refine .bind (.lift (fun fields hfields => .pure ?_) fun _ _ => trivial)
    obtain ⟨-, hslot⟩ := Heap.shape_eq_ok.mp hfields
    have hworld : (world target work).shape id = .ok fields := HeapView.shape_eq_ok.mpr
      ⟨target, by rw [hstorage, world_main h.target_storage h.work_storage], hslot⟩
    refine ⟨hp, .refl p, hstorage, fields, fields, hworld,
      getElem?_of_isPrefix (List.prefix_append _ _) hslot, List.forall₂_same.mpr ?_⟩
    intro field hfield
    obtain ⟨names, hnames, -⟩ := h.target_ordered.shapes fields (List.mem_of_getElem? hslot)
    obtain ⟨name, -, hname⟩ := forall₂_mem_left (mapM_eq_ok.mp hnames) hfield
    have hseen := (Heap.resolves_world h.target_storage h.work_storage).texts hname
    obtain ⟨found, hfound, hread⟩ := HeapView.text_eq_ok.mp hname
    have hmain : field.storage = .main := by
      have := HeapView.heap_storage hfound
      cases hcase : field.storage with
      | main => rfl
      | work =>
          rw [hcase] at hfound
          simp [HeapView.heap, h.target_storage] at hfound
    rw [hmain] at hfound
    simp only [HeapView.heap, if_pos h.target_storage] at hfound
    obtain rfl := Except.ok.inj hfound
    exact ⟨hmain, name, hseen, getElem?_of_isPrefix (List.prefix_append _ _) hread⟩
  · rename_i hstorage
    rw [hp.targetStorage] at hstorage
    have hwork := Storage.eq_work_of_ne_main hstorage
    split
    · rename_i forwarded hforwarded
      exact .pure ⟨hp, .refl p, hp.shapesForwarded hforwarded⟩
    · refine .bind (.lift (fun fields hsource => ?_) fun _ _ => trivial)
      obtain ⟨found, hfound, hslot⟩ := HeapView.shape_eq_ok.mp hsource
      obtain rfl : work = found := by
        rw [hwork] at hfound
        simp only [HeapView.heap, if_pos h.work_storage] at hfound
        exact Except.ok.inj hfound
      have hfields : (world target work).shape id = .ok fields :=
        HeapView.shape_eq_ok.mpr ⟨work, by rw [hwork]; rw [hwork] at hfound; exact hfound, hslot⟩
      obtain ⟨names, hnames, hsorted⟩ := h.work_ordered.shapes fields (List.mem_of_getElem? hslot)
      refine .bind ((copyTexts_inOrder h fields p hp).imp ?_ fun _ h => h)
      rintro copied p₁ ⟨hp₁, hspreads, hcopied⟩
      refine .bind (.get ?_)
      split
      · rename_i slot hfind
        have hto : ShapeTo target work p₁ id ⟨p₁.targetStorage, slot⟩ :=
          ⟨hp₁.targetStorage, fields, copied, hfields,
            getElem?_of_isPrefix (List.prefix_append _ _)
              ((target.shapes.find_eq_some_iff _ _).mp hfind), hcopied⟩
        obtain ⟨hp₂, hspreads'⟩ := hp₁.forwardShape hto
        exact .bind (.update (.pure ⟨hp₂, hspreads.trans hspreads', hto⟩))
      · rename_i htarget
        split
        · rename_i index hindex
          have hto : ShapeTo target work p₁ id ⟨p₁.targetStorage, p₁.shapeBase + index⟩ := by
            refine ⟨hp₁.targetStorage, fields, copied, hfields, ?_, hcopied⟩
            obtain ⟨hlt, heq, -⟩ := List.findIdx?_eq_some_iff_getElem.mp hindex
            rw [hp₁.shapeBase, allShapes, List.getElem?_append_right (Nat.le_add_right _ _),
              Nat.add_sub_cancel_left, List.getElem?_eq_getElem hlt, eq_of_beq heq]
          obtain ⟨hp₂, hspreads'⟩ := hp₁.forwardShape hto
          exact .bind (.update (.pure ⟨hp₂, hspreads.trans hspreads', hto⟩))
        · rename_i hmissing
          have hnew : copied ∉ p₁.shapes := fun hmem => by
            simpa using List.findIdx?_eq_none_iff.mp hmissing copied hmem
          obtain ⟨hp₂, hspreads'⟩ :=
            hp₁.appendShape htarget hnew (textAt_of_textTo hnames hcopied) hsorted
          have hto : ShapeTo target work { p₁ with shapes := p₁.shapes ++ [copied] } id
              ⟨p₁.targetStorage, p₁.shapeBase + p₁.shapes.length⟩ := by
            refine ⟨hp₁.targetStorage, fields, copied, hfields, ?_, hcopied⟩
            simp [hp₁.shapeBase, allShapes]
          obtain ⟨hp₃, hspreads''⟩ := hp₂.forwardShape hto
          exact .bind (.update (.bind (.update
            (.pure ⟨hp₃, (hspreads.trans hspreads').trans hspreads'', hto⟩))))

section Objects

variable {copyObject : Handle → Copy Handle}

theorem copyValue_inOrder (h : Copied target work)
    (hcopy : ∀ handle, InOrder target work (copyObject handle) fun _ _ => True)
    (rich : RichValue) :
    InOrder target work (copyValue target ⟨work, none⟩ copyObject rich) fun _ _ => True := by
  have htext := fun id => (copyText_inOrder h id).weaken
  have hend : ∀ value, InOrder target work (Pure.pure (rich.withValue value)) fun _ _ => True :=
    fun _ => .pure fun _ => trivial
  unfold copyValue
  cases rich.value with
  | int | float | builtinAtom => exact .pure fun _ => trivial
  | atom id | shortString id => exact (htext id).map.andThen hend
  | _ handle => exact (hcopy handle).map.andThen hend

theorem copyValues_inOrder (h : Copied target work)
    (hcopy : ∀ handle, InOrder target work (copyObject handle) fun _ _ => True)
    (values : List RichValue) :
    InOrder target work (values.mapM (copyValue target ⟨work, none⟩ copyObject))
      fun _ copied => copied.length = values.length :=
  .mapM (copyValue_inOrder h hcopy) values

theorem copyPrototype_inOrder
    (hcopy : ∀ handle, InOrder target work (copyObject handle) fun _ _ => True)
    (prototype : RuntimePrototype) :
    InOrder target work (copyPrototype copyObject prototype) fun _ _ => True := by
  cases prototype with
  | bytecode handle => exact (hcopy handle).map
  | native function => exact .pure fun _ => trivial

/-- A dict of the source fits its shape, and so does its copy. -/
theorem copyObjectData_inOrder (h : Copied target work)
    (hcopy : ∀ handle, InOrder target work (copyObject handle) fun _ _ => True) {object : Object}
    (hobject : ∀ shape values, object = .dict shape values →
      (world target work).Fits shape values) :
    InOrder target work (copyObjectData target ⟨work, none⟩ copyObject object) fun p copied =>
      DictFits target p copied := by
  have hvalues := fun values => (copyValues_inOrder h hcopy values).weaken
  cases object with
  | reserved => exact .throw
  | string | bytes | nativeType | opaqueValue =>
      exact .pure fun _ _ _ hdict => nomatch hdict
  | array values | tuple values =>
      exact (hvalues values).andThen fun _ => .pure fun _ _ _ hdict => nomatch hdict
  | tagged tag payload =>
      refine (copyValue_inOrder h hcopy tag).andThen fun _ => ?_
      refine (copyValue_inOrder h hcopy payload).andThen fun _ => ?_
      exact .pure fun _ _ _ hdict => nomatch hdict
  | dict shape values =>
      refine (copyShape_inOrder h shape).bind fun copied p hp hto => ?_
      refine .bind ((copyValues_inOrder h hcopy values p hp).imp ?_ fun _ h => h)
      rintro values' p₁ ⟨hp₁, hspreads, hlength⟩
      refine .pure ⟨hp₁, hspreads, fun shape' others hdict => ?_⟩
      obtain ⟨rfl, rfl⟩ := Object.dict.inj hdict
      obtain ⟨hstorage, fields, fields', hfields, hslot, hrel⟩ := hto.spreads hspreads
      obtain ⟨ids, hids, hfits⟩ := hobject shape values rfl
      obtain rfl := Except.ok.inj (hids.symm.trans hfields)
      exact ⟨hstorage, fields', hslot, (hrel.length_eq.symm.trans hfits).trans hlength.symm⟩
  | closure identity prototype upvalues =>
      refine (copyPrototype_inOrder hcopy prototype).andThen fun _ => ?_
      exact (hvalues upvalues).andThen fun _ => .pure fun _ _ _ hdict => nomatch hdict
  | dyn identity descriptor value scheme origin =>
      refine (copyValue_inOrder h hcopy descriptor).andThen fun _ => ?_
      refine (copyValue_inOrder h hcopy value).andThen fun _ => ?_
      exact .pure fun _ _ _ hdict => nomatch hdict
  | upLink value =>
      cases value with
      | none => exact .throw
      | some value =>
          refine (copyValue_inOrder h hcopy value).andThen fun _ => ?_
          exact .pure fun _ _ _ hdict => nomatch hdict
  | byteCodeProto code values text prototypes =>
      refine (hvalues values).andThen fun _ => ?_
      refine (copyTexts_inOrder h text).weaken.andThen fun _ => ?_
      refine (InOrder.mapM (copyPrototype_inOrder hcopy) prototypes).weaken.andThen fun _ => ?_
      exact .pure fun _ _ _ hdict => nomatch hdict

theorem copyObject_inOrder (h : Copied target work) (fuel : Nat) : ∀ handle,
    InOrder target work (PendingCopy.copyObject target ⟨work, none⟩ fuel handle)
      fun _ _ => True := by
  induction fuel with
  | zero => exact fun _ => .throw
  | succ fuel ih =>
      intro handle p hp
      unfold PendingCopy.copyObject
      refine .bind (.get ?_)
      split
      · exact .bind (.lift (fun _ _ => .pure ⟨hp, .refl p, trivial⟩) fun _ _ => trivial)
      · rename_i hstorage
        rw [hp.targetStorage] at hstorage
        have hwork := Storage.eq_work_of_ne_main hstorage
        split
        · exact .pure ⟨hp, .refl p, trivial⟩
        · refine .bind (.lift (fun object hsource => ?_) fun _ _ => trivial)
          have hobject : ∀ shape values, object = .dict shape values →
              (world target work).Fits shape values := by
            rintro shape values rfl
            obtain ⟨found, hfound, hslot⟩ := HeapView.object_eq_ok.mp hsource
            rw [hwork] at hfound
            simp only [HeapView.heap, if_pos h.work_storage] at hfound
            obtain rfl := Except.ok.inj hfound
            exact h.work_ordered.dicts shape values (List.mem_of_getElem? hslot)
          have hopen := hp.openSlot handle ⟨p.targetStorage, p.objectBase + p.objects.length⟩
          split
          · exact .throw trivial
          · refine .bind (.update (.bind ((copyObjectData_inOrder h ih hobject _ hopen).imp ?_
              fun _ h => h)))
            rintro copied p₁ ⟨hp₁, hspreads, hfits⟩
            exact .bind (.update (.pure ⟨hp₁.closeSlot _ hfits,
              ⟨hspreads.text, hspreads.shapes⟩, trivial⟩))

end Objects

/-- Committing appends each pending table at the base it was predicted from. -/
theorem Orderly.commit {p : PendingCopy} (hp : Orderly target work p) :
    (p.commit target).storage = target.storage ∧
      (p.commit target).objects = target.objects ++ p.objects ∧
      (p.commit target).text.values = p.texts target ∧
      (p.commit target).shapes.values = p.allShapes target :=
  commit_tables hp.text_fresh hp.shapes_nodup hp.shapes_fresh

/-- The target stays in order. -/
theorem Orderly.commit_ordered {p : PendingCopy} (hp : Orderly target work p)
    (h : Copied target work) :
    (p.commit target).Ordered none ∧ target.Widens (p.commit target) := by
  obtain ⟨hstorage, hobjects, htext, hshapes⟩ := hp.commit
  have hwidens : target.Widens (p.commit target) := by
    refine ⟨hstorage, ?_, ?_⟩
    · rw [htext]
      exact List.prefix_append _ _
    · rw [hshapes]
      exact List.prefix_append _ _
  have hmain : (⟨p.commit target, none⟩ : HeapView).heap .main = .ok (p.commit target) := by
    simp [HeapView.heap, hstorage, h.target_storage]
  refine ⟨h.target_ordered.widens hwidens ?_ ?_, hwidens⟩
  · intro ids hmem
    rw [hshapes] at hmem
    refine (List.mem_append.mp hmem).imp_right fun hnew => ?_
    obtain ⟨names, hnames, hsorted⟩ := hp.shapes ids hnew
    refine ⟨names, mapM_eq_ok.mpr (hnames.imp fun id name hat => ?_), hsorted⟩
    refine HeapView.text_eq_ok.mpr ⟨p.commit target, by rw [hat.1, hmain], ?_⟩
    rw [InternTable.resolve, htext]
    exact hat.2
  · intro shape values hmem
    rw [hobjects] at hmem
    refine (List.mem_append.mp hmem).imp_right fun hnew => ?_
    obtain ⟨hstorage', fields, hslot, hlength⟩ := hp.dicts _ hnew shape values rfl
    refine ⟨fields, HeapView.shape_eq_ok.mpr ⟨p.commit target, by rw [hstorage', hmain], ?_⟩,
      hlength⟩
    rw [InternTable.resolve, hshapes]
    exact hslot

end Runs

end PendingCopy

section Copies

variable {target work target' : Heap}

/-- Copying roots into the main heap keeps it in order. -/
theorem copyRoots_ordered (h : Copied target work) {roots roots' : List RichValue}
    (hcopy : copyRoots target ⟨work, none⟩ roots = .ok (roots', target')) :
    target'.Ordered none ∧ target.Widens target' := by
  unfold copyRoots at hcopy
  obtain ⟨⟨copied, p⟩, hrun, hrest⟩ := bind_eq_ok.mp hcopy
  obtain ⟨_, -, hresult⟩ := bind_eq_ok.mp hrest
  obtain ⟨-, rfl⟩ := Prod.mk.inj (pure_eq_ok.mp hresult)
  obtain ⟨hp, -, -⟩ := ((copyValues_inOrder h (copyObject_inOrder h _) roots) _
    (orderly_new h.target_storage)).of_ok hrun
  exact hp.commit_ordered h

theorem publishRoot_ordered (h : Copied target work) {root root' : RichValue}
    (hpublish : publishRoot target work root = .ok (root', target')) :
    target'.Ordered none ∧ target.Widens target' := by
  unfold publishRoot at hpublish
  rw [if_neg (by simp [h.target_storage, h.work_storage])] at hpublish
  obtain ⟨⟨roots, committed⟩, hcopy, hrest⟩ := bind_eq_ok.mp hpublish
  cases roots with
  | nil => cases hrest
  | cons root roots =>
      obtain ⟨-, rfl⟩ := Prod.mk.inj (pure_eq_ok.mp hrest)
      exact copyRoots_ordered h hcopy

end Copies

end Telora
