import Telora.Heap.Access
import Telora.Heap.Copies

/-!
# Dicts as a view reads them

A dict is read as the ids of its fields, the texts they stand for, and the values. A
lookup by text depends on the texts and the values alone, and where the texts increase it
finds the value next to the text. What is read stays so while the heap grows.
-/

namespace Telora

open Library

namespace HeapView

/-- What a view reads of a dict: the ids of its fields, their texts, and the values. -/
structure DictAt (view : HeapView) (handle : Handle) (ids : List InternId) (names : List String)
    (values : List RichValue) : Prop where
  object : ∃ shape, view.object handle = .ok (.dict shape values) ∧ view.shape shape = .ok ids
  texts : ids.mapM view.text = .ok names

/-- The value that the binary search finds next to a name. -/
def lookupName (names : List String) (values : List RichValue) (name : String) :
    Option RichValue :=
  (binarySearchBy (fun index => compare (names[index]?.getD "") name) names.length).bind
    (values[·]?)

section Dicts

variable {view : HeapView} {handle : Handle} {ids ids' : List InternId} {names names' : List String}
  {values values' : List RichValue}

theorem fieldText_of_ok {id : InternId} {text : String} (h : view.text id = .ok text) :
    view.fieldText id = text := by
  rw [fieldText, h]

theorem map_fieldText (h : ids.mapM view.text = .ok names) : ids.map view.fieldText = names := by
  induction mapM_eq_ok.mp h with
  | nil => rfl
  | cons hid htail ih =>
      rw [List.map_cons, fieldText_of_ok hid, ih (mapM_eq_ok.mpr htail)]

theorem DictAt.dictGetText (h : view.DictAt handle ids names values) (name : String) :
    view.dictGetText handle name = .ok (lookupName names values name) := by
  obtain ⟨shape, hobject, hshape⟩ := h.object
  have hcompare : view.compareField ids name =
      fun index => compare (names[index]?.getD "") name := by
    funext index
    rw [compareField, ← List.getElem?_map, map_fieldText h.texts]
  have hlength : ids.length = names.length := by
    rw [← map_fieldText h.texts, List.length_map]
  have hdict : view.dictShape handle = .ok (shape, values) := by
    rw [dictShape, hobject]
    rfl
  rw [HeapView.dictGetText, hdict]
  change (view.shape shape >>= fun fields => _) = _
  rw [hshape, lookupName, ← hcompare, ← hlength]
  rfl

theorem DictAt.dictFieldParts (h : view.DictAt handle ids names values) :
    view.dictFieldParts handle = .ok (ids, values) := by
  obtain ⟨shape, hobject, hshape⟩ := h.object
  have hdict : view.dictShape handle = .ok (shape, values) := by
    rw [dictShape, hobject]
    rfl
  rw [HeapView.dictFieldParts, hdict]
  change (view.shape shape >>= fun fields => _) = _
  rw [hshape]
  rfl

theorem DictAt.dictFields (h : view.DictAt handle ids names values) :
    view.dictFields handle = .ok names := by
  obtain ⟨shape, hobject, hshape⟩ := h.object
  have hdict : view.dictShape handle = .ok (shape, values) := by
    rw [dictShape, hobject]
    rfl
  rw [HeapView.dictFields, hdict]
  change (view.shape shape >>= fun fields => _) = _
  rw [hshape]
  exact h.texts

/-- A view reads a dict in one way. -/
theorem DictAt.unique (h : view.DictAt handle ids names values)
    (h' : view.DictAt handle ids' names' values') :
    ids = ids' ∧ names = names' ∧ values = values' := by
  obtain ⟨rfl, rfl⟩ := Prod.mk.inj (Except.ok.inj (h.dictFieldParts.symm.trans h'.dictFieldParts))
  exact ⟨rfl, Except.ok.inj (h.texts.symm.trans h'.texts), rfl⟩

/-- The ids of two shapes with one list of names stand for the same texts. -/
theorem sameTexts {right : HeapView} (h : ids.mapM view.text = .ok names)
    (h' : ids'.mapM right.text = .ok names) :
    List.Forall₂ (fun id id' => ∃ text, view.text id = .ok text ∧ right.text id' = .ok text)
      ids ids' :=
  forall₂_comp (fun hid hid' => ⟨_, hid, hid'⟩) (mapM_eq_ok.mp h) (mapM_eq_ok.mp h').flip

/-- In increasing names the search finds the value next to the name. -/
theorem lookupName_eq (hsorted : names.Pairwise (· < ·)) (hlength : names.length = values.length)
    (name : String) : lookupName names values name = (names.zip values).lookup name := by
  refine bind_binarySearchBy hsorted hlength fun i hi => ?_
  rw [List.getElem?_eq_getElem hi]
  rfl

/-- With the id of a text, wherever it is interned, the search finds what it finds with the
text. -/
theorem DictAt.dictGet (h : view.DictAt handle ids names values) {field : InternId} {name : String}
    (hfield : view.text field = .ok name) (hsorted : names.Pairwise (· < ·))
    (hlength : names.length = values.length) :
    view.dictGet handle field = .ok (lookupName names values name) := by
  obtain ⟨shape, hobject, hshape⟩ := h.object
  have hdict : view.dictShape handle = .ok (shape, values) := by
    rw [dictShape, hobject]
    rfl
  have hids : ids.length = names.length := (mapM_eq_ok.mp h.texts).length_eq
  have hcompare : ∀ (i : Nat) (hi : i < names.length),
      view.compareFieldId ids field name i = compare names[i] name := by
    intro i hi
    have hindex : i < ids.length := hids ▸ hi
    have htext : view.text ids[i] = .ok names[i] := by
      simpa using (mapM_eq_ok.mp h.texts).get hindex hi
    rw [compareFieldId, compareField, List.getElem?_eq_getElem hindex]
    by_cases hsame : ids[i] = field
    · rw [if_pos (congrArg some hsame), eq_comm, compare_eq_iff_eq]
      rw [hsame] at htext
      exact Except.ok.inj (htext.symm.trans hfield)
    · rw [if_neg fun heq => hsame (Option.some.inj heq), Option.map_some, Option.getD_some,
        fieldText_of_ok htext]
  rw [HeapView.dictGet, hdict]
  change (view.text field >>= fun wanted => _) = _
  rw [hfield]
  change (view.shape shape >>= fun fields => _) = _
  rw [hshape]
  change Except.ok ((binarySearchBy (view.compareFieldId ids field name) ids.length).bind
    (values[·]?)) = _
  rw [hids, bind_binarySearchBy hsorted hlength hcompare, lookupName_eq hsorted hlength]

/-- A view that resolves more reads the same dict. -/
theorem DictAt.extends {view' : HeapView} (h : view.DictAt handle ids names values)
    (hextends : view.Extends view') : view'.DictAt handle ids names values := by
  obtain ⟨shape, hobject, hshape⟩ := h.object
  refine ⟨⟨shape, hextends.objects hobject, hextends.shapes hshape⟩, ?_⟩
  exact mapM_eq_ok.mpr ((mapM_eq_ok.mp h.texts).imp fun _ _ htext => hextends.texts htext)

theorem Extends.atomText {view' : HeapView} (hextends : view.Extends view') {value : RuntimeValue}
    {found : Option String} (h : view.atomText value = .ok found) :
    view'.atomText value = .ok found := by
  cases value with
  | atom id =>
      cases htext : view.text id with
      | error e =>
          rw [HeapView.atomText, htext] at h
          cases h
      | ok text =>
          rw [HeapView.atomText, htext] at h
          rw [HeapView.atomText, hextends.texts htext]
          exact h
  | _ => exact h

end Dicts

end HeapView

end Telora
