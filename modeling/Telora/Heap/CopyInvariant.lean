import Telora.Heap.Publish
import Telora.Heap.Graph
import Mathlib.Data.List.Perm.Subperm

/-!
# The invariant of a pending copy

A pending copy predicts the heap that the target becomes. Each forwarded object
is either held open or already corresponds to its source; texts and shapes are
handed the slots they get when the pending tables are appended.
-/

namespace Telora

open Library

/-- A heap that stands alone: its references resolve in it and nothing is unfilled. -/
structure Heap.SelfContained (heap : Heap) : Prop where
  storage : heap.storage = .main
  closed : (⟨heap, none⟩ : HeapView).Closed
  initialized : ∀ object ∈ heap.objects, object ≠ .reserved ∧ object ≠ .upLink none

/-- A work heap over the main heap it refers to. -/
def world (target work : Heap) : HeapView := ⟨work, some target⟩

/-- The heaps that a publication starts from. -/
structure Publishable (target work : Heap) : Prop where
  work_storage : work.storage = .work
  target_selfContained : target.SelfContained
  closed : (world target work).Closed

namespace PendingCopy

/-- The texts of the target once the pending texts are appended. -/
def texts (target : Heap) (pending : PendingCopy) : List String :=
  target.text.values ++ pending.text.values

/-- The shapes of the target once the pending shapes are appended. -/
def allShapes (target : Heap) (pending : PendingCopy) : List (List InternId) :=
  target.shapes.values ++ pending.shapes

section Correspondence

variable (target work : Heap) (pending : PendingCopy)

/-- Where an object goes: a main object stays, a work object is forwarded. -/
def ObjectTo (handle copied : Handle) : Prop :=
  (handle.storage = .main ∧ copied = handle ∧ handle.slot < target.objects.length) ∨
    (handle.storage = .work ∧ pending.objectsForwarded.lookup handle = some copied)

/-- Where a text goes: to a main slot that holds the same text. -/
def TextTo (id copied : InternId) : Prop :=
  copied.storage = .main ∧ ∃ text, (world target work).text id = .ok text ∧
    (pending.texts target)[copied.slot]? = some text

/-- Where a shape goes: to a main slot that holds the same field names. -/
def ShapeTo (id copied : ShapeId) : Prop :=
  copied.storage = .main ∧ ∃ fields fields', (world target work).shape id = .ok fields ∧
    (pending.allShapes target)[copied.slot]? = some fields' ∧
    List.Forall₂ (TextTo target work pending) fields fields'

/-- The copy of an object corresponds to it. -/
def ObjectCopied (object copied : Object) : Prop :=
  Object.Rel (ObjectTo target pending) (TextTo target work pending)
    (ShapeTo target work pending) object copied

end Correspondence

/-- The tables of a pending copy only grow. -/
structure Grows (p p' : PendingCopy) : Prop where
  objects : p.objects <+: p'.objects
  forwarded : ∀ {handle copied}, p.objectsForwarded.lookup handle = some copied →
    p'.objectsForwarded.lookup handle = some copied
  text : p.text.values <+: p'.text.values
  shapes : p.shapes <+: p'.shapes

/-- A pending copy grows and every slot it opened is closed again. -/
structure Extends (p p' : PendingCopy) : Prop extends Grows p p' where
  closed : ∀ i, p.objects.length ≤ i → p'.objects[i]? ≠ some .reserved

namespace Extends

theorem refl (p : PendingCopy) : Extends p p where
  objects := List.prefix_refl _
  forwarded := id
  text := List.prefix_refl _
  shapes := List.prefix_refl _
  closed := fun i hi => by simp [List.getElem?_eq_none hi]

theorem trans {a b c : PendingCopy} (hab : Extends a b) (hbc : Extends b c) : Extends a c where
  objects := hab.objects.trans hbc.objects
  forwarded := hbc.forwarded ∘ hab.forwarded
  text := hab.text.trans hbc.text
  shapes := hab.shapes.trans hbc.shapes
  closed := fun i hi => by
    by_cases hlt : i < b.objects.length
    · obtain ⟨rest, hrest⟩ := hbc.objects
      rw [← hrest, List.getElem?_append_left hlt]
      exact hab.closed i hi
    · exact hbc.closed i (Nat.le_of_not_lt hlt)

end Extends

section Growth

variable {target work : Heap} {p p' : PendingCopy}

theorem Grows.texts (h : Grows p p') : p.texts target <+: p'.texts target :=
  (List.prefix_append_right_inj _).mpr h.text

theorem Grows.allShapes (h : Grows p p') : p.allShapes target <+: p'.allShapes target :=
  (List.prefix_append_right_inj _).mpr h.shapes

theorem ObjectTo.grows (h : Grows p p') {handle copied : Handle}
    (hto : ObjectTo target p handle copied) : ObjectTo target p' handle copied :=
  hto.imp id fun hwork => ⟨hwork.1, h.forwarded hwork.2⟩

theorem TextTo.grows (h : Grows p p') {id copied : InternId}
    (hto : TextTo target work p id copied) : TextTo target work p' id copied := by
  obtain ⟨hstorage, text, htext, hslot⟩ := hto
  exact ⟨hstorage, text, htext, getElem?_of_isPrefix h.texts hslot⟩

theorem ShapeTo.grows (h : Grows p p') {id copied : ShapeId}
    (hto : ShapeTo target work p id copied) : ShapeTo target work p' id copied := by
  obtain ⟨hstorage, fields, fields', hfields, hslot, hrel⟩ := hto
  exact ⟨hstorage, fields, fields', hfields, getElem?_of_isPrefix h.allShapes hslot,
    hrel.imp fun _ _ => TextTo.grows h⟩

theorem ObjectCopied.grows (h : Grows p p') {object copied : Object}
    (hcopied : ObjectCopied target work p object copied) :
    ObjectCopied target work p' object copied :=
  Object.Rel.imp (fun _ _ => ObjectTo.grows h) (fun _ _ => TextTo.grows h)
    (fun _ _ => ShapeTo.grows h) hcopied

end Growth

/-- The invariant of a copy of the graph below `roots`. -/
structure Invariant (target work : Heap) (roots : List Ref) (p : PendingCopy) : Prop where
  targetStorage : p.targetStorage = .main
  objectBase : p.objectBase = target.objects.length
  textBase : p.textBase = target.text.values.length
  shapeBase : p.shapeBase = target.shapes.values.length
  /-- A forwarded handle is a work handle of the graph; its slot is a pending one. -/
  forwarded : ∀ {handle copied}, p.objectsForwarded.lookup handle = some copied →
    handle.storage = .work ∧ (world target work).Reaches roots handle ∧
      ∃ i < p.objects.length, copied = ⟨.main, target.objects.length + i⟩
  /-- Two handles are never forwarded to one slot. -/
  injective : ∀ {h h' copied}, p.objectsForwarded.lookup h = some copied →
    p.objectsForwarded.lookup h' = some copied → h = h'
  /-- A pending slot belongs to a forwarded handle and is open or done. -/
  filled : ∀ i < p.objects.length, ∃ handle object copied,
    p.objectsForwarded.lookup handle = some ⟨.main, target.objects.length + i⟩ ∧
      work.object handle = .ok object ∧ p.objects[i]? = some copied ∧
      (copied = .reserved ∨ ObjectCopied target work p object copied)
  /-- The forwarded handles are distinct, one for each pending slot. -/
  keys_nodup : (p.objectsForwarded.map Prod.fst).Nodup
  keys_length : p.objectsForwarded.length = p.objects.length
  keys_work : ∀ entry ∈ p.objectsForwarded, entry.1.storage = .work ∧
    entry.1.slot < work.objects.length
  textForwarded : ∀ {id copied}, p.textForwarded.lookup id = some copied →
    TextTo target work p id copied
  text_fresh : ∀ text ∈ p.text.values, target.text.find text = none
  shapesForwarded : ∀ {id copied}, p.shapesForwarded.lookup id = some copied →
    ShapeTo target work p id copied
  shapes_fresh : ∀ fields ∈ p.shapes, target.shapes.find fields = none
  shapes_nodup : p.shapes.Nodup
  shapes_main : ∀ fields ∈ p.shapes, ∀ field ∈ fields,
    field.storage = .main ∧ field.slot < (p.texts target).length

section Invariant

variable {target work : Heap} {roots : List Ref} {p : PendingCopy}

theorem invariant_new (h : target.storage = .main) : Invariant target work roots (.new target) where
  targetStorage := h
  objectBase := rfl
  textBase := rfl
  shapeBase := rfl
  forwarded := fun h => by cases h
  injective := fun h => by cases h
  filled := fun i hi => by cases hi
  keys_nodup := List.nodup_nil
  keys_length := rfl
  keys_work := fun _ h => by cases h
  textForwarded := fun h => by cases h
  text_fresh := fun _ h => by cases h
  shapesForwarded := fun h => by cases h
  shapes_fresh := fun _ h => by cases h
  shapes_nodup := List.nodup_nil
  shapes_main := fun _ h => by cases h

/-- No more objects are forwarded than the work heap has. -/
theorem Invariant.length_le (h : Invariant target work roots p) :
    p.objects.length ≤ work.objects.length := by
  have hsub : (p.objectsForwarded.map Prod.fst) ⊆
      (List.range work.objects.length).map (⟨.work, ·⟩ : Nat → Handle) := by
    intro key hkey
    obtain ⟨entry, hentry, rfl⟩ := List.mem_map.mp hkey
    obtain ⟨hstorage, hslot⟩ := h.keys_work entry hentry
    refine List.mem_map.mpr ⟨entry.1.slot, List.mem_range.mpr hslot, ?_⟩
    rw [← hstorage]
  have hle := (List.subperm_of_subset h.keys_nodup hsub).length_le
  simpa [h.keys_length] using hle

end Invariant

end PendingCopy

end Telora
