import Telora.Dyn.Observe
import Telora.Heap.Dicts
import Telora.Heap.Import
import Telora.Natives.ValueRef
import Telora.Vm.Account

/-!
# Attributes of type metadata

Attributes stand in wrapper layers around type metadata. Four readers peel the layers:
`std/attributes` overwrites from the inside, the codec keeps what it met first from the
outside, and the providers of `std/regex` and `std/fmt` stop at the first hit. They see
the same attributes, those of the outermost layer that carries them.

Metadata in layers of attributes is read one layer after another. Each reader does the
same at a layer and stops at the same metadata, so all of them see the attributes of the
outermost layer that carries a key, and they see no change when the layers are merged
into one.
-/

namespace Telora

open Library Vm

section Flatten

variable (site : Site) (view : HeapView)

/-- A read of the heap, reported as invalid bytecode when it fails. -/
def siteRead {α : Type} (result : Except HeapError α) : Fueled RuntimeError α :=
  ExceptT.mk (some (site.heap result))

/-- The loop of `flatten_attributes`: what is under the layers, and the layers from the
outermost to the innermost. -/
def attributeLayers (path : String) : Nat → RichValue → List (List (String × RichValue)) →
    Fueled RuntimeError (RichValue × List (List (String × RichValue)))
  | 0, _, _ => outOfFuel
  | fuel + 1, value, layers =>
      match value.value with
      | .dict handle => do
          let kind ← siteRead site (view.dictGetText handle "kind")
          match kind with
          | none => return (value, layers)
          | some kind => do
              let kind ← siteRead site (view.atomText kind.value)
              if kind ≠ some "WithAttributes" then
                return (value, layers)
              else do
                let fields ← siteRead site (view.dictFields handle)
                if fields ≠ ["attributes", "inner", "kind"] then
                  throw (site.error .typeMismatch
                    s!"{path} WithAttributes wrapper must have exactly attributes, inner, and kind fields")
                else do
                  -- the code expects both fields to be there, once the names are checked
                  let inner ← siteRead site (view.dictGetText handle "inner")
                  let inner ← orThrow (site.error .typeMismatch "validated wrapper field") inner
                  let attributes ← siteRead site (view.dictGetText handle "attributes")
                  let attributes ← orThrow (site.error .typeMismatch "validated wrapper field")
                    attributes
                  let attributes ← orThrow
                    (site.error .typeMismatch s!"{path}.attributes must be a Dict")
                    attributes.value.asDict
                  let (names, values) ← siteRead site (view.dictFieldParts attributes)
                  let layer ← (names.zip values).mapM fun entry => do
                    let name ← siteRead site (view.text entry.1)
                    return (name, entry.2)
                  attributeLayers path fuel inner (layers ++ [layer])
      | _ => return (value, layers)

/-- Add the entries of a layer, over what is there. -/
def extendEntries (entries layer : List (String × RichValue)) : List (String × RichValue) :=
  layer.foldl (fun entries entry => insertEntry entry.1 entry.2 entries) entries

/-- The layers as one, from the innermost to the outermost. -/
def mergeLayers (layers : List (List (String × RichValue))) : List (String × RichValue) :=
  layers.reverse.foldl extendEntries []

def flattenAttributes (path : String) (fuel : Nat) (value : RichValue) :
    Fueled RuntimeError (RichValue × List (String × RichValue)) := do
  let (inner, layers) ← attributeLayers site view path fuel value []
  return (inner, mergeLayers layers)

end Flatten

/-- Allocate a dict of entries in the order of their keys. -/
def allocateCoreDictUnchecked (entries : List (String × RichValue)) (location : Option Loc)
    (current : Heap) : RichValue × Heap :=
  let (fields, current) := entries.foldl
    (fun (state : List InternId × Heap) entry =>
      let (id, current) := state.2.intern entry.1
      (state.1 ++ [id], current)) ([], current)
  let (shape, current) := current.internShape fields
  let (handle, current) := current.allocate (.dict shape (entries.map (·.2)))
  (.new (.dict handle) location, current)

/-- One layer of attributes around metadata. -/
def allocateAttributesWrapper (inner : RichValue) (attributes : List (String × RichValue))
    (kindLocation location : Option Loc) (current : Heap) : RichValue × Heap :=
  let (attributes, current) := allocateCoreDictUnchecked attributes location current
  let (kind, current) := current.intern "WithAttributes"
  allocateCoreDictUnchecked
    [("attributes", attributes), ("inner", inner), ("kind", .new (.atom kind) kindLocation)]
    location current

open HeapView

/-- Metadata that is no wrapper and no link, and has no attributes of its own. -/
structure PlainMetadata (view : HeapView) (value : RichValue) : Prop where
  notLink : ∀ handle, value.value ≠ .upLink handle
  dict : ∀ handle, value.value = .dict handle → ∃ ids names values,
    view.DictAt handle ids names values ∧ lookupName names values "attributes" = none ∧
    ∀ kind, lookupName names values "kind" = some kind →
      ∃ text, view.atomText kind.value = .ok text ∧ text ≠ some "WithAttributes"

/-- A wrapper with its three fields, around a value: a dict of attributes in the order of
their names. -/
structure WrapperAt (view : HeapView) (value inner : RichValue) (names : List String)
    (values : List RichValue) : Prop where
  wrapper : ∃ handle ids attributes kind dict ids', value.value = .dict handle ∧
    view.DictAt handle ids ["attributes", "inner", "kind"] [attributes, inner, kind] ∧
    view.atomText kind.value = .ok (some "WithAttributes") ∧
    attributes.value = .dict dict ∧ view.DictAt dict ids' names values
  sorted : names.Pairwise (· < ·)
  length : names.length = values.length

/-- Metadata in layers of attributes, from the outermost layer to the innermost. -/
inductive Layered (view : HeapView) : RichValue → List (List (String × RichValue)) →
    RichValue → Prop where
  | plain {value : RichValue} (h : PlainMetadata view value) : Layered view value [] value
  | layer {value inner base : RichValue} {names : List String} {values : List RichValue}
      {layers : List (List (String × RichValue))} (hwrapper : WrapperAt view value inner names values)
      (h : Layered view inner layers base) : Layered view value (names.zip values :: layers) base

/-- The attribute of the outermost layer that carries the key. -/
def outermost (layers : List (List (String × RichValue))) (key : String) : Option RichValue :=
  layers.findSome? (·.lookup key)

section Merging

theorem outermost_cons (layer : List (String × RichValue)) (layers : List (List (String × RichValue)))
    (key : String) : outermost (layer :: layers) key = (layer.lookup key).or (outermost layers key) := by
  rw [outermost, List.findSome?_cons]
  cases layer.lookup key <;> rfl

/-- A layer over entries: its own attributes, then theirs. -/
theorem lookup_extendEntries {layer : List (String × RichValue)} (hlayer : (layer.map (·.1)).Nodup)
    (entries : List (String × RichValue)) (key : String) :
    (extendEntries entries layer).lookup key = (layer.lookup key).or (entries.lookup key) := by
  induction layer generalizing entries with
  | nil => rfl
  | cons entry rest ih =>
      obtain ⟨name, value⟩ := entry
      obtain ⟨hfresh, hrest⟩ := List.nodup_cons.mp hlayer
      have hstep : extendEntries entries ((name, value) :: rest) =
          extendEntries (insertEntry name value entries) rest := rfl
      rw [hstep, ih hrest, lookup_insertEntry]
      by_cases hkey : key = name
      · subst hkey
        have hnone : rest.lookup key = none := by
          cases hfound : rest.lookup key with
          | none => rfl
          | some found =>
              exact absurd (List.mem_map.mpr ⟨_, mem_of_lookup hfound, rfl⟩) hfresh
        rw [hnone, if_pos rfl, lookup_cons_self]
        rfl
      · rw [if_neg hkey, lookup_cons_ne hkey]

/-- Merging from the innermost layer outwards lets the outermost attributes win. -/
theorem lookup_mergeLayers {layers : List (List (String × RichValue))}
    (hlayers : ∀ layer ∈ layers, (layer.map (·.1)).Nodup) (key : String) :
    (mergeLayers layers).lookup key = outermost layers key := by
  induction layers with
  | nil => rfl
  | cons layer rest ih =>
      have hstep : mergeLayers (layer :: rest) = extendEntries (mergeLayers rest) layer := by
        rw [mergeLayers, List.reverse_cons, List.foldl_append]
        rfl
      rw [hstep, lookup_extendEntries (hlayers layer List.mem_cons_self), outermost_cons,
        ih fun other hmem => hlayers other (List.mem_cons_of_mem _ hmem)]

theorem pairwise_mergeLayers (layers : List (List (String × RichValue))) :
    (mergeLayers layers).Pairwise (·.1 < ·.1) := by
  have hlayer : ∀ (layer entries : List (String × RichValue)), entries.Pairwise (·.1 < ·.1) →
      (extendEntries entries layer).Pairwise (·.1 < ·.1) := by
    intro layer
    induction layer with
    | nil => exact fun _ h => h
    | cons entry rest ih => exact fun entries h => ih _ (pairwise_insertEntry h)
  rw [mergeLayers]
  generalize layers.reverse = reversed
  have hall : ∀ (entries : List (String × RichValue)), entries.Pairwise (·.1 < ·.1) →
      (reversed.foldl extendEntries entries).Pairwise (·.1 < ·.1) := by
    induction reversed with
    | nil => exact fun _ h => h
    | cons layer rest ih => exact fun entries h => ih _ (hlayer layer entries h)
  exact hall [] .nil

/-- What the codec keeps of a layer: the attributes it has not met yet. -/
def keepEntries (collected layer : List (String × RichValue)) : List (String × RichValue) :=
  layer.foldl (fun collected entry =>
    if (collected.lookup entry.1).isSome then collected
    else insertEntry entry.1 entry.2 collected) collected

theorem lookup_keepEntries (layer collected : List (String × RichValue)) (key : String) :
    (keepEntries collected layer).lookup key = (collected.lookup key).or (layer.lookup key) := by
  induction layer generalizing collected with
  | nil => cases h : collected.lookup key <;> simp [keepEntries, h]
  | cons entry rest ih =>
      obtain ⟨name, value⟩ := entry
      have hstep : keepEntries collected ((name, value) :: rest) =
          keepEntries (if (collected.lookup name).isSome then collected
            else insertEntry name value collected) rest := rfl
      rw [hstep, ih]
      by_cases hkey : key = name
      · subst hkey
        rw [lookup_cons_self]
        cases hfound : collected.lookup key with
        | some found => simp [hfound]
        | none => simp [lookup_insertEntry]
      · rw [lookup_cons_ne hkey]
        split
        · rfl
        · rw [lookup_insertEntry, if_neg hkey]

theorem lookup_foldl_keepEntries (layers : List (List (String × RichValue)))
    (collected : List (String × RichValue)) (key : String) :
    (layers.foldl keepEntries collected).lookup key =
      (collected.lookup key).or (outermost layers key) := by
  induction layers generalizing collected with
  | nil => cases h : collected.lookup key <;> simp [outermost, h]
  | cons layer rest ih =>
      rw [List.foldl_cons, ih, lookup_keepEntries, outermost_cons, Option.or_assoc]

end Merging

section Steps

variable {site : Site} {view : HeapView} {value inner : RichValue} {names : List String}
  {values : List RichValue}

theorem siteRead_ok {α : Type} {read : Except HeapError α} {a : α} (h : read = .ok a) :
    siteRead site read = pure a := by
  rw [h]
  rfl

theorem reading_ok {α : Type} {read : Except HeapError α} {a : α} (h : read = .ok a) :
    reading read = pure a := by
  rw [h]
  rfl

theorem read_layer {ids : List InternId} (h : ids.mapM view.text = .ok names) :
    ((ids.zip values).mapM fun entry => do
      let name ← siteRead site (view.text entry.1)
      return (name, entry.2)) = (pure (names.zip values) : Fueled RuntimeError _) := by
  induction mapM_eq_ok.mp h generalizing values with
  | nil => rfl
  | cons hid htail ih =>
      cases values with
      | nil => rfl
      | cons value rest =>
          rw [List.zip_cons_cons, List.mapM_cons, siteRead_ok hid, ih (mapM_eq_ok.mpr htail)]
          rfl

theorem collect_layer {ids : List InternId} (h : ids.mapM view.text = .ok names)
    (collected : List (String × RichValue)) :
    view.collectAttributes collected (ids.zip values) =
      pure (keepEntries collected (names.zip values)) := by
  induction mapM_eq_ok.mp h generalizing values collected with
  | nil => rfl
  | cons hid htail ih =>
      cases values with
      | nil => rfl
      | cons value rest =>
          rw [List.zip_cons_cons, List.zip_cons_cons, collectAttributes, List.foldlM_cons,
            reading_ok hid]
          exact ih (mapM_eq_ok.mpr htail) _

/-- What the three fields of a wrapper read as. -/
theorem lookup_wrapper (attributes inner kind : RichValue) :
    lookupName ["attributes", "inner", "kind"] [attributes, inner, kind] "attributes" =
        some attributes ∧
      lookupName ["attributes", "inner", "kind"] [attributes, inner, kind] "inner" = some inner ∧
      lookupName ["attributes", "inner", "kind"] [attributes, inner, kind] "kind" = some kind := by
  have hsorted : ["attributes", "inner", "kind"].Pairwise (· < ·) := by decide
  refine ⟨?_, ?_, ?_⟩ <;> rw [lookupName_eq hsorted rfl] <;> rfl

theorem WrapperAt.layers_step (h : WrapperAt view value inner names values) (path : String)
    (fuel : Nat) (layers : List (List (String × RichValue))) :
    attributeLayers site view path (fuel + 1) value layers =
      attributeLayers site view path fuel inner (layers ++ [names.zip values]) := by
  obtain ⟨handle, ids, attributes, kind, dict, ids', hvalue, hdict, hkind, hattributes, hlayer⟩ :=
    h.wrapper
  obtain ⟨hgetAttributes, hgetInner, hgetKind⟩ := lookup_wrapper attributes inner kind
  rw [attributeLayers, hvalue]
  dsimp only
  rw [siteRead_ok (hdict.dictGetText "kind"), hgetKind, pure_bind]
  dsimp only
  rw [siteRead_ok hkind, pure_bind, if_neg (not_not.mpr rfl), siteRead_ok hdict.dictFields,
    pure_bind, if_neg (not_not.mpr rfl), siteRead_ok (hdict.dictGetText "inner"), hgetInner,
    pure_bind, orThrow_some, pure_bind, siteRead_ok (hdict.dictGetText "attributes"),
    hgetAttributes, pure_bind, orThrow_some, pure_bind, hattributes,
    show (RuntimeValue.dict dict).asDict = some dict from rfl, orThrow_some, pure_bind,
    siteRead_ok hlayer.dictFieldParts, pure_bind]
  dsimp only
  rw [read_layer hlayer.texts, pure_bind]

theorem WrapperAt.strip_step (h : WrapperAt view value inner names values) (path : String)
    (fuel : Nat) (collected : List (String × RichValue)) :
    view.stripRuntimeAttributes path (fuel + 1) value collected =
      view.stripRuntimeAttributes path fuel inner (keepEntries collected (names.zip values)) := by
  obtain ⟨handle, ids, attributes, kind, dict, ids', hvalue, hdict, hkind, hattributes, hlayer⟩ :=
    h.wrapper
  obtain ⟨hgetAttributes, hgetInner, hgetKind⟩ := lookup_wrapper attributes inner kind
  have hatom : view.atomField handle "kind" = pure (some "WithAttributes") := by
    rw [atomField, reading_ok (hdict.dictGetText "kind"), hgetKind, pure_bind, Option.bind_some,
      hkind]
    rfl
  rw [stripRuntimeAttributes, hvalue]
  dsimp only
  rw [hatom, pure_bind, if_neg (not_not.mpr rfl), reading_ok hdict.dictFields,
    pure_bind, if_neg (not_not.mpr rfl), reading_ok (hdict.dictGetText "attributes"),
    hgetAttributes, pure_bind, orThrow_some, pure_bind, hattributes,
    show (RuntimeValue.dict dict).asDict = some dict from rfl, orThrow_some, pure_bind,
    reading_ok hlayer.dictFieldParts, pure_bind]
  dsimp only
  rw [collect_layer hlayer.texts, pure_bind, reading_ok (hdict.dictGetText "inner"), hgetInner,
    pure_bind, orThrow_some, pure_bind]

theorem dictGet_of_dictAt {handle : Handle} {ids : List InternId} (hvalue : value.value = .dict handle)
    (h : view.DictAt handle ids names values) (field : String) :
    (⟨value, view⟩ : ValueRef).dictGet field = (lookupName names values field).map (⟨·, view⟩) := by
  rw [ValueRef.dictGet, hvalue]
  dsimp only
  rw [h.dictGetText]
  rfl

theorem resolve_of_not_link (h : ∀ handle, value.value ≠ .upLink handle) :
    (⟨value, view⟩ : ValueRef).resolveHiddenUpLink = .ok ⟨value, view⟩ := by
  rw [ValueRef.resolveHiddenUpLink]
  split
  · rename_i handle hlink
    exact absurd hlink (h handle)
  · rfl

theorem WrapperAt.metadata_step (h : WrapperAt view value inner names values) :
    (⟨value, view⟩ : ValueRef).resolveHiddenUpLink = .ok ⟨value, view⟩ ∧
      (⟨value, view⟩ : ValueRef).metadataKind = some "WithAttributes" ∧
      (⟨value, view⟩ : ValueRef).dictGet "inner" = some ⟨inner, view⟩ ∧
      ∀ key, ((⟨value, view⟩ : ValueRef).dictGet "attributes").bind (·.dictGet key) =
        ((names.zip values).lookup key).map (⟨·, view⟩) := by
  obtain ⟨handle, ids, attributes, kind, dict, ids', hvalue, hdict, hkind, hattributes, hlayer⟩ :=
    h.wrapper
  obtain ⟨hgetAttributes, hgetInner, hgetKind⟩ := lookup_wrapper attributes inner kind
  refine ⟨resolve_of_not_link fun link hlink => ?_, ?_, ?_, fun key => ?_⟩
  · rw [hvalue] at hlink
    cases hlink
  · rw [ValueRef.metadataKind, dictGet_of_dictAt hvalue hdict, hgetKind, Option.map_some,
      Option.bind_some, ValueRef.asAtom, hkind]
    rfl
  · rw [dictGet_of_dictAt hvalue hdict, hgetInner]
    rfl
  · rw [dictGet_of_dictAt hvalue hdict, hgetAttributes, Option.map_some, Option.bind_some,
      dictGet_of_dictAt hattributes hlayer, lookupName_eq h.sorted h.length]

end Steps

section Plain

variable {site : Site} {view : HeapView} {value : RichValue}

theorem PlainMetadata.layers (h : PlainMetadata view value) (path : String) (fuel : Nat)
    (layers : List (List (String × RichValue))) :
    attributeLayers site view path (fuel + 1) value layers = pure (value, layers) := by
  rw [attributeLayers]
  split
  · rename_i handle hvalue
    obtain ⟨ids, names, values, hdict, -, hkind⟩ := h.dict handle hvalue
    rw [siteRead_ok (hdict.dictGetText "kind"), pure_bind]
    split
    · rfl
    · rename_i kind hlookup
      obtain ⟨text, htext, hplain⟩ := hkind kind hlookup
      rw [siteRead_ok htext, pure_bind, if_pos hplain]
  · rfl

theorem PlainMetadata.strip (h : PlainMetadata view value) (path : String) (fuel : Nat)
    (collected : List (String × RichValue)) :
    view.stripRuntimeAttributes path (fuel + 1) value collected = pure (value, collected) := by
  rw [stripRuntimeAttributes]
  split
  · rename_i handle hvalue
    obtain ⟨ids, names, values, hdict, -, hkind⟩ := h.dict handle hvalue
    rw [atomField, reading_ok (hdict.dictGetText "kind"), pure_bind, pure_bind]
    refine if_pos ?_
    cases hlookup : lookupName names values "kind" with
    | none => exact fun heq => by cases heq
    | some kind =>
        obtain ⟨text, htext, hplain⟩ := hkind kind hlookup
        rw [Option.bind_some, htext]
        exact hplain
  · rfl

theorem PlainMetadata.metadata (h : PlainMetadata view value) :
    (⟨value, view⟩ : ValueRef).resolveHiddenUpLink = .ok ⟨value, view⟩ ∧
      (⟨value, view⟩ : ValueRef).metadataKind ≠ some "WithAttributes" ∧
      (⟨value, view⟩ : ValueRef).dictGet "attributes" = none := by
  refine ⟨resolve_of_not_link h.notLink, ?_⟩
  by_cases hdict : ∃ handle, value.value = .dict handle
  · obtain ⟨handle, hvalue⟩ := hdict
    obtain ⟨ids, names, values, hdict, hattributes, hkind⟩ := h.dict handle hvalue
    refine ⟨?_, by rw [dictGet_of_dictAt hvalue hdict, hattributes]; rfl⟩
    rw [ValueRef.metadataKind, dictGet_of_dictAt hvalue hdict]
    cases hlookup : lookupName names values "kind" with
    | none => exact fun heq => by cases heq
    | some kind =>
        obtain ⟨text, htext, hplain⟩ := hkind kind hlookup
        rw [Option.map_some, Option.bind_some, ValueRef.asAtom, htext]
        exact hplain
  · have hnone : ∀ field, (⟨value, view⟩ : ValueRef).dictGet field = none := by
      intro field
      rw [ValueRef.dictGet]
      split
      · rename_i handle hvalue
        exact absurd ⟨handle, hvalue⟩ hdict
      · rfl
    refine ⟨?_, hnone _⟩
    rw [ValueRef.metadataKind, hnone]
    exact fun heq => by cases heq

end Plain

/-- The readers of attributes all see the same: the metadata under the layers, and for each
key the attribute, if there is one. -/
structure ReadsAttributes (site : Site) (path : String) (fuel : Nat) (view : HeapView)
    (value base : RichValue) (attributes : String → Option RichValue) : Prop where
  flattened : ∃ merged, Returns (flattenAttributes site view path fuel value) (base, merged) ∧
    ∀ key, merged.lookup key = attributes key
  codec : ∃ collected, Returns (view.stripRuntimeAttributes path fuel value []) (base, collected) ∧
    ∀ key, collected.lookup key = attributes key
  provider : ∀ {α : Type} (provider : Provider) (downcast : OpaquePayload → Option α),
    attachedProvider provider downcast fuel ⟨value, view⟩ =
      match attributes provider.key with
      | none => pure none
      | some found => some <$> provider.decode downcast ⟨found, view⟩
  metadata : Returns (strippedMetadata fuel ⟨value, view⟩) ⟨base, view⟩

section Readers

variable {site : Site} {view : HeapView} {value base : RichValue}
  {layers : List (List (String × RichValue))}

theorem Layered.peeled (h : Layered view value layers base) (path : String) {fuel : Nat}
    (hfuel : layers.length < fuel) (outer : List (List (String × RichValue))) :
    attributeLayers site view path fuel value outer = pure (base, outer ++ layers) := by
  induction h generalizing fuel outer with
  | plain h =>
      obtain ⟨fuel, rfl⟩ := Nat.exists_eq_succ_of_ne_zero (Nat.ne_of_gt hfuel)
      rw [Nat.succ_eq_add_one, h.layers, List.append_nil]
  | layer hwrapper _ ih =>
      obtain ⟨fuel, rfl⟩ := Nat.exists_eq_succ_of_ne_zero (Nat.ne_of_gt (Nat.zero_lt_of_lt hfuel))
      rw [Nat.succ_eq_add_one, hwrapper.layers_step, ih (Nat.lt_of_succ_lt_succ hfuel),
        List.append_assoc, List.singleton_append]

theorem Layered.strip (h : Layered view value layers base) (path : String) {fuel : Nat}
    (hfuel : layers.length < fuel) (collected : List (String × RichValue)) :
    view.stripRuntimeAttributes path fuel value collected =
      pure (base, layers.foldl keepEntries collected) := by
  induction h generalizing fuel collected with
  | plain h =>
      obtain ⟨fuel, rfl⟩ := Nat.exists_eq_succ_of_ne_zero (Nat.ne_of_gt hfuel)
      exact h.strip path fuel collected
  | layer hwrapper _ ih =>
      obtain ⟨fuel, rfl⟩ := Nat.exists_eq_succ_of_ne_zero (Nat.ne_of_gt (Nat.zero_lt_of_lt hfuel))
      rw [Nat.succ_eq_add_one, hwrapper.strip_step, ih (Nat.lt_of_succ_lt_succ hfuel)]
      rfl

theorem attempt_ok {α : Type} {result : Except String α} {a : α} (h : result = .ok a) :
    attempt result = pure a := by
  rw [h]
  rfl

theorem Layered.provider (h : Layered view value layers base) {α : Type} (provider : Provider)
    (downcast : OpaquePayload → Option α) {fuel : Nat} (hfuel : layers.length < fuel) :
    attachedProvider provider downcast fuel ⟨value, view⟩ =
      match outermost layers provider.key with
      | none => pure none
      | some found => some <$> provider.decode downcast ⟨found, view⟩ := by
  induction h generalizing fuel with
  | plain h =>
      obtain ⟨fuel, rfl⟩ := Nat.exists_eq_succ_of_ne_zero (Nat.ne_of_gt hfuel)
      obtain ⟨hresolve, hkind, hattributes⟩ := h.metadata
      rw [Nat.succ_eq_add_one, attachedProvider, attempt_ok hresolve, pure_bind, hattributes]
      dsimp only [Option.bind_none]
      rw [if_pos hkind]
      rfl
  | @layer value inner base names values layers hwrapper _ ih =>
      obtain ⟨fuel, rfl⟩ := Nat.exists_eq_succ_of_ne_zero (Nat.ne_of_gt (Nat.zero_lt_of_lt hfuel))
      obtain ⟨hresolve, hkind, hinner, hattributes⟩ := hwrapper.metadata_step
      rw [Nat.succ_eq_add_one, attachedProvider, attempt_ok hresolve, pure_bind, hattributes,
        outermost_cons]
      cases (names.zip values).lookup provider.key with
      | some found => rfl
      | none =>
          dsimp only [Option.map_none, Option.none_or]
          rw [if_neg (not_not.mpr hkind), hinner, orThrow_some, pure_bind,
            ih (Nat.lt_of_succ_lt_succ hfuel)]

theorem Layered.metadata (h : Layered view value layers base) {fuel : Nat}
    (hfuel : layers.length < fuel) :
    Returns (strippedMetadata fuel ⟨value, view⟩) ⟨base, view⟩ := by
  induction h generalizing fuel with
  | plain h =>
      obtain ⟨fuel, rfl⟩ := Nat.exists_eq_succ_of_ne_zero (Nat.ne_of_gt hfuel)
      obtain ⟨hresolve, hkind, -⟩ := h.metadata
      rw [Nat.succ_eq_add_one, strippedMetadata, attempt_ok hresolve, pure_bind, if_neg hkind]
      rfl
  | layer hwrapper _ ih =>
      obtain ⟨fuel, rfl⟩ := Nat.exists_eq_succ_of_ne_zero (Nat.ne_of_gt (Nat.zero_lt_of_lt hfuel))
      obtain ⟨hresolve, hkind, hinner, -⟩ := hwrapper.metadata_step
      rw [Nat.succ_eq_add_one, strippedMetadata, attempt_ok hresolve, pure_bind, if_pos hkind,
        hinner, orThrow_some, pure_bind]
      exact ih (Nat.lt_of_succ_lt_succ hfuel)

theorem Layered.nodup (h : Layered view value layers base) :
    ∀ layer ∈ layers, (layer.map (·.1)).Nodup := by
  induction h with
  | plain => exact fun _ hmem => (by cases hmem)
  | layer hwrapper _ ih =>
      intro layer hmem
      rcases List.mem_cons.mp hmem with rfl | hmem
      · rw [List.map_fst_zip (le_of_eq hwrapper.length)]
        exact hwrapper.sorted.imp fun hlt => ne_of_lt hlt
      · exact ih layer hmem

/-- Every reader sees the attributes of the outermost layers, and what is under all. -/
theorem Layered.reads (h : Layered view value layers base) (path : String) {fuel : Nat}
    (hfuel : layers.length < fuel) :
    ReadsAttributes site path fuel view value base (outermost layers) where
  flattened := by
    refine ⟨mergeLayers layers, ?_, lookup_mergeLayers h.nodup⟩
    rw [flattenAttributes, h.peeled path hfuel]
    rfl
  codec := by
    refine ⟨layers.foldl keepEntries [], ?_, fun key => ?_⟩
    · rw [h.strip path hfuel]
      rfl
    · rw [lookup_foldl_keepEntries]
      rfl
  provider := fun provider downcast => h.provider provider downcast hfuel
  metadata := h.metadata hfuel

end Readers

section Wrapping

variable {background : Option Heap}

/-- An interned text is found under its id. -/
theorem intern_spec (heap : Heap) (background : Option Heap) (text : String) :
    heap.Grows (heap.intern text).2 ∧
      (⟨(heap.intern text).2, background⟩ : HeapView).text (heap.intern text).1 = .ok text :=
  ⟨⟨rfl, List.prefix_refl _, InternTable.insert_extends _ _, List.prefix_refl _⟩,
    text_eq_ok.mpr ⟨(heap.intern text).2, current_heap _ _, InternTable.insert_resolve _ _⟩⟩

/-- Interning names one after another. -/
theorem internNames_spec (entries : List (String × RichValue)) (background : Option Heap)
    (ids : List InternId) (names : List String) (heap : Heap)
    (hids : ids.mapM (⟨heap, background⟩ : HeapView).text = .ok names) :
    ∃ ids' heap', entries.foldl (fun (state : List InternId × Heap) entry =>
        let (id, current) := state.2.intern entry.1
        (state.1 ++ [id], current)) (ids, heap) = (ids', heap') ∧
      heap.Grows heap' ∧
      ids'.mapM (⟨heap', background⟩ : HeapView).text = .ok (names ++ entries.map (·.1)) := by
  induction entries generalizing ids names heap with
  | nil => exact ⟨ids, heap, rfl, .refl heap, by simpa using hids⟩
  | cons entry rest ih =>
      obtain ⟨hgrows, htext⟩ := intern_spec heap background entry.1
      have hnext : (ids ++ [(heap.intern entry.1).1]).mapM
          (⟨(heap.intern entry.1).2, background⟩ : HeapView).text = .ok (names ++ [entry.1]) := by
        refine mapM_eq_ok.mpr (List.rel_append ?_ (.cons htext .nil))
        exact (mapM_eq_ok.mp hids).imp fun _ _ h => (hgrows.extends background).texts h
      obtain ⟨ids', heap', hfold, hgrows', hids'⟩ := ih _ _ _ hnext
      refine ⟨ids', heap', hfold, hgrows.trans hgrows', ?_⟩
      rw [hids', List.map_cons, List.append_assoc, List.singleton_append]

/-- An allocated dict is read as its entries. -/
theorem allocateCoreDict_spec (entries : List (String × RichValue)) (location : Option Loc)
    (heap : Heap) (background : Option Heap) :
    heap.Grows (allocateCoreDictUnchecked entries location heap).2 ∧
      ∃ handle ids, (allocateCoreDictUnchecked entries location heap).1.value = .dict handle ∧
        (⟨(allocateCoreDictUnchecked entries location heap).2, background⟩ : HeapView).DictAt handle
          ids (entries.map (·.1)) (entries.map (·.2)) := by
  obtain ⟨ids, heap₁, hfold, hgrows, hids⟩ :=
    internNames_spec entries background [] [] heap rfl
  obtain ⟨hgrows₂, hshape⟩ := internShape_spec heap₁ background ids
  have hallocate := allocate_spec (heap₁.internShape ids).2 background
    (.dict (heap₁.internShape ids).1 (entries.map (·.2)))
  have hdef : allocateCoreDictUnchecked entries location heap =
      (.new (.dict ((heap₁.internShape ids).2.allocate
          (.dict (heap₁.internShape ids).1 (entries.map (·.2)))).1) location,
        ((heap₁.internShape ids).2.allocate
          (.dict (heap₁.internShape ids).1 (entries.map (·.2)))).2) := by
    rw [allocateCoreDictUnchecked, hfold]
  rw [hdef]
  refine ⟨(hgrows.trans hgrows₂.toGrows).trans hallocate.1, _, ids, RichValue.new_value _ _, ?_⟩
  refine ⟨⟨_, hallocate.2, (hallocate.1.extends background).shapes hshape⟩, ?_⟩
  rw [List.nil_append] at hids
  exact mapM_eq_ok.mpr ((mapM_eq_ok.mp hids).imp fun _ _ h =>
    ((hgrows₂.toGrows.trans hallocate.1).extends background).texts h)

theorem PlainMetadata.extends {view view' : HeapView} {value : RichValue}
    (h : PlainMetadata view value) (hextends : view.Extends view') : PlainMetadata view' value where
  notLink := h.notLink
  dict := by
    intro handle hvalue
    obtain ⟨ids, names, values, hdict, hattributes, hkind⟩ := h.dict handle hvalue
    refine ⟨ids, names, values, hdict.extends hextends, hattributes, fun kind hlookup => ?_⟩
    obtain ⟨text, htext, hplain⟩ := hkind kind hlookup
    exact ⟨text, hextends.atomText htext, hplain⟩

theorem Layered.extends {view view' : HeapView} {value base : RichValue}
    {layers : List (List (String × RichValue))} (h : Layered view value layers base)
    (hextends : view.Extends view') : Layered view' value layers base := by
  induction h with
  | plain h => exact .plain (h.extends hextends)
  | layer hwrapper _ ih =>
      obtain ⟨⟨handle, ids, attributes, kind, dict, ids', hvalue, hdict, hkind, hattributes, hlayer⟩,
        hsorted, hlength⟩ := hwrapper
      exact .layer ⟨⟨handle, ids, attributes, kind, dict, ids', hvalue, hdict.extends hextends,
        hextends.atomText hkind, hattributes, hlayer.extends hextends⟩, hsorted, hlength⟩ ih

theorem Layered.base {view : HeapView} {value base : RichValue}
    {layers : List (List (String × RichValue))} (h : Layered view value layers base) :
    PlainMetadata view base := by
  induction h with
  | plain h => exact h
  | layer _ _ ih => exact ih

/-- A wrapper allocated around plain metadata is metadata in one layer. -/
theorem layered_wrapper {heap : Heap} {inner base : RichValue}
    {attributes : List (String × RichValue)} {layers : List (List (String × RichValue))}
    (hinner : Layered ⟨heap, background⟩ inner layers base)
    (hsorted : attributes.Pairwise (·.1 < ·.1)) (kindLocation location : Option Loc) :
    heap.Grows (allocateAttributesWrapper inner attributes kindLocation location heap).2 ∧
      Layered ⟨(allocateAttributesWrapper inner attributes kindLocation location heap).2, background⟩
        (allocateAttributesWrapper inner attributes kindLocation location heap).1
        (attributes :: layers) base := by
  obtain ⟨hgrows, dict, ids, hdict, hlayer⟩ :=
    allocateCoreDict_spec attributes location heap background
  obtain ⟨hgrows₂, htext⟩ := intern_spec (allocateCoreDictUnchecked attributes location heap).2
    background "WithAttributes"
  generalize hdef : allocateCoreDictUnchecked attributes location heap = allocated at *
  generalize hkind : allocated.2.intern "WithAttributes" = kind at *
  obtain ⟨hgrows₃, handle, ids', hvalue, hwrapper⟩ := allocateCoreDict_spec
    [("attributes", allocated.1), ("inner", inner), ("kind", .new (.atom kind.1) kindLocation)]
    location kind.2 background
  have hresult : allocateAttributesWrapper inner attributes kindLocation location heap =
      allocateCoreDictUnchecked [("attributes", allocated.1), ("inner", inner),
        ("kind", .new (.atom kind.1) kindLocation)] location kind.2 := by
    rw [allocateAttributesWrapper, hdef]
    dsimp only
    rw [hkind]
  rw [hresult]
  have hatom : (⟨(allocateCoreDictUnchecked [("attributes", allocated.1), ("inner", inner),
      ("kind", .new (.atom kind.1) kindLocation)] location kind.2).2, background⟩ : HeapView).atomText
        (RichValue.new (.atom kind.1) kindLocation).value = .ok (some "WithAttributes") := by
    rw [RichValue.new_value, atomText, (hgrows₃.extends background).texts htext]
    rfl
  refine ⟨(hgrows.trans hgrows₂).trans hgrows₃, ?_⟩
  have hlayer' : WrapperAt ⟨_, background⟩ _ inner (attributes.map (·.1)) (attributes.map (·.2)) :=
    ⟨⟨handle, ids', allocated.1, .new (.atom kind.1) kindLocation, dict, ids, hvalue, hwrapper, hatom,
      hdict, hlayer.extends ((hgrows₂.trans hgrows₃).extends background)⟩,
      List.pairwise_map.mpr hsorted, by rw [List.length_map, List.length_map]⟩
  have hlayers := Layered.layer hlayer'
    (hinner.extends (((hgrows.trans hgrows₂).trans hgrows₃).extends background))
  have hzip : (attributes.map (·.1)).zip (attributes.map (·.2)) = attributes := by
    rw [List.zip_map']
    exact List.map_id' attributes
  rwa [hzip] at hlayers

end Wrapping

/-- All readers of attributes see, for metadata in any layers of attributes, the attribute of
the outermost layer that carries a key, and the metadata under the layers; and they still do
when the merged attributes are put in one layer. -/
theorem attribute_readers_agree (site : Site) (path : String) (heap : Heap)
    (background : Option Heap) (kindLocation location : Option Loc) {value base : RichValue}
    {layers : List (List (String × RichValue))}
    (h : Layered ⟨heap, background⟩ value layers base) {fuel : Nat} (hfuel : layers.length < fuel) :
    ReadsAttributes site path fuel ⟨heap, background⟩ value base (outermost layers) ∧
    ∃ merged rewrapped heap',
      Returns (flattenAttributes site ⟨heap, background⟩ path fuel value) (base, merged) ∧
      allocateAttributesWrapper base merged kindLocation location heap = (rewrapped, heap') ∧
      (∀ fuel', 1 < fuel' →
        ReadsAttributes site path fuel' ⟨heap', background⟩ rewrapped base (outermost layers)) ∧
      ReadsAttributes site path fuel ⟨heap', background⟩ value base (outermost layers) := by
  obtain ⟨hgrows, hwrapped⟩ := layered_wrapper (.plain h.base) (pairwise_mergeLayers layers) kindLocation
    location
  refine ⟨h.reads path hfuel, mergeLayers layers, _, _, ?_, rfl, fun fuel' hfuel' => ?_, ?_⟩
  · rw [flattenAttributes, h.peeled path hfuel]
    rfl
  · have hreads : ReadsAttributes site path fuel' _ _ base (outermost [mergeLayers layers]) :=
      hwrapped.reads path hfuel'
    have hsame : outermost [mergeLayers layers] = outermost layers := by
      funext key
      rw [outermost_cons, lookup_mergeLayers h.nodup]
      exact Option.or_none
    rwa [hsame] at hreads
  · exact (h.extends (hgrows.extends background)).reads path hfuel

/-- The metadata of `String`. -/
def stringType : RichValue × Heap :=
  allocateCoreDictUnchecked [("kind", .unknown (.atom (Heap.work.intern "String").1))] none
    (Heap.work.intern "String").2

theorem stringType_plain : PlainMetadata ⟨stringType.2, none⟩ stringType.1 := by
  obtain ⟨-, htext⟩ := intern_spec .work none "String"
  obtain ⟨hgrows, handle, ids, hvalue, hdict⟩ := allocateCoreDict_spec
    [("kind", .unknown (.atom (Heap.work.intern "String").1))] none (Heap.work.intern "String").2
    none
  refine ⟨fun link hlink => ?_, fun other hother => ?_⟩
  · cases hvalue.symm.trans hlink
  · obtain rfl := RuntimeValue.dict.inj (hvalue.symm.trans hother)
    refine ⟨ids, _, _, hdict, by decide, fun kind hkind => ⟨some "String", ?_, by decide⟩⟩
    obtain rfl := Option.some.inj hkind
    exact congrArg (some <$> ·) ((hgrows.extends none).texts htext)

/-- A layer with two attributes around it. -/
def documented : RichValue × Heap :=
  allocateAttributesWrapper stringType.1 [("doc", .unknown (.int 1)), ("unit", .unknown (.int 2))]
    none none stringType.2

/-- A layer that overrides one of them. -/
def overridden : RichValue × Heap :=
  allocateAttributesWrapper documented.1 [("doc", .unknown (.int 3))] none none documented.2

def overriddenLayers : List (List (String × RichValue)) :=
  [[("doc", .unknown (.int 3))], [("doc", .unknown (.int 1)), ("unit", .unknown (.int 2))]]

theorem overridden_layered :
    Layered ⟨overridden.2, none⟩ overridden.1 overriddenLayers stringType.1 :=
  (layered_wrapper (layered_wrapper (.plain stringType_plain) (by decide) none none).2 (by simp)
    none none).2

theorem attribute_readers_agree_overridden :
    ReadsAttributes ⟨⟨"main", 0, 0, 0, [], []⟩, 0⟩ "value" 3 ⟨overridden.2, none⟩ overridden.1
      stringType.1 (outermost overriddenLayers) ∧
    outermost overriddenLayers "doc" = some (.unknown (.int 3)) ∧
    outermost overriddenLayers "unit" = some (.unknown (.int 2)) :=
  ⟨(attribute_readers_agree ⟨⟨"main", 0, 0, 0, [], []⟩, 0⟩ "value" overridden.2 none none none
    overridden_layered (by decide)).1, rfl, rfl⟩

end Telora
