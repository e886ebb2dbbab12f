import Mathlib.Algebra.Group.Int.Defs
import Telora.Heap.Access
import Telora.Heap.Bisimulation
import Telora.Types.TypeLayer

/-!
# Type metadata on the heap

The metadata of a recursive type refers to itself through hidden up-links. Decoding it
resolves a link wherever it meets one, reads one layer, and goes on to the types inside.
What is read of a value through a view is a value of an ordinary kind or nothing; the kind
of a hidden link is never asked for.
-/

namespace Telora

open Library

/-- The kinds of values that a native may see. -/
inductive ValueKind where
  | int | float | string | bytes | type | opaqueValue | dict | array | atom | tagged | tuple
  | func | dyn
  deriving DecidableEq, Repr

def RuntimeValue.isLink : RuntimeValue → Bool
  | .upLink _ => true
  | _ => false

/-- An answer of a decoder; its errors are messages. -/
abbrev Decoding (α : Type) := Answer String α

namespace HeapView

section Reading

variable (view : HeapView)

/-- The kind of a value. Up-links are private to the machine, and have none. -/
def valueKind : RuntimeValue → Decoding ValueKind
  | .int _ => return .int
  | .float _ => return .float
  | .shortString _ | .string _ => return .string
  | .bytes _ => return .bytes
  | .nativeType _ => return .type
  | .opaqueValue _ => return .opaqueValue
  | .dict _ => return .dict
  | .array _ => return .array
  | .builtinAtom _ | .atom _ => return .atom
  | .tagged _ => return .tagged
  | .tuple _ => return .tuple
  | .func _ => return .func
  | .dyn _ => return .dyn
  | .upLink _ => .none

def asAtom : RuntimeValue → Option String
  | .builtinAtom atom => some atom.name
  | .atom id => (view.text id).toOption
  | _ => none

def asInt : RuntimeValue → Option Int
  | .int value => some value
  | _ => none

def asNativeType : RuntimeValue → Option NativeType
  | .nativeType handle =>
      match view.object handle with
      | .ok (.nativeType nativeType) => some nativeType
      | _ => none
  | _ => none

def opaqueNativeType : RuntimeValue → Option NativeType
  | .opaqueValue handle =>
      match view.object handle with
      | .ok (.opaqueValue value) => some value.nativeType
      | _ => none
  | _ => none

/-- The items of an array or a tuple. -/
def sequenceItems : RuntimeValue → Option (List RuntimeValue)
  | .array handle => (view.sequence handle false).toOption.map (·.map (·.value))
  | .tuple handle => (view.sequence handle true).toOption.map (·.map (·.value))
  | _ => none

def tagAndPayload : RuntimeValue → Option (RuntimeValue × RuntimeValue)
  | .tagged handle => (view.tagged handle).toOption.map fun parts => (parts.1.value, parts.2.value)
  | _ => none

def dictNames : RuntimeValue → Option (List String)
  | .dict handle => (view.dictFields handle).toOption
  | _ => none

def dictValue (value : RuntimeValue) (field : String) : Option RuntimeValue :=
  match value with
  | .dict handle =>
      match view.dictGetText handle field with
      | .ok (some item) => some item.value
      | _ => none
  | _ => none

def arityOf : RuntimeValue → Option Nat
  | .func handle => (view.functionArity handle).toOption
  | _ => none

def resolveHiddenUpLink : RuntimeValue → Except String RuntimeValue
  | .upLink handle =>
      match view.upLink handle with
      | .error error => .error error.message
      | .ok none => .error "recursive type link is not initialized"
      | .ok (some value) => .ok value.value
  | value => .ok value

end Reading

section Decoding

variable (view : HeapView)

/-- A field that the checked fields of the metadata have. -/
def metaField (value : RuntimeValue) (name path : String) : Decoding RuntimeValue :=
  match view.dictValue value name with
  | some item => return item
  | none => throw s!"{path}.{name} is missing"

def metaTag (value : RuntimeValue) (path : String) : Decoding Atom :=
  match (view.dictValue value "tag").bind view.asAtom with
  | some tag => return atomFromName tag
  | none => throw s!"{path}.tag must be an Atom"

/-- The items of an array in a field. -/
def metaItems (value : RuntimeValue) (name path : String) : Decoding (List RuntimeValue) := do
  let sequence ← view.metaField value name path
  if (← valueKind sequence) = .array then
    match view.sequenceItems sequence with
    | some items => return items
    | none => .none
  else throw s!"{path}.{name} must be an Array"

/-- The entries of a dict in a field. -/
def metaEntries (value : RuntimeValue) (name path : String) :
    Decoding (List (String × RuntimeValue)) := do
  let dict ← view.metaField value name path
  match view.dictNames dict with
  | some names =>
      names.mapM fun name =>
        match view.dictValue dict name with
        | some item => return (name, item)
        | none => .none
  | none => throw s!"{path}.{name} must be a Dict"

/-- What is inside a wrapper. -/
def wrapperInner (value : RuntimeValue) (fields : List String) (path : String) :
    Decoding RuntimeValue :=
  if fields = wrapperFields then
    match view.dictValue value "attributes", view.dictValue value "inner" with
    | some attributes, some inner => do
        if (← valueKind attributes) = .dict then return inner
        else throw s!"{path}.attributes must be a Dict"
    | _, _ => .none
  else
    throw s!"{path} WithAttributes wrapper must have exactly attributes, inner, and kind fields"

/-- The kind that the metadata names. -/
def metaName (value : RuntimeValue) : Option String :=
  (view.dictValue value "kind").bind view.asAtom

/-- The layer of metadata of a kind, once its fields are checked. -/
def readKind (kind : MetaKind) (value : RuntimeValue) (path : String) :
    Decoding (TypeLayer RuntimeValue RuntimeValue) := do
  match kind with
  | .bound =>
      match (view.dictValue value "parameter").bind asInt with
      | some parameter =>
          if 0 ≤ parameter ∧ parameter < 2 ^ 32 then return .bound parameter.toNat
          else throw s!"{path}.parameter must be a non-negative Int"
      | none => throw s!"{path}.parameter must be a non-negative Int"
  | .plain plainType => return .plain plainType
  | .typeOf => return .typeOf (← view.metaField value "instance" path)
  | .atom => return .atom (← view.metaTag value path)
  | .array => return .array (← view.metaField value "item" path)
  | .dict => return .dict (← view.metaField value "item" path)
  | .tagged => return .tagged (← view.metaTag value path) (← view.metaField value "payload" path)
  | .tuple => return .tuple (← view.metaItems value "items" path)
  | .struct => return .struct (← view.metaEntries value "fields" path)
  | .enum =>
      let variants ← view.metaEntries value "variants" path
      if variants = [] then throw s!"{path}.variants must not be empty"
      else return .enum variants
  | .union =>
      let variants ← view.metaItems value "variants" path
      if variants = [] then throw s!"{path}.variants must not be empty"
      else return .union variants
  | .function =>
      return .function (← view.metaItems value "parameters" path)
        (← view.metaField value "result" path)

/-- The kind of a name for `decode_type_ref`. -/
def refKind (name : String) : Option MetaKind :=
  if name = "'Bound" then some .bound else MetaKind.ofName name

/-- The layer of a value that is no link. -/
def readResolved (value : RuntimeValue) (path : String) :
    Decoding (TypeLayer RuntimeValue RuntimeValue) :=
  match view.asNativeType value with
  | some nativeType => return .opaqueType nativeType
  | none =>
      match view.dictNames value with
      | none => throw s!"{path} must be a Dict"
      | some fields =>
          match view.metaName value with
          | none => throw s!"{path}.kind must be an Atom"
          | some name =>
              if name = "WithAttributes" then
                return .inner (← view.wrapperInner value fields path)
              else
                match refKind name with
                | none => throw s!"{path}.kind has unknown value '{name}"
                | some kind =>
                    if fields = kind.fields then view.readKind kind value path
                    else throw s!"{path} has invalid fields for {name}"

/-- Wrappers around the payload of a variant; links are not resolved. -/
def stripAttributesRef : Nat → RuntimeValue → String → Decoding RuntimeValue
  | 0, _, _ => .none
  | depth + 1, value, path =>
      match view.dictNames value with
      | none => return value
      | some fields =>
          if view.metaName value = some "WithAttributes" then do
            stripAttributesRef depth (← view.wrapperInner value fields path) path
          else return value

/-- Decode the payload of a variant. -/
def payloadRef (decode : RuntimeValue → String → Decoding TypeDescriptor) (depth : Nat)
    (variant : RuntimeValue) (path : String) : Decoding (Option TypeDescriptor) := do
  let inner ← view.stripAttributesRef depth variant path
  if view.asAtom inner = some "None" then return none
  else return some (← decode inner path)

/-- Decode metadata down to a depth. -/
def decodeTypeRef : Nat → RuntimeValue → String → Decoding TypeDescriptor
  | 0, _, _ => .none
  | depth + 1, value, path => do
      let resolved ← Answer.ofExcept (view.resolveHiddenUpLink value)
      let raw ← view.readResolved resolved path
      let layer ← (raw.located path).traverse
        (fun (type, path) => decodeTypeRef depth type path)
        (fun (variant, path) => view.payloadRef (decodeTypeRef depth) depth variant path)
      return layer.descriptor

end Decoding

section Entries

/-- What every heap keeps about its dicts: one value for each field of the shape, whose
names increase. -/
def DictsOrdered (view : HeapView) : Prop :=
  ∀ {handle shape values}, view.object handle = .ok (.dict shape values) →
    ∃ names, view.fieldNames shape = .ok names ∧ names.length = values.length ∧
      names.Pairwise (· < ·)

/-- The names of a dict with their values. -/
def entries (view : HeapView) : RuntimeValue → Option (List (String × RuntimeValue))
  | .dict handle =>
      match view.object handle with
      | .ok (.dict shape values) =>
          (view.fieldNames shape).toOption.map (·.zip (values.map (·.value)))
      | _ => none
  | _ => none

variable {view : HeapView}

theorem entries_eq_some (hview : view.DictsOrdered) {value : RuntimeValue}
    {found : List (String × RuntimeValue)} :
    view.entries value = some found ↔ ∃ handle shape values names, value = .dict handle ∧
      view.object handle = .ok (.dict shape values) ∧ view.fieldNames shape = .ok names ∧
      names.length = values.length ∧ names.Pairwise (· < ·) ∧
      found = names.zip (values.map (·.value)) := by
  constructor
  · intro h
    unfold entries at h
    split at h
    · split at h
      · rename_i hobject
        obtain ⟨names, hnames, hlength, hsorted⟩ := hview hobject
        rw [hnames] at h
        exact ⟨_, _, _, names, rfl, hobject, hnames, hlength, hsorted, (Option.some.inj h).symm⟩
      · cases h
    · cases h
  · rintro ⟨handle, shape, values, names, rfl, hobject, hnames, -, -, rfl⟩
    simp [entries, hobject, hnames, Except.toOption]

/-- The names of the entries increase. -/
theorem entries_sorted (hview : view.DictsOrdered) {value : RuntimeValue}
    {found : List (String × RuntimeValue)} (h : view.entries value = some found) :
    (found.map (·.1)).Pairwise (· < ·) := by
  obtain ⟨handle, shape, values, names, -, -, -, hlength, hsorted, rfl⟩ :=
    (entries_eq_some hview).mp h
  rwa [List.map_fst_zip (by simp [hlength])]

theorem entries_eq_none (hview : view.DictsOrdered) {handle : Handle}
    (h : view.entries (.dict handle) = none) (object : Object)
    (hobject : view.object handle = .ok object) : ∀ shape values, object ≠ .dict shape values := by
  rintro shape values rfl
  obtain ⟨names, hnames, -⟩ := hview hobject
  simp [entries, hobject, hnames, Except.toOption] at h

theorem dictNames_eq (hview : view.DictsOrdered) (value : RuntimeValue) :
    view.dictNames value = (view.entries value).map (·.map (·.1)) := by
  cases hentries : view.entries value with
  | some found =>
      obtain ⟨handle, shape, values, names, rfl, hobject, hnames, hlength, -, rfl⟩ :=
        (entries_eq_some hview).mp hentries
      have hfields : view.dictFields handle = .ok names := by
        obtain ⟨fields, hfields, htexts⟩ := bind_eq_ok.mp hnames
        unfold dictFields dictShape
        rw [hobject]
        change (view.shape shape >>= fun fields => fields.mapM view.text) = _
        exact bind_eq_ok.mpr ⟨fields, hfields, htexts⟩
      simp [dictNames, hfields, Except.toOption, List.map_fst_zip, hlength]
  | none =>
      unfold dictNames
      split
      · rename_i handle
        unfold dictFields dictShape
        cases hobject : view.object handle with
        | error e => rfl
        | ok object =>
            have hne := entries_eq_none hview hentries object hobject
            cases object <;> first | rfl | exact absurd rfl (hne _ _)
      · rfl

/-- The search for a name in a dict finds its entry. -/
theorem dictGetText_eq {handle : Handle} {shape : ShapeId} {values : List RichValue}
    {names : List String} (hobject : view.object handle = .ok (.dict shape values))
    (hnames : view.fieldNames shape = .ok names) (hlength : names.length = values.length)
    (hsorted : names.Pairwise (· < ·)) (name : String) :
    view.dictGetText handle name = .ok ((names.zip values).lookup name) := by
  obtain ⟨fields, hfields, htexts⟩ := bind_eq_ok.mp hnames
  have hforall := mapM_eq_ok.mp htexts
  have hcompare : ∀ (i : Nat) (hi : i < names.length),
      view.compareField fields name i = compare names[i] name := by
    intro i hi
    have hi' : i < fields.length := hforall.length_eq ▸ hi
    have htext := List.Forall₂.get hforall hi' hi
    rw [compareField, List.getElem?_eq_getElem hi']
    simp only [List.get_eq_getElem] at htext
    simp [fieldText, htext]
  rw [dictGetText, dictShape, hobject]
  change (do let fields ← view.shape shape; _) = _
  rw [hfields]
  refine congrArg Except.ok ?_
  rw [hforall.length_eq]
  exact bind_binarySearchBy hsorted hlength hcompare

/-- The value of a name is next to it in the entries. -/
theorem dictValue_eq (hview : view.DictsOrdered) (value : RuntimeValue) (name : String) :
    view.dictValue value name = (view.entries value).bind (·.lookup name) := by
  cases hentries : view.entries value with
  | some found =>
      obtain ⟨handle, shape, values, names, rfl, hobject, hnames, hlength, hsorted, rfl⟩ :=
        (entries_eq_some hview).mp hentries
      have hlookup : (names.zip (values.map (·.value))).lookup name =
          ((names.zip values).lookup name).map (·.value) := by
        rw [List.zip_map_right]
        exact lookup_map_snd _ _ _
      rw [dictValue, dictGetText_eq hobject hnames hlength hsorted, Option.bind_some, hlookup]
      cases (names.zip values).lookup name <;> rfl
  | none =>
      unfold dictValue
      split
      · rename_i handle
        unfold dictGetText dictShape
        cases hobject : view.object handle with
        | error e => rfl
        | ok object =>
            have hne := entries_eq_none hview hentries object hobject
            cases object <;> first | rfl | exact absurd rfl (hne _ _)
      · rfl

end Entries

section Layers

variable (view : HeapView)

/-- The items of an array. -/
def arrayItems : RuntimeValue → Option (List RuntimeValue)
  | .array handle =>
      match view.object handle with
      | .ok (.array values) => some (values.map (·.value))
      | _ => none
  | _ => none

/-- A wrapper with attributes around metadata. -/
def Wraps (value inner : RuntimeValue) : Prop :=
  ∃ attributes kind, view.entries value =
      some [("attributes", .dict attributes), ("inner", inner), ("kind", kind)] ∧
    view.asAtom kind = some "WithAttributes"

/-- One layer of metadata, with the values in which the types inside are. -/
inductive RawLayer : RuntimeValue → TypeLayer RuntimeValue RuntimeValue → Prop where
  | opaqueType {value nativeType} : view.asNativeType value = some nativeType →
      RawLayer value (.opaqueType nativeType)
  | inner {value inner} : view.Wraps value inner → RawLayer value (.inner inner)
  | bound {value kind name n} :
      view.entries value = some [("kind", kind), ("parameter", .int n)] →
      view.asAtom kind = some name → name = "Bound" ∨ name = "'Bound" → 0 ≤ n → n < 2 ^ 32 →
      RawLayer value (.bound n.toNat)
  | plain {value kind plainType} : view.entries value = some [("kind", kind)] →
      view.asAtom kind = some plainType.name → RawLayer value (.plain plainType)
  | typeOf {value kind described} :
      view.entries value = some [("instance", described), ("kind", kind)] →
      view.asAtom kind = some "TypeOf" → RawLayer value (.typeOf described)
  | atom {value kind tag name} : view.entries value = some [("kind", kind), ("tag", tag)] →
      view.asAtom kind = some "Atom" → view.asAtom tag = some name →
      RawLayer value (.atom (atomFromName name))
  | array {value kind item} : view.entries value = some [("item", item), ("kind", kind)] →
      view.asAtom kind = some "Array" → RawLayer value (.array item)
  | dict {value kind item} : view.entries value = some [("item", item), ("kind", kind)] →
      view.asAtom kind = some "Dict" → RawLayer value (.dict item)
  | tagged {value kind payload tag name} :
      view.entries value = some [("kind", kind), ("payload", payload), ("tag", tag)] →
      view.asAtom kind = some "Tagged" → view.asAtom tag = some name →
      RawLayer value (.tagged (atomFromName name) payload)
  | tuple {value kind sequence items} :
      view.entries value = some [("items", sequence), ("kind", kind)] →
      view.asAtom kind = some "Tuple" → view.arrayItems sequence = some items →
      RawLayer value (.tuple items)
  | struct {value kind dict fields} : view.entries value = some [("fields", dict), ("kind", kind)] →
      view.asAtom kind = some "Struct" → view.entries dict = some fields →
      RawLayer value (.struct fields)
  | enum {value kind dict variants} :
      view.entries value = some [("kind", kind), ("variants", dict)] →
      view.asAtom kind = some "Enum" → view.entries dict = some variants → variants ≠ [] →
      RawLayer value (.enum variants)
  | union {value kind sequence variants} :
      view.entries value = some [("kind", kind), ("variants", sequence)] →
      view.asAtom kind = some "Union" → view.arrayItems sequence = some variants → variants ≠ [] →
      RawLayer value (.union variants)
  | function {value kind sequence parameters result} :
      view.entries value = some [("kind", kind), ("parameters", sequence), ("result", result)] →
      view.asAtom kind = some "Function" → view.arrayItems sequence = some parameters →
      RawLayer value (.function parameters result)

end Layers

section Reads

variable {view : HeapView} {value : RuntimeValue} {path name : String}

theorem metaField_is (hview : view.DictsOrdered) {item : RuntimeValue} :
    (view.metaField value name path).Is item ↔
      (view.entries value).bind (·.lookup name) = some item := by
  rw [← dictValue_eq hview, metaField]
  cases view.dictValue value name <;> simp

theorem metaTag_is (hview : view.DictsOrdered) {tag : Atom} :
    (view.metaTag value path).Is tag ↔
      ∃ text, ((view.entries value).bind (·.lookup "tag")).bind view.asAtom = some text ∧
        tag = atomFromName text := by
  rw [← dictValue_eq hview, metaTag]
  cases (view.dictValue value "tag").bind view.asAtom <;> simp [eq_comm]

theorem sequenceItems_array (handle : Handle) :
    view.sequenceItems (.array handle) = view.arrayItems (.array handle) := by
  simp only [sequenceItems, arrayItems, sequence]
  cases view.object handle with
  | error e => rfl
  | ok object => cases object <;> rfl

theorem metaItems_is (hview : view.DictsOrdered) {items : List RuntimeValue} :
    (view.metaItems value name path).Is items ↔
      ((view.entries value).bind (·.lookup name)).bind view.arrayItems = some items := by
  rw [metaItems, Answer.bind_is]
  simp only [metaField_is hview]
  cases (view.entries value).bind (·.lookup name) with
  | none => simp
  | some sequence =>
      simp only [Option.some.injEq, exists_eq_left', Option.bind_some]
      cases sequence with
      | array handle =>
          rw [Answer.bind_is]
          simp only [valueKind, Answer.pure_is, exists_eq_left', ↓reduceIte, sequenceItems_array]
          cases view.arrayItems (.array handle) <;> simp
      | upLink => exact ⟨fun h => absurd h Answer.not_none_is, fun h => by cases h⟩
      | _ => simp [valueKind, arrayItems]

theorem metaEntries_is (hview : view.DictsOrdered) {found : List (String × RuntimeValue)} :
    (view.metaEntries value name path).Is found ↔
      ((view.entries value).bind (·.lookup name)).bind view.entries = some found := by
  rw [metaEntries, Answer.bind_is]
  simp only [metaField_is hview]
  cases (view.entries value).bind (·.lookup name) with
  | none => simp
  | some dict =>
      simp only [Option.some.injEq, exists_eq_left', Option.bind_some, dictNames_eq hview]
      cases hentries : view.entries dict with
      | none => simp
      | some all =>
          have hnodup : (all.map Prod.fst).Nodup :=
            (entries_sorted hview hentries).imp fun hlt => ne_of_lt hlt
          simp only [Option.map_some, dictValue_eq hview, hentries, Option.bind_some]
          have hall : ((all.map (·.1)).mapM fun name =>
              match all.lookup name with
              | some item => return (name, item)
              | none => Answer.none : Decoding (List (String × RuntimeValue))).Is all := by
            refine Answer.mapM_is.mpr (List.forall₂_map_left_iff.mpr (List.forall₂_same.mpr ?_))
            rintro ⟨name, item⟩ hmem
            rw [lookup_of_mem hnodup hmem]
            exact Answer.pure_is.mpr rfl
          constructor
          · intro h
            rw [hall.unique h]
          · intro h
            rwa [← Option.some.inj h]

theorem asNativeType_of_entries {found : List (String × RuntimeValue)}
    (h : view.entries value = some found) : view.asNativeType value = none := by
  cases value <;> first | rfl | cases h

theorem metaName_eq (hview : view.DictsOrdered) :
    view.metaName value = ((view.entries value).bind (·.lookup "kind")).bind view.asAtom := by
  rw [metaName, dictValue_eq hview]

theorem wrapperInner_is (hview : view.DictsOrdered) {found : List (String × RuntimeValue)}
    (hentries : view.entries value = some found)
    (hname : view.metaName value = some "WithAttributes") {inner : RuntimeValue} :
    (view.wrapperInner value (found.map (·.1)) path).Is inner ↔ view.Wraps value inner := by
  rw [metaName_eq hview, hentries] at hname
  unfold wrapperInner
  by_cases hfields : found.map (·.1) = wrapperFields
  · rw [if_pos hfields]
    obtain ⟨attributes, inside, kind, rfl⟩ := three_entries hfields
    have hattributes : view.dictValue value "attributes" = some attributes := by
      rw [dictValue_eq hview, hentries]
      rfl
    have hinside : view.dictValue value "inner" = some inside := by
      rw [dictValue_eq hview, hentries]
      rfl
    rw [hattributes, hinside]
    constructor
    · intro h
      obtain ⟨k, hk, h⟩ := Answer.bind_is.mp h
      cases attributes with
      | dict handle =>
          obtain rfl := Answer.pure_is.mp hk
          obtain rfl := Answer.pure_is.mp h
          exact ⟨handle, kind, hentries, hname⟩
      | upLink => exact absurd hk Answer.not_none_is
      | _ =>
          obtain rfl := Answer.pure_is.mp hk
          exact absurd h Answer.not_throw_is
    · rintro ⟨handle, kind', h, -⟩
      have heq := hentries.symm.trans h
      simp only [Option.some.injEq, List.cons.injEq, Prod.mk.injEq, true_and, and_true] at heq
      obtain ⟨rfl, rfl, -⟩ := heq
      exact Answer.bind_is.mpr ⟨.dict, Answer.pure_is.mpr rfl, Answer.pure_is.mpr rfl⟩
  · rw [if_neg hfields]
    refine ⟨fun h => absurd h Answer.not_throw_is, ?_⟩
    rintro ⟨handle, kind', h, -⟩
    rw [Option.some.inj (hentries.symm.trans h)] at hfields
    exact absurd rfl hfields

end Reads

section ReadKind

variable {view : HeapView} {value : RuntimeValue} {path name : String}
  {raw : TypeLayer RuntimeValue RuntimeValue} {found : List (String × RuntimeValue)}

theorem refKind_eq_some {kind : MetaKind} :
    refKind name = some kind ↔ (name = "'Bound" ∧ kind = .bound) ∨ name = kind.name := by
  unfold refKind
  split
  · rename_i h
    subst h
    simp only [Option.some.injEq, true_and]
    refine ⟨fun h => .inl h.symm, fun h => ?_⟩
    obtain rfl | h := h
    · rfl
    · have hnone : MetaKind.ofName "'Bound" = none := rfl
      exact absurd (hnone.symm.trans (MetaKind.ofName_eq_some.mpr h)) (by simp)
  · rename_i hne
    rw [MetaKind.ofName_eq_some]
    simp [hne]

/-- What the checked fields of a kind hold is a layer. -/
theorem rawLayer_of_readKind (hview : view.DictsOrdered) {kind : MetaKind}
    (hentries : view.entries value = some found) (hfields : found.map (·.1) = kind.fields)
    (hname : view.metaName value = some name) (hkind : refKind name = some kind)
    (h : (view.readKind kind value path).Is raw) : view.RawLayer value raw := by
  rw [metaName_eq hview, hentries, Option.bind_some] at hname
  have hnamed (hne : kind ≠ .bound) : name = kind.name :=
    (refKind_eq_some.mp hkind).resolve_left fun h => hne h.2
  cases kind with
  | bound =>
      obtain ⟨kind, parameter, rfl⟩ := two_entries hfields
      have hname' := (refKind_eq_some.mp hkind).symm.imp id And.left
      rw [readKind, dictValue_eq hview, hentries, Option.bind_some] at h
      change (match asInt parameter with | some n => _ | none => _ : Decoding _).Is raw at h
      cases parameter with
      | int n =>
          change (if _ then _ else _ : Decoding _).Is raw at h
          split at h
          · rename_i hbounds
            obtain rfl := Answer.pure_is.mp h
            exact .bound hentries hname hname' hbounds.1 hbounds.2
          · exact absurd h Answer.not_throw_is
      | _ => exact absurd h Answer.not_throw_is
  | plain plainType =>
      obtain ⟨kind, rfl⟩ := one_entry hfields
      obtain rfl := hnamed (by simp)
      obtain rfl := Answer.pure_is.mp h
      exact .plain hentries hname
  | typeOf | array | dict =>
      obtain ⟨_, kind, rfl⟩ := two_entries hfields
      obtain rfl := hnamed (by simp)
      obtain ⟨x, hx, h⟩ := Answer.bind_is.mp h
      obtain rfl := Answer.pure_is.mp h
      rw [metaField_is hview, hentries] at hx
      obtain rfl := Option.some.inj hx
      first
        | exact .typeOf hentries hname
        | exact .array hentries hname
        | exact .dict hentries hname
  | atom =>
      obtain ⟨kind, tag, rfl⟩ := two_entries hfields
      obtain rfl := hnamed (by simp)
      obtain ⟨x, hx, h⟩ := Answer.bind_is.mp h
      obtain rfl := Answer.pure_is.mp h
      obtain ⟨text, htext, rfl⟩ := (metaTag_is hview).mp hx
      rw [hentries] at htext
      exact .atom hentries hname htext
  | tagged =>
      obtain ⟨kind, payload, tag, rfl⟩ := three_entries hfields
      obtain rfl := hnamed (by simp)
      obtain ⟨x, hx, h⟩ := Answer.bind_is.mp h
      obtain ⟨y, hy, h⟩ := Answer.bind_is.mp h
      obtain rfl := Answer.pure_is.mp h
      obtain ⟨text, htext, rfl⟩ := (metaTag_is hview).mp hx
      rw [hentries] at htext
      rw [metaField_is hview, hentries] at hy
      obtain rfl := Option.some.inj hy
      exact .tagged hentries hname htext
  | tuple =>
      obtain ⟨sequence, kind, rfl⟩ := two_entries hfields
      obtain rfl := hnamed (by simp)
      obtain ⟨x, hx, h⟩ := Answer.bind_is.mp h
      obtain rfl := Answer.pure_is.mp h
      rw [metaItems_is hview, hentries] at hx
      exact .tuple hentries hname hx
  | struct =>
      obtain ⟨dict, kind, rfl⟩ := two_entries hfields
      obtain rfl := hnamed (by simp)
      obtain ⟨x, hx, h⟩ := Answer.bind_is.mp h
      obtain rfl := Answer.pure_is.mp h
      rw [metaEntries_is hview, hentries] at hx
      exact .struct hentries hname hx
  | enum =>
      obtain ⟨kind, dict, rfl⟩ := two_entries hfields
      obtain rfl := hnamed (by simp)
      obtain ⟨x, hx, h⟩ := Answer.bind_is.mp h
      rw [metaEntries_is hview, hentries] at hx
      split at h
      · exact absurd h Answer.not_throw_is
      · rename_i hne
        obtain rfl := Answer.pure_is.mp h
        exact .enum hentries hname hx hne
  | union =>
      obtain ⟨kind, sequence, rfl⟩ := two_entries hfields
      obtain rfl := hnamed (by simp)
      obtain ⟨x, hx, h⟩ := Answer.bind_is.mp h
      rw [metaItems_is hview, hentries] at hx
      split at h
      · exact absurd h Answer.not_throw_is
      · rename_i hne
        obtain rfl := Answer.pure_is.mp h
        exact .union hentries hname hx hne
  | function =>
      obtain ⟨kind, sequence, result, rfl⟩ := three_entries hfields
      obtain rfl := hnamed (by simp)
      obtain ⟨x, hx, h⟩ := Answer.bind_is.mp h
      obtain ⟨y, hy, h⟩ := Answer.bind_is.mp h
      obtain rfl := Answer.pure_is.mp h
      rw [metaItems_is hview, hentries] at hx
      rw [metaField_is hview, hentries] at hy
      obtain rfl := Option.some.inj hy
      exact .function hentries hname hx

theorem refKind_name (kind : MetaKind) : refKind kind.name = some kind :=
  refKind_eq_some.mpr (.inr rfl)

/-- The way to the fields of a kind. -/
theorem readResolved_of_kind (hview : view.DictsOrdered) {kind : MetaKind}
    (hentries : view.entries value = some found) (hfields : found.map (·.1) = kind.fields)
    (hname : view.metaName value = some name) (hkind : refKind name = some kind) :
    view.readResolved value path = view.readKind kind value path := by
  have hne : name ≠ "WithAttributes" := by
    rintro rfl
    have hnone : refKind "WithAttributes" = none := rfl
    rw [hnone] at hkind
    cases hkind
  simp only [readResolved, asNativeType_of_entries hentries, dictNames_eq hview, hentries,
    Option.map_some, hname, if_neg hne, hkind, if_pos hfields]

private theorem metaName_of_lookup (hview : view.DictsOrdered) {kind : RuntimeValue}
    (hentries : view.entries value = some found) (hkind : found.lookup "kind" = some kind)
    (hname : view.asAtom kind = some name) : view.metaName value = some name := by
  rw [metaName_eq hview, hentries, Option.bind_some, hkind, Option.bind_some, hname]

private theorem readResolved_of_name (hview : view.DictsOrdered) (kind : MetaKind)
    {named : RuntimeValue} (hentries : view.entries value = some found)
    (hfields : found.map (·.1) = kind.fields) (hlookup : found.lookup "kind" = some named)
    (hnamed : view.asAtom named = some kind.name) :
    view.readResolved value path = view.readKind kind value path :=
  readResolved_of_kind hview hentries hfields (metaName_of_lookup hview hentries hlookup hnamed)
    (refKind_name kind)

theorem readResolved_of_rawLayer (hview : view.DictsOrdered) (h : view.RawLayer value raw) :
    (view.readResolved value path).Is raw := by
  cases h with
  | opaqueType hnative =>
      rw [readResolved, hnative]
      exact Answer.pure_is.mpr rfl
  | inner hwraps =>
      obtain ⟨attributes, kind, hentries, hkind⟩ := id hwraps
      have hname := metaName_of_lookup hview hentries rfl hkind
      simp only [readResolved, asNativeType_of_entries hentries, dictNames_eq hview, hentries,
        Option.map_some, hname, ↓reduceIte]
      exact Answer.bind_is.mpr ⟨_, (wrapperInner_is hview hentries hname).mpr hwraps,
        Answer.pure_is.mpr rfl⟩
  | @bound kind name n hentries hkind hname hzero hlt =>
      have hrefKind : refKind name = some .bound :=
        refKind_eq_some.mpr (hname.symm.imp (fun h => ⟨h, rfl⟩) id)
      rw [readResolved_of_kind hview hentries rfl (metaName_of_lookup hview hentries rfl hkind)
        hrefKind, readKind, dictValue_eq hview, hentries]
      change (if _ then _ else _ : Decoding _).Is _
      rw [if_pos ⟨hzero, hlt⟩]
      exact Answer.pure_is.mpr rfl
  | @plain kind plainType hentries hkind =>
      rw [readResolved_of_name hview (.plain plainType) hentries rfl rfl hkind]
      exact Answer.pure_is.mpr rfl
  | typeOf hentries hkind =>
      rw [readResolved_of_name hview .typeOf hentries rfl rfl hkind]
      refine Answer.bind_is.mpr ⟨_, (metaField_is hview).mpr ?_, Answer.pure_is.mpr rfl⟩
      rw [hentries]
      rfl
  | array hentries hkind =>
      rw [readResolved_of_name hview .array hentries rfl rfl hkind]
      refine Answer.bind_is.mpr ⟨_, (metaField_is hview).mpr ?_, Answer.pure_is.mpr rfl⟩
      rw [hentries]
      rfl
  | dict hentries hkind =>
      rw [readResolved_of_name hview .dict hentries rfl rfl hkind]
      refine Answer.bind_is.mpr ⟨_, (metaField_is hview).mpr ?_, Answer.pure_is.mpr rfl⟩
      rw [hentries]
      rfl
  | atom hentries hkind htag =>
      rw [readResolved_of_name hview .atom hentries rfl rfl hkind]
      refine Answer.bind_is.mpr ⟨_, (metaTag_is hview).mpr ⟨_, ?_, rfl⟩, Answer.pure_is.mpr rfl⟩
      rw [hentries]
      exact htag
  | tagged hentries hkind htag =>
      rw [readResolved_of_name hview .tagged hentries rfl rfl hkind]
      refine Answer.bind_is.mpr ⟨_, (metaTag_is hview).mpr ⟨_, ?_, rfl⟩,
        Answer.bind_is.mpr ⟨_, (metaField_is hview).mpr ?_, Answer.pure_is.mpr rfl⟩⟩
      · rw [hentries]
        exact htag
      · rw [hentries]
        rfl
  | tuple hentries hkind hitems =>
      rw [readResolved_of_name hview .tuple hentries rfl rfl hkind]
      refine Answer.bind_is.mpr ⟨_, (metaItems_is hview).mpr ?_, Answer.pure_is.mpr rfl⟩
      rw [hentries]
      exact hitems
  | struct hentries hkind hfields =>
      rw [readResolved_of_name hview .struct hentries rfl rfl hkind]
      refine Answer.bind_is.mpr ⟨_, (metaEntries_is hview).mpr ?_, Answer.pure_is.mpr rfl⟩
      rw [hentries]
      exact hfields
  | @enum _ _ variants hentries hkind hvariants hne =>
      rw [readResolved_of_name hview .enum hentries rfl rfl hkind]
      refine Answer.bind_is.mpr ⟨variants, (metaEntries_is hview).mpr ?_, ?_⟩
      · rw [hentries]
        exact hvariants
      · rw [if_neg hne]
        exact Answer.pure_is.mpr rfl
  | @union _ _ variants hentries hkind hvariants hne =>
      rw [readResolved_of_name hview .union hentries rfl rfl hkind]
      refine Answer.bind_is.mpr ⟨variants, (metaItems_is hview).mpr ?_, ?_⟩
      · rw [hentries]
        exact hvariants
      · rw [if_neg hne]
        exact Answer.pure_is.mpr rfl
  | function hentries hkind hparameters =>
      rw [readResolved_of_name hview .function hentries rfl rfl hkind]
      refine Answer.bind_is.mpr ⟨_, (metaItems_is hview).mpr ?_,
        Answer.bind_is.mpr ⟨_, (metaField_is hview).mpr ?_, Answer.pure_is.mpr rfl⟩⟩
      · rw [hentries]
        exact hparameters
      · rw [hentries]
        rfl

/-- What is read of a value that is no link is its layer. -/
theorem readResolved_is (hview : view.DictsOrdered) :
    (view.readResolved value path).Is raw ↔ view.RawLayer value raw := by
  refine ⟨fun h => ?_, readResolved_of_rawLayer hview⟩
  unfold readResolved at h
  cases hnative : view.asNativeType value with
  | some nativeType =>
      rw [hnative] at h
      obtain rfl := Answer.pure_is.mp h
      exact .opaqueType hnative
  | none =>
      rw [hnative, dictNames_eq hview] at h
      cases hentries : view.entries value with
      | none =>
          rw [hentries] at h
          exact absurd h Answer.not_throw_is
      | some found =>
          rw [hentries] at h
          cases hname : view.metaName value with
          | none =>
              rw [hname] at h
              exact absurd h Answer.not_throw_is
          | some name =>
              simp only [hname, Option.map_some] at h
              split at h
              · rename_i hwrapper
                subst hwrapper
                obtain ⟨inner, hinner, h⟩ := Answer.bind_is.mp h
                obtain rfl := Answer.pure_is.mp h
                exact .inner ((wrapperInner_is hview hentries hname).mp hinner)
              · cases hkind : refKind name with
                | none =>
                    rw [hkind] at h
                    exact absurd h Answer.not_throw_is
                | some kind =>
                    simp only [hkind] at h
                    split at h
                    · exact rawLayer_of_readKind hview hentries ‹_› hname hkind h
                    · exact absurd h Answer.not_throw_is

end ReadKind

end HeapView

end Telora
