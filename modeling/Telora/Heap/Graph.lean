import Mathlib.Logic.Relation
import Telora.Heap.Heap
import Telora.Library.Lists

/-!
# The graph of a view

Objects refer to handles, texts and shapes. Two objects correspond when they are
of one kind and their references correspond one by one; a view is closed when
every reference it holds resolves in it.

Every value names an object of its own kind. The heap builds values that way; a
slot can still be reserved, and an up-link can still be empty.
-/

namespace Telora

open Library Bytecode

/-- What a value or an object refers to. -/
inductive Ref where
  | object (handle : Handle)
  | text (id : InternId)
  | shape (id : ShapeId)
  deriving DecidableEq

def RuntimeValue.refs : RuntimeValue → List Ref
  | .int _ => []
  | .float _ => []
  | .builtinAtom _ => []
  | .atom id => [.text id]
  | .shortString id => [.text id]
  | .string handle => [.object handle]
  | .bytes handle => [.object handle]
  | .nativeType handle => [.object handle]
  | .opaqueValue handle => [.object handle]
  | .array handle => [.object handle]
  | .tuple handle => [.object handle]
  | .tagged handle => [.object handle]
  | .dict handle => [.object handle]
  | .func handle => [.object handle]
  | .dyn handle => [.object handle]
  | .upLink handle => [.object handle]

def RichValue.refs (rich : RichValue) : List Ref := rich.value.refs

def RuntimePrototype.refs : RuntimePrototype → List Ref
  | .bytecode handle => [.object handle]
  | .native _ => []

def Object.refs : Object → List Ref
  | .reserved => []
  | .string _ => []
  | .bytes _ => []
  | .nativeType _ => []
  | .opaqueValue _ => []
  | .array values => values.flatMap RichValue.refs
  | .tuple values => values.flatMap RichValue.refs
  | .tagged tag payload => tag.refs ++ payload.refs
  | .dict shape values => .shape shape :: values.flatMap RichValue.refs
  | .closure _ prototype upvalues => prototype.refs ++ upvalues.flatMap RichValue.refs
  | .dyn _ descriptor value _ _ => descriptor.refs ++ value.refs
  | .upLink none => []
  | .upLink (some value) => value.refs
  | .byteCodeProto _ values text prototypes =>
      values.flatMap RichValue.refs ++ (text.map .text ++
        prototypes.flatMap RuntimePrototype.refs)

section Correspondence

variable (rH : Handle → Handle → Prop) (rT : InternId → InternId → Prop)
  (rS : ShapeId → ShapeId → Prop)

/-- References of one sort that correspond. -/
inductive Ref.Rel : Ref → Ref → Prop where
  | object {h h'} : rH h h' → Ref.Rel (.object h) (.object h')
  | text {t t'} : rT t t' → Ref.Rel (.text t) (.text t')
  | shape {s s'} : rS s s' → Ref.Rel (.shape s) (.shape s')

/-- Values of one kind whose references correspond. -/
inductive RuntimeValue.Rel : RuntimeValue → RuntimeValue → Prop where
  | int {n} : RuntimeValue.Rel (.int n) (.int n)
  | float {x} : RuntimeValue.Rel (.float x) (.float x)
  | builtinAtom {a} : RuntimeValue.Rel (.builtinAtom a) (.builtinAtom a)
  | atom {t t'} : rT t t' → RuntimeValue.Rel (.atom t) (.atom t')
  | shortString {t t'} : rT t t' → RuntimeValue.Rel (.shortString t) (.shortString t')
  | string {h h'} : rH h h' → RuntimeValue.Rel (.string h) (.string h')
  | bytes {h h'} : rH h h' → RuntimeValue.Rel (.bytes h) (.bytes h')
  | nativeType {h h'} : rH h h' → RuntimeValue.Rel (.nativeType h) (.nativeType h')
  | opaqueValue {h h'} : rH h h' → RuntimeValue.Rel (.opaqueValue h) (.opaqueValue h')
  | array {h h'} : rH h h' → RuntimeValue.Rel (.array h) (.array h')
  | tuple {h h'} : rH h h' → RuntimeValue.Rel (.tuple h) (.tuple h')
  | tagged {h h'} : rH h h' → RuntimeValue.Rel (.tagged h) (.tagged h')
  | dict {h h'} : rH h h' → RuntimeValue.Rel (.dict h) (.dict h')
  | func {h h'} : rH h h' → RuntimeValue.Rel (.func h) (.func h')
  | dyn {h h'} : rH h h' → RuntimeValue.Rel (.dyn h) (.dyn h')
  | upLink {h h'} : rH h h' → RuntimeValue.Rel (.upLink h) (.upLink h')

/-- Corresponding values with the same provenance. -/
def RichValue.Rel (rich rich' : RichValue) : Prop :=
  RuntimeValue.Rel rH rT rich.value rich'.value ∧ rich.provenance = rich'.provenance

inductive RuntimePrototype.Rel : RuntimePrototype → RuntimePrototype → Prop where
  | bytecode {h h'} : rH h h' → RuntimePrototype.Rel (.bytecode h) (.bytecode h')
  | native {f} : RuntimePrototype.Rel (.native f) (.native f)

/-- Objects of one kind with the same data whose references correspond. A reserved
slot and an empty up-link correspond to nothing. -/
inductive Object.Rel : Object → Object → Prop where
  | string {s} : Object.Rel (.string s) (.string s)
  | bytes {b} : Object.Rel (.bytes b) (.bytes b)
  | nativeType {t} : Object.Rel (.nativeType t) (.nativeType t)
  | opaqueValue {o} : Object.Rel (.opaqueValue o) (.opaqueValue o)
  | array {vs vs'} : List.Forall₂ (RichValue.Rel rH rT) vs vs' →
      Object.Rel (.array vs) (.array vs')
  | tuple {vs vs'} : List.Forall₂ (RichValue.Rel rH rT) vs vs' →
      Object.Rel (.tuple vs) (.tuple vs')
  | tagged {t t' p p'} : RichValue.Rel rH rT t t' → RichValue.Rel rH rT p p' →
      Object.Rel (.tagged t p) (.tagged t' p')
  | dict {s s' vs vs'} : rS s s' → List.Forall₂ (RichValue.Rel rH rT) vs vs' →
      Object.Rel (.dict s vs) (.dict s' vs')
  | closure {i p p' vs vs'} : RuntimePrototype.Rel rH p p' →
      List.Forall₂ (RichValue.Rel rH rT) vs vs' →
      Object.Rel (.closure i p vs) (.closure i p' vs')
  | dyn {i d d' v v' s o} : RichValue.Rel rH rT d d' → RichValue.Rel rH rT v v' →
      Object.Rel (.dyn i d v s o) (.dyn i d' v' s o)
  | upLink {v v'} : RichValue.Rel rH rT v v' →
      Object.Rel (.upLink (some v)) (.upLink (some v'))
  | byteCodeProto {c vs vs' ts ts' ps ps'} : List.Forall₂ (RichValue.Rel rH rT) vs vs' →
      List.Forall₂ rT ts ts' → List.Forall₂ (RuntimePrototype.Rel rH) ps ps' →
      Object.Rel (.byteCodeProto c vs ts ps) (.byteCodeProto c vs' ts' ps')

end Correspondence

section Lemmas

variable {rH sH : Handle → Handle → Prop} {rT sT : InternId → InternId → Prop}
  {rS sS : ShapeId → ShapeId → Prop}

theorem RuntimeValue.Rel.imp (hH : ∀ a b, rH a b → sH a b) (hT : ∀ a b, rT a b → sT a b)
    {v v' : RuntimeValue} (h : RuntimeValue.Rel rH rT v v') : RuntimeValue.Rel sH sT v v' := by
  cases h <;> constructor <;> first | exact hH _ _ ‹_› | exact hT _ _ ‹_›

theorem RichValue.Rel.imp (hH : ∀ a b, rH a b → sH a b) (hT : ∀ a b, rT a b → sT a b)
    {v v' : RichValue} (h : RichValue.Rel rH rT v v') : RichValue.Rel sH sT v v' :=
  ⟨h.1.imp hH hT, h.2⟩

theorem RuntimePrototype.Rel.imp (hH : ∀ a b, rH a b → sH a b) {p p' : RuntimePrototype}
    (h : RuntimePrototype.Rel rH p p') : RuntimePrototype.Rel sH p p' := by
  cases h with
  | bytecode h => exact .bytecode (hH _ _ h)
  | native => exact .native

/-- Objects that correspond still do under weaker relations of their references. -/
theorem Object.Rel.imp (hH : ∀ a b, rH a b → sH a b) (hT : ∀ a b, rT a b → sT a b)
    (hS : ∀ a b, rS a b → sS a b) {o o' : Object} (h : Object.Rel rH rT rS o o') :
    Object.Rel sH sT sS o o' := by
  have hvs : ∀ {vs vs'}, List.Forall₂ (RichValue.Rel rH rT) vs vs' →
      List.Forall₂ (RichValue.Rel sH sT) vs vs' := fun h => h.imp fun _ _ => RichValue.Rel.imp hH hT
  cases h with
  | string => exact .string
  | bytes => exact .bytes
  | nativeType => exact .nativeType
  | opaqueValue => exact .opaqueValue
  | array h => exact .array (hvs h)
  | tuple h => exact .tuple (hvs h)
  | tagged ht hp => exact .tagged (ht.imp hH hT) (hp.imp hH hT)
  | dict hs h => exact .dict (hS _ _ hs) (hvs h)
  | closure hp h => exact .closure (hp.imp hH) (hvs h)
  | dyn hd hv => exact .dyn (hd.imp hH hT) (hv.imp hH hT)
  | upLink h => exact .upLink (h.imp hH hT)
  | byteCodeProto h ht hp =>
      exact .byteCodeProto (hvs h) (ht.imp hT) (hp.imp fun _ _ => RuntimePrototype.Rel.imp hH)

theorem RuntimeValue.Rel.refs {v v' : RuntimeValue} (h : RuntimeValue.Rel rH rT v v') :
    List.Forall₂ (Ref.Rel rH rT rS) v.refs v'.refs := by
  cases h <;> simp only [RuntimeValue.refs] <;> constructor <;>
    first
      | exact .nil
      | exact .object ‹_›
      | exact .text ‹_›

theorem RuntimePrototype.Rel.refs {p p' : RuntimePrototype}
    (h : RuntimePrototype.Rel rH p p') : List.Forall₂ (Ref.Rel rH rT rS) p.refs p'.refs := by
  cases h with
  | bytecode h => exact .cons (.object h) .nil
  | native => exact .nil

/-- References of corresponding objects correspond in order. -/
theorem Object.Rel.refs {o o' : Object} (h : Object.Rel rH rT rS o o') :
    List.Forall₂ (Ref.Rel rH rT rS) o.refs o'.refs := by
  have hvs : ∀ {vs vs'}, List.Forall₂ (RichValue.Rel rH rT) vs vs' →
      List.Forall₂ (Ref.Rel rH rT rS) (vs.flatMap RichValue.refs) (vs'.flatMap RichValue.refs) :=
    fun h => forall₂_flatMap (fun h => h.1.refs) h
  cases h with
  | string => exact .nil
  | bytes => exact .nil
  | nativeType => exact .nil
  | opaqueValue => exact .nil
  | array h => exact hvs h
  | tuple h => exact hvs h
  | tagged ht hp => exact List.rel_append ht.1.refs hp.1.refs
  | dict hs h => exact .cons (.shape hs) (hvs h)
  | closure hp h => exact List.rel_append hp.refs (hvs h)
  | dyn hd hv => exact List.rel_append hd.1.refs hv.1.refs
  | upLink h => exact h.1.refs
  | byteCodeProto h ht hp =>
      refine List.rel_append (hvs h) (List.rel_append ?_ (forall₂_flatMap (fun h => h.refs) hp))
      exact List.forall₂_map_left_iff.mpr (List.forall₂_map_right_iff.mpr
        (ht.imp fun _ _ h => .text h))

/-- An object corresponds to itself when each of its references does. -/
theorem Object.Rel.of_refs {object : Object} (hready : object ≠ .reserved)
    (hlinked : object ≠ .upLink none)
    (hrefs : ∀ ref ∈ object.refs, Ref.Rel rH rT rS ref ref) : Object.Rel rH rT rS object object := by
  have hvalue : ∀ {rich : RichValue}, (∀ ref ∈ rich.refs, Ref.Rel rH rT rS ref ref) →
      RichValue.Rel rH rT rich rich := by
    rintro ⟨value, provenance⟩ h
    refine ⟨?_, rfl⟩
    cases value <;> constructor <;> cases h _ List.mem_cons_self <;> assumption
  have hvalues : ∀ {values : List RichValue},
      (∀ ref ∈ values.flatMap RichValue.refs, Ref.Rel rH rT rS ref ref) →
      List.Forall₂ (RichValue.Rel rH rT) values values := fun h =>
    List.forall₂_same.mpr fun value hmem => hvalue fun ref href =>
      h ref (List.mem_flatMap.mpr ⟨value, hmem, href⟩)
  have hprototype : ∀ {prototype : RuntimePrototype},
      (∀ ref ∈ prototype.refs, Ref.Rel rH rT rS ref ref) →
      RuntimePrototype.Rel rH prototype prototype := by
    intro prototype h
    cases prototype with
    | native => exact .native
    | bytecode handle =>
        cases h _ List.mem_cons_self with
        | object hh => exact .bytecode hh
  cases object with
  | reserved => exact absurd rfl hready
  | string => exact .string
  | bytes => exact .bytes
  | nativeType => exact .nativeType
  | opaqueValue => exact .opaqueValue
  | array values => exact .array (hvalues hrefs)
  | tuple values => exact .tuple (hvalues hrefs)
  | tagged tag payload =>
      exact .tagged (hvalue fun ref href => hrefs ref (List.mem_append_left _ href))
        (hvalue fun ref href => hrefs ref (List.mem_append_right _ href))
  | dict shape values =>
      refine .dict ?_ (hvalues fun ref href => hrefs ref (List.mem_cons_of_mem _ href))
      cases hrefs _ List.mem_cons_self with
      | shape hs => exact hs
  | closure identity prototype upvalues =>
      exact .closure (hprototype fun ref href => hrefs ref (List.mem_append_left _ href))
        (hvalues fun ref href => hrefs ref (List.mem_append_right _ href))
  | dyn identity descriptor value scheme origin =>
      exact .dyn (hvalue fun ref href => hrefs ref (List.mem_append_left _ href))
        (hvalue fun ref href => hrefs ref (List.mem_append_right _ href))
  | upLink value =>
      cases value with
      | none => exact absurd rfl hlinked
      | some value => exact .upLink (hvalue hrefs)
  | byteCodeProto code values text prototypes =>
      refine .byteCodeProto (hvalues fun ref href => hrefs ref (List.mem_append_left _ href)) ?_ ?_
      · refine List.forall₂_same.mpr fun id hid => ?_
        have hmem : Ref.text id ∈ (Object.byteCodeProto code values text prototypes).refs :=
          List.mem_append_right _ (List.mem_append_left _ (List.mem_map_of_mem hid))
        cases hrefs _ hmem with
        | text ht => exact ht
      · exact List.forall₂_same.mpr fun prototype hmem => hprototype fun ref href =>
          hrefs ref (List.mem_append_right _ (List.mem_append_right _
            (List.mem_flatMap.mpr ⟨prototype, hmem, href⟩)))

section Restrict

variable {part : Handle → Prop}

theorem RichValue.Rel.restrict {v v' : RichValue} (h : RichValue.Rel rH rT v v')
    (hpart : ∀ next, .object next ∈ v.refs → part next) :
    RichValue.Rel (fun a b => part a ∧ rH a b) rT v v' := by
  obtain ⟨hvalue, hprovenance⟩ := h
  obtain ⟨value, provenance⟩ := v
  obtain ⟨value', provenance'⟩ := v'
  refine ⟨?_, hprovenance⟩
  cases hvalue <;> constructor <;> first | assumption | exact ⟨hpart _ List.mem_cons_self, ‹_›⟩

theorem RuntimePrototype.Rel.restrict {p p' : RuntimePrototype} (h : RuntimePrototype.Rel rH p p')
    (hpart : ∀ next, .object next ∈ p.refs → part next) :
    RuntimePrototype.Rel (fun a b => part a ∧ rH a b) p p' := by
  cases h with
  | bytecode hh => exact .bytecode ⟨hpart _ List.mem_cons_self, hh⟩
  | native => exact .native

/-- A correspondence of objects relates the handles that the objects hold only. -/
theorem Object.Rel.restrict {o o' : Object} (h : Object.Rel rH rT rS o o')
    (hpart : ∀ next, .object next ∈ o.refs → part next) :
    Object.Rel (fun a b => part a ∧ rH a b) rT rS o o' := by
  have hvalues : ∀ {vs vs' : List RichValue},
      (∀ next, .object next ∈ vs.flatMap RichValue.refs → part next) →
      List.Forall₂ (RichValue.Rel rH rT) vs vs' →
      List.Forall₂ (RichValue.Rel (fun a b => part a ∧ rH a b) rT) vs vs' := by
    intro vs vs' hrefs hrel
    induction hrel with
    | nil => exact .nil
    | cons hv _ ih =>
        exact .cons (hv.restrict fun next hnext => hrefs next (List.mem_append_left _ hnext))
          (ih fun next hnext => hrefs next (List.mem_append_right _ hnext))
  cases h with
  | string => exact .string
  | bytes => exact .bytes
  | nativeType => exact .nativeType
  | opaqueValue => exact .opaqueValue
  | array hvs => exact .array (hvalues hpart hvs)
  | tuple hvs => exact .tuple (hvalues hpart hvs)
  | tagged ht hp =>
      exact .tagged (ht.restrict fun next hnext => hpart next (List.mem_append_left _ hnext))
        (hp.restrict fun next hnext => hpart next (List.mem_append_right _ hnext))
  | dict hs hvs => exact .dict hs (hvalues (fun next hnext => hpart next (.tail _ hnext)) hvs)
  | closure hp hvs =>
      exact .closure (hp.restrict fun next hnext => hpart next (List.mem_append_left _ hnext))
        (hvalues (fun next hnext => hpart next (List.mem_append_right _ hnext)) hvs)
  | dyn hd hv =>
      exact .dyn (hd.restrict fun next hnext => hpart next (List.mem_append_left _ hnext))
        (hv.restrict fun next hnext => hpart next (List.mem_append_right _ hnext))
  | upLink hv => exact .upLink (hv.restrict hpart)
  | byteCodeProto hvs hts hps =>
      refine .byteCodeProto
        (hvalues (fun next hnext => hpart next (List.mem_append_left _ hnext)) hvs) hts ?_
      refine List.forall₂_iff_get.mpr ⟨hps.length_eq, fun i hi hi' =>
        (hps.get hi hi').restrict fun next hnext => hpart next ?_⟩
      exact List.mem_append_right _ (List.mem_append_right _
        (List.mem_flatMap.mpr ⟨_, List.get_mem _ _, hnext⟩))

end Restrict

/-- Corresponding objects are filled. -/
theorem Object.Rel.ready {o o' : Object} (h : Object.Rel rH rT rS o o') :
    (o ≠ .reserved ∧ o ≠ .upLink none) ∧ o' ≠ .reserved ∧ o' ≠ .upLink none := by
  cases h <;> exact ⟨⟨nofun, nofun⟩, nofun, nofun⟩

end Lemmas

namespace HeapView

/-- A reference that resolves in the view. -/
def Has (view : HeapView) : Ref → Prop
  | .object handle => ∃ object, view.object handle = .ok object
  | .text id => ∃ text, view.text id = .ok text
  | .shape id => ∃ fields, view.shape id = .ok fields

/-- Every reference held by an object or a shape of the view resolves in it. -/
structure Closed (view : HeapView) : Prop where
  objects : ∀ {handle object}, view.object handle = .ok object → ∀ ref ∈ object.refs, view.Has ref
  shapes : ∀ {id fields}, view.shape id = .ok fields → ∀ field ∈ fields, view.Has (.text field)

/-- One object refers to another. -/
def Edge (view : HeapView) (handle next : Handle) : Prop :=
  ∃ object, view.object handle = .ok object ∧ .object next ∈ object.refs

/-- A handle lies in the graph below some references. -/
def Reaches (view : HeapView) (refs : List Ref) (handle : Handle) : Prop :=
  ∃ start, .object start ∈ refs ∧ Relation.ReflTransGen view.Edge start handle

theorem Reaches.step {view : HeapView} {refs : List Ref} {handle next : Handle}
    (h : view.Reaches refs handle) (hedge : view.Edge handle next) : view.Reaches refs next := by
  obtain ⟨start, hstart, hpath⟩ := h
  exact ⟨start, hstart, hpath.tail hedge⟩

theorem Reaches.root {view : HeapView} {refs : List Ref} {handle : Handle}
    (h : .object handle ∈ refs) : view.Reaches refs handle :=
  ⟨handle, h, .refl⟩

/-- Where objects hold references that resolve, everything resolves below them. -/
theorem Reaches.has {view : HeapView}
    (hobjects : ∀ {handle object}, view.object handle = .ok object →
      ∀ ref ∈ object.refs, view.Has ref) {refs : List Ref}
    (hrefs : ∀ ref ∈ refs, view.Has ref) {handle : Handle} (h : view.Reaches refs handle) :
    view.Has (.object handle) := by
  obtain ⟨start, hstart, hpath⟩ := h
  induction hpath with
  | refl => exact hrefs _ hstart
  | tail _ hedge _ =>
      obtain ⟨object, hobject, hnext⟩ := hedge
      exact hobjects hobject _ hnext

theorem Reaches.mono {view : HeapView} {refs refs' : List Ref} {handle : Handle}
    (hsub : refs ⊆ refs') (h : view.Reaches refs handle) : view.Reaches refs' handle := by
  obtain ⟨start, hstart, hpath⟩ := h
  exact ⟨start, hsub hstart, hpath⟩

end HeapView

/-- The object kinds that values and prototypes name. -/
inductive ObjectKind where
  | string | bytes | nativeType | opaqueValue | array | tuple | tagged | dict
  | closure | dyn | upLink | byteCodeProto
  deriving DecidableEq

/-- The kind of an object; a reserved slot has none yet. -/
def Object.kind : Object → Option ObjectKind
  | .reserved => none
  | .string _ => some .string
  | .bytes _ => some .bytes
  | .nativeType _ => some .nativeType
  | .opaqueValue _ => some .opaqueValue
  | .array _ => some .array
  | .tuple _ => some .tuple
  | .tagged _ _ => some .tagged
  | .dict _ _ => some .dict
  | .closure _ _ _ => some .closure
  | .dyn _ _ _ _ _ => some .dyn
  | .upLink _ => some .upLink
  | .byteCodeProto _ _ _ _ => some .byteCodeProto

/-- A value that can tag. -/
def RuntimeValue.IsAtom : RuntimeValue → Prop
  | .builtinAtom _ => True
  | .atom _ => True
  | _ => False

namespace HeapView

/-- The handle names an object of the kind, or a slot reserved for one. -/
def HasKind (view : HeapView) (handle : Handle) (kind : ObjectKind) : Prop :=
  ∃ object, view.object handle = .ok object ∧ (object = .reserved ∨ object.kind = some kind)

/-- A value whose handle names an object of its kind, or whose id names a text. -/
def ValueKinded (view : HeapView) : RuntimeValue → Prop
  | .int _ => True
  | .float _ => True
  | .builtinAtom _ => True
  | .atom id => view.Has (.text id)
  | .shortString id => view.Has (.text id)
  | .string handle => view.HasKind handle .string
  | .bytes handle => view.HasKind handle .bytes
  | .nativeType handle => view.HasKind handle .nativeType
  | .opaqueValue handle => view.HasKind handle .opaqueValue
  | .array handle => view.HasKind handle .array
  | .tuple handle => view.HasKind handle .tuple
  | .tagged handle => view.HasKind handle .tagged
  | .dict handle => view.HasKind handle .dict
  | .func handle => view.HasKind handle .closure
  | .dyn handle => view.HasKind handle .dyn
  | .upLink handle => view.HasKind handle .upLink

def PrototypeKinded (view : HeapView) : RuntimePrototype → Prop
  | .bytecode handle => view.HasKind handle .byteCodeProto
  | .native _ => True

/-- A shape whose fields all name texts. -/
def ShapeKinded (view : HeapView) (shape : ShapeId) : Prop :=
  ∃ fields, view.shape shape = .ok fields ∧ ∀ field ∈ fields, view.Has (.text field)

/-- An object whose parts are well kinded: the tag of a tagged object is an atom, and a
prototype links bytecode prototypes only. -/
def ObjectKinded (view : HeapView) : Object → Prop
  | .reserved => True
  | .string _ => True
  | .bytes _ => True
  | .nativeType _ => True
  | .opaqueValue _ => True
  | .array values => ∀ value ∈ values, view.ValueKinded value.value
  | .tuple values => ∀ value ∈ values, view.ValueKinded value.value
  | .tagged tag payload =>
      tag.value.IsAtom ∧ view.ValueKinded tag.value ∧ view.ValueKinded payload.value
  | .dict shape values =>
      view.ShapeKinded shape ∧ ∀ value ∈ values, view.ValueKinded value.value
  | .closure _ prototype upvalues =>
      view.PrototypeKinded prototype ∧ ∀ value ∈ upvalues, view.ValueKinded value.value
  | .dyn _ descriptor value _ _ =>
      view.ValueKinded descriptor.value ∧ view.ValueKinded value.value
  | .upLink none => True
  | .upLink (some value) => view.ValueKinded value.value
  | .byteCodeProto _ values text prototypes =>
      (∀ value ∈ values, view.ValueKinded value.value) ∧
        (∀ id ∈ text, view.Has (.text id)) ∧
        ∀ prototype ∈ prototypes, ∃ handle, prototype = .bytecode handle ∧
          view.HasKind handle .byteCodeProto

/-- Every object of the view is well kinded. -/
def WellKinded (view : HeapView) : Prop :=
  ∀ {handle object}, view.object handle = .ok object → view.ObjectKinded object

/-- Every slot of the view has been initialized; empty up-links may remain. -/
def Initialized (view : HeapView) : Prop :=
  ∀ handle, view.object handle ≠ .ok .reserved

/-- In an initialized view a kinded handle names an object of the kind. -/
theorem HasKind.object {view : HeapView} (hinit : view.Initialized) {handle : Handle}
    {kind : ObjectKind} (h : view.HasKind handle kind) :
    ∃ object, view.object handle = .ok object ∧ object.kind = some kind := by
  obtain ⟨object, hobject, rfl | hkind⟩ := h
  · exact absurd hobject (hinit handle)
  · exact ⟨object, hobject, hkind⟩

/-- Kinded values and objects hold references that resolve. -/
theorem ValueKinded.refs {view : HeapView} {value : RuntimeValue} (h : view.ValueKinded value) :
    ∀ ref ∈ value.refs, view.Has ref := by
  intro ref hmem
  cases value with
  | int => cases hmem
  | float => cases hmem
  | builtinAtom => cases hmem
  | atom => obtain rfl := List.mem_singleton.mp hmem; exact h
  | shortString => obtain rfl := List.mem_singleton.mp hmem; exact h
  | _ =>
      obtain rfl := List.mem_singleton.mp hmem
      obtain ⟨object, hobject, -⟩ := h
      exact ⟨object, hobject⟩

theorem ObjectKinded.refs {view : HeapView} {object : Object} (h : view.ObjectKinded object) :
    ∀ ref ∈ object.refs, view.Has ref := by
  have hvalues : ∀ {values : List RichValue}, (∀ value ∈ values, view.ValueKinded value.value) →
      ∀ ref ∈ values.flatMap RichValue.refs, view.Has ref := by
    intro values hkinded ref hmem
    obtain ⟨value, hvalue, href⟩ := List.mem_flatMap.mp hmem
    exact (hkinded value hvalue).refs ref href
  have hhandle : ∀ {handle kind}, view.HasKind handle kind → view.Has (.object handle) :=
    fun ⟨object, hobject, _⟩ => ⟨object, hobject⟩
  intro ref hmem
  cases object with
  | array values => exact hvalues h ref hmem
  | tuple values => exact hvalues h ref hmem
  | tagged tag payload =>
      exact (List.mem_append.mp hmem).elim (h.2.1.refs ref) (h.2.2.refs ref)
  | dict shape values =>
      rcases List.mem_cons.mp hmem with rfl | hmem
      · obtain ⟨fields, hfields, -⟩ := h.1
        exact ⟨fields, hfields⟩
      · exact hvalues h.2 ref hmem
  | closure identity prototype upvalues =>
      rcases List.mem_append.mp hmem with hmem | hmem
      · cases prototype with
        | native => cases hmem
        | bytecode handle =>
            obtain rfl := List.mem_singleton.mp hmem
            exact hhandle h.1
      · exact hvalues h.2 ref hmem
  | dyn identity descriptor value scheme origin =>
      exact (List.mem_append.mp hmem).elim (h.1.refs ref) (h.2.refs ref)
  | upLink value =>
      cases value with
      | none => cases hmem
      | some value => exact ValueKinded.refs h ref hmem
  | byteCodeProto code values text prototypes =>
      rcases List.mem_append.mp hmem with hmem | hmem
      · exact hvalues h.1 ref hmem
      · rcases List.mem_append.mp hmem with hmem | hmem
        · obtain ⟨id, hid, rfl⟩ := List.mem_map.mp hmem
          exact h.2.1 id hid
        · obtain ⟨prototype, hprototype, href⟩ := List.mem_flatMap.mp hmem
          obtain ⟨handle, rfl, hkind⟩ := h.2.2 prototype hprototype
          obtain rfl := List.mem_singleton.mp href
          exact hhandle hkind
  | _ => cases hmem

end HeapView

end Telora
