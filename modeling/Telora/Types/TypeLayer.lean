import Telora.Library.Answers
import Telora.Types.Assignable

/-!
# One layer of type metadata

Type metadata is a dict with a kind and the fields of the kind, and it holds the metadata of
other types. Every decoder reads one layer, checks its fields, and goes on to the types
inside in the order of the layer.
-/

namespace Telora

open Library

/-- The types without anything inside. -/
inductive PlainType where
  | any | never | type | dyn | int | float | string | bytes
  deriving DecidableEq, Repr

namespace PlainType

def name : PlainType → String
  | .any => "Any"
  | .never => "Never"
  | .type => "Type"
  | .dyn => "Dyn"
  | .int => "Int"
  | .float => "Float"
  | .string => "String"
  | .bytes => "Bytes"

def descriptor : PlainType → TypeDescriptor
  | .any => .any
  | .never => .never
  | .type => .type
  | .dyn => .dyn
  | .int => .int
  | .float => .float
  | .string => .string
  | .bytes => .bytes

end PlainType

/-- The kinds of metadata. -/
inductive MetaKind where
  | bound
  | plain (plainType : PlainType)
  | typeOf | atom | array | dict | tagged | tuple | struct | enum | union | function
  deriving DecidableEq, Repr

namespace MetaKind

/-- The kind with a name. -/
def ofName : String → Option MetaKind
  | "Bound" => some .bound
  | "Any" => some (.plain .any)
  | "Never" => some (.plain .never)
  | "Type" => some (.plain .type)
  | "Dyn" => some (.plain .dyn)
  | "TypeOf" => some .typeOf
  | "Int" => some (.plain .int)
  | "Float" => some (.plain .float)
  | "String" => some (.plain .string)
  | "Bytes" => some (.plain .bytes)
  | "Atom" => some .atom
  | "Array" => some .array
  | "Dict" => some .dict
  | "Tagged" => some .tagged
  | "Tuple" => some .tuple
  | "Struct" => some .struct
  | "Enum" => some .enum
  | "Union" => some .union
  | "Function" => some .function
  | _ => none

def name : MetaKind → String
  | .bound => "Bound"
  | .plain plainType => plainType.name
  | .typeOf => "TypeOf"
  | .atom => "Atom"
  | .array => "Array"
  | .dict => "Dict"
  | .tagged => "Tagged"
  | .tuple => "Tuple"
  | .struct => "Struct"
  | .enum => "Enum"
  | .union => "Union"
  | .function => "Function"

theorem ofName_eq_some {name : String} {kind : MetaKind} :
    ofName name = some kind ↔ name = kind.name := by
  constructor
  · intro h
    unfold ofName at h
    split at h <;> first | (obtain rfl := Option.some.inj h; rfl) | cases h
  · rintro rfl
    cases kind with
    | plain plainType => cases plainType <;> rfl
    | _ => rfl

/-- The fields of metadata of a kind, in the order of their names. -/
def fields : MetaKind → List String
  | .bound => ["kind", "parameter"]
  | .plain _ => ["kind"]
  | .typeOf => ["instance", "kind"]
  | .atom => ["kind", "tag"]
  | .array | .dict => ["item", "kind"]
  | .tagged => ["kind", "payload", "tag"]
  | .tuple => ["items", "kind"]
  | .struct => ["fields", "kind"]
  | .enum | .union => ["kind", "variants"]
  | .function => ["kind", "parameters", "result"]

end MetaKind

/-- The fields of a wrapper with attributes. -/
def wrapperFields : List String := ["attributes", "inner", "kind"]

/-- A layer over what stands for the types inside, and for the payloads of variants. -/
inductive TypeLayer (α ω : Type) where
  | inner (target : α)
  | bound (id : Nat)
  | plain (plainType : PlainType)
  | opaqueType (nativeType : NativeType)
  | typeOf (described : α)
  | atom (tag : Atom)
  | array (item : α)
  | dict (item : α)
  | tagged (tag : Atom) (payload : α)
  | tuple (items : List α)
  | struct (fields : List (String × α))
  | enum (variants : List (String × ω))
  | union (variants : List α)
  | function (parameters : List α) (result : α)

namespace TypeLayer

variable {α β γ ω ψ : Type}

def map (f : α → β) (g : ω → ψ) : TypeLayer α ω → TypeLayer β ψ
  | .inner target => .inner (f target)
  | .bound id => .bound id
  | .plain plainType => .plain plainType
  | .opaqueType nativeType => .opaqueType nativeType
  | .typeOf described => .typeOf (f described)
  | .atom tag => .atom tag
  | .array item => .array (f item)
  | .dict item => .dict (f item)
  | .tagged tag payload => .tagged tag (f payload)
  | .tuple items => .tuple (items.map f)
  | .struct fields => .struct (fields.map fun field => (field.1, f field.2))
  | .enum variants => .enum (variants.map fun variant => (variant.1, g variant.2))
  | .union variants => .union (variants.map f)
  | .function parameters result => .function (parameters.map f) (f result)

/-- The types inside, but the payloads of variants. -/
def types : TypeLayer α ω → List α
  | .inner target => [target]
  | .typeOf described => [described]
  | .array item => [item]
  | .dict item => [item]
  | .tagged _ payload => [payload]
  | .tuple items => items
  | .struct fields => fields.map (·.2)
  | .union variants => variants
  | .function parameters result => result :: parameters
  | _ => []

def payloads : TypeLayer α ω → List ω
  | .enum variants => variants.map (·.2)
  | _ => []

/-- All types inside a layer whose variants may have a payload. -/
def children (layer : TypeLayer α (Option α)) : List α :=
  layer.types ++ layer.payloads.filterMap id

/-- Go on to the types inside, in their order. -/
def traverse {m : Type → Type} [Monad m] (f : α → m β) (g : ω → m ψ) :
    TypeLayer α ω → m (TypeLayer β ψ)
  | .inner target => return .inner (← f target)
  | .bound id => return .bound id
  | .plain plainType => return .plain plainType
  | .opaqueType nativeType => return .opaqueType nativeType
  | .typeOf described => return .typeOf (← f described)
  | .atom tag => return .atom tag
  | .array item => return .array (← f item)
  | .dict item => return .dict (← f item)
  | .tagged tag payload => return .tagged tag (← f payload)
  | .tuple items => return .tuple (← items.mapM f)
  | .struct fields => return .struct (← fields.mapM fun field => return (field.1, ← f field.2))
  | .enum variants =>
      return .enum (← variants.mapM fun variant => return (variant.1, ← g variant.2))
  | .union variants => return .union (← variants.mapM f)
  | .function parameters result => return .function (← parameters.mapM f) (← f result)

/-- The paths of the types inside. -/
def located (path : String) : TypeLayer α ω → TypeLayer (α × String) (ω × String)
  | .inner target => .inner (target, path)
  | .bound id => .bound id
  | .plain plainType => .plain plainType
  | .opaqueType nativeType => .opaqueType nativeType
  | .typeOf described => .typeOf (described, s!"{path}.instance")
  | .atom tag => .atom tag
  | .array item => .array (item, s!"{path}.item")
  | .dict item => .dict (item, s!"{path}.item")
  | .tagged tag payload => .tagged tag (payload, s!"{path}.payload")
  | .tuple items => .tuple (items.zipIdx.map fun (item, index) => (item, s!"{path}.items[{index}]"))
  | .struct fields => .struct (fields.map fun (name, item) => (name, item, s!"{path}.fields.{name}"))
  | .enum variants =>
      .enum (variants.map fun (name, payload) => (name, payload, s!"{path}.variants.{name}"))
  | .union variants =>
      .union (variants.zipIdx.map fun (item, index) => (item, s!"{path}.variants[{index}]"))
  | .function parameters result =>
      .function
        (parameters.zipIdx.map fun (item, index) => (item, s!"{path}.parameters[{index}]"))
        (result, s!"{path}.result")

/-- The descriptor of a layer over descriptors. -/
def descriptor : TypeLayer TypeDescriptor (Option TypeDescriptor) → TypeDescriptor
  | .inner target => target
  | .bound id => .bound id
  | .plain plainType => plainType.descriptor
  | .opaqueType nativeType => .opaqueType nativeType
  | .typeOf described => .typeOf described
  | .atom tag => .atom tag
  | .array item => .array item
  | .dict item => .dict item
  | .tagged tag payload => .tagged tag payload
  | .tuple items => .tuple items
  | .struct fields => .struct fields
  | .enum variants => .enum variants
  | .union variants => .union variants
  | .function parameters result => .function parameters result

section Map

variable {f f' : α → β} {g g' : ω → ψ}

theorem map_congr {layer : TypeLayer α ω} (hf : ∀ a ∈ layer.types, f a = f' a)
    (hg : ∀ w ∈ layer.payloads, g w = g' w) : layer.map f g = layer.map f' g' := by
  cases layer with
  | bound | plain | opaqueType | atom => rfl
  | inner | typeOf | array | dict | tagged => simp only [map, hf _ List.mem_cons_self]
  | tuple => exact congrArg tuple (List.map_congr_left hf)
  | union => exact congrArg union (List.map_congr_left hf)
  | struct fields =>
      refine congrArg struct (List.map_congr_left fun field hmem => ?_)
      rw [hf _ (List.mem_map_of_mem hmem)]
  | enum variants =>
      refine congrArg enum (List.map_congr_left fun variant hmem => ?_)
      rw [hg _ (List.mem_map_of_mem hmem)]
  | function parameters result =>
      simp only [map, hf _ List.mem_cons_self,
        List.map_congr_left fun a ha => hf a (List.mem_cons_of_mem _ ha)]

theorem map_map {χ : Type} (layer : TypeLayer α ω) (f : α → β) (g : ω → ψ) (f' : β → γ)
    (g' : ψ → χ) : (layer.map f g).map f' g' = layer.map (f' ∘ f) (g' ∘ g) := by
  cases layer <;> simp [map]

theorem types_map (layer : TypeLayer α ω) (f : α → β) (g : ω → ψ) :
    (layer.map f g).types = layer.types.map f := by
  cases layer <;> simp [map, types]

theorem payloads_map (layer : TypeLayer α ω) (f : α → β) (g : ω → ψ) :
    (layer.map f g).payloads = layer.payloads.map g := by
  cases layer <;> simp [map, payloads]

end Map

section Traverse

variable {ε : Type} {f : α → Answer ε β} {g : ω → Answer ε ψ} {F : α → β} {G : ω → ψ}

private theorem mapM_is_map {xs : List α} (h : ∀ x ∈ xs, (f x).Is (F x)) :
    (xs.mapM f : Answer ε (List β)).Is (xs.map F) :=
  Answer.mapM_is.mpr (List.forall₂_map_right_iff.mpr (List.forall₂_same.mpr h))

private theorem mapM_is_entries {xs : List (String × α)} (h : ∀ x ∈ xs, (f x.2).Is (F x.2)) :
    (xs.mapM fun x => return (x.1, ← f x.2) : Answer ε (List (String × β))).Is
      (xs.map fun x => (x.1, F x.2)) :=
  mapM_is_map fun x hx => Answer.bind_is.mpr ⟨_, h x hx, Answer.pure_is.mpr rfl⟩

private theorem exists_of_mapM {xs : List α} {ys : List β}
    (h : (xs.mapM f : Answer ε (List β)).Is ys) : ∀ x ∈ xs, ∃ y, (f x).Is y := by
  intro x hx
  obtain ⟨y, -, hy⟩ := forall₂_mem_left (Answer.mapM_is.mp h) hx
  exact ⟨y, hy⟩

private theorem exists_of_mapM_entries {xs : List (String × α)} {ys : List (String × β)}
    (h : (xs.mapM fun x => return (x.1, ← f x.2) : Answer ε (List (String × β))).Is ys) :
    ∀ y ∈ xs.map (·.2), ∃ b, (f y).Is b := by
  intro y hy
  obtain ⟨x, hx, rfl⟩ := List.mem_map.mp hy
  obtain ⟨entry, hentry⟩ := exists_of_mapM h x hx
  obtain ⟨b, hb, -⟩ := Answer.bind_is.mp hentry
  exact ⟨b, hb⟩

/-- The answer of a layer, from the answers of the types inside. -/
theorem traverse_is (layer : TypeLayer α ω) (hf : ∀ a ∈ layer.types, (f a).Is (F a))
    (hg : ∀ w ∈ layer.payloads, (g w).Is (G w)) :
    (layer.traverse f g : Answer ε (TypeLayer β ψ)).Is (layer.map F G) := by
  cases layer with
  | bound | plain | opaqueType | atom => exact Answer.pure_is.mpr rfl
  | inner | typeOf | array | dict | tagged =>
      exact Answer.bind_is.mpr ⟨_, hf _ List.mem_cons_self, Answer.pure_is.mpr rfl⟩
  | tuple | union => exact Answer.bind_is.mpr ⟨_, mapM_is_map hf, Answer.pure_is.mpr rfl⟩
  | struct =>
      exact Answer.bind_is.mpr ⟨_, mapM_is_entries fun x hx => hf _ (List.mem_map_of_mem hx),
        Answer.pure_is.mpr rfl⟩
  | enum =>
      exact Answer.bind_is.mpr ⟨_, mapM_is_entries fun x hx => hg _ (List.mem_map_of_mem hx),
        Answer.pure_is.mpr rfl⟩
  | function =>
      have hparameters := mapM_is_map fun x hx => hf x (List.mem_cons_of_mem _ hx)
      exact Answer.bind_is.mpr ⟨_, hparameters, Answer.bind_is.mpr
        ⟨_, hf _ List.mem_cons_self, Answer.pure_is.mpr rfl⟩⟩

/-- A layer answers a value only if all types inside do. -/
theorem exists_of_traverse {layer : TypeLayer α ω} {result : TypeLayer β ψ}
    (h : (layer.traverse f g : Answer ε (TypeLayer β ψ)).Is result) :
    (∀ a ∈ layer.types, ∃ b, (f a).Is b) ∧ ∀ w ∈ layer.payloads, ∃ p, (g w).Is p := by
  cases layer with
  | bound | plain | opaqueType | atom => simp [types, payloads]
  | inner | typeOf | array | dict | tagged =>
      obtain ⟨b, hb, -⟩ := Answer.bind_is.mp h
      exact ⟨List.forall_mem_singleton.mpr ⟨b, hb⟩, fun w hw => by cases hw⟩
  | tuple | union =>
      obtain ⟨ys, hys, -⟩ := Answer.bind_is.mp h
      exact ⟨exists_of_mapM hys, fun w hw => by cases hw⟩
  | struct =>
      obtain ⟨ys, hys, -⟩ := Answer.bind_is.mp h
      exact ⟨exists_of_mapM_entries hys, fun w hw => by cases hw⟩
  | enum =>
      obtain ⟨ys, hys, -⟩ := Answer.bind_is.mp h
      exact ⟨fun a ha => (by cases ha), exists_of_mapM_entries hys⟩
  | function =>
      obtain ⟨ys, hys, h⟩ := Answer.bind_is.mp h
      obtain ⟨b, hb, -⟩ := Answer.bind_is.mp h
      exact ⟨List.forall_mem_cons.mpr ⟨⟨b, hb⟩, exists_of_mapM hys⟩, fun w hw => by cases hw⟩

private theorem mapM_entries_comes {xs : List (String × α)} (h : ∀ x ∈ xs, (f x.2).Comes) :
    (xs.mapM fun x => return (x.1, ← f x.2) : Answer ε (List (String × β))).Comes :=
  Answer.mapM_comes fun x hx => Answer.bind_comes (h x hx) fun _ _ => Answer.pure_comes

theorem traverse_comes {layer : TypeLayer α ω} (hf : ∀ a ∈ layer.types, (f a).Comes)
    (hg : ∀ w ∈ layer.payloads, (g w).Comes) :
    (layer.traverse f g : Answer ε (TypeLayer β ψ)).Comes := by
  cases layer with
  | bound | plain | opaqueType | atom => exact Answer.pure_comes
  | inner | typeOf | array | dict | tagged =>
      exact Answer.bind_comes (hf _ List.mem_cons_self) fun _ _ => Answer.pure_comes
  | tuple | union => exact Answer.bind_comes (Answer.mapM_comes hf) fun _ _ => Answer.pure_comes
  | struct =>
      exact Answer.bind_comes (mapM_entries_comes fun x hx => hf _ (List.mem_map_of_mem hx))
        fun _ _ => Answer.pure_comes
  | enum =>
      exact Answer.bind_comes (mapM_entries_comes fun x hx => hg _ (List.mem_map_of_mem hx))
        fun _ _ => Answer.pure_comes
  | function =>
      refine Answer.bind_comes (Answer.mapM_comes fun x hx => hf x (List.mem_cons_of_mem _ hx)) ?_
      exact fun _ _ => Answer.bind_comes (hf _ List.mem_cons_self) fun _ _ => Answer.pure_comes

end Traverse

section Located

private theorem map_fst_zipIdx (F : α → β) (xs : List α) :
    xs.zipIdx.map (fun x => F x.1) = xs.map F := by
  calc xs.zipIdx.map (fun x => F x.1) = (xs.zipIdx.map Prod.fst).map F := by
        rw [List.map_map]
        rfl
    _ = xs.map F := by rw [List.zipIdx_map_fst]

theorem map_located (path : String) (layer : TypeLayer α ω) (F : α → β) (G : ω → ψ) :
    (layer.located path).map (fun x => F x.1) (fun x => G x.1) = layer.map F G := by
  cases layer <;> simp [located, map, List.map_map, Function.comp_def, map_fst_zipIdx]

theorem types_located (path : String) (layer : TypeLayer α ω) :
    (layer.located path).types.map Prod.fst = layer.types := by
  cases layer <;> simp [located, types, List.map_map, Function.comp_def]

theorem payloads_located (path : String) (layer : TypeLayer α ω) :
    (layer.located path).payloads.map Prod.fst = layer.payloads := by
  cases layer <;> simp [located, payloads, List.map_map, Function.comp_def]

end Located

end TypeLayer

end Telora
