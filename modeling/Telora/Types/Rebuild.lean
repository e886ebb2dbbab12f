import Telora.Types.Joins

/-!
# Rebuilding descriptors

Substitution, instantiation and generalisation all rebuild a descriptor from its leaves: the
bound parameters and the inference variables are replaced, unions are put together again,
and everything else stays.
-/

namespace Telora.TypeDescriptor

mutual

/-- A descriptor with other leaves and with its unions put together anew. -/
def rebuild (bound inference : Nat → TypeDescriptor)
    (unite : List TypeDescriptor → TypeDescriptor) : TypeDescriptor → TypeDescriptor
  | .bound id => bound id
  | .inference id => inference id
  | .typeOf described => .typeOf (described.rebuild bound inference unite)
  | .array item => .array (item.rebuild bound inference unite)
  | .dict item => .dict (item.rebuild bound inference unite)
  | .tagged tag payload => .tagged tag (payload.rebuild bound inference unite)
  | .tuple items => .tuple (rebuildItems bound inference unite items)
  | .struct fields => .struct (rebuildFields bound inference unite fields)
  | .enum variants => .enum (rebuildVariants bound inference unite variants)
  | .union variants => unite (rebuildItems bound inference unite variants)
  | .function parameters result =>
      .function (rebuildItems bound inference unite parameters)
        (result.rebuild bound inference unite)
  | d => d
termination_by structural d => d

def rebuildItems (bound inference : Nat → TypeDescriptor)
    (unite : List TypeDescriptor → TypeDescriptor) : List TypeDescriptor → List TypeDescriptor
  | [] => []
  | item :: rest =>
      item.rebuild bound inference unite :: rebuildItems bound inference unite rest
termination_by structural items => items

def rebuildFields (bound inference : Nat → TypeDescriptor)
    (unite : List TypeDescriptor → TypeDescriptor) :
    List (String × TypeDescriptor) → List (String × TypeDescriptor)
  | [] => []
  | (name, item) :: rest =>
      (name, item.rebuild bound inference unite) :: rebuildFields bound inference unite rest
termination_by structural fields => fields

def rebuildVariants (bound inference : Nat → TypeDescriptor)
    (unite : List TypeDescriptor → TypeDescriptor) :
    List (String × Option TypeDescriptor) → List (String × Option TypeDescriptor)
  | [] => []
  | (name, none) :: rest => (name, none) :: rebuildVariants bound inference unite rest
  | (name, some payload) :: rest =>
      (name, some (payload.rebuild bound inference unite)) ::
        rebuildVariants bound inference unite rest
termination_by structural variants => variants

end

mutual

/-- The inference variables of a descriptor where they occur. -/
def inferenceLeaves : TypeDescriptor → List Nat
  | .inference id => [id]
  | .typeOf described => described.inferenceLeaves
  | .array item => item.inferenceLeaves
  | .dict item => item.inferenceLeaves
  | .tagged _ payload => payload.inferenceLeaves
  | .tuple items => inferenceLeavesItems items
  | .struct fields => inferenceLeavesFields fields
  | .enum variants => inferenceLeavesVariants variants
  | .union variants => inferenceLeavesItems variants
  | .function parameters result => inferenceLeavesItems parameters ++ result.inferenceLeaves
  | _ => []
termination_by structural d => d

def inferenceLeavesItems : List TypeDescriptor → List Nat
  | [] => []
  | item :: rest => item.inferenceLeaves ++ inferenceLeavesItems rest
termination_by structural items => items

def inferenceLeavesFields : List (String × TypeDescriptor) → List Nat
  | [] => []
  | (_, item) :: rest => item.inferenceLeaves ++ inferenceLeavesFields rest
termination_by structural fields => fields

def inferenceLeavesVariants : List (String × Option TypeDescriptor) → List Nat
  | [] => []
  | (_, none) :: rest => inferenceLeavesVariants rest
  | (_, some payload) :: rest => payload.inferenceLeaves ++ inferenceLeavesVariants rest
termination_by structural variants => variants

end

mutual

/-- The bound parameters of a descriptor where they occur. -/
def boundLeaves : TypeDescriptor → List Nat
  | .bound id => [id]
  | .typeOf described => described.boundLeaves
  | .array item => item.boundLeaves
  | .dict item => item.boundLeaves
  | .tagged _ payload => payload.boundLeaves
  | .tuple items => boundLeavesItems items
  | .struct fields => boundLeavesFields fields
  | .enum variants => boundLeavesVariants variants
  | .union variants => boundLeavesItems variants
  | .function parameters result => boundLeavesItems parameters ++ result.boundLeaves
  | _ => []
termination_by structural d => d

def boundLeavesItems : List TypeDescriptor → List Nat
  | [] => []
  | item :: rest => item.boundLeaves ++ boundLeavesItems rest
termination_by structural items => items

def boundLeavesFields : List (String × TypeDescriptor) → List Nat
  | [] => []
  | (_, item) :: rest => item.boundLeaves ++ boundLeavesFields rest
termination_by structural fields => fields

def boundLeavesVariants : List (String × Option TypeDescriptor) → List Nat
  | [] => []
  | (_, none) :: rest => boundLeavesVariants rest
  | (_, some payload) :: rest => payload.boundLeaves ++ boundLeavesVariants rest
termination_by structural variants => variants

end

def collectInferenceVariables (d : TypeDescriptor) : List Nat := d.inferenceLeaves.eraseDups

def collectBoundParameters (d : TypeDescriptor) : List Nat := d.boundLeaves.eraseDups

def containsTypeVariable (d : TypeDescriptor) : Bool := !d.inferenceLeaves.isEmpty

def containsAnyInferenceVariable (ids : List Nat) (d : TypeDescriptor) : Bool :=
  d.inferenceLeaves.any ids.contains

/-- The parameters bound to fresh inference variables; unions stay as they are. -/
def instantiateWith (fresh : List (Nat × Nat)) (d : TypeDescriptor) : TypeDescriptor :=
  d.rebuild (fun id => (fresh.lookup id).elim (.bound id) .inference) .inference .union

/-- The inference variables that are generalised, bound to parameters. -/
def bindInferenceVariables (replacements : List (Nat × Nat)) (d : TypeDescriptor) :
    TypeDescriptor :=
  d.rebuild .bound (fun id => (replacements.lookup id).elim (.inference id) .bound) .union

section Unions

variable (debugText : TypeDescriptor → String)

/-- The inference variables replaced as a valuation says, with canonical unions. -/
def substitute (valuation : Nat → TypeDescriptor) (d : TypeDescriptor) : TypeDescriptor :=
  d.rebuild .bound valuation (canonicalUnion debugText)

end Unions

mutual

/-- Whether a value of the type holds a value of type `Never`, which there is none of. -/
def containsRuntimeNeverLeaf : TypeDescriptor → Bool
  | .never => true
  | .array item => item.containsRuntimeNeverLeaf
  | .dict item => item.containsRuntimeNeverLeaf
  | .tagged _ payload => payload.containsRuntimeNeverLeaf
  | .tuple items => anyRuntimeNeverLeaf items
  | .struct fields => anyFieldRuntimeNeverLeaf fields
  | _ => false
termination_by structural d => d

def anyRuntimeNeverLeaf : List TypeDescriptor → Bool
  | [] => false
  | item :: rest => item.containsRuntimeNeverLeaf || anyRuntimeNeverLeaf rest
termination_by structural items => items

def anyFieldRuntimeNeverLeaf : List (String × TypeDescriptor) → Bool
  | [] => false
  | (_, item) :: rest => item.containsRuntimeNeverLeaf || anyFieldRuntimeNeverLeaf rest
termination_by structural fields => fields

end

mutual

/-- Every such leaf made an inference variable, numbered from `next` on. -/
def freshenRuntimeNeverLeaves (next : Nat) : TypeDescriptor → TypeDescriptor × Nat
  | .never => (.inference next, next + 1)
  | .array item =>
      let item := item.freshenRuntimeNeverLeaves next
      (.array item.1, item.2)
  | .dict item =>
      let item := item.freshenRuntimeNeverLeaves next
      (.dict item.1, item.2)
  | .tagged tag payload =>
      let payload := payload.freshenRuntimeNeverLeaves next
      (.tagged tag payload.1, payload.2)
  | .tuple items =>
      let items := freshenItems next items
      (.tuple items.1, items.2)
  | .struct fields =>
      let fields := freshenFields next fields
      (.struct fields.1, fields.2)
  | d => (d, next)
termination_by structural d => d

def freshenItems (next : Nat) : List TypeDescriptor → List TypeDescriptor × Nat
  | [] => ([], next)
  | item :: rest =>
      let item := item.freshenRuntimeNeverLeaves next
      let rest := freshenItems item.2 rest
      (item.1 :: rest.1, rest.2)
termination_by structural items => items

def freshenFields (next : Nat) :
    List (String × TypeDescriptor) → List (String × TypeDescriptor) × Nat
  | [] => ([], next)
  | (name, item) :: rest =>
      let item := item.freshenRuntimeNeverLeaves next
      let rest := freshenFields item.2 rest
      ((name, item.1) :: rest.1, rest.2)
termination_by structural fields => fields

end

/-- The descriptors directly inside a descriptor, in the order the passes visit them. -/
def components : TypeDescriptor → List TypeDescriptor
  | .function parameters result => parameters ++ [result]
  | d => d.children

variable {bound inference : Nat → TypeDescriptor} {unite : List TypeDescriptor → TypeDescriptor}

@[simp] theorem rebuildItems_eq (items : List TypeDescriptor) :
    rebuildItems bound inference unite items = items.map (rebuild bound inference unite) := by
  induction items with
  | nil => rfl
  | cons item rest ih => rw [rebuildItems, ih, List.map_cons]

@[simp] theorem rebuildFields_eq (fields : List (String × TypeDescriptor)) :
    rebuildFields bound inference unite fields =
      fields.map fun field => (field.1, field.2.rebuild bound inference unite) := by
  induction fields with
  | nil => rfl
  | cons field rest ih => rw [rebuildFields, ih, List.map_cons]

@[simp] theorem rebuildVariants_eq (variants : List (String × Option TypeDescriptor)) :
    rebuildVariants bound inference unite variants =
      variants.map fun variant =>
        (variant.1, variant.2.map (rebuild bound inference unite)) := by
  induction variants with
  | nil => rfl
  | cons variant rest ih =>
      obtain ⟨name, _ | payload⟩ := variant <;> rw [rebuildVariants, ih] <;> rfl

theorem mem_inferenceLeavesItems {items : List TypeDescriptor} {id : Nat} :
    id ∈ inferenceLeavesItems items ↔ ∃ item ∈ items, id ∈ item.inferenceLeaves := by
  induction items with
  | nil => simp [inferenceLeavesItems]
  | cons item rest ih => simp [inferenceLeavesItems, ih]

theorem mem_inferenceLeavesFields {fields : List (String × TypeDescriptor)} {id : Nat} :
    id ∈ inferenceLeavesFields fields ↔ ∃ field ∈ fields, id ∈ field.2.inferenceLeaves := by
  induction fields with
  | nil => simp [inferenceLeavesFields]
  | cons field rest ih => simp [inferenceLeavesFields, ih]

theorem mem_inferenceLeavesVariants {variants : List (String × Option TypeDescriptor)} {id : Nat} :
    id ∈ inferenceLeavesVariants variants ↔
      ∃ payload ∈ variants.filterMap (·.2), id ∈ payload.inferenceLeaves := by
  induction variants with
  | nil => simp [inferenceLeavesVariants]
  | cons variant rest ih =>
      obtain ⟨name, _ | payload⟩ := variant <;> simp [inferenceLeavesVariants, ih]

/-- A variable of a descriptor is the descriptor or a variable of one of its parts. -/
theorem mem_inferenceLeaves {d : TypeDescriptor} {id : Nat} :
    id ∈ d.inferenceLeaves ↔
      d = .inference id ∨ ∃ child ∈ d.children, id ∈ child.inferenceLeaves := by
  cases d with
  | struct fields =>
      rw [inferenceLeaves, mem_inferenceLeavesFields, children]
      constructor
      · rintro ⟨field, hmem, hid⟩
        exact .inr ⟨field.2, List.mem_map_of_mem hmem, hid⟩
      · rintro (h | ⟨child, hmem, hid⟩)
        · cases h
        · obtain ⟨field, hfield, rfl⟩ := List.mem_map.mp hmem
          exact ⟨field, hfield, hid⟩
  | _ =>
      simp [inferenceLeaves, children, mem_inferenceLeavesItems, mem_inferenceLeavesVariants,
        eq_comm, or_comm]

theorem mem_boundLeavesItems {items : List TypeDescriptor} {id : Nat} :
    id ∈ boundLeavesItems items ↔ ∃ item ∈ items, id ∈ item.boundLeaves := by
  induction items with
  | nil => simp [boundLeavesItems]
  | cons item rest ih => simp [boundLeavesItems, ih]

theorem mem_boundLeavesFields {fields : List (String × TypeDescriptor)} {id : Nat} :
    id ∈ boundLeavesFields fields ↔ ∃ item ∈ fields.map (·.2), id ∈ item.boundLeaves := by
  induction fields with
  | nil => simp [boundLeavesFields]
  | cons field rest ih => simp [boundLeavesFields, ih]

theorem mem_boundLeavesVariants {variants : List (String × Option TypeDescriptor)} {id : Nat} :
    id ∈ boundLeavesVariants variants ↔
      ∃ payload ∈ variants.filterMap (·.2), id ∈ payload.boundLeaves := by
  induction variants with
  | nil => simp [boundLeavesVariants]
  | cons variant rest ih =>
      obtain ⟨name, _ | payload⟩ := variant <;> simp [boundLeavesVariants, ih]

/-- A parameter of a descriptor is the descriptor or a parameter of one of its parts. -/
theorem mem_boundLeaves {d : TypeDescriptor} {id : Nat} :
    id ∈ d.boundLeaves ↔ d = .bound id ∨ ∃ child ∈ d.children, id ∈ child.boundLeaves := by
  cases d <;>
    simp [boundLeaves, children, mem_boundLeavesItems, mem_boundLeavesFields,
      mem_boundLeavesVariants, eq_comm, or_comm]

theorem mem_components {d child : TypeDescriptor} : child ∈ d.components ↔ child ∈ d.children := by
  cases d <;> simp [components, children, or_comm]

theorem mem_flattenItems {d : TypeDescriptor} {ds : List TypeDescriptor} :
    d ∈ flattenItems ds ↔ ∃ source ∈ ds, d ∈ source.flatten := by
  induction ds with
  | nil => simp [flattenItems]
  | cons first rest ih => simp [flattenItems, ih]

/-- A canonical union is `Any`, `Never`, one of the members, or a union of members. -/
theorem canonicalUnion_cases (debugText : TypeDescriptor → String) (ds : List TypeDescriptor) :
    canonicalUnion debugText ds = .any ∨ canonicalUnion debugText ds = .never ∨
      (∃ d ∈ flattenItems ds, canonicalUnion debugText ds = d) ∨
      ∃ members : List TypeDescriptor, (∀ d ∈ members, d ∈ flattenItems ds) ∧
        canonicalUnion debugText ds = .union members := by
  generalize hunion : canonicalUnion debugText ds = union
  rw [canonicalUnion] at hunion
  split at hunion
  · exact .inl hunion.symm
  · have hkept (d : TypeDescriptor) : d ∈ dedup (List.mergeSort
        (if (flattenItems ds).any fun d => !d.isNever then
          (flattenItems ds).filter fun d => !d.isNever else flattenItems ds)
        (sortKeyLe debugText)) → d ∈ flattenItems ds := by
      intro hmem
      have hmem := List.mem_mergeSort.mp (mem_of_mem_dedup hmem)
      split at hmem
      · exact (List.mem_filter.mp hmem).1
      · exact hmem
    simp only at hunion
    split at hunion
    · exact .inr (.inl hunion.symm)
    · rename_i d heq
      exact .inr (.inr (.inl ⟨d, hkept d (heq ▸ List.mem_singleton_self d), hunion.symm⟩))
    · exact .inr (.inr (.inr ⟨_, hkept, hunion.symm⟩))

section Everywhere

variable {p : TypeDescriptor → Prop}

theorem everywhere_leaf {d : TypeDescriptor} (h : p d) (hchildren : d.children = []) :
    d.Everywhere p :=
  .mk h fun _ hmem => absurd hmem (hchildren ▸ List.not_mem_nil)

theorem Everywhere.variable {d : TypeDescriptor} (h : d.Everywhere p) {id : Nat}
    (hmem : id ∈ d.inferenceLeaves) : p (.inference id) := by
  induction h with
  | mk h _ ih =>
      rcases mem_inferenceLeaves.mp hmem with rfl | ⟨child, hchild, hmem⟩
      · exact h
      · exact ih child hchild hmem

theorem Everywhere.flatten {d : TypeDescriptor} (h : d.Everywhere p) :
    ∀ member ∈ d.flatten, member.Everywhere p := by
  induction h with
  | @mk d h hparts ih =>
      intro member hmem
      cases hunion : d.isUnion with
      | false =>
          rw [flatten_of_not_union hunion] at hmem
          exact List.mem_singleton.mp hmem ▸ .mk h hparts
      | true =>
          obtain ⟨variants, rfl⟩ : ∃ variants, d = .union variants := by
            cases d <;> first | exact ⟨_, rfl⟩ | exact absurd hunion Bool.false_ne_true
          rw [TypeDescriptor.flatten] at hmem
          obtain ⟨variant, hvariant, hmem⟩ := mem_flattenItems.mp hmem
          exact ih variant hvariant member hmem

end Everywhere

end Telora.TypeDescriptor
