import Telora.Inference.Unify
import Telora.Types.CanonicalUnions

/-!
# Resolution ends

The bindings of a grounded table have no cycle. Every type then resolves to one whose
variables are all free and whose unions are canonical, and such a type resolves to itself.
A variable bound to a resolved type that it does not occur in keeps the table grounded.
-/

namespace Telora

open Library TypeDescriptor

variable {debugText : TypeDescriptor → String}

theorem substitute?_eq_some {valuation : Nat → Option TypeDescriptor} {ty result : TypeDescriptor} :
    substitute? debugText valuation ty = some result ↔
      (∀ id ∈ ty.inferenceLeaves, (valuation id).isSome = true) ∧
        ty.substitute debugText (fun id => (valuation id).getD (.inference id)) = result := by
  unfold substitute?
  split
  · rename_i hall
    rw [List.all_eq_true] at hall
    rw [Option.some_inj]
    exact ⟨fun h => ⟨hall, h⟩, And.right⟩
  · rename_i hall
    rw [List.all_eq_true] at hall
    exact ⟨fun h => (by cases h), fun h => absurd h.1 hall⟩

theorem isSome_substitute? {valuation : Nat → Option TypeDescriptor} {ty : TypeDescriptor} :
    (substitute? debugText valuation ty).isSome = true ↔
      ∀ id ∈ ty.inferenceLeaves, (valuation id).isSome = true := by
  rw [Option.isSome_iff_exists]
  constructor
  · rintro ⟨result, h⟩
    exact (substitute?_eq_some.mp h).1
  · exact fun h => ⟨_, substitute?_eq_some.mpr ⟨h, rfl⟩⟩

theorem substitute_normal {valuation : Nat → Option TypeDescriptor} {free : Nat → Prop}
    {ty result : TypeDescriptor} (h : substitute? debugText valuation ty = some result)
    (hnormal : ∀ id ∈ ty.inferenceLeaves, ∀ value, valuation id = some value →
      value.Normal debugText free) : result.Normal debugText free := by
  obtain ⟨hall, rfl⟩ := substitute?_eq_some.mp h
  refine normal_substitute fun id hid => ?_
  obtain ⟨value, hvalue⟩ := Option.isSome_iff_exists.mp (hall id hid)
  rw [hvalue]
  exact hnormal id hid value hvalue

namespace Substitutions

variable {substitutions : Substitutions} {id : Nat} {ty : TypeDescriptor}

def Free (substitutions : Substitutions) (id : Nat) : Prop := substitutions.lookup id = none

/-- All variables are free and all unions canonical. -/
def Settled (debugText : TypeDescriptor → String) (substitutions : Substitutions)
    (ty : TypeDescriptor) : Prop :=
  ty.Normal debugText substitutions.Free

/-- Following the bindings of a variable always ends. -/
def Grounded (debugText : TypeDescriptor → String) (substitutions : Substitutions) : Prop :=
  ∀ id, (substitutions.expand debugText (substitutions.length + 1) id).isSome = true

theorem expand_free (h : substitutions.Free id) (depth : Nat) :
    substitutions.expand debugText (depth + 1) id = some (.inference id) := by
  rw [expand, show substitutions.lookup id = none from h]

theorem expand_settled {depth : Nat} {result : TypeDescriptor}
    (h : substitutions.expand debugText depth id = some result) :
    substitutions.Settled debugText result := by
  induction depth generalizing id result with
  | zero => cases h
  | succ depth ih =>
      rw [expand] at h
      split at h
      · rename_i hlookup
        exact Option.some.inj h ▸ normal_inference hlookup
      · exact substitute_normal h fun _ _ _ hvalue => ih hvalue

theorem Grounded.exists_resolve (h : substitutions.Grounded debugText) (ty : TypeDescriptor) :
    ∃ result, substitutions.resolve debugText ty = some result :=
  Option.isSome_iff_exists.mp (isSome_substitute?.mpr fun id _ => h id)

theorem resolve_settled {result : TypeDescriptor}
    (h : substitutions.resolve debugText ty = some result) :
    substitutions.Settled debugText result :=
  substitute_normal h fun _ _ _ hvalue => expand_settled hvalue

theorem Settled.resolve_eq (h : substitutions.Settled debugText ty) :
    substitutions.resolve debugText ty = some ty := by
  have hexpand : ∀ id ∈ ty.inferenceLeaves,
      substitutions.expand debugText (substitutions.length + 1) id = some (.inference id) :=
    fun id hid => expand_free (Normal.free_of_mem h hid) _
  refine substitute?_eq_some.mpr ⟨fun id hid => ?_, ?_⟩
  · rw [hexpand id hid]
    rfl
  · refine Normal.substitute_eq h fun id hid => ?_
    rw [hexpand id hid]
    rfl

theorem Settled.child (h : substitutions.Settled debugText ty) {child : TypeDescriptor}
    (hmem : child ∈ ty.children) : substitutions.Settled debugText child :=
  Normal.child h hmem

/-- A variable that is bound to a settled type without it is settled everywhere else. -/
theorem Settled.bind {result : TypeDescriptor} (h : substitutions.Settled debugText result)
    (hid : id ∉ result.inferenceLeaves) (ty : TypeDescriptor) :
    Settled debugText ((id, ty) :: substitutions) result := by
  refine Normal.mono h fun leaf hleaf => ?_
  have hne : leaf ≠ id := fun heq => hid (heq ▸ hleaf)
  rw [Free, lookup_cons_ite, if_neg hne]
  exact Normal.free_of_mem h hleaf

theorem isSome_expand_bind {result : TypeDescriptor}
    (h : substitutions.Settled debugText result) (hid : id ∉ result.inferenceLeaves)
    {depth other : Nat} (hother : (substitutions.expand debugText depth other).isSome = true) :
    (expand debugText ((id, result) :: substitutions) (depth + 1) other).isSome = true := by
  induction depth generalizing other with
  | zero => cases hother
  | succ depth ih =>
      rw [expand, lookup_cons_ite]
      by_cases heq : other = id
      · rw [if_pos heq]
        refine isSome_substitute?.mpr fun leaf hleaf => ?_
        rw [expand_free (Normal.free_of_mem (h.bind hid result) hleaf)]
        rfl
      · rw [if_neg heq]
        rw [expand] at hother
        split at hother
        · rfl
        · exact isSome_substitute?.mpr fun leaf hleaf => ih (isSome_substitute?.mp hother leaf hleaf)

/-- Binding a variable to a settled type without it makes no cycle, whether or not the
variable was bound before. -/
theorem Grounded.bind {result : TypeDescriptor} (h : substitutions.Grounded debugText)
    (hsettled : substitutions.Settled debugText result) (hid : id ∉ result.inferenceLeaves) :
    Grounded debugText ((id, result) :: substitutions) :=
  fun other => isSome_expand_bind hsettled hid (h other)

theorem grounded_nil : Grounded debugText [] := fun _ => rfl

theorem anyOccurs_eq_some {occursIn : TypeDescriptor → Option Bool}
    {items : List TypeDescriptor} {answer : TypeDescriptor → Bool}
    (hitem : ∀ item ∈ items, ∀ found, occursIn item = some found → found = answer item)
    {found : Bool} (h : occurs.anyOccurs occursIn items = some found) :
    found = items.any answer := by
  induction items with
  | nil => exact (Option.some.inj h).symm
  | cons item rest ih =>
      rw [occurs.anyOccurs] at h
      rw [List.any_cons]
      split at h
      · rename_i hfalse
        rw [← hitem item List.mem_cons_self false hfalse, Bool.false_or]
        exact ih (fun other hmem => hitem other (List.mem_cons_of_mem _ hmem)) h
      · rename_i hnot
        cases found with
        | true => rw [← hitem item List.mem_cons_self true h, Bool.true_or]
        | false => exact absurd h hnot

theorem isSome_anyOccurs {occursIn : TypeDescriptor → Option Bool} {items : List TypeDescriptor}
    (hitem : ∀ item ∈ items, (occursIn item).isSome = true) :
    (occurs.anyOccurs occursIn items).isSome = true := by
  induction items with
  | nil => rfl
  | cons item rest ih =>
      rw [occurs.anyOccurs]
      split
      · exact ih fun other hmem => hitem other (List.mem_cons_of_mem _ hmem)
      · exact hitem item List.mem_cons_self

/-- In a settled type the variables found are those that stand in it. -/
theorem Settled.occurs_eq_some {depth : Nat} (h : substitutions.Settled debugText ty)
    {found : Bool} (hfound : substitutions.occurs debugText id depth ty = some found) :
    found = decide (id ∈ ty.inferenceLeaves) := by
  induction depth generalizing ty found with
  | zero => cases hfound
  | succ depth ih =>
      rw [occurs, h.resolve_eq] at hfound
      have hparts : ∀ child ∈ ty.components, ∀ found,
          substitutions.occurs debugText id depth child = some found →
            found = decide (id ∈ child.inferenceLeaves) := fun child hmem _ =>
        ih (h.child (mem_components.mp hmem))
      cases ty with
      | inference candidate =>
          rw [← Option.some.inj hfound]
          rw [Bool.eq_iff_iff, beq_iff_eq, decide_eq_true_eq, inferenceLeaves, List.mem_singleton]
          exact eq_comm
      | _ =>
          rw [anyOccurs_eq_some hparts hfound, Bool.eq_iff_iff, List.any_eq_true,
            decide_eq_true_eq, mem_inferenceLeaves]
          simp only [mem_components, decide_eq_true_eq, reduceCtorEq, false_or]

/-- A variable is looked for in the resolved type. -/
theorem occurs_eq_of_resolve {result : TypeDescriptor}
    (h : substitutions.resolve debugText ty = some result) (id depth : Nat) :
    substitutions.occurs debugText id depth ty = substitutions.occurs debugText id depth result := by
  cases depth with
  | zero => rfl
  | succ depth => rw [occurs, occurs, h, (resolve_settled h).resolve_eq]

theorem Settled.isSome_occurs {depth : Nat} (h : substitutions.Settled debugText ty)
    (hdepth : ty.depth < depth) : (substitutions.occurs debugText id depth ty).isSome = true := by
  induction depth generalizing ty with
  | zero => cases hdepth
  | succ depth ih =>
      rw [occurs, h.resolve_eq]
      have hparts : ∀ child ∈ ty.components,
          (substitutions.occurs debugText id depth child).isSome = true := by
        intro child hmem
        have hlt := depth_child (mem_components.mp hmem)
        exact ih (h.child (mem_components.mp hmem)) (by omega)
      cases ty with
      | inference candidate => rfl
      | _ => exact isSome_anyOccurs hparts

/-- The search for a variable is exact once it is run deep enough. -/
theorem Settled.occurs_eq {depth : Nat} (h : substitutions.Settled debugText ty)
    (hdepth : ty.depth < depth) :
    substitutions.occurs debugText id depth ty = some (decide (id ∈ ty.inferenceLeaves)) := by
  have hsome : (substitutions.occurs debugText id depth ty).isSome = true :=
    h.isSome_occurs hdepth
  obtain ⟨found, hfound⟩ := Option.isSome_iff_exists.mp hsome
  rw [hfound, h.occurs_eq_some hfound]

end Substitutions

end Telora
