import Telora.Types.Order

/-!
# Joins of branch types

Two branch types are joined to one that has room for both: one of them, `Type`, or a
canonical union. The members of a union are flattened, sorted by their display and without
duplicates. Joined from the left, branch types without unions and enums stay below the
join, in whatever order they come.
-/

namespace Telora.TypeDescriptor

mutual

def displayName : TypeDescriptor → String
  | .bound id => s!"T{id}"
  | .inference id => s!"?{id}"
  | .any => "Any"
  | .never => "Never"
  | .type => "Type"
  | .dyn => "Dyn"
  | .typeOf described => s!"TypeOf({described.displayName})"
  | .int => "Int"
  | .float => "Float"
  | .string => "String"
  | .bytes => "Bytes"
  | .opaqueType nativeType => s!"opaque({nativeType.qualifiedName})"
  | .atom tag => s!"'{tag.name}"
  | .array item => s!"Array<{item.displayName}>"
  | .dict item => s!"Dict<{item.displayName}>"
  | .tagged tag payload => s!"'{tag.name}({payload.displayName})"
  | .tuple items => "(" ++ ", ".intercalate (displayItems items) ++ ")"
  | .struct fields => "\x7b" ++ ", ".intercalate (displayFields fields) ++ "\x7d"
  | .enum variants => "enum \x7b" ++ ", ".intercalate (displayVariants variants) ++ "\x7d"
  | .union variants => " | ".intercalate (displayItems variants)
  | .function parameters result =>
      "Fn(" ++ ", ".intercalate (displayItems parameters) ++ ") -> " ++ result.displayName
termination_by structural d => d

def displayItems : List TypeDescriptor → List String
  | [] => []
  | item :: rest => item.displayName :: displayItems rest
termination_by structural items => items

def displayFields : List (String × TypeDescriptor) → List String
  | [] => []
  | (name, item) :: rest => s!"{name}: {item.displayName}" :: displayFields rest
termination_by structural fields => fields

def displayVariants : List (String × Option TypeDescriptor) → List String
  | [] => []
  | (name, none) :: rest => name :: displayVariants rest
  | (name, some payload) :: rest => s!"{name}({payload.displayName})" :: displayVariants rest
termination_by structural variants => variants

end

mutual

/-- The members of nested unions. -/
def flatten : TypeDescriptor → List TypeDescriptor
  | .union variants => flattenItems variants
  | d => [d]
termination_by structural d => d

def flattenItems : List TypeDescriptor → List TypeDescriptor
  | [] => []
  | item :: rest => item.flatten ++ flattenItems rest
termination_by structural items => items

end

def isNever : TypeDescriptor → Bool
  | .never => true
  | _ => false

/-- Drop every descriptor that equals the one kept before it. -/
def dedup : List TypeDescriptor → List TypeDescriptor
  | [] => []
  | first :: rest => first :: dedupAfter first rest
where
  dedupAfter (last : TypeDescriptor) : List TypeDescriptor → List TypeDescriptor
    | [] => []
    | next :: rest => if last.eq next then dedupAfter last rest else next :: dedupAfter next rest

section Join

-- the derived debug text of a descriptor, which breaks ties of the display
variable (debugText : TypeDescriptor → String)

/-- Sorted by display and debug text. -/
def sortKeyLe (left right : TypeDescriptor) : Bool :=
  left.displayName < right.displayName ||
    (left.displayName == right.displayName && debugText left ≤ debugText right)

def canonicalUnion (types : List TypeDescriptor) : TypeDescriptor :=
  let flattened := flattenItems types
  if flattened.any isAny then .any
  else
    let flattened :=
      if flattened.any fun d => !d.isNever then flattened.filter fun d => !d.isNever else flattened
    match dedup (flattened.mergeSort (sortKeyLe debugText)) with
    | [] => .never
    | [d] => d
    | members => .union members

def joinTypes (left right : TypeDescriptor) : TypeDescriptor :=
  if left.eq right then left
  else if left.isNever then right
  else if right.isNever then left
  else if left.isAny || right.isAny then .any
  else if assignable left .type && assignable right .type then .type
  else
    match assignable left right, assignable right left with
    | true, false => right
    | false, true => left
    | _, _ => canonicalUnion debugText [left, right]

/-- The join of the branches of a `match`, from its first arm on. -/
def joinBranches (first : TypeDescriptor) (rest : List TypeDescriptor) : TypeDescriptor :=
  rest.foldl (joinTypes debugText) first

end Join

section Members

theorem flatten_of_not_union {d : TypeDescriptor} (h : d.isUnion = false) : d.flatten = [d] := by
  cases d <;> first | rfl | exact absurd h.symm Bool.false_ne_true

theorem flattenItems_of_not_union {ds : List TypeDescriptor}
    (h : ∀ d ∈ ds, d.isUnion = false) : flattenItems ds = ds := by
  induction ds with
  | nil => rfl
  | cons d ds ih =>
      rw [flattenItems, flatten_of_not_union (h d List.mem_cons_self),
        ih fun d hd => h d (List.mem_cons_of_mem _ hd)]
      rfl

theorem mem_of_mem_dedupAfter {last d : TypeDescriptor} {ds : List TypeDescriptor}
    (h : d ∈ dedup.dedupAfter last ds) : d ∈ ds := by
  induction ds generalizing last with
  | nil => exact h
  | cons next rest ih =>
      rw [dedup.dedupAfter] at h
      split at h
      · exact List.mem_cons_of_mem _ (ih h)
      · obtain rfl | h := List.mem_cons.mp h
        · exact List.mem_cons_self
        · exact List.mem_cons_of_mem _ (ih h)

theorem mem_of_mem_dedup {d : TypeDescriptor} {ds : List TypeDescriptor} (h : d ∈ dedup ds) :
    d ∈ ds := by
  cases ds with
  | nil => exact h
  | cons first rest =>
      obtain rfl | h := List.mem_cons.mp h
      · exact List.mem_cons_self
      · exact List.mem_cons_of_mem _ (mem_of_mem_dedupAfter h)

/-- What is dropped equals something that is kept. -/
theorem exists_dedupAfter {last d : TypeDescriptor} {ds : List TypeDescriptor}
    (h : d ∈ last :: ds) : ∃ kept ∈ last :: dedup.dedupAfter last ds, d.eq kept = true := by
  induction ds generalizing last with
  | nil =>
      obtain rfl := List.mem_singleton.mp h
      exact ⟨d, List.mem_cons_self, eq_refl d⟩
  | cons next rest ih =>
      rw [dedup.dedupAfter]
      by_cases hd : d = last
      · exact ⟨last, List.mem_cons_self, hd ▸ eq_refl d⟩
      · have hmem := (List.mem_cons.mp h).resolve_left hd
        split
        · rename_i heq
          obtain rfl | hrest := List.mem_cons.mp hmem
          · exact ⟨last, List.mem_cons_self, eq_symm heq⟩
          · exact ih (List.mem_cons_of_mem _ hrest)
        · obtain ⟨kept, hkept, heq⟩ := ih hmem
          exact ⟨kept, List.mem_cons_of_mem _ hkept, heq⟩

theorem exists_dedup {d : TypeDescriptor} {ds : List TypeDescriptor} (h : d ∈ ds) :
    ∃ kept ∈ dedup ds, d.eq kept = true := by
  cases ds with
  | nil => cases h
  | cons first rest => exact exists_dedupAfter h

end Members

section Bounds

variable {debugText : TypeDescriptor → String}

/-- A branch type: without `Any`, and with unions nowhere. -/
structure Branch (d : TypeDescriptor) : Prop where
  concrete : d.Concrete
  noUnion : d.NoUnion

theorem Branch.notUnion {d : TypeDescriptor} (h : d.Branch) : d.isUnion = false := h.noUnion.holds

theorem Branch.ordered {d : TypeDescriptor} (h : d.Branch) : Everywhere Ordered d :=
  h.concrete.mono fun _ h => h.1

theorem Branch.le_of_eq {d e : TypeDescriptor} (hd : d.Branch) (he : e.Branch)
    (h : d.eq e = true) : assignable d e = true :=
  assignable_of_eq hd.noUnion he.ordered h

theorem Branch.le_refl {d : TypeDescriptor} (hd : d.Branch) : assignable d d = true :=
  hd.le_of_eq hd (eq_refl d)

/-- The arms of a type: the members of a union, or the type itself. -/
def arms : TypeDescriptor → List TypeDescriptor
  | .union variants => variants
  | d => [d]

theorem arms_of_not_union {d : TypeDescriptor} (h : d.isUnion = false) : d.arms = [d] := by
  cases d <;> first | rfl | exact absurd h.symm Bool.false_ne_true

/-- A type whose arms are branch types. -/
def Flat (d : TypeDescriptor) : Prop := ∀ arm ∈ d.arms, arm.Branch

theorem Branch.flat {d : TypeDescriptor} (h : d.Branch) : d.Flat := by
  rw [Flat, arms_of_not_union h.notUnion]
  intro arm hmem
  obtain rfl := List.mem_singleton.mp hmem
  exact h

theorem Flat.flatten_eq {d : TypeDescriptor} (h : d.Flat) : d.flatten = d.arms := by
  cases d with
  | union variants => exact flattenItems_of_not_union fun arm hmem => (h arm hmem).notUnion
  | _ => rfl

/-- A type that is not an enum has room in a type that has room in one of its arms. -/
theorem le_of_arm {d e arm : TypeDescriptor} (hd : d.isEnum = false) (hmem : arm ∈ e.arms)
    (h : assignable d arm = true) : assignable d e = true := by
  cases e with
  | union variants => exact assignable_iff.mpr (.toUnion hd hmem h)
  | _ =>
      obtain rfl := List.mem_singleton.mp hmem
      exact h

theorem variantType_not_enum (name : String) (payload : Option TypeDescriptor) :
    (enumVariantType name payload).isEnum = false := by
  cases payload <;> rfl

theorem variantType_not_union (name : String) (payload : Option TypeDescriptor) :
    (enumVariantType name payload).isUnion = false := by
  cases payload <;> rfl

/-- A variant of an enum is assignable to the enum. -/
theorem Branch.variant_le {variants : List (String × Option TypeDescriptor)}
    (h : (enum variants).Branch) {variant : String × Option TypeDescriptor}
    (hmem : variant ∈ variants) :
    assignable (enumVariantType variant.1 variant.2) (.enum variants) = true := by
  have hvariant : (enumVariantType variant.1 variant.2).Branch :=
    ⟨h.concrete.variantType (fun _ => ⟨trivial, rfl⟩) (fun _ _ => ⟨trivial, rfl⟩) hmem,
      h.noUnion.variantType (fun _ => rfl) (fun _ _ => rfl) hmem⟩
  exact assignable_iff.mpr (.toEnum (variantType_not_enum _ _) (variantType_not_union _ _) hmem
    hvariant.le_refl)

/-- A branch type is assignable to every type it is an arm of. -/
theorem Branch.le_of_mem {d e : TypeDescriptor} (hd : d.Branch) (hmem : d ∈ e.arms) :
    assignable d e = true := by
  cases henum : d.isEnum with
  | false => exact le_of_arm henum hmem hd.le_refl
  | true =>
      cases e with
      | union members =>
          cases d <;> first | exact absurd henum Bool.false_ne_true | skip
          refine assignable_iff.mpr (.ofEnum rfl fun variant hvariant => ?_)
          exact assignable_iff.mpr (.toUnion (variantType_not_enum _ _) hmem (hd.variant_le hvariant))
      | _ =>
          obtain rfl := List.mem_singleton.mp hmem
          exact hd.le_refl

/-- A canonical union of branch types: its arms are some of them, or only `Never`, and there
is an equal arm for each of them that is not `Never`. -/
theorem canonicalUnion_arms (debugText : TypeDescriptor → String) {types : List TypeDescriptor}
    (hbranch : ∀ d ∈ flattenItems types, d.Branch) :
    (∀ arm ∈ (canonicalUnion debugText types).arms, arm = .never ∨ arm ∈ flattenItems types) ∧
      ∀ d ∈ flattenItems types, d.isNever = false →
        ∃ arm ∈ (canonicalUnion debugText types).arms, d.eq arm = true := by
  have hany : (flattenItems types).any isAny = false := by
    rw [List.any_eq_false]
    intro d hd
    rw [(hbranch d hd).concrete.holds.2]
    exact Bool.false_ne_true
  obtain ⟨kept, hkept⟩ : ∃ kept, kept = if (flattenItems types).any fun d => !d.isNever then
      (flattenItems types).filter fun d => !d.isNever else flattenItems types := ⟨_, rfl⟩
  have hsub : ∀ d ∈ kept, d ∈ flattenItems types := by
    intro d hd
    rw [hkept] at hd
    split at hd
    · exact (List.mem_filter.mp hd).1
    · exact hd
  have hmem : ∀ d ∈ flattenItems types, d.isNever = false → d ∈ kept := by
    intro d hd hnever
    rw [hkept]
    split
    · exact List.mem_filter.mpr ⟨hd, by rw [hnever]; rfl⟩
    · exact hd
  obtain ⟨members, hmembers, hresult⟩ : ∃ members,
      members = dedup (kept.mergeSort (sortKeyLe debugText)) ∧
        canonicalUnion debugText types =
          match members with
          | [] => .never
          | [d] => d
          | members => .union members := by
    refine ⟨_, rfl, ?_⟩
    rw [canonicalUnion, hany, hkept]
    rfl
  have hof : ∀ d ∈ members, d ∈ flattenItems types := fun d hd =>
    hsub d (List.mem_mergeSort.mp (mem_of_mem_dedup (hmembers ▸ hd)))
  have hto : ∀ d ∈ flattenItems types, d.isNever = false → ∃ e ∈ members, d.eq e = true := by
    intro d hd hnever
    rw [hmembers]
    exact exists_dedup (List.mem_mergeSort.mpr (hmem d hd hnever))
  rw [hresult]
  match members, hof, hto with
  | [], _, hto =>
      refine ⟨fun d hd => .inl (List.mem_singleton.mp hd), fun d hd hnever => ?_⟩
      obtain ⟨e, he, -⟩ := hto d hd hnever
      cases he
  | [e], hof, hto =>
      rw [arms_of_not_union (hbranch e (hof e List.mem_cons_self)).notUnion]
      exact ⟨fun d hd => .inr (hof d hd), hto⟩
  | _ :: _ :: _, hof, hto => exact ⟨fun d hd => .inr (hof d hd), hto⟩

/-- The ways in which two types are joined. -/
inductive JoinCase (debugText : TypeDescriptor → String) (left right : TypeDescriptor) :
    TypeDescriptor → Prop where
  | equal : left.eq right = true → JoinCase debugText left right left
  | leftNever : left = .never → JoinCase debugText left right right
  | rightNever : right = .never → JoinCase debugText left right left
  | any : left.isAny = true ∨ right.isAny = true → JoinCase debugText left right .any
  | types : assignable left .type = true → assignable right .type = true →
      JoinCase debugText left right .type
  | below : assignable left right = true → JoinCase debugText left right right
  | above : assignable right left = true → JoinCase debugText left right left
  | union : left.eq right = false → left.isNever = false → right.isNever = false →
      JoinCase debugText left right (canonicalUnion debugText [left, right])

theorem joinTypes_case (debugText : TypeDescriptor → String) (left right : TypeDescriptor) :
    JoinCase debugText left right (joinTypes debugText left right) := by
  have of_isNever {d : TypeDescriptor} (h : d.isNever = true) : d = .never := by
    cases d <;> first | rfl | exact absurd h Bool.false_ne_true
  unfold joinTypes
  split
  · exact .equal ‹_›
  rename_i heq
  split
  · exact .leftNever (of_isNever ‹_›)
  rename_i hleft
  split
  · exact .rightNever (of_isNever ‹_›)
  rename_i hright
  split
  · rename_i h
    exact .any (Bool.or_eq_true_iff.mp h)
  split
  · rename_i h
    exact .types (Bool.and_eq_true_iff.mp h).1 (Bool.and_eq_true_iff.mp h).2
  split
  · exact .below ‹_›
  · exact .above ‹_›
  · exact .union (Bool.eq_false_iff.mpr heq) (Bool.eq_false_iff.mpr hleft)
      (Bool.eq_false_iff.mpr hright)

/-- Two branch types are assignable to their join. -/
theorem Branch.le_join {left right : TypeDescriptor} (hleft : left.Branch) (hright : right.Branch) :
    assignable left (joinTypes debugText left right) = true ∧
      assignable right (joinTypes debugText left right) = true := by
  have hcase := joinTypes_case debugText left right
  generalize joinTypes debugText left right = joined at hcase ⊢
  cases hcase with
  | equal heq => exact ⟨hleft.le_refl, hright.le_of_eq hleft (eq_symm heq)⟩
  | leftNever hnever =>
      subst hnever
      exact ⟨assignable_iff.mpr .never, hright.le_refl⟩
  | rightNever hnever =>
      subst hnever
      exact ⟨hleft.le_refl, assignable_iff.mpr .never⟩
  | any hany =>
      obtain h | h := hany
      · exact absurd (hleft.concrete.holds.2.symm.trans h) Bool.false_ne_true
      · exact absurd (hright.concrete.holds.2.symm.trans h) Bool.false_ne_true
  | types hl hr => exact ⟨hl, hr⟩
  | below h => exact ⟨h, hright.le_refl⟩
  | above h => exact ⟨hleft.le_refl, h⟩
  | union hne hleftNever hrightNever =>
      have hitems : flattenItems [left, right] = [left, right] :=
        flattenItems_of_not_union (by simp [hleft.notUnion, hright.notUnion])
      have hbranch : ∀ d ∈ flattenItems [left, right], d.Branch := by
        simp [hitems, hleft, hright]
      obtain ⟨hof, hto⟩ := canonicalUnion_arms debugText hbranch
      simp only [hitems, List.mem_cons, List.not_mem_nil, or_false] at hof hto
      -- the two are not equal, so each is an arm of its own
      have never_of_eq {d : TypeDescriptor} (h : d.eq .never = true) : d.isNever = true := by
        cases d <;> first | rfl | exact absurd h Bool.false_ne_true
      obtain ⟨arm, harm, heq⟩ := hto left (.inl rfl) hleftNever
      obtain ⟨arm', harm', heq'⟩ := hto right (.inr rfl) hrightNever
      refine ⟨hleft.le_of_mem ?_, hright.le_of_mem ?_⟩
      · obtain rfl | rfl | rfl := hof arm harm
        · exact absurd (hleftNever.symm.trans (never_of_eq heq)) Bool.false_ne_true
        · exact harm
        · exact absurd (hne.symm.trans heq) Bool.false_ne_true
      · obtain rfl | rfl | rfl := hof arm' harm'
        · exact absurd (hrightNever.symm.trans (never_of_eq heq')) Bool.false_ne_true
        · exact absurd (hne.symm.trans (eq_symm heq')) Bool.false_ne_true
        · exact harm'

/-- The branch types that may be joined in any order: they are no enums, and the enums
inside them are wide. -/
structure Joinable (d : TypeDescriptor) : Prop extends Branch d where
  notEnum : d.isEnum = false
  wide : d.WideEnums

theorem Joinable.trans {d e f : TypeDescriptor} (hd : d.Joinable) (he : e.Branch) (hf : f.Branch)
    (hde : assignable d e = true) (hef : assignable e f = true) : assignable d f = true :=
  assignable_trans hd.concrete hd.noUnion hd.wide he.concrete he.noUnion hf.concrete hde hef

theorem type_branch : Branch .type where
  concrete := .mk ⟨trivial, rfl⟩ fun _ h => by cases h
  noUnion := .mk rfl fun _ h => by cases h

theorem never_branch : Branch .never where
  concrete := .mk ⟨trivial, rfl⟩ fun _ h => by cases h
  noUnion := .mk rfl fun _ h => by cases h

/-- A branch type that is no enum has room for a type if it has room for its arms. -/
theorem arm_le {d e arm : TypeDescriptor} (he : e.Branch) (henum : e.isEnum = false)
    (h : assignable d e = true) (hmem : arm ∈ d.arms) : assignable arm e = true := by
  cases d with
  | union members =>
      cases assignable_iff.mp h with
      | toAny => exact absurd he.concrete.holds.2.symm Bool.false_ne_true
      | unionEnum _ | toEnum _ _ _ _ => exact absurd henum.symm Bool.false_ne_true
      | toUnion _ _ _ => exact absurd he.notUnion.symm Bool.false_ne_true
      | ofUnion _ _ h => exact h _ hmem
      | structural h => exact absurd h.left_not_union.symm Bool.false_ne_true
  | _ =>
      obtain rfl := List.mem_singleton.mp hmem
      exact h

/-- A type that is no enum and below a flat type is below one of its arms. -/
theorem exists_arm {d e : TypeDescriptor} (hd : d.Branch) (henum : d.isEnum = false)
    (he : e.arms ≠ []) (h : assignable d e = true) :
    ∃ arm ∈ e.arms, assignable d arm = true := by
  cases e with
  | union members =>
      cases assignable_iff.mp h with
      | never =>
          obtain ⟨arm, harm⟩ := List.exists_mem_of_ne_nil _ he
          exact ⟨arm, harm, assignable_iff.mpr .never⟩
      | ofAny => exact absurd hd.concrete.holds.2.symm Bool.false_ne_true
      | ofEnum _ _ => exact absurd henum.symm Bool.false_ne_true
      | toUnion _ hmem h => exact ⟨_, hmem, h⟩
      | ofUnion _ h _ => exact absurd h.symm Bool.false_ne_true
      | structural h =>
          cases h with
          | leaf hleaf heq => exact absurd (leaf_of_eq hleaf heq) Bool.false_ne_true
  | _ => exact ⟨_, List.mem_singleton.mpr rfl, h⟩

/-- What holds of the join of the branches seen so far: it is flat, and every branch seen
is below one of its arms. -/
structure Joined (seen : List TypeDescriptor) (joined : TypeDescriptor) : Prop where
  flat : joined.Flat
  arms : joined.arms ≠ []
  bound : ∀ d ∈ seen, ∃ arm ∈ joined.arms, assignable d arm = true

theorem Joined.of_branch {seen : List TypeDescriptor} {joined : TypeDescriptor}
    (hjoined : joined.Branch) (h : ∀ d ∈ seen, assignable d joined = true) :
    Joined seen joined := by
  have harms := arms_of_not_union hjoined.notUnion
  refine ⟨hjoined.flat, by simp [harms], fun d hd => ⟨joined, ?_, h d hd⟩⟩
  rw [harms]
  exact List.mem_cons_self

/-- One more branch. -/
theorem Joined.step {seen : List TypeDescriptor} {joined next : TypeDescriptor}
    (hseen : ∀ d ∈ seen, d.Joinable) (hnext : next.Joinable) (h : Joined seen joined) :
    Joined (next :: seen) (joinTypes debugText joined next) := by
  have hcase := joinTypes_case debugText joined next
  generalize joinTypes debugText joined next = result at hcase ⊢
  cases hcase with
  | equal heq =>
      have hunion : joined.isUnion = false := by
        cases equalParts_of_eq heq with
        | union _ => exact absurd hnext.notUnion.symm Bool.false_ne_true
        | leaf hleaf _ =>
            cases joined <;> first | rfl | exact absurd hleaf Bool.false_ne_true
        | _ => rfl
      have hmem : joined ∈ joined.arms := by
        rw [arms_of_not_union hunion]
        exact List.mem_cons_self
      refine ⟨h.flat, h.arms, fun d hd => ?_⟩
      obtain rfl | hd := List.mem_cons.mp hd
      · exact ⟨joined, hmem, hnext.le_of_eq (h.flat joined hmem) (eq_symm heq)⟩
      · exact h.bound d hd
  | leftNever hnever =>
      subst hnever
      refine .of_branch hnext.toBranch fun d hd => ?_
      obtain rfl | hd := List.mem_cons.mp hd
      · exact hnext.le_refl
      · obtain ⟨arm, harm, hle⟩ := h.bound d hd
        obtain rfl := List.mem_singleton.mp harm
        exact (hseen d hd).trans never_branch hnext.toBranch hle (assignable_iff.mpr .never)
  | rightNever hnever =>
      subst hnever
      refine ⟨h.flat, h.arms, fun d hd => ?_⟩
      obtain rfl | hd := List.mem_cons.mp hd
      · obtain ⟨arm, harm⟩ := List.exists_mem_of_ne_nil _ h.arms
        exact ⟨arm, harm, assignable_iff.mpr .never⟩
      · exact h.bound d hd
  | any hany =>
      obtain hany | hany := hany
      · have hmem : joined ∈ joined.arms := by
          cases joined <;> first | exact List.mem_cons_self | exact absurd hany Bool.false_ne_true
        exact absurd ((h.flat joined hmem).concrete.holds.2.symm.trans hany) Bool.false_ne_true
      · exact absurd (hnext.concrete.holds.2.symm.trans hany) Bool.false_ne_true
  | types hjoined hnextType =>
      refine .of_branch type_branch fun d hd => ?_
      obtain rfl | hd := List.mem_cons.mp hd
      · exact hnextType
      · obtain ⟨arm, harm, hle⟩ := h.bound d hd
        exact (hseen d hd).trans (h.flat arm harm) type_branch hle
          (arm_le type_branch rfl hjoined harm)
  | below hbelow =>
      refine .of_branch hnext.toBranch fun d hd => ?_
      obtain rfl | hd := List.mem_cons.mp hd
      · exact hnext.le_refl
      · obtain ⟨arm, harm, hle⟩ := h.bound d hd
        exact (hseen d hd).trans (h.flat arm harm) hnext.toBranch hle
          (arm_le hnext.toBranch hnext.notEnum hbelow harm)
  | above habove =>
      refine ⟨h.flat, h.arms, fun d hd => ?_⟩
      obtain rfl | hd := List.mem_cons.mp hd
      · exact exists_arm hnext.toBranch hnext.notEnum h.arms habove
      · exact h.bound d hd
  | union _ _ hnever =>
      have hitems : flattenItems [joined, next] = joined.arms ++ [next] := by
        rw [flattenItems, flattenItems, flattenItems, h.flat.flatten_eq,
          flatten_of_not_union hnext.notUnion, List.append_nil]
      have hbranch : ∀ d ∈ flattenItems [joined, next], d.Branch := by
        intro d hd
        rw [hitems] at hd
        obtain hd | hd := List.mem_append.mp hd
        · exact h.flat d hd
        · obtain rfl := List.mem_singleton.mp hd
          exact hnext.toBranch
      obtain ⟨hof, hto⟩ := canonicalUnion_arms debugText hbranch
      have hflat : (canonicalUnion debugText [joined, next]).Flat := by
        intro arm harm
        obtain rfl | hmem := hof arm harm
        · exact never_branch
        · exact hbranch arm hmem
      have hnextMem : next ∈ flattenItems [joined, next] := by simp [hitems]
      obtain ⟨own, hown, hownEq⟩ := hto next hnextMem hnever
      refine ⟨hflat, List.ne_nil_of_mem hown, fun d hd => ?_⟩
      obtain rfl | hd := List.mem_cons.mp hd
      · exact ⟨own, hown, hnext.le_of_eq (hflat own hown) hownEq⟩
      obtain ⟨arm, harm, hle⟩ := h.bound d hd
      cases hnever : arm.isNever with
      | true =>
          obtain rfl : arm = .never := by
            cases arm <;> first | rfl | exact absurd hnever Bool.false_ne_true
          exact ⟨own, hown, (hseen d hd).trans never_branch (hflat own hown) hle
            (assignable_iff.mpr .never)⟩
      | false =>
          have hmem : arm ∈ flattenItems [joined, next] := by simp [hitems, harm]
          obtain ⟨kept, hkept, heq⟩ := hto arm hmem hnever
          exact ⟨kept, hkept, (hseen d hd).trans (h.flat arm harm) (hflat kept hkept) hle
            ((h.flat arm harm).le_of_eq (hflat kept hkept) heq)⟩

/-- Every branch type is below the join of a list of branches. -/
theorem le_joinBranches {first : TypeDescriptor} {rest : List TypeDescriptor}
    (h : ∀ d ∈ first :: rest, d.Joinable) :
    ∀ d ∈ first :: rest, assignable d (joinBranches debugText first rest) = true := by
  have hrun (seen : List TypeDescriptor) (joined : TypeDescriptor)
      (hseen : ∀ d ∈ seen, d.Joinable) (hrest : ∀ d ∈ rest, d.Joinable)
      (hjoined : Joined seen joined) :
      Joined (rest.reverse ++ seen) (joinBranches debugText joined rest) := by
    clear h
    induction rest generalizing seen joined with
    | nil => exact hjoined
    | cons next rest ih =>
        rw [List.reverse_cons, List.append_assoc]
        refine ih (next :: seen) _ ?_ (fun d hd => hrest d (List.mem_cons_of_mem _ hd))
          (hjoined.step hseen (hrest next List.mem_cons_self))
        exact List.forall_mem_cons.mpr ⟨hrest next List.mem_cons_self, hseen⟩
  have hfirst := h first List.mem_cons_self
  have hall := hrun [first] first (List.forall_mem_singleton.mpr hfirst)
    (fun d hd => h d (List.mem_cons_of_mem _ hd))
    (.of_branch hfirst.toBranch (List.forall_mem_singleton.mpr hfirst.le_refl))
  intro d hd
  have hmem : d ∈ rest.reverse ++ [first] := by
    simpa [or_comm] using hd
  obtain ⟨arm, harm, hle⟩ := hall.bound d hmem
  exact le_of_arm (h d hd).notEnum harm hle

/-- Assignability and joins of descriptors without `Any`: reflexive without unions,
transitive along a middle descriptor without unions if the enums on the left are wide, and
with joins above what is joined. -/
theorem assignable_order :
    (∀ d : TypeDescriptor, d.Concrete → d.NoUnion → assignable d d = true) ∧
      (∀ a b c : TypeDescriptor, a.Concrete → a.NoUnion → a.WideEnums → b.Concrete → b.NoUnion →
        c.Concrete → assignable a b = true → assignable b c = true → assignable a c = true) ∧
      (∀ (debugText : TypeDescriptor → String) (left right : TypeDescriptor),
        left.Concrete → left.NoUnion → right.Concrete → right.NoUnion →
          assignable left (joinTypes debugText left right) = true ∧
            assignable right (joinTypes debugText left right) = true) ∧
      ∀ (debugText : TypeDescriptor → String) (first : TypeDescriptor)
        (rest : List TypeDescriptor),
        (∀ d ∈ first :: rest, d.Concrete ∧ d.NoUnion ∧ d.WideEnums ∧ d.isEnum = false) →
          ∀ d ∈ first :: rest, assignable d (joinBranches debugText first rest) = true := by
  refine ⟨fun d h hunion => Branch.le_refl ⟨h, hunion⟩, fun a b c => assignable_trans, ?_, ?_⟩
  · intro debugText left right hleft hleftUnion hright hrightUnion
    exact Branch.le_join ⟨hleft, hleftUnion⟩ ⟨hright, hrightUnion⟩
  · intro debugText first rest h
    exact le_joinBranches fun d hd =>
      ⟨⟨(h d hd).1, (h d hd).2.1⟩, (h d hd).2.2.2, (h d hd).2.2.1⟩

private theorem int_string_join : joinTypes displayName (.union [.int, .string]) .float =
    .union [.float, .int, .string] := by
  have hint : sortKeyLe displayName .int .string = true := by decide +kernel
  have hfloat : sortKeyLe displayName .int .float = false := by decide +kernel
  have hsorted : [TypeDescriptor.int, .string, .float].mergeSort (sortKeyLe displayName) =
      [.float, .int, .string] := by
    simp [List.mergeSort, List.MergeSort.Internal.splitInTwo, hint, hfloat]
  change (match dedup ([TypeDescriptor.int, .string, .float].mergeSort
      (sortKeyLe displayName)) with
    | [] => TypeDescriptor.never
    | [d] => d
    | members => .union members) = _
  rw [hsorted]
  rfl

/-- A union is not assignable to itself, and so not to a join of it; and an enum of one
variant is below the atom of its variant, but not below a wider enum with room for the atom. -/
theorem assignable_not_preorder :
    assignable (.union [.int, .string]) (.union [.int, .string]) = false ∧
      assignable (.union [.int, .string])
        (joinTypes displayName (.union [.int, .string]) .float) = false ∧
      assignable (.enum [("A", none)]) (.atom (.named "A")) = true ∧
      assignable (.atom (.named "A")) (.enum [("A", none), ("B", none)]) = true ∧
      assignable (.enum [("A", none)]) (.enum [("A", none), ("B", none)]) = false := by
  rw [int_string_join]
  decide +kernel

/-- An order of a struct, an array and a string. -/
theorem assignable_order_struct :
    assignable (.struct [("x", .int)])
      (joinBranches displayName (.array .int) [.struct [("x", .int)], .string]) = true := by
  have leaf {d : TypeDescriptor} (h : d.children = []) (ho : d.Ordered) (hany : d.isAny = false)
      (hunion : d.isUnion = false) (hwide : d.Wide) : d.Concrete ∧ d.NoUnion ∧ d.WideEnums :=
    ⟨.mk ⟨ho, hany⟩ (by simp [h]), .mk hunion (by simp [h]), .mk hwide (by simp [h])⟩
  have hint := leaf (d := .int) rfl trivial rfl rfl trivial
  have hstring := leaf (d := .string) rfl trivial rfl rfl trivial
  refine assignable_order.2.2.2 displayName _ _ ?_ _
    (List.mem_cons_of_mem _ List.mem_cons_self)
  refine List.forall_mem_cons.mpr ⟨?_, List.forall_mem_cons.mpr ⟨?_, List.forall_mem_singleton.mpr ?_⟩⟩
  · exact ⟨.mk ⟨trivial, rfl⟩ (List.forall_mem_singleton.mpr hint.1),
      .mk rfl (List.forall_mem_singleton.mpr hint.2.1),
      .mk trivial (List.forall_mem_singleton.mpr hint.2.2), rfl⟩
  · exact ⟨.mk ⟨List.pairwise_singleton _ _, rfl⟩ (List.forall_mem_singleton.mpr hint.1),
      .mk rfl (List.forall_mem_singleton.mpr hint.2.1),
      .mk trivial (List.forall_mem_singleton.mpr hint.2.2), rfl⟩
  · exact ⟨hstring.1, hstring.2.1, hstring.2.2, rfl⟩

end Bounds

end Telora.TypeDescriptor
