import Mathlib.Data.Prod.Lex
import Telora.Types.Rebuild

/-!
# Canonical unions stay as they are

The members of a canonical union are no unions, in the order of their display and without
duplicates, so putting them together again changes nothing. A descriptor with canonical
unions only is its own rebuild, whatever variables it keeps.
-/

namespace Telora.TypeDescriptor

variable {debugText : TypeDescriptor → String}

/-- The parts directly inside a descriptor replaced. -/
def mapParts (f : TypeDescriptor → TypeDescriptor) : TypeDescriptor → TypeDescriptor
  | .typeOf described => .typeOf (f described)
  | .array item => .array (f item)
  | .dict item => .dict (f item)
  | .tagged tag payload => .tagged tag (f payload)
  | .tuple items => .tuple (items.map f)
  | .struct fields => .struct (fields.map fun field => (field.1, f field.2))
  | .enum variants => .enum (variants.map fun variant => (variant.1, variant.2.map f))
  | .union variants => .union (variants.map f)
  | .function parameters result => .function (parameters.map f) (f result)
  | d => d

theorem children_mapParts (f : TypeDescriptor → TypeDescriptor) (d : TypeDescriptor) :
    (d.mapParts f).children = d.children.map f := by
  cases d with
  | struct fields =>
      rw [mapParts, children, children, List.map_map, List.map_map]
      rfl
  | enum variants =>
      rw [mapParts, children, children, List.filterMap_map, List.map_filterMap]
      rfl
  | _ => rfl

theorem mapParts_congr {f g : TypeDescriptor → TypeDescriptor} {d : TypeDescriptor}
    (h : ∀ child ∈ d.children, f child = g child) : d.mapParts f = d.mapParts g := by
  cases d with
  | tuple items => exact congrArg tuple (List.map_congr_left h)
  | union variants => exact congrArg union (List.map_congr_left h)
  | struct fields =>
      refine congrArg struct (List.map_congr_left fun field hmem => ?_)
      rw [h field.2 (List.mem_map_of_mem hmem)]
  | enum variants =>
      refine congrArg enum (List.map_congr_left fun variant hmem => ?_)
      obtain ⟨name, _ | payload⟩ := variant
      · rfl
      · simp only [Option.map_some, h payload (List.mem_filterMap.mpr ⟨_, hmem, rfl⟩)]
  | function parameters result =>
      rw [mapParts, mapParts, h result List.mem_cons_self,
        List.map_congr_left fun parameter hmem => h parameter (List.mem_cons_of_mem _ hmem)]
  | typeOf | array | dict | tagged =>
      rw [mapParts, mapParts, h _ (List.mem_singleton_self _)]
  | _ => rfl

theorem mapParts_mapParts (f g : TypeDescriptor → TypeDescriptor) (d : TypeDescriptor) :
    (d.mapParts f).mapParts g = d.mapParts (g ∘ f) := by
  cases d <;> simp [mapParts, Function.comp_def]

theorem mapParts_id (d : TypeDescriptor) : d.mapParts id = d := by
  cases d <;> simp [mapParts]

/-- Leaves and unions apart, a descriptor is rebuilt part by part. -/
theorem rebuild_eq_mapParts {bound inference : Nat → TypeDescriptor}
    {unite : List TypeDescriptor → TypeDescriptor} {d : TypeDescriptor}
    (hbound : ∀ id, d ≠ .bound id) (hinference : ∀ id, d ≠ .inference id)
    (hunion : ∀ variants, d ≠ .union variants) :
    d.rebuild bound inference unite = d.mapParts (rebuild bound inference unite) := by
  cases d with
  | bound id => exact absurd rfl (hbound id)
  | inference id => exact absurd rfl (hinference id)
  | union variants => exact absurd rfl (hunion variants)
  | _ => simp [rebuild, mapParts]

theorem sortKeyLe_iff {left right : TypeDescriptor} :
    sortKeyLe debugText left right = true ↔
      toLex (left.displayName, debugText left) ≤ toLex (right.displayName, debugText right) := by
  simp [sortKeyLe, Prod.Lex.toLex_le_toLex]

theorem sortKeyLe_trans (a b c : TypeDescriptor) (hab : sortKeyLe debugText a b = true)
    (hbc : sortKeyLe debugText b c = true) : sortKeyLe debugText a c = true := by
  rw [sortKeyLe_iff] at *
  exact hab.trans hbc

theorem sortKeyLe_total (a b : TypeDescriptor) :
    (sortKeyLe debugText a b || sortKeyLe debugText b a) = true := by
  rw [Bool.or_eq_true, sortKeyLe_iff, sortKeyLe_iff]
  exact le_total _ _

theorem dedupAfter_sublist (last : TypeDescriptor) (ds : List TypeDescriptor) :
    (dedup.dedupAfter last ds).Sublist ds := by
  induction ds generalizing last with
  | nil => exact .slnil
  | cons next rest ih =>
      rw [dedup.dedupAfter]
      split
      · exact (ih last).cons next
      · exact (ih next).cons_cons next

theorem dedup_sublist (ds : List TypeDescriptor) : (dedup ds).Sublist ds := by
  cases ds with
  | nil => exact .slnil
  | cons first rest => exact (dedupAfter_sublist first rest).cons_cons first

theorem dedupAfter_dedupAfter (last : TypeDescriptor) (ds : List TypeDescriptor) :
    dedup.dedupAfter last (dedup.dedupAfter last ds) = dedup.dedupAfter last ds := by
  induction ds generalizing last with
  | nil => rfl
  | cons next rest ih =>
      rw [dedup.dedupAfter]
      split
      · exact ih last
      · rename_i hne
        rw [dedup.dedupAfter, if_neg hne, ih next]

theorem dedup_dedup (ds : List TypeDescriptor) : dedup (dedup ds) = dedup ds := by
  cases ds with
  | nil => rfl
  | cons first rest =>
      change first :: dedup.dedupAfter first (dedup.dedupAfter first rest) = _
      rw [dedupAfter_dedupAfter]
      rfl

/-- What equals the descriptor before it is dropped to the end. -/
theorem dedup_of_never {ds : List TypeDescriptor} (h : ∀ d ∈ ds, d = .never) :
    (dedup ds).length ≤ 1 := by
  have hafter : ∀ ds : List TypeDescriptor, (∀ d ∈ ds, d = .never) →
      dedup.dedupAfter .never ds = [] := by
    intro ds hall
    induction ds with
    | nil => rfl
    | cons next rest ih =>
        obtain rfl := hall next List.mem_cons_self
        rw [dedup.dedupAfter, if_pos (eq_refl _)]
        exact ih fun d hd => hall d (List.mem_cons_of_mem _ hd)
  cases ds with
  | nil => exact Nat.zero_le _
  | cons first rest =>
      obtain rfl := h first List.mem_cons_self
      change (TypeDescriptor.never :: dedup.dedupAfter .never rest).length ≤ 1
      rw [hafter rest fun d hd => h d (List.mem_cons_of_mem _ hd)]
      exact le_rfl

theorem not_union_of_mem_flatten {d : TypeDescriptor} :
    ∀ member ∈ d.flatten, member.isUnion = false := by
  induction d using parts_induction with
  | step d ih =>
      intro member hmem
      cases hunion : d.isUnion with
      | false =>
          rw [flatten_of_not_union hunion] at hmem
          exact List.mem_singleton.mp hmem ▸ hunion
      | true =>
          obtain ⟨variants, rfl⟩ : ∃ variants, d = .union variants := by
            cases d <;> first | exact ⟨_, rfl⟩ | exact absurd hunion Bool.false_ne_true
          rw [TypeDescriptor.flatten] at hmem
          obtain ⟨variant, hvariant, hmem⟩ := mem_flattenItems.mp hmem
          exact ih variant hvariant member hmem

theorem not_union_of_mem_flattenItems {ds : List TypeDescriptor} {member : TypeDescriptor}
    (h : member ∈ flattenItems ds) : member.isUnion = false := by
  obtain ⟨source, -, hsource⟩ := mem_flattenItems.mp h
  exact not_union_of_mem_flatten member hsource

theorem eq_never_of_isNever {d : TypeDescriptor} (h : d.isNever = true) : d = .never := by
  cases d <;> first | rfl | exact absurd h Bool.false_ne_true

theorem two_le_length {ds : List TypeDescriptor} (hnil : ds ≠ []) (hone : ∀ d, ds ≠ [d]) :
    2 ≤ ds.length := by
  cases ds with
  | nil => exact absurd rfl hnil
  | cons first rest =>
      cases rest with
      | nil => exact absurd rfl (hone first)
      | cons second rest => exact Nat.le_add_left 2 rest.length

/-- A canonical union put together again is the same union. -/
theorem canonicalUnion_union {ds members : List TypeDescriptor}
    (h : canonicalUnion debugText ds = .union members) :
    canonicalUnion debugText members = .union members := by
  rw [canonicalUnion] at h
  split at h
  · cases h
  rename_i hany
  obtain ⟨kept, hkept⟩ : ∃ kept, kept = if (flattenItems ds).any fun d => !d.isNever then
      (flattenItems ds).filter fun d => !d.isNever else flattenItems ds := ⟨_, rfl⟩
  rw [← hkept] at h
  have hsub : ∀ d ∈ kept, d ∈ flattenItems ds := by
    intro d hd
    rw [hkept] at hd
    split at hd
    · exact (List.mem_filter.mp hd).1
    · exact hd
  obtain ⟨hmembers, hlength⟩ : members = dedup (kept.mergeSort (sortKeyLe debugText)) ∧
      2 ≤ members.length := by
    simp only at h
    split at h
    · cases h
    · rename_i d heq
      have hd : d ∈ kept :=
        List.mem_mergeSort.mp (mem_of_mem_dedup (heq ▸ List.mem_singleton_self d))
      have hunion := not_union_of_mem_flattenItems (hsub d hd)
      rw [h] at hunion
      cases hunion
    · rename_i hnil hone
      injection h with h
      refine ⟨h.symm, ?_⟩
      rw [← h]
      exact two_le_length hnil hone
  have hmem : ∀ d ∈ members, d ∈ kept := fun d hd =>
    List.mem_mergeSort.mp (mem_of_mem_dedup (hmembers ▸ hd))
  have hflat : flattenItems members = members :=
    flattenItems_of_not_union fun d hd => not_union_of_mem_flattenItems (hsub d (hmem d hd))
  have hnotAny : members.any isAny = false := by
    rw [List.any_eq_false]
    intro d hd hisAny
    exact hany (List.any_eq_true.mpr ⟨d, hsub d (hmem d hd), hisAny⟩)
  -- were all of them `Never`, one would be left
  have hnever : members.filter (fun d => !d.isNever) = members := by
    refine List.filter_eq_self.mpr fun d hd => ?_
    have hd' := hmem d hd
    rw [hkept] at hd'
    split at hd'
    · exact (List.mem_filter.mp hd').2
    · rename_i hall
      have hkeptNever : ∀ d ∈ kept.mergeSort (sortKeyLe debugText), d = .never := by
        intro d hd
        by_contra hne
        have hd := hsub d (List.mem_mergeSort.mp hd)
        refine hall (List.any_eq_true.mpr ⟨d, hd, ?_⟩)
        cases hisNever : d.isNever with
        | true => exact absurd (eq_never_of_isNever hisNever) hne
        | false => rfl
      have hone := dedup_of_never hkeptNever
      rw [← hmembers] at hone
      omega
  have hsorted : members.mergeSort (sortKeyLe debugText) = members := by
    refine List.mergeSort_of_pairwise ?_
    rw [hmembers]
    exact (List.pairwise_mergeSort sortKeyLe_trans sortKeyLe_total kept).sublist (dedup_sublist _)
  have hdedup : dedup members = members := by
    rw [hmembers]
    exact dedup_dedup _
  rw [canonicalUnion, hflat, hnotAny, hnever]
  simp only [Bool.false_eq_true, if_false, ite_self, hsorted, hdedup]
  cases members with
  | nil => cases hlength
  | cons first rest =>
      cases rest with
      | nil => cases Nat.le_of_succ_le_succ hlength
      | cons second rest => rfl

/-- All variables are free and all unions canonical. -/
def Normal (debugText : TypeDescriptor → String) (free : Nat → Prop) (d : TypeDescriptor) : Prop :=
  d.Everywhere fun d => (∀ id, d = .inference id → free id) ∧
    ∀ variants, d = .union variants → canonicalUnion debugText variants = .union variants

section Normal

variable {free : Nat → Prop} {d : TypeDescriptor}

theorem Normal.child (h : d.Normal debugText free) {child : TypeDescriptor}
    (hmem : child ∈ d.children) : child.Normal debugText free :=
  Everywhere.child h hmem

theorem normal_inference {id : Nat} (h : free id) :
    (TypeDescriptor.inference id).Normal debugText free :=
  everywhere_leaf ⟨fun _ heq => inference.inj heq ▸ h, fun _ heq => by cases heq⟩ rfl

theorem Normal.free_of_mem (h : d.Normal debugText free) {id : Nat}
    (hmem : id ∈ d.inferenceLeaves) : free id :=
  (Everywhere.variable h hmem).1 id rfl

theorem Normal.mono {free' : Nat → Prop} (h : d.Normal debugText free)
    (hfree : ∀ id ∈ d.inferenceLeaves, free' id) : d.Normal debugText free' := by
  induction h with
  | @mk d hhere hparts ih =>
      refine .mk ⟨fun id heq => hfree id ?_, hhere.2⟩ fun child hmem => ih child hmem fun id hid => ?_
      · exact mem_inferenceLeaves.mpr (.inl heq)
      · exact hfree id (mem_inferenceLeaves.mpr (.inr ⟨child, hmem, hid⟩))

/-- A descriptor that is neither a variable nor a union is normal when its parts are. -/
theorem normal_of_parts (hinference : ∀ id, d ≠ .inference id)
    (hunion : ∀ variants, d ≠ .union variants)
    (h : ∀ child ∈ d.children, child.Normal debugText free) : d.Normal debugText free :=
  .mk ⟨fun id heq => absurd heq (hinference id), fun variants heq => absurd heq (hunion variants)⟩ h

theorem normal_canonicalUnion {ds : List TypeDescriptor}
    (h : ∀ d ∈ ds, d.Normal debugText free) :
    (canonicalUnion debugText ds).Normal debugText free := by
  have hflat : ∀ d ∈ flattenItems ds, d.Normal debugText free := fun d hmem => by
    obtain ⟨source, hsource, hmem⟩ := mem_flattenItems.mp hmem
    exact Everywhere.flatten (h source hsource) d hmem
  rcases canonicalUnion_cases debugText ds with heq | heq | ⟨d, hmem, heq⟩ | ⟨members, hmem, heq⟩
  · rw [heq]
    exact normal_of_parts (by simp) (by simp) fun _ hmem => absurd hmem List.not_mem_nil
  · rw [heq]
    exact normal_of_parts (by simp) (by simp) fun _ hmem => absurd hmem List.not_mem_nil
  · exact heq ▸ hflat d hmem
  · rw [heq]
    refine .mk ⟨fun id h => (by cases h), fun variants hvariants => ?_⟩ fun d hd =>
      hflat d (hmem d hd)
    obtain rfl := union.inj hvariants
    exact canonicalUnion_union heq

/-- A substitution by normal descriptors gives a normal descriptor. -/
theorem normal_substitute {valuation : Nat → TypeDescriptor}
    (h : ∀ id ∈ d.inferenceLeaves, (valuation id).Normal debugText free) :
    (d.substitute debugText valuation).Normal debugText free := by
  induction d using parts_induction with
  | step d ih =>
      have hpart : ∀ child ∈ d.children.map (substitute debugText valuation),
          child.Normal debugText free := by
        intro child hmem
        obtain ⟨source, hsource, rfl⟩ := List.mem_map.mp hmem
        exact ih source hsource fun id hid => h id (mem_inferenceLeaves.mpr (.inr ⟨_, hsource, hid⟩))
      cases d with
      | inference id => exact h id (List.mem_singleton_self id)
      | bound id =>
          exact normal_of_parts (by simp [substitute, rebuild]) (by simp [substitute, rebuild])
            fun _ hmem => absurd hmem List.not_mem_nil
      | union variants =>
          rw [substitute, rebuild, rebuildItems_eq]
          exact normal_canonicalUnion hpart
      | _ =>
          rw [substitute, rebuild_eq_mapParts (by simp) (by simp) (by simp)]
          refine normal_of_parts (by simp [mapParts]) (by simp [mapParts]) ?_
          rw [children_mapParts]
          exact hpart

/-- A normal descriptor whose variables stand for themselves is its own substitution. -/
theorem Normal.substitute_eq (h : d.Normal debugText free) {valuation : Nat → TypeDescriptor}
    (hvaluation : ∀ id ∈ d.inferenceLeaves, valuation id = .inference id) :
    d.substitute debugText valuation = d := by
  induction h with
  | @mk d hhere hparts ih =>
      have hpart : ∀ child ∈ d.children,
          rebuild .bound valuation (canonicalUnion debugText) child = id child := fun child hchild =>
        ih child hchild fun id hid =>
          hvaluation id (mem_inferenceLeaves.mpr (.inr ⟨child, hchild, hid⟩))
      cases d with
      | inference id => exact hvaluation id (List.mem_singleton_self id)
      | bound id => rfl
      | union variants =>
          have hvariants : variants.map (rebuild .bound valuation (canonicalUnion debugText)) =
              variants := (List.map_congr_left hpart).trans (List.map_id variants)
          rw [substitute, rebuild, rebuildItems_eq, hvariants]
          exact hhere.2 variants rfl
      | _ =>
          rw [substitute, rebuild_eq_mapParts (by simp) (by simp) (by simp), mapParts_congr hpart,
            mapParts_id]

end Normal

section Kept

variable {bound inference bound' inference' : Nat → TypeDescriptor} {d : TypeDescriptor}

/-- With unions kept, whatever is no leaf is rebuilt part by part. -/
theorem rebuild_union_eq_mapParts (hbound : ∀ id, d ≠ .bound id)
    (hinference : ∀ id, d ≠ .inference id) :
    d.rebuild bound inference .union = d.mapParts (rebuild bound inference .union) := by
  cases d with
  | union variants => simp [rebuild, mapParts]
  | _ => exact rebuild_eq_mapParts hbound hinference (by simp)

theorem rebuild_congr (hbound : ∀ id ∈ d.boundLeaves, bound id = bound' id)
    (hinference : ∀ id ∈ d.inferenceLeaves, inference id = inference' id) :
    d.rebuild bound inference .union = d.rebuild bound' inference' .union := by
  induction d using parts_induction with
  | step d ih =>
      have hpart : ∀ child ∈ d.children, child.rebuild bound inference .union =
          child.rebuild bound' inference' .union := fun child hchild =>
        ih child hchild (fun id hid => hbound id (mem_boundLeaves.mpr (.inr ⟨child, hchild, hid⟩)))
          fun id hid => hinference id (mem_inferenceLeaves.mpr (.inr ⟨child, hchild, hid⟩))
      cases d with
      | bound id => exact hbound id (List.mem_singleton_self id)
      | inference id => exact hinference id (List.mem_singleton_self id)
      | _ =>
          rw [rebuild_union_eq_mapParts (by simp) (by simp),
            rebuild_union_eq_mapParts (by simp) (by simp), mapParts_congr hpart]

theorem rebuild_rebuild :
    (d.rebuild bound inference .union).rebuild bound' inference' .union =
      d.rebuild (fun id => (bound id).rebuild bound' inference' .union)
        (fun id => (inference id).rebuild bound' inference' .union) .union := by
  induction d using parts_induction with
  | step d ih =>
      cases d with
      | bound | inference => rfl
      | _ =>
          refine (congrArg (rebuild bound' inference' union)
            (rebuild_union_eq_mapParts (by simp) (by simp))).trans ?_
          rw [rebuild_union_eq_mapParts (by simp [mapParts]) (by simp [mapParts]), mapParts_mapParts]
          refine (mapParts_congr ih).trans ?_
          exact (rebuild_union_eq_mapParts (by simp) (by simp)).symm

end Kept

end Telora.TypeDescriptor
