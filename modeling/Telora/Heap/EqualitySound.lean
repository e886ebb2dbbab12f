import Telora.Heap.EqualityRun
import Telora.Library.Reachability
import Mathlib.Data.List.ProdSigma
import Mathlib.Data.List.Zip

/-!
# What a comparison decides

A comparison that answers true has built a relation that agrees at every depth up
to shared containers, and it answers true whenever such a relation exists. It
always ends: each descent enters a pair of handles that was not visited before.
-/

namespace Telora.HeapView

open Library

variable {view : HeapView}

section Kinds

/-- A handle is held by kinded containers of one kind only. -/
theorem container_unique (hinit : view.Initialized) {value value' : RuntimeValue} {handle : Handle}
    (h : view.ValueKinded value) (h' : view.ValueKinded value')
    (hc : value.container = some handle) (hc' : value'.container = some handle) :
    value = value' := by
  have hkind : ∀ {kind kind'}, view.HasKind handle kind → view.HasKind handle kind' →
      kind = kind' := by
    intro kind kind' hk hk'
    obtain ⟨object, hobject, hkind⟩ := hk.object hinit
    obtain ⟨object', hobject', hkind'⟩ := hk'.object hinit
    rw [hobject] at hobject'
    obtain rfl := Except.ok.inj hobject'
    exact Option.some.inj (hkind.symm.trans hkind')
  cases value <;> cases hc <;> cases value' <;> cases hc' <;>
    first
      | rfl
      | cases hkind h h'

theorem sameKind_of_node {left right : RuntimeValue} {label : Label}
    {lefts rights : List RuntimeValue} (hleft : view.node left = some (label, lefts))
    (hright : view.node right = some (label, rights)) : SameKind left right := by
  have hlabel : ∀ {value : RuntimeValue} {components}, view.node value = some (label, components) →
      match label with
      | .array => ∃ h, value = .array h
      | .tuple => ∃ h, value = .tuple h
      | .tagged => ∃ h, value = .tagged h
      | .dict _ => ∃ h, value = .dict h := by
    intro value components h
    cases value with
    | array handle =>
        simp only [node] at h
        split at h
        · cases h; exact ⟨handle, rfl⟩
        · cases h
    | tuple handle =>
        simp only [node] at h
        split at h
        · cases h; exact ⟨handle, rfl⟩
        · cases h
    | tagged handle =>
        simp only [node] at h
        split at h
        · cases h; exact ⟨handle, rfl⟩
        · cases h
    | dict handle =>
        simp only [node] at h
        split at h
        · obtain ⟨names, -, hpair⟩ := Option.map_eq_some_iff.mp h
          cases hpair; exact ⟨handle, rfl⟩
        · cases h
    | _ => cases h
  have hl := hlabel hleft
  have hr := hlabel hright
  cases label with
  | array => obtain ⟨_, rfl⟩ := hl; obtain ⟨_, rfl⟩ := hr; exact .array
  | tuple => obtain ⟨_, rfl⟩ := hl; obtain ⟨_, rfl⟩ := hr; exact .tuple
  | tagged => obtain ⟨_, rfl⟩ := hl; obtain ⟨_, rfl⟩ := hr; exact .tagged
  | dict fields => obtain ⟨_, rfl⟩ := hl; obtain ⟨_, rfl⟩ := hr; exact .dict

theorem SameKind.self {value : RuntimeValue} (h : value.container.isSome) :
    SameKind value value := by
  cases value <;> first | constructor | cases h

theorem not_upLink_of_leaf {value : RuntimeValue} {a : Leaf} (h : view.leaf value = some a)
    (handle : Handle) : value ≠ .upLink handle := by
  rintro rfl
  cases h

theorem leavesEqual_upLink {left right : RuntimeValue}
    (h : (∃ handle, left = .upLink handle) ∨ ∃ handle, right = .upLink handle) :
    view.leavesEqual left right = .error ⟨"up-link escaped into equality"⟩ := by
  rcases h with ⟨handle, rfl⟩ | ⟨handle, rfl⟩
  · cases right <;> rfl
  · cases left <;> rfl

end Kinds

section Sound

/-- Values met by a comparison: equal leaves, or containers of one kind that are
identical or whose pair was visited. -/
def Met (view : HeapView) (visited : List (Handle × Handle)) (left right : RuntimeValue) : Prop :=
  (∃ a b, view.leaf left = some a ∧ view.leaf right = some b ∧ a.eq b = true) ∨
    SameKind left right ∧ ∃ leftHandle rightHandle, left.container = some leftHandle ∧
      right.container = some rightHandle ∧
      (leftHandle = rightHandle ∨ (leftHandle, rightHandle) ∈ visited)

/-- A visited pair whose components have all been met. -/
def Descended (view : HeapView) (visited : List (Handle × Handle)) (pair : Handle × Handle) : Prop :=
  ∀ left right, view.ValueKinded left → view.ValueKinded right → SameKind left right →
    left.container = some pair.1 → right.container = some pair.2 →
    ∃ label lefts rights, view.node left = some (label, lefts) ∧
      view.node right = some (label, rights) ∧ List.Forall₂ (view.Met visited) lefts rights

/-- The visited pairs grow, and the new ones have been descended. -/
def Grew (view : HeapView) (visited visited' : List (Handle × Handle)) : Prop :=
  visited ⊆ visited' ∧ ∀ pair ∈ visited', pair ∈ visited ∨ view.Descended visited' pair

theorem Met.mono {visited visited' : List (Handle × Handle)} (h : visited ⊆ visited')
    {left right : RuntimeValue} (hmet : view.Met visited left right) :
    view.Met visited' left right := by
  rcases hmet with hleaf | ⟨hkind, leftHandle, rightHandle, hl, hr, hpair⟩
  · exact .inl hleaf
  · exact .inr ⟨hkind, leftHandle, rightHandle, hl, hr, hpair.imp id fun hmem => h hmem⟩

theorem Descended.mono {visited visited' : List (Handle × Handle)} (h : visited ⊆ visited')
    {pair : Handle × Handle} (hdescended : view.Descended visited pair) :
    view.Descended visited' pair := by
  intro left right hleft hright hkind hl hr
  obtain ⟨label, lefts, rights, hnode, hnode', hmet⟩ :=
    hdescended left right hleft hright hkind hl hr
  exact ⟨label, lefts, rights, hnode, hnode', hmet.imp fun _ _ => Met.mono h⟩

theorem Grew.refl (visited : List (Handle × Handle)) : view.Grew visited visited :=
  ⟨fun _ h => h, fun _ h => .inl h⟩

theorem Grew.trans {a b c : List (Handle × Handle)} (hab : view.Grew a b) (hbc : view.Grew b c) :
    view.Grew a c := by
  refine ⟨fun _ h => hbc.1 (hab.1 h), fun pair hpair => ?_⟩
  rcases hbc.2 pair hpair with hmem | hdescended
  · exact (hab.2 pair hmem).imp id (Descended.mono hbc.1)
  · exact .inr hdescended

/-- A comparison that answers true has met both sides in the pairs it visited. -/
def MeetsAll (view : HeapView) (compare : RuntimeValue → RuntimeValue → Compare Bool) : Prop :=
  ∀ left right visited, view.ValueKinded left → view.ValueKinded right →
    Runs (compare left right) visited
      (fun answer visited' => answer = true →
        view.Grew visited visited' ∧ view.Met visited' left right) fun _ => True

theorem pairsEqual_met {compare : RuntimeValue → RuntimeValue → Compare Bool}
    (hcompare : view.MeetsAll compare) {lefts rights : List RuntimeValue}
    (hlength : lefts.length = rights.length)
    (hlefts : ∀ value ∈ lefts, view.ValueKinded value)
    (hrights : ∀ value ∈ rights, view.ValueKinded value)
    (visited : List (Handle × Handle)) :
    Runs (pairsEqual compare (lefts.zip rights)) visited
      (fun answer visited' => answer = true → view.Grew visited visited' ∧
        List.Forall₂ (view.Met visited') lefts rights)
      fun _ => True := by
  induction lefts generalizing rights visited with
  | nil =>
      cases rights with
      | nil => exact .pure fun _ => ⟨.refl visited, .nil⟩
      | cons right rights => cases hlength
  | cons left lefts ih =>
      cases rights with
      | nil => cases hlength
      | cons right rights =>
          refine .bind ((hcompare left right visited
            (hlefts _ List.mem_cons_self) (hrights _ List.mem_cons_self)).imp ?_ fun _ h => h)
          intro answer visited₁ hmet
          cases answer with
          | false => exact .pure fun h => by cases h
          | true =>
              obtain ⟨hgrew, hhead⟩ := hmet rfl
              refine (ih (Nat.succ.inj hlength) (fun v hv => hlefts v (List.mem_cons_of_mem _ hv))
                (fun v hv => hrights v (List.mem_cons_of_mem _ hv)) visited₁).imp ?_ fun _ h => h
              intro answer visited₂ hrest htrue
              obtain ⟨hgrew', htail⟩ := hrest htrue
              exact ⟨hgrew.trans hgrew', .cons (hhead.mono hgrew'.1) htail⟩

theorem valuesEqualWith_met (hkinded : view.WellKinded) (hinit : view.Initialized) (fuel : Nat) :
    view.MeetsAll (valuesEqualWith view fuel) := by
  induction fuel with
  | zero => exact fun _ _ _ _ _ => .throw trivial
  | succ fuel ih =>
      intro left right visited hleft hright
      by_cases hkind : SameKind left right
      · obtain ⟨leftHandle, rightHandle, label, label', lefts, rights, hl, hr, hnode, hnode', heq⟩ :=
          valuesEqualWith_containers hkinded hinit hleft hright hkind
        rw [heq, enterPair]
        split
        · rename_i hsame
          exact .pure fun _ => ⟨.refl visited, .inr ⟨hkind, _, _, hl, hr, .inl hsame⟩⟩
        · refine .bind (.get ?_)
          split
          · rename_i hmem
            exact .pure fun _ => ⟨.refl visited, .inr ⟨hkind, _, _, hl, hr, .inr hmem⟩⟩
          · refine .bind (.update (f := fun _ => (leftHandle, rightHandle) :: visited) ?_)
            split
            · rename_i hagree
              obtain ⟨rfl, hlength⟩ := hagree
              refine (pairsEqual_met ih hlength (hkinded.components hnode)
                (hkinded.components hnode') _).imp ?_ fun _ h => h
              intro answer visited' hmet htrue
              obtain ⟨⟨hsub, hdescended⟩, hcomponents⟩ := hmet htrue
              have hpair : (leftHandle, rightHandle) ∈ visited' := hsub List.mem_cons_self
              refine ⟨⟨fun _ h => hsub (List.mem_cons_of_mem _ h), fun pair hmem => ?_⟩,
                .inr ⟨hkind, _, _, hl, hr, .inr hpair⟩⟩
              rcases hdescended pair hmem with hold | hnew
              · rcases List.mem_cons.mp hold with rfl | hold
                · -- the pair that was entered here: its components have just been met
                  refine .inr fun left' right' hleft' hright' _ hl' hr' => ?_
                  rw [container_unique hinit hleft' hleft hl' hl,
                    container_unique hinit hright' hright hr' hr]
                  exact ⟨label, _, _, hnode, hnode', hcomponents⟩
                · exact .inl hold
              · exact .inr hnew
            · exact .pure fun h => by cases h
      · rw [valuesEqualWith_leaves hkind]
        refine .lift (fun answer hanswer htrue => ⟨.refl visited, .inl ?_⟩) fun _ _ => trivial
        subst htrue
        have hnotLink : ∀ {value : RuntimeValue}, value = left ∨ value = right →
            ∀ handle, value ≠ .upLink handle := by
          rintro value hvalue handle rfl
          rw [leavesEqual_upLink (hvalue.imp (fun h => ⟨handle, h.symm⟩) fun h => ⟨handle, h.symm⟩)]
            at hanswer
          cases hanswer
        rw [leavesEqual_eq hinit hleft hright (hnotLink (.inl rfl)) (hnotLink (.inr rfl))] at hanswer
        have hleaf := Except.ok.inj hanswer
        cases ha : view.leaf left with
        | none => rw [ha] at hleaf; cases hleaf
        | some a =>
            cases hb : view.leaf right with
            | none => rw [ha, hb] at hleaf; cases hleaf
            | some b =>
                rw [ha, hb] at hleaf
                exact ⟨a, b, rfl, rfl, hleaf⟩

/-- A true answer is an agreement up to shared containers. -/
theorem sharedEqual_of_run (hkinded : view.WellKinded) (hinit : view.Initialized) {fuel : Nat}
    {left right : RuntimeValue} (hleft : view.ValueKinded left) (hright : view.ValueKinded right)
    {visited : List (Handle × Handle)}
    (hrun : (valuesEqualWith view fuel left right).run [] = .ok (true, visited)) :
    view.SharedEqual left right := by
  obtain ⟨⟨-, hdescended⟩, hmet⟩ :=
    (valuesEqualWith_met hkinded hinit fuel left right [] hleft hright).of_ok hrun rfl
  refine .of_agree (fun a b => view.ValueKinded a ∧ view.ValueKinded b ∧
    view.Met visited a b) ?_ ⟨hleft, hright, hmet⟩
  rintro a b ⟨ha, hb, hleaf | ⟨hkind, aHandle, bHandle, hca, hcb, hsame | hmem⟩⟩
  · exact .inr (.inl hleaf)
  · subst hsame
    exact .inl ⟨container_unique hinit ha hb hca hcb, by rw [hca]; rfl⟩
  · obtain ⟨label, as, bs, hnode, hnode', hcomponents⟩ :=
      ((hdescended _ hmem).resolve_left List.not_mem_nil) a b ha hb hkind hca hcb
    refine .inr (.inr ⟨label, as, bs, hnode, hnode', ?_⟩)
    exact List.forall₂_iff_get.mpr ⟨hcomponents.length_eq, fun i hi hi' =>
      ⟨hkinded.components hnode _ (List.get_mem _ _), hkinded.components hnode' _ (List.get_mem _ _),
        hcomponents.get hi hi'⟩⟩

end Sound

section Complete

/-- The two ways a comparison fails: it met an up-link, or its fuel ran out. -/
def upLinkEscaped : HeapError := ⟨"up-link escaped into equality"⟩

def outOfFuel : HeapError := ⟨"comparison is out of fuel"⟩

/-- A comparison finds everything equal that agrees up to shared containers. -/
def FindsEqual (view : HeapView) (compare : RuntimeValue → RuntimeValue → Compare Bool) : Prop :=
  ∀ left right visited, view.ValueKinded left → view.ValueKinded right →
    view.SharedEqual left right →
    Runs (compare left right) visited (fun answer _ => answer = true) fun e => e = outOfFuel

theorem pairsEqual_true {compare : RuntimeValue → RuntimeValue → Compare Bool}
    (hcompare : view.FindsEqual compare) {lefts rights : List RuntimeValue}
    (hequal : List.Forall₂ view.SharedEqual lefts rights)
    (hlefts : ∀ value ∈ lefts, view.ValueKinded value)
    (hrights : ∀ value ∈ rights, view.ValueKinded value)
    (visited : List (Handle × Handle)) :
    Runs (pairsEqual compare (lefts.zip rights)) visited (fun answer _ => answer = true)
      fun e => e = outOfFuel := by
  induction lefts generalizing rights visited with
  | nil => exact .pure rfl
  | cons left lefts ih =>
      cases rights with
      | nil => cases hequal
      | cons right rights =>
          obtain ⟨hhead, htail⟩ := List.forall₂_cons.mp hequal
          refine .bind ((hcompare left right visited (hlefts _ List.mem_cons_self)
            (hrights _ List.mem_cons_self) hhead).imp ?_ fun _ h => h)
          rintro _ visited₁ rfl
          exact ih htail (fun v hv => hlefts v (List.mem_cons_of_mem _ hv))
            (fun v hv => hrights v (List.mem_cons_of_mem _ hv)) visited₁

theorem valuesEqualWith_true (hkinded : view.WellKinded) (hinit : view.Initialized) (fuel : Nat) :
    view.FindsEqual (valuesEqualWith view fuel) := by
  induction fuel with
  | zero => exact fun _ _ _ _ _ _ => .throw rfl
  | succ fuel ih =>
      intro left right visited hleft hright hequal
      by_cases hkind : SameKind left right
      · obtain ⟨leftHandle, rightHandle, label, label', lefts, rights, hl, hr, hnode, hnode', heq⟩ :=
          valuesEqualWith_containers hkinded hinit hleft hright hkind
        rw [heq, enterPair]
        split
        · exact .pure rfl
        · rename_i hdifferent
          refine .bind (.get ?_)
          split
          · exact .pure rfl
          · refine .bind (.update (f := fun _ => (leftHandle, rightHandle) :: visited) ?_)
            rcases hequal.agree with ⟨rfl, -⟩ | hagree
            · exact absurd (Option.some.inj (hl.symm.trans hr)) hdifferent
            · obtain ⟨components, hcomponents, hrel⟩ := hagree.node_left hnode
              rw [hnode'] at hcomponents
              obtain ⟨rfl, rfl⟩ := Prod.mk.inj (Option.some.inj hcomponents)
              have hlength : lefts.length = rights.length := by
                simpa using hrel.length_eq
              rw [if_pos ⟨rfl, hlength⟩]
              exact pairsEqual_true ih hrel (hkinded.components hnode)
                (hkinded.components hnode') _
      · rw [valuesEqualWith_leaves hkind]
        rcases hequal.agree with ⟨rfl, hcontainer⟩ | ⟨a, b, ha, hb, hab⟩ |
          ⟨label, lefts, rights, hnode, hnode', -⟩
        · exact absurd (SameKind.self hcontainer) hkind
        · rw [leavesEqual_eq hinit hleft hright (not_upLink_of_leaf ha) (not_upLink_of_leaf hb),
            ha, hb]
          exact .lift (fun answer hanswer => (Except.ok.inj hanswer).symm.trans hab)
            fun _ h => nomatch h
        · exact absurd (sameKind_of_node hnode hnode') hkind

end Complete

section Total

theorem container_mem_handles (hinit : view.Initialized) {value : RuntimeValue} {handle : Handle}
    (h : view.ValueKinded value) (hc : value.container = some handle) : handle ∈ view.handles := by
  cases value <;> cases hc <;>
    (obtain ⟨_, hobject, -⟩ := HasKind.object hinit h
     exact mem_handles hobject)

/-- An up-link lies at or below the value. -/
def HoldsUpLink (view : HeapView) (value : RuntimeValue) : Prop :=
  ∃ handle, Relation.ReflTransGen view.Child value (.upLink handle)

theorem HoldsUpLink.of_child {value component : RuntimeValue} (hchild : view.Child value component)
    (h : view.HoldsUpLink component) : view.HoldsUpLink value := by
  obtain ⟨handle, hpath⟩ := h
  exact ⟨handle, .head hchild hpath⟩

/-- Visited pairs of resolvable handles that leave fuel for the others. -/
def VisitedWithin (view : HeapView) (fuel : Nat) (visited : List (Handle × Handle)) : Prop :=
  Within fuel (view.handles ×ˢ view.handles) visited

/-- A comparison that never runs out of fuel, and fails on up-links only. -/
def Ends (view : HeapView) (fuel : Nat)
    (compare : RuntimeValue → RuntimeValue → Compare Bool) : Prop :=
  ∀ left right visited, view.ValueKinded left → view.ValueKinded right →
    view.VisitedWithin fuel visited →
    Runs (compare left right) visited
      (fun _ visited' => view.VisitedWithin fuel visited' ∧ visited.length ≤ visited'.length)
      fun e => e = upLinkEscaped ∧ (view.HoldsUpLink left ∨ view.HoldsUpLink right)

theorem pairsEqual_ends {fuel : Nat} {compare : RuntimeValue → RuntimeValue → Compare Bool}
    (hcompare : view.Ends fuel compare) {pairs : List (RuntimeValue × RuntimeValue)}
    (hpairs : ∀ pair ∈ pairs, view.ValueKinded pair.1 ∧ view.ValueKinded pair.2)
    {visited : List (Handle × Handle)} (hwithin : view.VisitedWithin fuel visited) :
    Runs (pairsEqual compare pairs) visited
      (fun _ visited' => view.VisitedWithin fuel visited' ∧ visited.length ≤ visited'.length)
      fun e => e = upLinkEscaped ∧
        ∃ pair ∈ pairs, view.HoldsUpLink pair.1 ∨ view.HoldsUpLink pair.2 := by
  induction pairs generalizing visited with
  | nil => exact .pure ⟨hwithin, le_refl _⟩
  | cons pair rest ih =>
      obtain ⟨left, right⟩ := pair
      obtain ⟨hleft, hright⟩ := hpairs _ List.mem_cons_self
      refine .bind ((hcompare left right visited hleft hright hwithin).imp ?_ ?_)
      · rintro answer visited₁ ⟨hwithin₁, hle₁⟩
        cases answer with
        | false => exact .pure ⟨hwithin₁, hle₁⟩
        | true =>
            refine (ih (fun p hp => hpairs p (List.mem_cons_of_mem _ hp)) hwithin₁).imp ?_ ?_
            · exact fun _ _ h => ⟨h.1, hle₁.trans h.2⟩
            · rintro e ⟨he, p, hp, hlink⟩
              exact ⟨he, p, List.mem_cons_of_mem _ hp, hlink⟩
      · exact fun e he => ⟨he.1, _, List.mem_cons_self, he.2⟩

theorem valuesEqualWith_ends (hkinded : view.WellKinded) (hinit : view.Initialized) (fuel : Nat) :
    view.Ends fuel (valuesEqualWith view fuel) := by
  induction fuel with
  | zero =>
      intro left right visited _ _ hwithin
      exact absurd hwithin.fuel_pos (Nat.lt_irrefl 0)
  | succ fuel ih =>
      intro left right visited hleft hright hwithin
      by_cases hkind : SameKind left right
      · obtain ⟨leftHandle, rightHandle, label, label', lefts, rights, hl, hr, hnode, hnode', heq⟩ :=
          valuesEqualWith_containers hkinded hinit hleft hright hkind
        rw [heq, enterPair]
        split
        · exact .pure ⟨hwithin, le_refl _⟩
        · refine .bind (.get ?_)
          split
          · exact .pure ⟨hwithin, le_refl _⟩
          · rename_i hnew
            refine .bind (.update (f := fun _ => (leftHandle, rightHandle) :: visited) ?_)
            have hentered := hwithin.enter hnew (List.mem_product.mpr
              ⟨container_mem_handles hinit hleft hl, container_mem_handles hinit hright hr⟩)
            split
            · have hmem : ∀ pair ∈ lefts.zip rights,
                  pair.1 ∈ lefts ∧ pair.2 ∈ rights :=
                fun pair hpair => List.of_mem_zip hpair
              refine (pairsEqual_ends ih (fun pair hpair =>
                ⟨hkinded.components hnode _ (hmem pair hpair).1,
                  hkinded.components hnode' _ (hmem pair hpair).2⟩) hentered).imp ?_ ?_
              · rintro _ visited' ⟨hwithin', hle⟩
                exact ⟨hwithin'.leave, (Nat.le_succ _).trans hle⟩
              · rintro e ⟨he, pair, hpair, hlink⟩
                obtain ⟨hmemLeft, hmemRight⟩ := hmem pair hpair
                exact ⟨he, hlink.imp (HoldsUpLink.of_child ⟨label, _, hnode, hmemLeft⟩)
                  (HoldsUpLink.of_child ⟨label', _, hnode', hmemRight⟩)⟩
            · exact .pure ⟨hentered.leave, Nat.le_succ _⟩
      · rw [valuesEqualWith_leaves hkind]
        refine .lift (fun _ _ => ⟨hwithin, le_refl _⟩) fun e he => ?_
        by_cases hlinks : (∃ handle, left = .upLink handle) ∨ ∃ handle, right = .upLink handle
        · rw [leavesEqual_upLink hlinks] at he
          refine ⟨(Except.error.inj he).symm, hlinks.imp ?_ ?_⟩
          · rintro ⟨handle, rfl⟩
            exact ⟨handle, .refl⟩
          · rintro ⟨handle, rfl⟩
            exact ⟨handle, .refl⟩
        · rw [not_or, not_exists, not_exists] at hlinks
          rw [leavesEqual_eq hinit hleft hright hlinks.1 hlinks.2] at he
          cases he

end Total

section Symmetric

/-- The opaque values of the view agree on their equality. -/
def OpaqueSymmetric (view : HeapView) : Prop :=
  ∀ handle handle' value value', view.object handle = .ok (.opaqueValue value) →
    view.object handle' = .ok (.opaqueValue value') → value.logicalEq value' = value'.logicalEq value

theorem object_of_leaf_opaque {value : RuntimeValue} {o : OpaqueValue}
    (h : view.leaf value = some (.opaqueValue o)) :
    ∃ handle, view.object handle = .ok (.opaqueValue o) := by
  cases value with
  | opaqueValue handle =>
      simp only [leaf] at h
      split at h
      · rename_i hobject
        cases h
        exact ⟨handle, hobject⟩
      · cases h
  | atom => simp [leaf] at h
  | shortString => simp [leaf] at h
  | _ =>
      simp only [leaf] at h
      first | cases h | (split at h <;> cases h)

theorem leafAnswer_comm (hsymmetric : view.OpaqueSymmetric) (left right : RuntimeValue) :
    leafAnswer (view.leaf left) (view.leaf right) =
      leafAnswer (view.leaf right) (view.leaf left) := by
  cases ha : view.leaf left with
  | none => cases view.leaf right <;> rfl
  | some a =>
      cases hb : view.leaf right with
      | none => rfl
      | some b =>
          cases a <;> cases b <;> first
            | rfl
            | exact BEq.comm
            | exact F64.eq_comm _ _
            | (obtain ⟨_, hleft⟩ := object_of_leaf_opaque ha
               obtain ⟨_, hright⟩ := object_of_leaf_opaque hb
               exact hsymmetric _ _ _ _ hleft hright)

/-- Two comparisons that answer alike on visited pairs that are swapped. -/
def Mirrored (x y : Compare Bool) : Prop :=
  ∀ visited, y.run (visited.map Prod.swap) =
    (x.run visited).map fun result => (result.1, result.2.map Prod.swap)

theorem Mirrored.bind {x y : Compare Bool} {f g : Bool → Compare Bool} (h : Mirrored x y)
    (hfg : ∀ b, Mirrored (f b) (g b)) : Mirrored (x >>= f) (y >>= g) := by
  intro visited
  rw [StateT.run_bind, StateT.run_bind, h visited]
  cases x.run visited with
  | error e => rfl
  | ok result => exact hfg result.1 result.2

theorem pairsEqual_mirrored {compare : RuntimeValue → RuntimeValue → Compare Bool}
    {pairs : List (RuntimeValue × RuntimeValue)}
    (h : ∀ pair ∈ pairs, Mirrored (compare pair.1 pair.2) (compare pair.2 pair.1)) :
    Mirrored (pairsEqual compare pairs) (pairsEqual compare (pairs.map Prod.swap)) := by
  induction pairs with
  | nil => exact fun _ => rfl
  | cons pair rest ih =>
      refine (h pair List.mem_cons_self).bind fun answer => ?_
      cases answer with
      | false => exact fun _ => rfl
      | true => exact ih fun p hp => h p (List.mem_cons_of_mem _ hp)

theorem enterPair_mirrored {left right : Handle} {x y : Compare Bool} (h : Mirrored x y) :
    Mirrored (enterPair left right x) (enterPair right left y) := by
  intro visited
  unfold enterPair
  by_cases heq : left = right
  · rw [if_pos heq, if_pos heq.symm]
    rfl
  · rw [if_neg heq, if_neg fun h => heq h.symm]
    have hmem : (right, left) ∈ visited.map Prod.swap ↔ (left, right) ∈ visited := by
      constructor
      · intro hmem
        obtain ⟨pair, hpair, hswap⟩ := List.mem_map.mp hmem
        rwa [← Prod.swap_swap pair, hswap] at hpair
      · exact fun hmem => List.mem_map.mpr ⟨(left, right), hmem, rfl⟩
    change StateT.run (if (right, left) ∈ visited.map Prod.swap then _ else _) _ =
      Except.map _ (StateT.run (if (left, right) ∈ visited then _ else _) _)
    by_cases hvisited : (left, right) ∈ visited
    · rw [if_pos hvisited, if_pos (hmem.mpr hvisited)]
      rfl
    · rw [if_neg hvisited, if_neg fun h => hvisited (hmem.mp h)]
      exact h ((left, right) :: visited)

theorem valuesEqualWith_mirrored (hkinded : view.WellKinded) (hinit : view.Initialized)
    (hsymmetric : view.OpaqueSymmetric) (fuel : Nat) {left right : RuntimeValue}
    (hleft : view.ValueKinded left) (hright : view.ValueKinded right) :
    Mirrored (valuesEqualWith view fuel left right) (valuesEqualWith view fuel right left) := by
  induction fuel generalizing left right with
  | zero => exact fun _ => rfl
  | succ fuel ih =>
      by_cases hkind : SameKind left right
      · have hkind' : SameKind right left := by cases hkind <;> constructor
        obtain ⟨leftHandle, rightHandle, label, label', lefts, rights, hl, hr, hnode, hnode', heq⟩ :=
          valuesEqualWith_containers hkinded hinit hleft hright hkind
        obtain ⟨_, _, _, _, _, _, hl', hr', hother, hother', heq'⟩ :=
          valuesEqualWith_containers hkinded hinit hright hleft hkind'
        obtain rfl := Option.some.inj (hl.symm.trans hr')
        obtain rfl := Option.some.inj (hr.symm.trans hl')
        obtain ⟨rfl, rfl⟩ := Prod.mk.inj (Option.some.inj (hnode.symm.trans hother'))
        obtain ⟨rfl, rfl⟩ := Prod.mk.inj (Option.some.inj (hnode'.symm.trans hother))
        rw [heq, heq']
        refine enterPair_mirrored ?_
        by_cases hagree : label = label' ∧ lefts.length = rights.length
        · rw [if_pos hagree, if_pos ⟨hagree.1.symm, hagree.2.symm⟩, ← List.zip_swap lefts rights]
          refine pairsEqual_mirrored fun pair hpair => ?_
          obtain ⟨hmem, hmem'⟩ := List.of_mem_zip hpair
          exact ih (hkinded.components hnode _ hmem) (hkinded.components hnode' _ hmem')
        · rw [if_neg hagree, if_neg fun h => hagree ⟨h.1.symm, h.2.symm⟩]
          exact fun _ => rfl
      · have hkind' : ¬SameKind right left := fun h => hkind (by cases h <;> constructor)
        have hleaves : view.leavesEqual left right = view.leavesEqual right left := by
          by_cases hlinks : (∃ handle, left = .upLink handle) ∨ ∃ handle, right = .upLink handle
          · rw [leavesEqual_upLink hlinks, leavesEqual_upLink hlinks.symm]
          · rw [not_or, not_exists, not_exists] at hlinks
            rw [leavesEqual_eq hinit hleft hright hlinks.1 hlinks.2,
              leavesEqual_eq hinit hright hleft hlinks.2 hlinks.1, leafAnswer_comm hsymmetric]
        rw [valuesEqualWith_leaves hkind, valuesEqualWith_leaves hkind', hleaves]
        intro visited
        cases view.leavesEqual right left <;> rfl

end Symmetric

end Telora.HeapView
