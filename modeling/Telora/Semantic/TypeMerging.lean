import Mathlib.Data.List.Perm.Subperm
import Telora.Semantic.Workspace

/-!
# Copies of type graphs

Copying a graph gives its nodes new numbers in the order in which the copy meets them, from the
end of what is there already. A node has its number before the nodes it refers to are copied, so a
cycle ends at a number that is known; each finished copy is its node with the new numbers.
-/

namespace Telora.Semantic

open Library

/-- A node with other numbers for the nodes it refers to. -/
def relabel (f : TypeId → WorkspaceTypeId) : TypeNode → WorkspaceTypeNode
  | .pending => .pending
  | .ref child => .ref (f child)
  | .bound parameter => .bound parameter
  | .any => .any
  | .never => .never
  | .type => .type
  | .dyn => .dyn
  | .typeOf described => .typeOf (f described)
  | .int => .int
  | .float => .float
  | .string => .string
  | .bytes => .bytes
  | .opaqueType nativeType => .opaqueType nativeType.qualifiedName
  | .atom atom => .atom atom.name
  | .array child => .array (f child)
  | .dict child => .dict (f child)
  | .tagged tag payload => .tagged tag.name (f payload)
  | .tuple children => .tuple (children.map f)
  | .struct fields => .struct (fields.map fun field => (field.1, f field.2))
  | .enum variants => .enum (variants.map fun variant => (variant.1, variant.2.map f))
  | .union children => .union (children.map f)
  | .function parameters result => .function (parameters.map f) (f result)

theorem relabel_congr {f g : TypeId → WorkspaceTypeId} {node : TypeNode}
    (h : ∀ child ∈ node.children, f child = g child) : relabel f node = relabel g node := by
  cases node with
  | ref child | typeOf child | array child | dict child | tagged _ child =>
      rw [relabel, relabel, h child List.mem_cons_self]
  | tuple children => exact congrArg WorkspaceTypeNode.tuple (List.map_congr_left h)
  | union children => exact congrArg WorkspaceTypeNode.union (List.map_congr_left h)
  | struct fields =>
      rw [relabel, relabel]
      congr 1
      exact List.map_congr_left fun field hfield =>
        congrArg (Prod.mk field.1) (h field.2 (List.mem_map_of_mem hfield))
  | enum variants =>
      rw [relabel, relabel]
      congr 1
      refine List.map_congr_left fun variant hvariant => congrArg (Prod.mk variant.1) ?_
      obtain ⟨name, payload⟩ := variant
      cases payload with
      | none => rfl
      | some child => exact congrArg some (h child (List.mem_filterMap.mpr ⟨_, hvariant, rfl⟩))
  | function parameters result =>
      rw [relabel, relabel, h result List.mem_cons_self,
        List.map_congr_left fun child hchild => h child (List.mem_cons_of_mem _ hchild)]
  | _ => rfl

section Copy

variable (graph : TypeGraph) (base : Nat)

/-- The number of a node by the order in which nodes were met. -/
def place (order : List TypeId) (id : TypeId) : WorkspaceTypeId := base + order.idxOf id

/-- The table and the nodes agree with the order in which nodes were met. -/
structure Copying (order : List TypeId) (state : MergeState) : Prop where
  nodup : order.Nodup
  among : ∀ id ∈ order, id < graph.nodes.length
  mapped : ∀ id < graph.nodes.length,
    state.mapped[id]? = some (if id ∈ order then some (place base order id) else none)
  length : state.nodes.length = base + order.length
  table : state.mapped.length = graph.nodes.length

/-- A later state: what was there stays, and what was met since is finished. -/
structure Copied (order later : List TypeId) (state after : MergeState) : Prop where
  copying : Copying graph base later after
  grows : order <+: later
  kept : ∀ i < state.nodes.length, after.nodes[i]? = state.nodes[i]?
  finished : ∀ i id, order.length ≤ i → later[i]? = some id → ∃ node,
    graph.nodes[id]? = some node ∧ node.children ⊆ later ∧
      after.nodes[base + i]? = some (relabel (place base later) node)

/-- A computation that meets some nodes and gives a value that depends on their numbers. -/
structure Yields {α : Type} (fuel : Nat) (children : List TypeId)
    (value : (TypeId → WorkspaceTypeId) → α) (visit : Merge α) : Prop where
  congr : ∀ f g : TypeId → WorkspaceTypeId, (∀ child ∈ children, f child = g child) →
    value f = value g
  meets : ∀ order state, Copying graph base order state →
    graph.nodes.length < fuel + order.length → ∃ later after,
      visit state = some (value (place base later), after) ∧
        Copied graph base order later state after ∧ children ⊆ later

end Copy

variable {graph : TypeGraph} {base : Nat}

theorem place_mono {order later : List TypeId} (h : order <+: later) {id : TypeId}
    (hmem : id ∈ order) : place base later id = place base order id := by
  obtain ⟨rest, rfl⟩ := h
  rw [place, place, List.idxOf_append_of_mem hmem]

theorem Copied.refl {order : List TypeId} {state : MergeState}
    (h : Copying graph base order state) : Copied graph base order order state state where
  copying := h
  grows := List.prefix_refl _
  kept _ _ := rfl
  finished i id hi hid := by
    have := (List.getElem?_eq_some_iff.mp hid).1
    omega

theorem Copied.length_le {order later : List TypeId} {state after : MergeState}
    (h : Copied graph base order later state after) : order.length ≤ later.length :=
  h.grows.length_le

theorem Copied.trans {order later last : List TypeId} {state after final : MergeState}
    (hbefore : Copying graph base order state) (h : Copied graph base order later state after)
    (h' : Copied graph base later last after final) :
    Copied graph base order last state final where
  copying := h'.copying
  grows := h.grows.trans h'.grows
  kept i hi := by
    have hlt : i < after.nodes.length := by
      have := h.length_le
      have := h.copying.length
      have := hbefore.length
      omega
    rw [h'.kept i hlt, h.kept i hi]
  finished i id hi hid := by
    by_cases hlate : later.length ≤ i
    · exact h'.finished i id hlate hid
    · have hlater : later[i]? = some id := by
        obtain ⟨rest, rfl⟩ := h'.grows
        rwa [List.getElem?_append_left (by omega)] at hid
      obtain ⟨node, hnode, hchildren, hcopy⟩ := h.finished i id hi hlater
      refine ⟨node, hnode, fun child hchild => h'.grows.subset (hchildren hchild), ?_⟩
      have hlt : base + i < after.nodes.length := by
        have := h.copying.length
        omega
      rw [h'.kept _ hlt, hcopy]
      exact congrArg some (relabel_congr fun child hchild =>
        (place_mono h'.grows (hchildren hchild)).symm)

namespace Yields

variable {α β γ : Type} {fuel : Nat}

theorem pure (a : α) : Yields graph base fuel [] (fun _ => a) (Pure.pure a) where
  congr _ _ _ := rfl
  meets order state h _ := ⟨order, state, rfl, .refl h, List.nil_subset _⟩

theorem map {children : List TypeId} {value : (TypeId → WorkspaceTypeId) → α} {visit : Merge α}
    (h : Yields graph base fuel children value visit) (f : α → β) :
    Yields graph base fuel children (fun label => f (value label)) (do return f (← visit)) where
  congr label label' hsame := congrArg f (h.congr label label' hsame)
  meets order state hcopying hfuel := by
    obtain ⟨later, after, hvisit, hcopied, hmet⟩ := h.meets order state hcopying hfuel
    refine ⟨later, after, ?_, hcopied, hmet⟩
    change (visit state).bind (fun result => some (f result.1, result.2)) = _
    rw [hvisit]
    rfl

theorem both {children children' : List TypeId} {value : (TypeId → WorkspaceTypeId) → α}
    {value' : (TypeId → WorkspaceTypeId) → β} {visit : Merge α} {visit' : Merge β}
    (h : Yields graph base fuel children value visit)
    (h' : Yields graph base fuel children' value' visit') (f : α → β → γ) :
    Yields graph base fuel (children ++ children') (fun label => f (value label) (value' label))
      (do
        let a ← visit
        let b ← visit'
        return f a b) where
  congr label label' hsame := by
    rw [h.congr label label' fun child hchild => hsame child (List.mem_append_left _ hchild),
      h'.congr label label' fun child hchild => hsame child (List.mem_append_right _ hchild)]
  meets order state hcopying hfuel := by
    obtain ⟨later, after, hvisit, hcopied, hmet⟩ := h.meets order state hcopying hfuel
    have hlater : graph.nodes.length < fuel + later.length := by
      have := hcopied.length_le
      omega
    obtain ⟨last, final, hvisit', hcopied', hmet'⟩ := h'.meets later after hcopied.copying hlater
    refine ⟨last, final, ?_, hcopied.trans hcopying hcopied', List.append_subset.mpr
      ⟨List.Subset.trans hmet hcopied'.grows.subset, hmet'⟩⟩
    change (visit state).bind (fun result => (visit' result.2).bind fun result' =>
      some (f result.1 result'.1, result'.2)) = _
    rw [hvisit]
    change (visit' after).bind (fun result' => some (f _ result'.1, result'.2)) = _
    rw [hvisit']
    have hsame : value (place base later) = value (place base last) :=
      h.congr _ _ fun child hchild => (place_mono hcopied'.grows (hmet hchild)).symm
    rw [hsame]
    rfl

theorem mapM {xs : List α} {children : α → List TypeId}
    {value : α → (TypeId → WorkspaceTypeId) → β} {visit : α → Merge β}
    (h : ∀ a ∈ xs, Yields graph base fuel (children a) (value a) (visit a)) :
    Yields graph base fuel (xs.flatMap children) (fun label => xs.map (value · label))
      (xs.mapM visit) := by
  induction xs with
  | nil => exact .pure []
  | cons a rest ih =>
      rw [List.mapM_cons, List.flatMap_cons]
      exact (h a List.mem_cons_self).both (ih fun b hb => h b (List.mem_cons_of_mem _ hb)) List.cons

/-- Only which nodes are met counts, not in which order. -/
theorem of_children {children children' : List TypeId} {value : (TypeId → WorkspaceTypeId) → α}
    {visit : Merge α} (h : Yields graph base fuel children value visit)
    (hsame : ∀ child, child ∈ children ↔ child ∈ children') :
    Yields graph base fuel children' value visit where
  congr label label' heq := h.congr label label' fun child hchild => heq child ((hsame child).mp hchild)
  meets order state hcopying hfuel := by
    obtain ⟨later, after, hvisit, hcopied, hmet⟩ := h.meets order state hcopying hfuel
    exact ⟨later, after, hvisit, hcopied, fun child hchild => hmet ((hsame child).mpr hchild)⟩

end Yields

/-- The copy of a node has the new numbers when each visit gives one. -/
theorem mergeChildren_yields {fuel : Nat} {visit : TypeId → Merge WorkspaceTypeId}
    {node : TypeNode}
    (h : ∀ child ∈ node.children, Yields graph base fuel [child] (· child) (visit child)) :
    Yields graph base fuel node.children (relabel · node) (mergeChildren visit node) := by
  have hall {children : List TypeId} (hchildren : ∀ child ∈ children, child ∈ node.children) :
      Yields graph base fuel children (fun label => children.map label) (children.mapM visit) := by
    refine (Yields.mapM fun child hchild => h child (hchildren child hchild)).of_children ?_
    simp
  cases node with
  | ref child => exact (h child List.mem_cons_self).map WorkspaceTypeNode.ref
  | typeOf child => exact (h child List.mem_cons_self).map WorkspaceTypeNode.typeOf
  | array child => exact (h child List.mem_cons_self).map WorkspaceTypeNode.array
  | dict child => exact (h child List.mem_cons_self).map WorkspaceTypeNode.dict
  | tagged tag child => exact (h child List.mem_cons_self).map (WorkspaceTypeNode.tagged tag.name)
  | tuple children => exact (hall fun _ hchild => hchild).map WorkspaceTypeNode.tuple
  | union children => exact (hall fun _ hchild => hchild).map WorkspaceTypeNode.union
  | struct fields =>
      have hfields : Yields graph base fuel (fields.flatMap fun field => [field.2])
          (fun label => fields.map fun field => (field.1, label field.2))
          (fields.mapM fun field => do return (field.1, ← visit field.2)) :=
        .mapM fun field hfield =>
          (h field.2 (List.mem_map_of_mem hfield)).map (Prod.mk field.1)
      refine (hfields.map WorkspaceTypeNode.struct).of_children fun child => ?_
      simp [TypeNode.children]
  | enum variants =>
      have hvariants : Yields graph base fuel (variants.flatMap fun variant => variant.2.toList)
          (fun label => variants.map fun variant => (variant.1, variant.2.map label))
          (variants.mapM fun variant => do return (variant.1, ← variant.2.mapM visit)) := by
        refine .mapM fun variant hvariant => ?_
        obtain ⟨name, payload⟩ := variant
        cases payload with
        | none => exact (Yields.pure none).map (Prod.mk name)
        | some child =>
            have hchild := h child (List.mem_filterMap.mpr ⟨_, hvariant, rfl⟩)
            exact (hchild.map some).map (Prod.mk name)
      refine (hvariants.map WorkspaceTypeNode.enum).of_children fun child => ?_
      simp [TypeNode.children]
  | function parameters result =>
      have hparameters := hall fun child (hchild : child ∈ parameters) => List.mem_cons_of_mem _ hchild
      refine (hparameters.both (h result List.mem_cons_self) WorkspaceTypeNode.function).of_children ?_
      intro child
      simp [TypeNode.children, or_comm]
  | _ => exact .pure _

theorem Copying.length_le {order : List TypeId} {state : MergeState}
    (h : Copying graph base order state) : order.length ≤ graph.nodes.length := by
  have hsubset : order ⊆ List.range graph.nodes.length :=
    fun id hid => List.mem_range.mpr (h.among id hid)
  have hlength := (List.subperm_of_subset h.nodup hsubset).length_le
  rwa [List.length_range] at hlength

/-- The place of a node is taken. -/
theorem Copying.enter {order : List TypeId} {state : MergeState} {id : TypeId}
    (h : Copying graph base order state) (hid : id < graph.nodes.length) (hnew : id ∉ order) :
    Copying graph base (order ++ [id])
      ⟨state.nodes ++ [.pending], state.mapped.set id (some state.nodes.length)⟩ where
  nodup := List.nodup_append.mpr ⟨h.nodup, List.nodup_singleton id, fun a ha b hb heq => by
    rw [List.mem_singleton.mp hb] at heq
    exact hnew (heq ▸ ha)⟩
  among other hother := by
    rcases List.mem_append.mp hother with hmem | hmem
    · exact h.among other hmem
    · exact List.mem_singleton.mp hmem ▸ hid
  mapped other hother := by
    rw [List.getElem?_set]
    by_cases heq : id = other
    · subst heq
      rw [if_pos rfl, h.table, if_pos hid, if_pos (List.mem_append_right _ List.mem_cons_self), place,
        List.idxOf_append_of_notMem hnew, List.idxOf_cons_self, Nat.add_zero, h.length]
    · rw [if_neg heq, h.mapped other hother]
      by_cases hmem : other ∈ order
      · rw [if_pos hmem, if_pos (List.mem_append_left _ hmem),
          place_mono (List.prefix_append order [id]) hmem]
      · rw [if_neg hmem, if_neg]
        intro hlater
        rcases List.mem_append.mp hlater with hold | hsame
        · exact hmem hold
        · exact heq (List.mem_singleton.mp hsame).symm
  length := by
    rw [List.length_append, List.length_append, h.length]
    rfl
  table := by rw [List.length_set, h.table]

/-- Once the nodes it refers to are copied, a node is finished. -/
theorem Copied.finish {order later : List TypeId} {state after : MergeState} {id : TypeId}
    {node : TypeNode}
    (h : Copied graph base (order ++ [id]) later
      ⟨state.nodes ++ [.pending], state.mapped.set id (some state.nodes.length)⟩ after)
    (hbefore : Copying graph base order state) (hnode : graph.nodes[id]? = some node)
    (hmet : node.children ⊆ later) :
    Copied graph base order later state
      { after with nodes := after.nodes.set state.nodes.length (relabel (place base later) node) } where
  copying := { h.copying with length := (List.length_set ..).trans h.copying.length }
  grows := (List.prefix_append order [id]).trans h.grows
  kept i hi := by
    change (after.nodes.set _ _)[i]? = _
    rw [List.getElem?_set_ne (Nat.ne_of_gt hi), h.kept i (by rw [List.length_append]; omega)]
    exact List.getElem?_append_left hi
  finished i other hi hother := by
    have hlength := hbefore.length
    change ∃ found, graph.nodes[other]? = some found ∧ found.children ⊆ later ∧
      (after.nodes.set _ _)[base + i]? = _
    by_cases hfirst : i = order.length
    · subst hfirst
      have hlater : later[order.length]? = some id :=
        getElem?_of_isPrefix h.grows List.getElem?_concat_length
      obtain rfl : id = other := Option.some.inj (hlater.symm.trans hother)
      refine ⟨node, hnode, hmet, ?_⟩
      rw [← hlength, List.getElem?_set_self]
      have := h.length_le
      have := h.copying.length
      rw [List.length_append, List.length_singleton] at *
      omega
    · obtain ⟨found, hfound, hchildren, hcopy⟩ := h.finished i other
        (by rw [List.length_append, List.length_singleton]; omega) hother
      refine ⟨found, hfound, hchildren, ?_⟩
      rw [List.getElem?_set_ne (by omega), hcopy]

theorem mergeTypeNode_seen {fuel : Nat} {id : TypeId} {output : WorkspaceTypeId}
    {state : MergeState} (h : state.mapped[id]? = some (some output)) :
    mergeTypeNode graph (fuel + 1) id state = some (output, state) := by
  simp only [mergeTypeNode, h]

theorem mergeTypeNode_new {fuel : Nat} {id : TypeId} {node : TypeNode}
    {merged : WorkspaceTypeNode} {state after : MergeState}
    (h : state.mapped[id]? = some none) (hnode : graph.nodes[id]? = some node)
    (hmerged : mergeChildren (mergeTypeNode graph fuel) node
      ⟨state.nodes ++ [.pending], state.mapped.set id (some state.nodes.length)⟩ =
        some (merged, after)) :
    mergeTypeNode graph (fuel + 1) id state = some (state.nodes.length,
      { after with nodes := after.nodes.set state.nodes.length merged }) := by
  simp only [mergeTypeNode, h, hnode, Option.bind_eq_bind, Option.bind_some, hmerged]
  rfl

theorem mergeTypeNode_yields (fuel : Nat) (id : TypeId) (hid : id < graph.nodes.length) :
    Yields graph base fuel [id] (· id) (mergeTypeNode graph fuel id) := by
  induction fuel generalizing id with
  | zero =>
      refine ⟨fun f g hsame => hsame id List.mem_cons_self, fun order state hcopying hfuel => ?_⟩
      have := hcopying.length_le
      omega
  | succ fuel ih =>
      refine ⟨fun f g hsame => hsame id List.mem_cons_self, fun order state hcopying hfuel => ?_⟩
      have hlookup := hcopying.mapped id hid
      by_cases hmem : id ∈ order
      · rw [if_pos hmem] at hlookup
        exact ⟨order, state, mergeTypeNode_seen hlookup, .refl hcopying, by simpa using hmem⟩
      · rw [if_neg hmem] at hlookup
        have hchildren := mergeChildren_yields fun child hchild =>
          ih child (graph.closed _ (List.getElem_mem hid) child hchild)
        obtain ⟨later, after, hmerged, hcopied, hmet⟩ := hchildren.meets (order ++ [id]) _
          (hcopying.enter hid hmem) (by rw [List.length_append, List.length_singleton]; omega)
        have hlast : id ∈ order ++ [id] := List.mem_append_right _ List.mem_cons_self
        have hplace : place base later id = state.nodes.length := by
          rw [place_mono hcopied.grows hlast, place, List.idxOf_append_of_notMem hmem,
            List.idxOf_cons_self, Nat.add_zero, hcopying.length]
        refine ⟨later, _, ?_, hcopied.finish hcopying (List.getElem?_eq_getElem hid) hmet, ?_⟩
        · rw [mergeTypeNode_new hlookup (List.getElem?_eq_getElem hid) hmerged, hplace]
        · simpa using hcopied.grows.subset hlast

/-- A copy of a graph: its nodes have the numbers from `base` on, one each, and every copied node
refers to the copies of those that its original refers to. -/
structure Isomorphic (graph : TypeGraph) (base : Nat) (number : TypeId → WorkspaceTypeId)
    (nodes : List WorkspaceTypeNode) : Prop where
  inside : ∀ id < graph.nodes.length, base ≤ number id ∧ number id < base + graph.nodes.length
  injective : ∀ id < graph.nodes.length, ∀ other < graph.nodes.length,
    number id = number other → id = other
  surjective : ∀ n : Nat, base ≤ n → n < base + graph.nodes.length →
    ∃ id < graph.nodes.length, number id = n
  nodes : ∀ id node, graph.nodes[id]? = some node → nodes[number id]? = some (relabel number node)

theorem merge_fold {ids : List TypeId} (hids : ∀ id ∈ ids, id < graph.nodes.length)
    {order : List TypeId} {state : MergeState} (h : Copying graph base order state) :
    ∃ later after, ids.foldlM (fun state id =>
        (mergeTypeNode graph (graph.nodes.length + 1) id state).map (·.2)) state = some after ∧
      Copied graph base order later state after ∧ ids ⊆ later := by
  induction ids generalizing order state with
  | nil => exact ⟨order, state, rfl, .refl h, List.nil_subset _⟩
  | cons id rest ih =>
      obtain ⟨later, after, hvisit, hcopied, hmet⟩ :=
        (mergeTypeNode_yields (graph.nodes.length + 1) id (hids id List.mem_cons_self)).meets order state h (by omega)
      obtain ⟨last, final, hfold, hrest, hall⟩ :=
        ih (fun other hother => hids other (List.mem_cons_of_mem _ hother)) hcopied.copying
      refine ⟨last, final, ?_, hcopied.trans h hrest, ?_⟩
      · rw [List.foldlM_cons, hvisit]
        exact hfold
      · exact List.cons_subset.mpr ⟨hrest.grows.subset (hmet List.mem_cons_self), hall⟩

theorem copying_start (graph : TypeGraph) (target : List WorkspaceTypeNode) :
    Copying graph target.length [] ⟨target, List.replicate graph.nodes.length none⟩ where
  nodup := List.nodup_nil
  among id hid := absurd hid List.not_mem_nil
  mapped id hid := by
    rw [List.getElem?_replicate, if_pos hid]
    rfl
  length := rfl
  table := List.length_replicate

/-- A finished copy, read off the order in which the nodes were met. -/
theorem Copied.isomorphic {later : List TypeId} {state after : MergeState}
    (h : Copied graph base [] later state after)
    (hall : List.range graph.nodes.length ⊆ later) :
    Isomorphic graph base (place base later) after.nodes := by
  have hlength : later.length = graph.nodes.length := by
    have hle := (List.subperm_of_subset List.nodup_range hall).length_le
    rw [List.length_range] at hle
    exact Nat.le_antisymm h.copying.length_le hle
  have hmem (id : TypeId) (hid : id < graph.nodes.length) : id ∈ later :=
    hall (List.mem_range.mpr hid)
  constructor
  · intro id hid
    have hindex := List.idxOf_lt_length_of_mem (hmem id hid)
    exact ⟨Nat.le_add_right _ _, Nat.add_lt_add_left (hlength ▸ hindex) _⟩
  · intro id hid other hother heq
    exact (List.idxOf_inj (hmem id hid)).mp (Nat.add_left_cancel heq)
  · intro n hbase hn
    have hindex : n - base < later.length := by omega
    refine ⟨later[n - base], h.copying.among _ (List.getElem_mem hindex), ?_⟩
    rw [place, h.copying.nodup.idxOf_getElem]
    exact Nat.add_sub_of_le hbase
  · intro id node hnode
    have hid : id < graph.nodes.length := (List.getElem?_eq_some_iff.mp hnode).1
    obtain ⟨found, hfound, _, hcopy⟩ := h.finished (later.idxOf id) id (Nat.zero_le _)
      (List.getElem?_idxOf (hmem id hid))
    rw [hnode] at hfound
    obtain rfl := Option.some.inj hfound
    exact hcopy

theorem mergeTypeGraph_isomorphic (graph : TypeGraph) (target : List WorkspaceTypeNode) :
    ∃ number nodes, mergeTypeGraph graph target =
        some ((List.range graph.nodes.length).map number, nodes) ∧
      target <+: nodes ∧ nodes.length = target.length + graph.nodes.length ∧
      Isomorphic graph target.length number nodes := by
  obtain ⟨later, after, hfold, hcopied, hall⟩ := merge_fold (fun id hid => List.mem_range.mp hid)
    (copying_start graph target)
  have hiso := hcopied.isomorphic hall
  have hmapped : after.mapped =
      (List.range graph.nodes.length).map fun id => some (place target.length later id) := by
    refine List.ext_getElem? fun id => ?_
    by_cases hid : id < graph.nodes.length
    · rw [hcopied.copying.mapped id hid, if_pos (hall (List.mem_range.mpr hid)), List.getElem?_map,
        List.getElem?_range hid]
      rfl
    · have hle := Nat.le_of_not_lt hid
      rw [List.getElem?_eq_none (hcopied.copying.table ▸ hle), List.getElem?_eq_none]
      rwa [List.length_map, List.length_range]
  refine ⟨place target.length later, after.nodes, ?_, ?_, ?_, hiso⟩
  · refine (congrArg (fun state => state.bind fun state => (state.mapped.mapM id).bind
      fun mapped => some (mapped, state.nodes)) hfold).trans ?_
    change (after.mapped.mapM id).bind (fun mapped => some (mapped, after.nodes)) = _
    have hnumbers : (List.range graph.nodes.length).mapM
        (id ∘ fun id => some (place target.length later id)) =
          some ((List.range graph.nodes.length).map (place target.length later)) :=
      mapM_eq_some_map fun _ _ => rfl
    rw [hmapped, List.mapM_map, hnumbers]
    rfl
  · exact isPrefix_of_getElem? hcopied.kept
  · rw [hcopied.copying.length]
    have hle := (List.subperm_of_subset List.nodup_range hall).length_le
    rw [List.length_range] at hle
    exact congrArg _ (Nat.le_antisymm hcopied.copying.length_le hle)

end Telora.Semantic
