import Mathlib.Data.List.GetD
import Mathlib.Data.List.ProdSigma
import Telora.Library.Lists
import Telora.Library.Search
import Telora.Value.Basic

/-!
# Type graphs

The nodes of a type graph refer to each other by number, so types can be shared and
cyclic. Assignability of two nodes is searched for with a set of visited pairs, and a pair
that is met again is taken as assignable. A pair is assignable when it is in the greatest
relation that is closed under the structural rules.
-/

namespace Telora

open Library

abbrev TypeId := Nat

inductive TypeNode where
  | pending
  | ref (target : TypeId)
  | bound (id : Nat)
  | any
  | never
  | type
  | dyn
  | typeOf (described : TypeId)
  | int
  | float
  | string
  | bytes
  | opaqueType (nativeType : NativeType)
  | atom (tag : Atom)
  | array (item : TypeId)
  | dict (item : TypeId)
  | tagged (tag : Atom) (payload : TypeId)
  | tuple (items : List TypeId)
  | struct (fields : List (String × TypeId))
  | enum (variants : List (String × Option TypeId))
  | union (variants : List TypeId)
  | function (parameters : List TypeId) (result : TypeId)
  deriving DecidableEq

namespace TypeNode

/-- The nodes that a node refers to. -/
def children : TypeNode → List TypeId
  | .ref target => [target]
  | .typeOf described => [described]
  | .array item => [item]
  | .dict item => [item]
  | .tagged _ payload => [payload]
  | .tuple items => items
  | .struct fields => fields.map (·.2)
  | .enum variants => variants.filterMap (·.2)
  | .union variants => variants
  | .function parameters result => result :: parameters
  | _ => []

/-- The `==` of nodes; native types are equal when their ids are. -/
def eq : TypeNode → TypeNode → Bool
  | .opaqueType left, .opaqueType right => left.id == right.id
  | left, right => left == right

end TypeNode

/-- A graph whose nodes refer to its own nodes only. -/
structure TypeGraph where
  nodes : List TypeNode
  closed : ∀ node ∈ nodes, ∀ id ∈ node.children, id < nodes.length

namespace TypeGraph

def node (graph : TypeGraph) (id : TypeId) : TypeNode := graph.nodes.getD id .pending

/-- An actual and an expected type. -/
abbrev Pair := TypeId × TypeId

/-- What the payloads of one variant need. -/
def payloadPremise : Option TypeId → Option TypeId → Premise Pair
  | none, none => .known true
  | some actual, some expected => .element (actual, expected)
  | _, _ => .known false

/-- The arms of `assignable_with`, with the pairs that they ask for in order. -/
def assignableRule (graph : TypeGraph) (pair : Pair) : Rule Pair :=
  let (actual, expected) := pair
  match graph.node actual, graph.node expected with
  | .ref target, _ => .one (target, expected)
  | _, .ref target => .one (actual, target)
  | .bound a, .bound e => .known (a == e)
  | .never, _ => .known true
  | .any, _ | _, .any => .known true
  | .typeOf _, .type => .known true
  | .typeOf a, .typeOf e => .one (a, e)
  | .array a, .array e => .one (a, e)
  | .dict a, .dict e => .one (a, e)
  | .struct fields, .dict e => .all (fields.map fun field => .element (field.2, e))
  | .tagged aTag a, .tagged eTag e => .all [.known (aTag == eTag), .element (a, e)]
  | .tuple a, .tuple e => .all (.known (a.length == e.length) :: (a.zip e).map .element)
  | .struct a, .struct e =>
      .all (.known (a.length == e.length) :: e.map fun field =>
        ((a.lookup field.1).map fun item => Premise.element (item, field.2)).getD (.known false))
  | .enum a, .enum e =>
      .all (.known (a.length == e.length) :: e.map fun variant =>
        ((a.lookup variant.1).map (payloadPremise · variant.2)).getD (.known false))
  | .union a, _ => .all (a.map fun variant => .element (variant, expected))
  | _, .union e => .any (e.map fun variant => .element (actual, variant))
  | .function aParameters aResult, .function eParameters eResult =>
      .all (.known (aParameters.length == eParameters.length) ::
        ((aParameters.zip eParameters).map .element ++ [.element (aResult, eResult)]))
  | a, e => .known (a.eq e)

/-- A query for two nodes, with what it has visited at its end. The fuel is more than
there are pairs. -/
def assignableWith (graph : TypeGraph) (actual expected : TypeId) :
    Option (Bool × SearchRecord Pair) :=
  search graph.assignableRule (graph.nodes.length * graph.nodes.length + 1) (actual, expected)
    .empty

def isAssignable (graph : TypeGraph) (actual expected : TypeId) : Option Bool :=
  (graph.assignableWith actual expected).map (·.1)

/-- The greatest relation that is closed under the rules. -/
def Assignable (graph : TypeGraph) (actual expected : TypeId) : Prop :=
  (actual, expected) ∈ greatest graph.assignableRule

/-- The pairs that a query meets again and takes as assignable. -/
def metAgain (graph : TypeGraph) (actual expected : TypeId) : List Pair :=
  ((graph.assignableWith actual expected).map (·.2.assumed)).getD []

/-- The pairs that a query finds not to be assignable. -/
def refuted (graph : TypeGraph) (actual expected : TypeId) : List Pair :=
  (((graph.assignableWith actual expected).map (·.2.answered)).getD []).filterMap
    fun (pair, answer) => if answer then none else some pair

section Pairs

variable (graph : TypeGraph)

def pairs : List Pair :=
  List.range graph.nodes.length ×ˢ List.range graph.nodes.length

theorem mem_pairs {pair : Pair} :
    pair ∈ graph.pairs ↔ pair.1 < graph.nodes.length ∧ pair.2 < graph.nodes.length := by
  obtain ⟨actual, expected⟩ := pair
  simp [pairs]

theorem length_pairs : graph.pairs.length = graph.nodes.length * graph.nodes.length := by
  simp [pairs, List.length_product]

theorem child_lt {id child : TypeId} (h : child ∈ (graph.node id).children) :
    child < graph.nodes.length := by
  unfold node at h
  by_cases hid : id < graph.nodes.length
  · rw [List.getD_eq_getElem _ _ hid] at h
    exact graph.closed _ (List.getElem_mem hid) child h
  · rw [List.getD_eq_default _ _ (Nat.le_of_not_lt hid)] at h
    cases h

/-- A premise that depends on a field of the actual type needs that field. -/
theorem lookup_premise {α : Type} {entries : List (String × α)} {name : String}
    {premise : α → Premise Pair} {next : Pair}
    (h : ((entries.lookup name).map premise).getD (.known false) = .element next) :
    ∃ a, (name, a) ∈ entries ∧ premise a = .element next := by
  cases hlookup : entries.lookup name with
  | none => simp [hlookup] at h
  | some a =>
      rw [hlookup] at h
      exact ⟨a, mem_of_lookup hlookup, h⟩

/-- A rule asks about a node of the pair or about a child of it, on either side. -/
theorem premise_children {pair next : Pair}
    (h : .element next ∈ (graph.assignableRule pair).premises) :
    (next.1 = pair.1 ∨ next.1 ∈ (graph.node pair.1).children) ∧
      (next.2 = pair.2 ∨ next.2 ∈ (graph.node pair.2).children) := by
  obtain ⟨actual, expected⟩ := pair
  simp only [assignableRule] at h
  split at h
  all_goals simp_all [Rule.one, Rule.known, Rule.all, Rule.any, TypeNode.children]
  case h_11 fields e =>
    obtain ⟨name, item, hmem, rfl⟩ := h
    exact ⟨.inr ⟨name, hmem⟩, .inr rfl⟩
  case h_13 a e => exact ⟨.inr (List.of_mem_zip h).1, .inr (List.of_mem_zip h).2⟩
  case h_14 a e =>
    obtain ⟨name, item, hmem, hpremise⟩ := h
    obtain ⟨field, hfield, hnext⟩ := lookup_premise hpremise
    obtain rfl := Premise.element.inj hnext
    exact ⟨.inr ⟨name, hfield⟩, .inr ⟨name, hmem⟩⟩
  case h_15 a e =>
    obtain ⟨name, payload, hmem, hpremise⟩ := h
    obtain ⟨variant, hvariant, hnext⟩ := lookup_premise hpremise
    cases variant <;> cases payload <;> cases hnext
    exact ⟨.inr ⟨name, hvariant⟩, .inr ⟨name, hmem⟩⟩
  case h_16 a =>
    obtain ⟨variant, hmem, rfl⟩ := h
    exact ⟨.inr hmem, .inl rfl⟩
  case h_17 e =>
    obtain ⟨variant, hmem, rfl⟩ := h
    exact ⟨.inl rfl, .inr hmem⟩
  case h_18 aParameters aResult eParameters eResult =>
    obtain h | rfl := h
    · exact ⟨.inr (.inr (List.of_mem_zip h).1), .inr (.inr (List.of_mem_zip h).2)⟩
    · exact ⟨.inr (.inl rfl), .inr (.inl rfl)⟩

theorem premise_mem_pairs {pair : Pair} (hpair : pair ∈ graph.pairs) (next : Pair)
    (h : .element next ∈ (graph.assignableRule pair).premises) : next ∈ graph.pairs := by
  obtain ⟨hactual, hexpected⟩ := graph.mem_pairs.mp hpair
  obtain ⟨hfirst, hsecond⟩ := graph.premise_children h
  exact graph.mem_pairs.mpr ⟨hfirst.elim (· ▸ hactual) graph.child_lt,
    hsecond.elim (· ▸ hexpected) graph.child_lt⟩

end Pairs

section Queries

variable (graph : TypeGraph)

/-- Every query ends. -/
theorem assignableWith_ends (actual expected : Fin graph.nodes.length) :
    ∃ answer record, graph.assignableWith actual expected = some (answer, record) := by
  have hwithin : Within (graph.nodes.length * graph.nodes.length + 1) graph.pairs
      (SearchRecord.empty : SearchRecord Pair).visited :=
    ⟨List.nodup_nil, List.nil_subset _, by rw [graph.length_pairs]; exact Nat.lt_succ_self _⟩
  have hmem : ((actual : TypeId), (expected : TypeId)) ∈ graph.pairs :=
    graph.mem_pairs.mpr ⟨actual.isLt, expected.isLt⟩
  obtain ⟨answer, record, hrun, -⟩ :=
    search_ends (fun pair hpair next => graph.premise_mem_pairs hpair next) hmem hwithin
  exact ⟨answer, record, hrun⟩

/-- `Array(Int)` against the union of two arrays that share the node of `String`. -/
def sharedItem : TypeGraph where
  nodes := [.int, .string, .array 0, .array 1, .array 1, .union [3, 4]]
  closed := by decide

end Queries

end TypeGraph

end Telora
