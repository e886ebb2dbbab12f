import Telora.Yaml.TracedLines

/-!
# Aliases of accepted documents

How much the aliases of a document can add to it, and which of them are read as an alias of a
block is: its value is not too deep, and is located at the alias. The aliases of a document are
those that are written in it; the value of an anchor is written where the anchor is.
-/

namespace Telora.Yaml

open Library

/-- An alias that is written in a document, with the outline of its anchor. -/
structure WrittenAlias where
  target : Written
  inFlow : Bool
  mark : Mark

namespace WrittenAlias

def written (site : WrittenAlias) : Written := .reference site.target site.inFlow site.mark

/-- An alias has the value of its anchor, which is not too deep, at its own location. -/
structure Uniform (site : WrittenAlias) : Prop where
  accepted : site.target.expand.nodeDepth ≤ maxAliasDepth
  expanded : site.written.expand = site.target.expand.setNodeLocation site.mark.location

end WrittenAlias

namespace Written

mutual

/-- The nodes that are written: an alias is one of them. -/
def count : Written → Nat
  | absent _ | scalar _ _ | folded _ _ _ | reference _ _ _ => 1
  | flowSequence values _ | sequence values _ => 1 + valuesCount values
  | flowMapping entries _ | mapping entries _ _ => 1 + entriesCount entries

def valuesCount : List Written → Nat
  | [] => 0
  | value :: rest => value.count + valuesCount rest

def entriesCount : List (WrittenKey × Written) → Nat
  | [] => 0
  | (_, value) :: rest => value.count + entriesCount rest

end

mutual

/-- The nesting that is written: an alias has no nodes below it. -/
def depth : Written → Nat
  | absent _ | scalar _ _ | folded _ _ _ | reference _ _ _ => 1
  | flowSequence values _ | sequence values _ => 1 + valuesDepth values
  | flowMapping entries _ | mapping entries _ _ => 1 + entriesDepth entries

def valuesDepth : List Written → Nat
  | [] => 0
  | value :: rest => max value.depth (valuesDepth rest)

def entriesDepth : List (WrittenKey × Written) → Nat
  | [] => 0
  | (_, value) :: rest => max value.depth (entriesDepth rest)

end

mutual

/-- The aliases that are written. -/
def aliases : Written → List WrittenAlias
  | absent _ | scalar _ _ | folded _ _ _ => []
  | flowSequence values _ | sequence values _ => valuesAliases values
  | flowMapping entries _ | mapping entries _ _ => entriesAliases entries
  | reference target inFlow mark => [⟨target, inFlow, mark⟩]

def valuesAliases : List Written → List WrittenAlias
  | [] => []
  | value :: rest => value.aliases ++ valuesAliases rest

def entriesAliases : List (WrittenKey × Written) → List WrittenAlias
  | [] => []
  | (_, value) :: rest => value.aliases ++ entriesAliases rest

end

theorem valuesAliases_eq_flatMap (values : List Written) :
    valuesAliases values = values.flatMap aliases := by
  induction values with
  | nil => rfl
  | cons value values ih => rw [valuesAliases, ih, List.flatMap_cons]

theorem entriesAliases_eq_flatMap (entries : List (WrittenKey × Written)) :
    entriesAliases entries = entries.flatMap fun entry => entry.2.aliases := by
  induction entries with
  | nil => rfl
  | cons entry entries ih => rw [entriesAliases, ih, List.flatMap_cons]

theorem nodeCount_setNodeLocation (node : YamlNode) (location : Loc) :
    (node.setNodeLocation location).nodeCount = node.nodeCount := by
  cases node <;> rfl

theorem nodeDepth_setNodeLocation (node : YamlNode) (location : Loc) :
    (node.setNodeLocation location).nodeDepth = node.nodeDepth := by
  cases node <;> rfl

/-- Where an alias stands, it expands to as many nodes as its anchor, as deeply nested. -/
theorem nodeCount_reference (target : Written) (inFlow : Bool) (mark : Mark) :
    (reference target inFlow mark).expand.nodeCount = target.expand.nodeCount := by
  cases inFlow with
  | true => rfl
  | false => exact nodeCount_setNodeLocation _ _

theorem nodeDepth_reference (target : Written) (inFlow : Bool) (mark : Mark) :
    (reference target inFlow mark).expand.nodeDepth = target.expand.nodeDepth := by
  cases inFlow with
  | true => rfl
  | false => exact nodeDepth_setNodeLocation _ _

mutual

/-- The nodes of a document are those that are written and those that its aliases add. -/
theorem nodeCount_expand_le (value : Written) :
    value.expand.nodeCount ≤ value.count + value.work := by
  cases value with
  | absent | scalar | folded => exact Nat.le_refl _
  | flowSequence values | sequence values =>
      have := valuesCount_expand_le values
      change 1 + YamlNode.valuesCount (expandValues values) ≤
        1 + valuesCount values + valuesWork values
      omega
  | flowMapping entries | mapping entries =>
      have := entriesCount_expand_le entries
      change 1 + YamlNode.entriesCount (expandEntries entries) ≤
        1 + entriesCount entries + entriesWork entries
      omega
  | reference target inFlow mark =>
      rw [nodeCount_reference]
      exact Nat.le_add_left _ _

theorem valuesCount_expand_le (values : List Written) :
    YamlNode.valuesCount (expandValues values) ≤ valuesCount values + valuesWork values := by
  cases values with
  | nil => exact Nat.le_refl _
  | cons value rest =>
      have hvalue := nodeCount_expand_le value
      have hrest := valuesCount_expand_le rest
      change value.expand.nodeCount + YamlNode.valuesCount (expandValues rest) ≤
        value.count + valuesCount rest + (value.work + valuesWork rest)
      omega

theorem entriesCount_expand_le (entries : List (WrittenKey × Written)) :
    YamlNode.entriesCount (expandEntries entries) ≤
      entriesCount entries + entriesWork entries := by
  cases entries with
  | nil => exact Nat.le_refl _
  | cons entry rest =>
      obtain ⟨key, value⟩ := entry
      have hvalue := nodeCount_expand_le value
      have hrest := entriesCount_expand_le rest
      change value.expand.nodeCount + YamlNode.entriesCount (expandEntries rest) ≤
        value.count + entriesCount rest + (value.work + entriesWork rest)
      omega

end

mutual

/-- An alias that is not too deep adds no more nesting than the limit. -/
theorem nodeDepth_expand_le (value : Written) {limit : Nat}
    (h : ∀ site ∈ value.aliases, site.target.expand.nodeDepth ≤ limit) :
    value.expand.nodeDepth ≤ value.depth + limit := by
  cases value with
  | absent | scalar | folded => exact Nat.le_add_right _ _
  | flowSequence values | sequence values =>
      have := valuesDepth_expand_le values h
      change 1 + YamlNode.valuesDepth (expandValues values) ≤ 1 + valuesDepth values + limit
      omega
  | flowMapping entries | mapping entries =>
      have := entriesDepth_expand_le entries h
      change 1 + YamlNode.entriesDepth (expandEntries entries) ≤ 1 + entriesDepth entries + limit
      omega
  | reference target inFlow mark =>
      rw [nodeDepth_reference]
      exact Nat.le_trans (h _ (List.mem_singleton_self _)) (Nat.le_add_left _ _)

theorem valuesDepth_expand_le (values : List Written) {limit : Nat}
    (h : ∀ site ∈ valuesAliases values, site.target.expand.nodeDepth ≤ limit) :
    YamlNode.valuesDepth (expandValues values) ≤ valuesDepth values + limit := by
  cases values with
  | nil => exact Nat.zero_le _
  | cons value rest =>
      have hvalue := nodeDepth_expand_le value fun site hsite =>
        h site (List.mem_append_left _ hsite)
      have hrest := valuesDepth_expand_le rest fun site hsite =>
        h site (List.mem_append_right _ hsite)
      change max value.expand.nodeDepth (YamlNode.valuesDepth (expandValues rest)) ≤
        max value.depth (valuesDepth rest) + limit
      omega

theorem entriesDepth_expand_le (entries : List (WrittenKey × Written)) {limit : Nat}
    (h : ∀ site ∈ entriesAliases entries, site.target.expand.nodeDepth ≤ limit) :
    YamlNode.entriesDepth (expandEntries entries) ≤ entriesDepth entries + limit := by
  cases entries with
  | nil => exact Nat.zero_le _
  | cons entry rest =>
      obtain ⟨key, value⟩ := entry
      have hvalue := nodeDepth_expand_le value fun site hsite =>
        h site (List.mem_append_left _ hsite)
      have hrest := entriesDepth_expand_le rest fun site hsite =>
        h site (List.mem_append_right _ hsite)
      change max value.expand.nodeDepth (YamlNode.entriesDepth (expandEntries rest)) ≤
        max value.depth (entriesDepth rest) + limit
      omega

end

/-- The aliases of a traced outline are traced. -/
theorem Traced.site {document : List Char} {root : Written} (h : root.Traced document) :
    ∀ site ∈ root.aliases, site.written.Traced document := by
  induction h with
  | absent | scalar | folded =>
      intro site hsite
      exact (List.not_mem_nil hsite).elim
  | flowSequence _ _ _ ih | sequence _ _ _ _ ih =>
      intro site hsite
      rw [aliases, valuesAliases_eq_flatMap] at hsite
      obtain ⟨value, hvalue, hsite⟩ := List.mem_flatMap.mp hsite
      exact ih value hvalue site hsite
  | flowMapping _ _ _ _ ih | mapping _ _ _ _ _ ih =>
      intro site hsite
      rw [aliases, entriesAliases_eq_flatMap] at hsite
      obtain ⟨entry, hentry, hsite⟩ := List.mem_flatMap.mp hsite
      exact ih entry hentry site hsite
  | reference stands star traced shallow earlier =>
      intro site hsite
      rw [List.mem_singleton.mp hsite]
      exact .reference stands star traced shallow earlier

end Written

/-- An alias is read as in a block exactly when it stands in one: in flow style it keeps the
location of its anchor, which is in front of it. -/
theorem WrittenAlias.uniform_iff {document : List Char} {site : WrittenAlias}
    (h : site.written.Traced document) : site.Uniform ↔ site.inFlow = false := by
  obtain ⟨target, inFlow, mark⟩ := site
  cases h with
  | reference _ _ _ shallow earlier =>
      constructor
      · intro huniform
        cases inFlow with
        | false => rfl
        | true =>
            have hlocation := congrArg YamlNode.location huniform.expanded
            rw [setNodeLocation_location] at hlocation
            have hearlier := earlier rfl
            change target.expand.location = mark.location at hlocation
            rw [hlocation] at hearlier
            exact absurd hearlier (Nat.lt_irrefl _)
      · rintro rfl
        exact ⟨shallow rfl, rfl⟩

/-- Every accepted document has an outline that expands to its node. Its aliases add no more
nodes than the limit allows; they add no more nesting than the limit allows and are all read in
the same way if and only if no alias stands in flow style. -/
theorem aliases_bounded_uniform_iff {source sourceLength : Nat} {fragments : List (List Char)}
    {node : YamlNode}
    (h : lowerLines source sourceLength (documentLines fragments) = .ok node) :
    ∃ root, outline source fragments = some root ∧ root.expand = node ∧
      root.Traced fragments.flatten ∧
      node.nodeCount ≤ root.count + maxAliasExpansions ∧
      (node.nodeCount ≤ root.count + maxAliasExpansions ∧
          node.nodeDepth ≤ root.depth + maxAliasDepth ∧
          (∀ site ∈ root.aliases, site.Uniform) ↔
        ∀ site ∈ root.aliases, site.inFlow = false) := by
  obtain ⟨root, houtline, rfl, htraced, hwork⟩ := exists_outline h
  have hcount : root.expand.nodeCount ≤ root.count + maxAliasExpansions :=
    Nat.le_trans root.nodeCount_expand_le (Nat.add_le_add_left hwork _)
  refine ⟨root, houtline, rfl, htraced, hcount, ?_⟩
  constructor
  · rintro ⟨-, -, huniform⟩ site hsite
    exact (WrittenAlias.uniform_iff (htraced.site site hsite)).mp (huniform site hsite)
  · intro hblock
    have huniform : ∀ site ∈ root.aliases, site.Uniform := fun site hsite =>
      (WrittenAlias.uniform_iff (htraced.site site hsite)).mpr (hblock site hsite)
    exact ⟨hcount, root.nodeDepth_expand_le fun site hsite => (huniform site hsite).accepted,
      huniform⟩

/-- A value and an alias of it in a block. -/
theorem aliases_bounded_uniform_block :
    ∃ node root, lowerLines 0 19 (documentLines ["base: &a 1\ncopy: *a\n".toList]) = .ok node ∧
      outline 0 ["base: &a 1\ncopy: *a\n".toList] = some root ∧
      node.nodeDepth ≤ root.depth + maxAliasDepth ∧ ∀ site ∈ root.aliases, site.Uniform := by
  have hok : (lowerLines 0 19 (documentLines ["base: &a 1\ncopy: *a\n".toList])).toOption.isSome =
      true := by decide +kernel
  have hblock : ((outline 0 ["base: &a 1\ncopy: *a\n".toList]).map fun root =>
      root.aliases.map (·.inFlow)) = some [false] := by decide +kernel
  cases h : lowerLines 0 19 (documentLines ["base: &a 1\ncopy: *a\n".toList]) with
  | error diagnostic =>
      rw [h] at hok
      cases hok
  | ok node =>
      obtain ⟨root, houtline, -, -, -, hiff⟩ := aliases_bounded_uniform_iff h
      rw [houtline] at hblock
      have hsites : root.aliases.map (·.inFlow) = [false] := Option.some.inj hblock
      obtain ⟨-, hdepth, huniform⟩ := hiff.mpr fun site hsite =>
        List.mem_singleton.mp (hsites ▸ List.mem_map_of_mem hsite)
      exact ⟨node, root, rfl, houtline, hdepth, huniform⟩

/-- The same alias in a flow sequence keeps the location of the anchor. -/
theorem exists_not_uniform :
    ¬ ∀ (source sourceLength : Nat) (fragments : List (List Char)) (node : YamlNode)
      (root : Written), lowerLines source sourceLength (documentLines fragments) = .ok node →
      outline source fragments = some root → root.expand = node →
      node.nodeCount ≤ root.count + maxAliasExpansions ∧
        node.nodeDepth ≤ root.depth + maxAliasDepth ∧ ∀ site ∈ root.aliases, site.Uniform := by
  intro hclaim
  have hok : (lowerLines 0 21 (documentLines ["base: &a 1\ncopy: [*a]\n".toList])).toOption.isSome =
      true := by decide +kernel
  have hflow : ((outline 0 ["base: &a 1\ncopy: [*a]\n".toList]).map fun root =>
      root.aliases.map (·.inFlow)) = some [true] := by decide +kernel
  cases h : lowerLines 0 21 (documentLines ["base: &a 1\ncopy: [*a]\n".toList]) with
  | error diagnostic =>
      rw [h] at hok
      cases hok
  | ok node =>
      obtain ⟨root, houtline, hexpand, htraced, -⟩ := exists_outline h
      rw [houtline] at hflow
      have hsites : root.aliases.map (·.inFlow) = [true] := Option.some.inj hflow
      obtain ⟨site, hsite, hinFlow⟩ : ∃ site ∈ root.aliases, site.inFlow = true :=
        List.mem_map.mp (hsites ▸ List.mem_singleton_self true)
      have huniform := (hclaim 0 21 _ node root h houtline hexpand).2.2 site hsite
      have hfalse := (WrittenAlias.uniform_iff (htraced.site site hsite)).mp huniform
      rw [hinFlow] at hfalse
      cases hfalse

end Telora.Yaml
