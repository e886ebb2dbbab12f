import Telora.Natives.StringParse

/-!
# Shapes of parsed values

What a plan makes of a text has the shape that the type declares, and no capture that a match
must have is ever missed: the optional fields of a struct are those whose captures may be
absent.
-/

namespace Telora.StringParse

open Library

mutual

/-- The value has the shape that type metadata declares: a primitive of the kind, or a struct
with exactly the declared fields. -/
inductive Fits : ValueRef → Value → Prop where
  | string {metadata inner : ValueRef} {fuel : Nat} (text : String)
      (hinner : Returns (strippedMetadata fuel metadata) inner)
      (hkind : inner.metadataKind = some "String") : Fits metadata (.string text)
  | int {metadata inner : ValueRef} {fuel : Nat} (value : Int)
      (hinner : Returns (strippedMetadata fuel metadata) inner)
      (hkind : inner.metadataKind = some "Int")
      (hrange : -2 ^ 63 ≤ value ∧ value < 2 ^ 63) : Fits metadata (.int value)
  | float {metadata inner : ValueRef} {fuel : Nat} (value : F64)
      (hinner : Returns (strippedMetadata fuel metadata) inner)
      (hkind : inner.metadataKind = some "Float") : Fits metadata (.float value)
  | struct {metadata inner fields : ValueRef} {fuel : Nat} {found : List String}
      {values : List Value} (hinner : Returns (strippedMetadata fuel metadata) inner)
      (hkind : inner.metadataKind = some "Struct")
      (hfields : inner.dictGet "fields" = some fields) (hfound : fields.dictFields = some found)
      (hlength : values.length = (distinctBy id found).length)
      (h : ∀ (index : Nat) (name : String) (value : Value),
        (distinctBy id found)[index]? = some name → values[index]? = some value →
          FitsField fields name value) :
      Fits metadata (.dict (distinctBy id found) values)

/-- The value fits the declaration of a field; one of an option type is `None` or `Some`. -/
inductive FitsField : ValueRef → String → Value → Prop where
  | declared {fields metadata : ValueRef} {name : String} {value : Value} {fuel : Nat}
      (hmetadata : fields.dictGet name = some metadata)
      (hpayload : Returns (optionPayload fuel metadata) none) (h : Fits metadata value) :
      FitsField fields name value
  | absent {fields metadata payload : ValueRef} {name : String} {fuel : Nat}
      (hmetadata : fields.dictGet name = some metadata)
      (hpayload : Returns (optionPayload fuel metadata) (some payload)) :
      FitsField fields name (.atom (.builtin .none))
  | present {fields metadata payload : ValueRef} {name : String} {value : Value} {fuel : Nat}
      (hmetadata : fields.dictGet name = some metadata)
      (hpayload : Returns (optionPayload fuel metadata) (some payload))
      (h : Fits payload value) : FitsField fields name (.tagged (.builtin .some) value)

end

variable {engine : RegexEngine}

/-- No text makes a plan fail for an absent capture, and what it makes of one fits the type. -/
structure Sound (metadata : ValueRef) (plan : ParsePlan engine) : Prop where
  captured : ∀ {input failure}, executePlan plan input = .error failure → ¬failure.IsAbsence
  fits : ∀ {input value}, executePlan plan input = .ok value →
    Fits metadata (materialize value)

/-- A field has the plan of its declaration, and it is optional when its capture is. -/
structure PlannedField (fuel : Nat) (planField : ValueRef → NativeRun (ParsePlan engine))
    (compiled : CompiledRegex engine) (fields : ValueRef) (name : String)
    (planned : String × FieldPlan engine) : Prop where
  named : planned.1 = name
  made : ∃ metadata payload plan, fields.dictGet name = some metadata ∧
    Returns (optionPayload fuel metadata) payload ∧
    Returns (planField (payload.getD metadata)) plan ∧
    planned.2 = .mk plan payload.isSome ∧ (payload.isSome = false → name ∈ compiled.required)

variable {fuel : Nat} {planField : ValueRef → NativeRun (ParsePlan engine)}
  {compiled : CompiledRegex engine} {fields : ValueRef} {name : String}

theorem fieldPlan_spec {planned : String × FieldPlan engine}
    (h : Returns (fieldPlan fuel planField compiled fields name) planned) :
    PlannedField fuel planField compiled fields name planned := by
  obtain ⟨metadata, hmetadata, h⟩ := returns_bind.mp h
  obtain ⟨payload, hpayload, h⟩ := returns_bind.mp h
  obtain ⟨plan, hplan, h⟩ := returns_bind.mp h
  dsimp only at h
  split at h
  · exact (not_returns_throw h).elim
  · rename_i hagree
    obtain rfl := returns_pure.mp h
    refine ⟨rfl, metadata, payload, plan, returns_orThrow.mp hmetadata, hpayload,
      returns_adapt.mp hplan, rfl, fun hrequired => ?_⟩
    have hdecided := (not_not.mp hagree).trans hrequired
    exact not_not.mp (of_decide_eq_false hdecided)

theorem executeEntry_of_some {plan : ParsePlan engine} {optional : Bool}
    {captures : String → Option (List Char)} {text : List Char}
    (h : captures name = some text) :
    executeEntry (name, .mk plan optional) captures =
      ((executePlan plan text).mapError (.capture name)).map fun value =>
        (name, if optional then .some value else value) := by
  simp only [executeEntry, executeField, h]
  cases executePlan plan text <;> rfl

theorem executeEntry_of_none {plan : ParsePlan engine} {optional : Bool}
    {captures : String → Option (List Char)} (h : captures name = none) :
    executeEntry (name, .mk plan optional) captures =
      if optional then .ok (name, .none) else .error (.absent name) := by
  simp only [executeEntry, executeField, h]
  cases optional <;> rfl

section Field

variable (hfaithful : engine.Faithful)
  (hplan : ∀ {metadata plan}, Returns (planField metadata) plan → Sound metadata plan)
  {planned : String × FieldPlan engine}
  (hplanned : PlannedField fuel planField compiled fields name planned)
  {input : List Char} {captures : String → Option (List Char)}
  (hcaptures : engine.captures compiled.regex input = some captures)
include hfaithful hplan hplanned hcaptures

theorem executeEntry_captured {failure : ParseFailure}
    (h : executeEntry planned captures = .error failure) : ¬failure.IsAbsence := by
  obtain ⟨label, field⟩ := planned
  obtain ⟨rfl, metadata, payload, plan, -, -, hmade, rfl, hrequired⟩ := hplanned
  cases htext : captures label with
  | some text =>
      rw [executeEntry_of_some htext] at h
      cases hrun : executePlan plan text with
      | error found =>
          rw [hrun] at h
          obtain rfl := Except.error.inj h
          exact fun habsent => (hplan hmade).captured hrun habsent
      | ok value =>
          rw [hrun] at h
          cases h
  | none =>
      rw [executeEntry_of_none htext] at h
      cases hoptional : payload.isSome with
      | true =>
          rw [hoptional] at h
          cases h
      | false =>
          have hsome := compiled.captured hfaithful hcaptures (hrequired hoptional)
          rw [htext] at hsome
          cases hsome

omit hfaithful hcaptures in
theorem executeEntry_fits {entry : String × ParsedValue}
    (h : executeEntry planned captures = .ok entry) :
    entry.1 = name ∧ FitsField fields name (materialize entry.2) := by
  obtain ⟨label, field⟩ := planned
  obtain ⟨rfl, metadata, payload, plan, hmetadata, hpayload, hmade, rfl, hrequired⟩ := hplanned
  cases htext : captures label with
  | some text =>
      rw [executeEntry_of_some htext] at h
      cases hrun : executePlan plan text with
      | error found =>
          rw [hrun] at h
          cases h
      | ok value =>
          rw [hrun] at h
          obtain rfl := Except.ok.inj h
          have hfits := (hplan hmade).fits hrun
          cases payload with
          | none => exact ⟨rfl, .declared hmetadata hpayload hfits⟩
          | some payload => exact ⟨rfl, .present hmetadata hpayload hfits⟩
  | none =>
      rw [executeEntry_of_none htext] at h
      cases payload with
      | none => cases h
      | some payload =>
          obtain rfl := Except.ok.inj h
          exact ⟨rfl, .absent hmetadata hpayload⟩

end Field

section Struct

variable (hfaithful : engine.Faithful)
  (hplan : ∀ {metadata plan}, Returns (planField metadata) plan → Sound metadata plan)
include hfaithful hplan

theorem executeFields_captured {names : List String} {planned : List (String × FieldPlan engine)}
    (h : List.Forall₂ (PlannedField fuel planField compiled fields) names planned)
    {input : List Char} {captures : String → Option (List Char)}
    (hcaptures : engine.captures compiled.regex input = some captures) {failure : ParseFailure}
    (hrun : executeFields planned captures = .error failure) : ¬failure.IsAbsence := by
  induction h with
  | nil => cases hrun
  | @cons name planned names rest hfield _ ih =>
      rw [executeFields] at hrun
      cases hentry : executeEntry planned captures with
      | error found =>
          rw [hentry] at hrun
          obtain rfl := Except.error.inj hrun
          exact executeEntry_captured hfaithful hplan hfield hcaptures hentry
      | ok entry =>
          rw [hentry] at hrun
          cases hrest : executeFields rest captures with
          | error found =>
              rw [hrest] at hrun
              obtain rfl := Except.error.inj hrun
              exact ih hrest
          | ok entries =>
              rw [hrest] at hrun
              cases hrun

omit hfaithful in
theorem executeFields_fits {names : List String} {planned : List (String × FieldPlan engine)}
    (h : List.Forall₂ (PlannedField fuel planField compiled fields) names planned)
    {captures : String → Option (List Char)} {entries : List (String × ParsedValue)}
    (hrun : executeFields planned captures = .ok entries) :
    entries.map (·.1) = names ∧
      List.Forall₂ (FitsField fields) names (materializeFields entries) := by
  induction h generalizing entries with
  | nil =>
      obtain rfl := Except.ok.inj hrun
      exact ⟨rfl, .nil⟩
  | @cons name planned names rest hfield _ ih =>
      rw [executeFields] at hrun
      obtain ⟨entry, hentry, hrun⟩ := bind_eq_ok.mp hrun
      obtain ⟨others, hothers, hrun⟩ := bind_eq_ok.mp hrun
      obtain rfl := pure_eq_ok.mp hrun
      obtain ⟨label, value⟩ := entry
      obtain ⟨hname, hfits⟩ := executeEntry_fits hplan hfield hentry
      obtain ⟨hnames, hall⟩ := ih hothers
      exact ⟨congrArg₂ _ hname hnames, .cons hfits hall⟩

theorem validateRelation_sound {metadata : ValueRef} {planned : List (String × FieldPlan engine)}
    (h : Returns (validateRelation fuel planField compiled metadata) planned) :
    Sound metadata (.regex compiled planned) := by
  obtain ⟨inner, hinner, h⟩ := returns_bind.mp h
  split at h
  · exact (not_returns_throw h).elim
  rename_i hkind
  obtain ⟨fields, hfields, h⟩ := returns_bind.mp h
  obtain ⟨found, hfound, h⟩ := returns_bind.mp h
  dsimp only at h
  split at h
  · exact (not_returns_throw h).elim
  have hplanned := (returns_mapM h).imp fun _ _ => fieldPlan_spec
  refine ⟨fun {input failure} hrun => ?_, fun {input value} hrun => ?_⟩
  · rw [executePlan] at hrun
    cases hcaptures : engine.captures compiled.regex input with
    | none =>
        rw [hcaptures] at hrun
        obtain rfl := Except.error.inj hrun
        exact id
    | some captures =>
        rw [hcaptures] at hrun
        cases hentries : executeFields planned captures with
        | ok entries =>
            dsimp only at hrun
            rw [hentries] at hrun
            cases hrun
        | error found =>
            dsimp only at hrun
            rw [hentries] at hrun
            obtain rfl := Except.error.inj hrun
            exact executeFields_captured hfaithful hplan hplanned hcaptures hentries
  · rw [executePlan] at hrun
    cases hcaptures : engine.captures compiled.regex input with
    | none =>
        rw [hcaptures] at hrun
        cases hrun
    | some captures =>
        rw [hcaptures] at hrun
        obtain ⟨entries, hentries, rfl⟩ := map_eq_ok.mp hrun
        obtain ⟨hnames, hall⟩ := executeFields_fits hplan hplanned hentries
        rw [materialize, hnames]
        refine .struct hinner (not_not.mp hkind) (returns_orThrow.mp hfields)
          (returns_orThrow.mp hfound) hall.length_eq.symm fun index name value hname hvalue => ?_
        have hpair := forall₂_getElem? hall index
        rw [hname, hvalue] at hpair
        cases hpair with
        | some h => exact h

end Struct

theorem parseI64_range {text : List Char} {value : Int} (h : Json.parseI64 text = some value) :
    -2 ^ 63 ≤ value ∧ value < 2 ^ 63 := by
  obtain ⟨-, h⟩ := Option.ite_none_right_eq_some.mp h
  obtain ⟨hrange, h⟩ := Option.ite_none_right_eq_some.mp h
  exact Option.some.inj h ▸ hrange

theorem parsePlan_sound (hfaithful : engine.Faithful)
    {downcast : OpaquePayload → Option (CompiledRegex engine)} {depth : Nat}
    {metadata : ValueRef} {plan : ParsePlan engine}
    (h : Returns (parsePlan downcast fuel depth metadata) plan) : Sound metadata plan := by
  induction depth generalizing metadata plan with
  | zero => exact (not_returns_outOfFuel h).elim
  | succ depth ih =>
      obtain ⟨attached, -, h⟩ := returns_bind.mp h
      cases attached with
      | some compiled =>
          obtain ⟨planned, hplanned, h⟩ := returns_bind.mp h
          obtain rfl := returns_pure.mp h
          exact validateRelation_sound hfaithful ih hplanned
      | none =>
          obtain ⟨inner, hinner, h⟩ := returns_bind.mp h
          split at h
          · rename_i hkind
            obtain rfl := returns_pure.mp h
            refine ⟨fun hrun => (by cases hrun), fun hrun => ?_⟩
            obtain rfl := Except.ok.inj hrun
            exact .string _ hinner hkind
          split at h
          · rename_i hkind
            obtain rfl := returns_pure.mp h
            refine ⟨fun {input failure} hrun => ?_, fun {input value} hrun => ?_⟩
            · rw [executePlan] at hrun
              split at hrun
              · cases hrun
              · obtain rfl := Except.error.inj hrun
                exact id
            · rw [executePlan] at hrun
              split at hrun
              · rename_i found hfound
                obtain rfl := Except.ok.inj hrun
                exact .int found hinner hkind (parseI64_range hfound)
              · cases hrun
          split at h
          · rename_i hkind
            obtain rfl := returns_pure.mp h
            refine ⟨fun {input failure} hrun => ?_, fun {input value} hrun => ?_⟩
            · rw [executePlan] at hrun
              split at hrun
              · cases hrun
              · obtain rfl := Except.error.inj hrun
                exact id
            · rw [executePlan] at hrun
              split at hrun
              · rename_i found hfound
                obtain rfl := Except.ok.inj hrun
                exact .float found hinner hkind
              · cases hrun
          · exact (not_returns_throw h).elim

/-- What holds of all compiled patterns and of all types that are accepted. -/
structure ParsesAsDeclared (engine : RegexEngine) : Prop where
  present : ∀ (compiled : CompiledRegex engine) (input : List Char)
    (captures : String → Option (List Char)),
    engine.captures compiled.regex input = some captures →
      ∀ name ∈ compiled.required, (captures name).isSome
  related : ∀ (downcast : OpaquePayload → Option (CompiledRegex engine)) (fuel depth : Nat)
    (compiled : CompiledRegex engine) (metadata : ValueRef)
    (fields : List (String × FieldPlan engine)),
    Returns (validateRelation fuel (parsePlan downcast fuel depth) compiled metadata) fields →
      Sound metadata (.regex compiled fields)
  planned : ∀ (downcast : OpaquePayload → Option (CompiledRegex engine)) (fuel depth : Nat)
    (metadata : ValueRef) (plan : ParsePlan engine),
    Returns (parsePlan downcast fuel depth metadata) plan → Sound metadata plan

/-- With an engine that finds matches of the parsed form, required captures are present, and
what is parsed has the declared shape. -/
theorem parses_as_declared {engine : RegexEngine} (hfaithful : engine.Faithful) :
    ParsesAsDeclared engine where
  present := fun compiled _ _ hcaptures _ hname => compiled.captured hfaithful hcaptures hname
  related := fun _ _ _ _ _ _ => validateRelation_sound hfaithful (parsePlan_sound hfaithful)
  planned := fun _ _ _ _ _ => parsePlan_sound hfaithful

section Optional

def optionalPattern : String := "(?<a>x)(?:(?<b>y)|z)?"

def optionalHir : Regex Empty :=
  .concat [.capture (some "a") (.literal ['x']),
    .repetition 0 (some 1) true
      (.alternation [.capture (some "b") (.literal ['y']), .literal ['z']])]

/-- An engine for that pattern alone: it goes to the first `x` and looks behind it. -/
def optionalEngine : RegexEngine where
  Assertion := Empty
  Compiled := Unit
  parse pattern :=
    if pattern = optionalPattern then .ok optionalHir else .error "unsupported pattern"
  compile pattern := if pattern = optionalPattern then .ok () else .error "unsupported pattern"
  captureNames _ := [none, some "a", some "b"]
  captures _ input :=
    match input.dropWhile (· ≠ 'x') with
    | [] => none
    | _ :: rest => some fun name =>
        if name = "a" then some ['x']
        else if name = "b" ∧ rest.head? = some 'y' then some ['y']
        else none
  holds assertion := assertion.elim

/-- The groups after the first `x` of a text. -/
theorem optionalHir_matches (before rest : List Char) : ∃ last,
    Regex.Matches optionalEngine.holds (before ++ 'x' :: rest) optionalHir
      ⟨before.length, Regex.noGroups⟩ last ∧
    ∀ name, (last.groups name).map (spanned (before ++ 'x' :: rest)) =
      if name = "a" then some ['x']
      else if name = "b" ∧ rest.head? = some 'y' then some ['y']
      else none := by
  have hfirst : Regex.Matches optionalEngine.holds (before ++ 'x' :: rest)
      (.capture (some "a") (.literal ['x'])) ⟨before.length, Regex.noGroups⟩
      ⟨before.length + 1, Regex.noGroups.set (some "a") (before.length, before.length + 1)⟩ :=
    ⟨⟨before.length + 1, Regex.noGroups⟩, ⟨by simp, rfl⟩, rfl⟩
  by_cases hy : rest.head? = some 'y'
  · obtain ⟨after, rfl⟩ : ∃ after, rest = 'y' :: after := List.head?_eq_some_iff.mp hy
    have hafter : (before ++ 'x' :: 'y' :: after).drop (before.length + 1) = 'y' :: after := by
      rw [List.append_cons]
      exact List.drop_left' (by simp)
    refine ⟨_, ⟨_, hfirst, _, ⟨1, by simp, by simp, _, .inl ⟨_, ⟨?_, rfl⟩, rfl⟩, rfl⟩, rfl⟩,
      fun name => ?_⟩
    · rw [hafter]
      exact ⟨after, rfl⟩
    · simp only [Regex.Groups.set, Regex.noGroups]
      split_ifs <;> simp_all [spanned]
  · refine ⟨_, ⟨_, hfirst, _, ⟨0, by simp, by simp, rfl⟩, rfl⟩, fun name => ?_⟩
    simp only [Regex.Groups.set, Regex.noGroups]
    split_ifs <;> simp_all [spanned]

theorem faithful_optionalEngine : optionalEngine.Faithful := by
  intro pattern parsed compiled hparsed hcompiled input found hfound
  obtain rfl : optionalHir = parsed := by
    by_cases hpattern : pattern = optionalPattern
    · exact Except.ok.inj ((if_pos hpattern).symm.trans hparsed)
    · cases (if_neg hpattern).symm.trans hparsed
  change (match input.dropWhile (· ≠ 'x') with | [] => none | _ :: rest => _) = _ at hfound
  have hsplit := @List.takeWhile_append_dropWhile _ (· ≠ 'x') input
  have hstart := List.head?_dropWhile_not (· ≠ 'x') input
  cases hdrop : input.dropWhile (· ≠ 'x') with
  | nil =>
      rw [hdrop] at hfound
      cases hfound
  | cons c rest =>
      rw [hdrop] at hfound hsplit hstart
      obtain rfl : c = 'x' := by simpa using hstart
      obtain rfl := Option.some.inj hfound
      obtain ⟨last, hmatches, hgroups⟩ := optionalHir_matches (input.takeWhile (· ≠ 'x')) rest
      rw [hsplit] at hmatches hgroups
      exact ⟨_, last, hmatches, fun name => (hgroups name).symm⟩

theorem parses_as_declared_optional : (∃ compiled,
    compilePattern optionalEngine optionalPattern = .ok compiled ∧
      compiled.captures = ["a", "b"] ∧ compiled.required = ["a"]) ∧
    ParsesAsDeclared optionalEngine :=
  ⟨⟨_, rfl, rfl, rfl⟩, parses_as_declared faithful_optionalEngine⟩

end Optional

end Telora.StringParse
