import Telora.Types.FiniteValue
import Telora.Types.Joins

/-!
# Validation

A value is checked against a descriptor, arm by arm. What is accepted of a finite value is
exactly what is a member of the type: structs with exactly their fields, declared variants
with or without a payload, some member of a union, and items of arrays, dicts and tuples.
-/

namespace Telora.HeapView

open Library TypeDescriptor

/-- How an error shows a kind. -/
def kindText : ValueKind → String
  | .int => "Int"
  | .float => "Float"
  | .string => "String"
  | .bytes => "Bytes"
  | .type => "Type"
  | .opaqueValue => "Opaque"
  | .dict => "Dict"
  | .array => "Array"
  | .atom => "Atom"
  | .tagged => "Tagged"
  | .tuple => "Tuple"
  | .func => "Func"
  | .dyn => "Dyn"

/-- Whether a check accepts; it ends when the check does. -/
def isOk (check : Decoding Unit) : Decoding Bool :=
  match check with
  | none => Answer.none
  | some (.ok _) => return true
  | some (.error _) => return false

section Check

variable (view : HeapView) (decode : RuntimeValue → String → Decoding TypeDescriptor)

/-- The last arm. -/
def mismatch (descriptor : TypeDescriptor) (value : RuntimeValue) (path : String) :
    Decoding Unit := do
  throw s!"{path} must be {descriptor.displayName}, got {kindText (← valueKind value)}"

/-- The arms of the types whose values are all of one kind. -/
def validateKind (kind : ValueKind) (descriptor : TypeDescriptor) (value : RuntimeValue)
    (path : String) : Decoding Unit := do
  if (← valueKind value) = kind then return () else mismatch descriptor value path

mutual

def validateValueRef : TypeDescriptor → RuntimeValue → String → Decoding Unit
  | .any, _, _ => return ()
  | .never, _, path => throw s!"{path} cannot have type Never"
  | .type, value, path => do
      let _ ← decode value path
      return ()
  | .typeOf expected, value, path => do
      let actual ← decode value path
      if assignable actual expected && assignable expected actual then return ()
      else throw s!"{path} must describe {expected.displayName}, got {actual.displayName}"
  | .dyn, value, path => validateKind .dyn .dyn value path
  | .int, value, path => validateKind .int .int value path
  | .float, value, path => validateKind .float .float value path
  | .string, value, path => validateKind .string .string value path
  | .bytes, value, path => validateKind .bytes .bytes value path
  | .opaqueType expected, value, path => do
      if (← valueKind value) = .opaqueValue then
        match view.opaqueNativeType value with
        | some actual =>
            if actual.id = expected.id then return ()
            else throw s!"{path} must be {expected.qualifiedName}, got {actual.qualifiedName}"
        | none => .none
      else mismatch (.opaqueType expected) value path
  | .atom expected, value, path =>
      if view.asAtom value = some expected.name then return ()
      else throw s!"{path} must be '{expected.name}"
  | .array item, value, path => do
      if (← valueKind value) = .array then
        match view.sequenceItems value with
        | some items =>
            items.zipIdx.forM fun entry => validateValueRef item entry.1 s!"{path}[{entry.2}]"
        | none => .none
      else throw s!"{path} must be an Array"
  | .dict item, value, path =>
      match view.dictNames value with
      | none => throw s!"{path} must be a Dict"
      | some names =>
          names.forM fun name =>
            match view.dictValue value name with
            | some entry => validateValueRef item entry s!"{path}.{name}"
            | none => .none
  | .tagged tag payload, value, path =>
      match view.tagAndPayload value with
      | none => throw s!"{path} must be a Tagged value"
      | some (actualTag, actualPayload) =>
          if view.asAtom actualTag = some tag.name then
            validateValueRef payload actualPayload s!"{path}.payload"
          else throw s!"{path} must have tag '{tag.name}"
  | .tuple items, value, path => do
      if (← valueKind value) = .tuple then
        match view.sequenceItems value with
        | some values =>
            if values.length = items.length then validateItems items values path 0
            else throw s!"{path} must have {items.length} tuple items"
        | none => .none
      else throw s!"{path} must be a Tuple"
  | .struct fields, value, path =>
      match view.dictNames value with
      | none => throw s!"{path} must be a Dict"
      | some names =>
          if fields.map (·.1) = names then validateFields fields value path
          else throw s!"{path} has a different field shape"
  | .enum variants, value, path =>
      match view.asAtom value with
      | some tag =>
          match variants.lookup tag with
          | some none => return ()
          | some (some _) => throw s!"{path} variant '{tag} requires a payload"
          | none => throw s!"{path} has unknown Enum variant '{tag}"
      | none =>
          match view.tagAndPayload value with
          | none => throw s!"{path} must be a unit Atom or a Tagged value"
          | some (tag, payload) =>
              match view.asAtom tag with
              | none => throw s!"{path} Tagged tag must be an Atom"
              | some tag => validateVariant variants tag payload path
  | .union variants, value, path => do
      if ← validateAny variants value path then return ()
      else throw s!"{path} does not match any Union variant"
  | .function parameters result, value, path => do
      if view.arityOf value = some parameters.length then return ()
      else if (← valueKind value) = .func then
        throw s!"{path} must accept {parameters.length} arguments"
      else mismatch (.function parameters result) value path
  | .bound id, value, path => mismatch (.bound id) value path
  | .inference id, value, path => mismatch (.inference id) value path
termination_by structural descriptor => descriptor

def validateItems : List TypeDescriptor → List RuntimeValue → String → Nat → Decoding Unit
  | item :: items, value :: values, path, index => do
      validateValueRef item value s!"{path}.{index}"
      validateItems items values path (index + 1)
  | _, _, _, _ => return ()
termination_by structural items => items

def validateFields : List (String × TypeDescriptor) → RuntimeValue → String → Decoding Unit
  | [], _, _ => return ()
  | (name, item) :: fields, value, path => do
      match view.dictValue value name with
      | some entry => validateValueRef item entry s!"{path}.{name}"
      | none => .none
      validateFields fields value path
termination_by structural fields => fields

/-- The payload of the variant of a tag. -/
def validateVariant : List (String × Option TypeDescriptor) → String → RuntimeValue → String →
    Decoding Unit
  | [], tag, _, path => throw s!"{path} has unknown Enum variant '{tag}"
  | (name, none) :: variants, tag, value, path =>
      if tag = name then throw s!"{path} variant '{tag} does not accept a payload"
      else validateVariant variants tag value path
  | (name, some payload) :: variants, tag, value, path =>
      if tag = name then validateValueRef payload value s!"{path}.{tag}"
      else validateVariant variants tag value path
termination_by structural variants => variants

def validateAny : List TypeDescriptor → RuntimeValue → String → Decoding Bool
  | [], _, _ => return false
  | variant :: variants, value, path => do
      if ← isOk (validateValueRef variant value path) then return true
      else validateAny variants value path
termination_by structural variants => variants

end

end Check

section Member

variable (view : HeapView)

def tupleItems : RuntimeValue → Option (List RuntimeValue)
  | .tuple handle =>
      match view.object handle with
      | .ok (.tuple values) => some (values.map (·.value))
      | _ => none
  | _ => none

/-- The plain kinds of values. -/
def IsKind : ValueKind → RuntimeValue → Prop
  | kind, value => (valueKind value).Is kind

mutual

/-- The members of a type, by the structure of the type. A member of `TypeOf` is metadata
of a type that is assignable both ways. -/
def Member : TypeDescriptor → RuntimeValue → Prop
  | .any, _ => True
  | .never, _ => False
  | .type, value => ∃ d, view.Describes value d
  | .typeOf expected, value =>
      ∃ d, view.Describes value d ∧ assignable d expected = true ∧ assignable expected d = true
  | .dyn, value => IsKind .dyn value
  | .int, value => IsKind .int value
  | .float, value => IsKind .float value
  | .string, value => IsKind .string value
  | .bytes, value => IsKind .bytes value
  | .opaqueType expected, value =>
      ∃ actual, view.opaqueNativeType value = some actual ∧ actual.id = expected.id
  | .atom tag, value => view.asAtom value = some tag.name
  | .array item, value =>
      ∃ items, view.arrayItems value = some items ∧ ∀ x ∈ items, Member item x
  | .dict item, value =>
      ∃ found, view.entries value = some found ∧ ∀ entry ∈ found, Member item entry.2
  | .tagged tag payload, value =>
      ∃ t p, view.tagAndPayload value = some (t, p) ∧ view.asAtom t = some tag.name ∧
        Member payload p
  | .tuple items, value => ∃ values, view.tupleItems value = some values ∧ MemberItems items values
  | .struct fields, value =>
      ∃ found, view.entries value = some found ∧ MemberFields fields found
  | .enum variants, value =>
      (∃ tag, view.asAtom value = some tag ∧ variants.lookup tag = some none) ∨
        ∃ t p tag, view.tagAndPayload value = some (t, p) ∧ view.asAtom t = some tag ∧
          MemberPayload variants tag p
  | .union variants, value => MemberAny variants value
  | .function parameters _, value => view.arityOf value = some parameters.length
  | .bound _, _ => False
  | .inference _, _ => False
termination_by structural descriptor => descriptor

def MemberItems : List TypeDescriptor → List RuntimeValue → Prop
  | [], [] => True
  | item :: items, value :: values => Member item value ∧ MemberItems items values
  | _, _ => False
termination_by structural items => items

/-- Exactly the fields, each with a member. -/
def MemberFields : List (String × TypeDescriptor) → List (String × RuntimeValue) → Prop
  | [], [] => True
  | (name, item) :: fields, entry :: found =>
      (name = entry.1 ∧ Member item entry.2) ∧ MemberFields fields found
  | _, _ => False
termination_by structural fields => fields

/-- A payload of the variant that the tag names. -/
def MemberPayload : List (String × Option TypeDescriptor) → String → RuntimeValue → Prop
  | [], _, _ => False
  | (name, none) :: variants, tag, value => tag ≠ name ∧ MemberPayload variants tag value
  | (name, some payload) :: variants, tag, value =>
      (tag = name ∧ Member payload value) ∨ (tag ≠ name ∧ MemberPayload variants tag value)
termination_by structural variants => variants

def MemberAny : List TypeDescriptor → RuntimeValue → Prop
  | [], _ => False
  | variant :: variants, value => Member variant value ∨ MemberAny variants value
termination_by structural variants => variants

end

end Member

section Validate

variable {view : HeapView} {decode : RuntimeValue → String → Decoding TypeDescriptor}

/-- The decoder ends inside a value, with the types that are described there. -/
def DecodesInside (view : HeapView) (decode : RuntimeValue → String → Decoding TypeDescriptor)
    (value : RuntimeValue) : Prop :=
  ∀ part, Relation.ReflTransGen view.Inside part value → ∀ path, (decode part path).Comes ∧
    ∀ d, (decode part path).Is d ↔ view.Describes part d

theorem DecodesInside.inside {value part : RuntimeValue} (h : DecodesInside view decode value)
    (hpart : view.Inside part value) : DecodesInside view decode part :=
  fun inner hinner => h inner (hinner.tail hpart)

theorem mismatch_checks {descriptor : TypeDescriptor} {value : RuntimeValue} {path : String}
    (hlink : value.isLink = false) {p : Prop} (hp : ¬p) :
    Answer.Checks (mismatch descriptor value path) p where
  comes := Answer.bind_comes (valueKind_comes hlink) fun _ _ => Answer.throw_comes
  accepts := by
    refine iff_of_false (fun h => ?_) hp
    obtain ⟨kind, -, h⟩ := Answer.bind_is.mp h
    exact Answer.not_throw_is h

/-- A check that asks for the kind first. -/
theorem kind_checks {value : RuntimeValue} (hlink : value.isLink = false)
    {check : ValueKind → Decoding Unit} {p : Prop}
    (h : ∀ kind, (valueKind value).Is kind → Answer.Checks (check kind) p) :
    Answer.Checks (do check (← valueKind value)) p := by
  obtain ⟨result, hresult⟩ := valueKind_comes hlink
  cases result with
  | error e => cases value <;> cases hresult
  | ok kind =>
      have hcheck : (do check (← valueKind value) : Decoding Unit) = check kind := by
        change valueKind value = _ at hresult
        rw [hresult]
        rfl
      rw [hcheck]
      exact h kind hresult

theorem validateKind_checks {value : RuntimeValue} (hlink : value.isLink = false)
    {kind : ValueKind} {descriptor : TypeDescriptor} {path : String} :
    Answer.Checks (validateKind kind descriptor value path) (IsKind kind value) := by
  refine kind_checks hlink fun actual hactual => .ite (fun h => ?_) fun h => ?_
  · exact .pure (h ▸ hactual)
  · exact mismatch_checks hlink fun hkind => h (hactual.unique hkind)

/-- The check of a descriptor accepts its finite members. -/
def Right (view : HeapView) (decode : RuntimeValue → String → Decoding TypeDescriptor)
    (descriptor : TypeDescriptor) : Prop :=
  ∀ value path, view.FiniteValue value → DecodesInside view decode value →
    Answer.Checks (validateValueRef view decode descriptor value path)
      (view.Member descriptor value)

theorem items_checks {items : List TypeDescriptor} (hitems : ∀ item ∈ items, Right view decode item)
    {values : List RuntimeValue} (hlength : values.length = items.length)
    (hvalues : ∀ value ∈ values, view.FiniteValue value ∧ DecodesInside view decode value)
    (path : String) (index : Nat) :
    Answer.Checks (validateItems view decode items values path index)
      (view.MemberItems items values) := by
  induction items generalizing values index with
  | nil =>
      obtain rfl := List.length_eq_zero_iff.mp hlength
      exact .pure trivial
  | cons item items ih =>
      cases values with
      | nil => cases hlength
      | cons value values =>
          have hvalue := hvalues value List.mem_cons_self
          refine .bind (hitems item List.mem_cons_self _ _ hvalue.1 hvalue.2) fun _ => ?_
          exact ih (fun x hx => hitems x (List.mem_cons_of_mem _ hx)) (Nat.succ.inj hlength)
            (fun x hx => hvalues x (List.mem_cons_of_mem _ hx)) _

theorem payload_checks {variants : List (String × Option TypeDescriptor)}
    (hvariants : ∀ payload ∈ variants.filterMap (·.2), Right view decode payload) (tag : String)
    {value : RuntimeValue} (hfinite : view.FiniteValue value)
    (hdecode : DecodesInside view decode value) (path : String) :
    Answer.Checks (validateVariant view decode variants tag value path)
      (view.MemberPayload variants tag value) := by
  induction variants with
  | nil => exact .throw id
  | cons variant variants ih =>
      obtain ⟨name, payload⟩ := variant
      cases payload with
      | none =>
          refine .ite (fun h => .throw fun hmember => hmember.1 h) fun h => ?_
          exact (ih hvariants).congr (and_iff_right h).symm
      | some payload =>
          obtain ⟨hpayload, hvariants⟩ := List.forall_mem_cons.mp
            (show ∀ p ∈ payload :: variants.filterMap (·.2), Right view decode p from hvariants)
          refine .ite (fun h => ?_) fun h => ?_
          · refine (hpayload _ _ hfinite hdecode).congr ?_
            simp [MemberPayload, h]
          · refine (ih hvariants).congr ?_
            simp [MemberPayload, h]

/-- Some variant accepts, or all of them refuse. -/
theorem any_checks {variants : List TypeDescriptor}
    (hvariants : ∀ variant ∈ variants, Right view decode variant) {value : RuntimeValue}
    (hfinite : view.FiniteValue value) (hdecode : DecodesInside view decode value)
    (path : String) : ∃ accepted, (validateAny view decode variants value path).Is accepted ∧
      (accepted = true ↔ view.MemberAny variants value) := by
  induction variants with
  | nil => exact ⟨false, Answer.pure_is.mpr rfl, by simp [MemberAny]⟩
  | cons variant variants ih =>
      obtain ⟨result, hresult⟩ :=
        (hvariants variant List.mem_cons_self value path hfinite hdecode).comes
      have haccepts := (hvariants variant List.mem_cons_self value path hfinite hdecode).accepts
      obtain ⟨accepted, haccepted, hmember⟩ :=
        ih fun x hx => hvariants x (List.mem_cons_of_mem _ hx)
      cases result with
      | ok =>
          refine ⟨true, ?_, iff_of_true rfl (.inl (haccepts.mp hresult))⟩
          refine Answer.bind_is.mpr ⟨true, ?_, Answer.pure_is.mpr rfl⟩
          rw [hresult]
          exact Answer.pure_is.mpr rfl
      | error e =>
          have hrefuses : ¬view.Member variant value := fun h => by
            have hok := hresult.symm.trans (haccepts.mpr h)
            cases Option.some.inj hok
          refine ⟨accepted, ?_, hmember.trans (or_iff_right hrefuses).symm⟩
          refine Answer.bind_is.mpr ⟨false, ?_, haccepted⟩
          rw [hresult]
          exact Answer.pure_is.mpr rfl

/-- What the fields of a struct are checked in. -/
theorem fields_checks {fields : List (String × TypeDescriptor)}
    (hfields : ∀ item ∈ fields.map (·.2), Right view decode item) {value : RuntimeValue}
    {found : List (String × RuntimeValue)} (hnames : fields.map (·.1) = found.map (·.1))
    (hfound : ∀ entry ∈ found, view.dictValue value entry.1 = some entry.2 ∧
      view.FiniteValue entry.2 ∧ DecodesInside view decode entry.2) (path : String) :
    Answer.Checks (validateFields view decode fields value path)
      (view.MemberFields fields found) := by
  induction fields generalizing found with
  | nil =>
      obtain rfl := List.map_eq_nil_iff.mp hnames.symm
      exact .pure trivial
  | cons field fields ih =>
      obtain ⟨name, item⟩ := field
      cases found with
      | nil => cases hnames
      | cons entry found =>
          obtain ⟨hname, htail⟩ := List.cons.inj hnames
          obtain rfl : name = entry.1 := hname
          obtain ⟨hvalue, hfinite, hdecode⟩ := hfound entry List.mem_cons_self
          have hitem := hfields item List.mem_cons_self entry.2 s!"{path}.{entry.1}" hfinite hdecode
          rw [validateFields, hvalue]
          have hrest := ih (fun x hx => hfields x (List.mem_cons_of_mem _ hx)) htail
            fun x hx => hfound x (List.mem_cons_of_mem _ hx)
          exact (Answer.Checks.bind hitem fun _ => hrest).congr (by simp [MemberFields])

theorem MemberItems.length_eq {items : List TypeDescriptor} {values : List RuntimeValue}
    (h : view.MemberItems items values) : items.length = values.length := by
  induction items generalizing values with
  | nil => cases values <;> first | rfl | exact h.elim
  | cons item items ih =>
      cases values with
      | nil => exact h.elim
      | cons value values => exact congrArg (· + 1) (ih h.2)

theorem MemberFields.names_eq {fields : List (String × TypeDescriptor)}
    {found : List (String × RuntimeValue)} (h : view.MemberFields fields found) :
    fields.map (·.1) = found.map (·.1) := by
  induction fields generalizing found with
  | nil => cases found <;> first | rfl | exact h.elim
  | cons field fields ih =>
      cases found with
      | nil => exact h.elim
      | cons entry found => exact congrArg₂ List.cons h.1.1 (ih h.2)

/-- An entry of a dict is what the dict has under its name. -/
theorem dictValue_of_mem (hview : view.DictsOrdered) {value : RuntimeValue}
    {found : List (String × RuntimeValue)} (h : view.entries value = some found)
    {entry : String × RuntimeValue} (hmem : entry ∈ found) :
    view.dictValue value entry.1 = some entry.2 := by
  have hnodup : (found.map Prod.fst).Nodup := (entries_sorted hview h).imp fun hlt => ne_of_lt hlt
  rw [dictValue_eq hview, h, Option.bind_some, lookup_of_mem hnodup hmem]

theorem nativeValue_of_kind {value : RuntimeValue} (h : (valueKind value).Is .opaqueValue) :
    ∃ handle, value = .opaqueValue handle := by
  cases value <;> simp_all [valueKind]

theorem array_of_kind {value : RuntimeValue} (h : (valueKind value).Is .array) :
    ∃ handle, value = .array handle := by
  cases value <;> simp_all [valueKind]

theorem tuple_of_kind {value : RuntimeValue} (h : (valueKind value).Is .tuple) :
    ∃ handle, value = .tuple handle := by
  cases value <;> simp_all [valueKind]

theorem tagAndPayload_of_atom {value : RuntimeValue} {tag : String}
    (h : view.asAtom value = some tag) : view.tagAndPayload value = none := by
  cases value <;> first | rfl | cases h

theorem kind_of_nativeValue {value : RuntimeValue} {nativeType : NativeType}
    (h : view.opaqueNativeType value = some nativeType) : (valueKind value).Is .opaqueValue := by
  cases value <;> first | exact Answer.pure_is.mpr rfl | cases h

theorem kind_of_arrayItems {value : RuntimeValue} {items : List RuntimeValue}
    (h : view.arrayItems value = some items) : (valueKind value).Is .array := by
  cases value <;> first | exact Answer.pure_is.mpr rfl | cases h

theorem kind_of_tupleItems {value : RuntimeValue} {items : List RuntimeValue}
    (h : view.tupleItems value = some items) : (valueKind value).Is .tuple := by
  cases value <;> first | exact Answer.pure_is.mpr rfl | cases h

theorem arrayItems_of_readable {handle : Handle} (h : view.Readable (.array handle)) :
    ∃ items, view.arrayItems (.array handle) = some items ∧
      view.sequenceItems (.array handle) = some items := by
  obtain ⟨values, hobject⟩ := h
  refine ⟨values.map (·.value), ?_, ?_⟩
  · simp only [arrayItems, hobject]
  · simp only [sequenceItems_array, arrayItems, hobject]

theorem tupleItems_of_readable {handle : Handle} (h : view.Readable (.tuple handle)) :
    ∃ items, view.tupleItems (.tuple handle) = some items ∧
      view.sequenceItems (.tuple handle) = some items := by
  obtain ⟨values, hobject⟩ := h
  refine ⟨values.map (·.value), by simp only [tupleItems, hobject], ?_⟩
  simp [sequenceItems, sequence, hobject, bind, Except.bind, pure, Except.pure, Except.toOption]

theorem inside_of_tupleItems {value : RuntimeValue} {items : List RuntimeValue}
    (h : view.tupleItems value = some items) {item : RuntimeValue} (hmem : item ∈ items) :
    view.Inside item value := by
  unfold tupleItems at h
  split at h
  · split at h
    · rename_i hobject
      obtain rfl := Option.some.inj h
      obtain ⟨rich, hrich, rfl⟩ := List.mem_map.mp hmem
      exact .tuple hobject hrich
    · cases h
  · cases h

theorem inside_of_tagged {value tag payload : RuntimeValue}
    (h : view.tagAndPayload value = some (tag, payload)) :
    view.Inside tag value ∧ view.Inside payload value := by
  unfold tagAndPayload at h
  split at h
  · rename_i handle
    unfold tagged at h
    cases hobject : view.object handle with
    | error e => simp [hobject, bind, Except.bind, Except.toOption] at h
    | ok object =>
        cases object with
        | tagged t p =>
            simp only [hobject, bind, Except.bind, pure, Except.pure, Except.toOption,
              Option.map_some, Option.some.injEq, Prod.mk.injEq] at h
            obtain ⟨rfl, rfl⟩ := h
            exact ⟨.tag hobject, .payload hobject⟩
        | _ => simp [hobject, bind, Except.bind, throw, throwThe, MonadExceptOf.throw,
            Except.toOption] at h
  · cases h

/-- The check of a finite value ends, and it accepts exactly the members. -/
theorem validate_checks (hview : view.DictsOrdered) (descriptor : TypeDescriptor) :
    Right view decode descriptor := by
  induction descriptor using parts_induction with
  | step descriptor ih =>
  intro value path hfinite hdecode
  have hlink := hfinite.not_link
  cases descriptor with
  | any => exact .pure trivial
  | never => exact .throw id
  | bound | inference => exact mismatch_checks hlink id
  | dyn | int | float | string | bytes => exact validateKind_checks hlink
  | type =>
      obtain ⟨hcomes, hiff⟩ := hdecode value .refl path
      refine ⟨Answer.bind_comes hcomes fun _ _ => Answer.pure_comes, ?_⟩
      constructor
      · intro h
        obtain ⟨d, hd, -⟩ := Answer.bind_is.mp h
        exact ⟨d, (hiff d).mp hd⟩
      · rintro ⟨d, hd⟩
        exact Answer.bind_is.mpr ⟨d, (hiff d).mpr hd, Answer.pure_is.mpr rfl⟩
  | typeOf expected =>
      obtain ⟨hcomes, hiff⟩ := hdecode value .refl path
      refine ⟨Answer.bind_comes hcomes fun d _ => ?_, ?_⟩
      · split <;> simp
      constructor
      · intro h
        obtain ⟨d, hd, h⟩ := Answer.bind_is.mp h
        split at h
        · rename_i hboth
          exact ⟨d, (hiff d).mp hd, Bool.and_eq_true_iff.mp hboth⟩
        · exact absurd h Answer.not_throw_is
      · rintro ⟨d, hd, hboth⟩
        refine Answer.bind_is.mpr ⟨d, (hiff d).mpr hd, ?_⟩
        rw [if_pos (Bool.and_eq_true_iff.mpr hboth)]
        exact Answer.pure_is.mpr rfl
  | atom tag => exact .ite (fun h => .pure h) fun h => .throw h
  | opaqueType expected =>
      refine kind_checks hlink fun kind hkind => .ite (fun h => ?_) fun h => ?_
      · subst h
        obtain ⟨handle, rfl⟩ := nativeValue_of_kind hkind
        obtain ⟨opaqueValue, hobject⟩ := hfinite.readable
        simp only [opaqueNativeType, hobject, Member, Option.some.injEq, exists_eq_left']
        exact .ite (fun h => .pure h) fun h => .throw h
      · refine mismatch_checks hlink ?_
        rintro ⟨actual, hactual, -⟩
        exact h (hkind.unique (kind_of_nativeValue hactual))
  | array item =>
      refine kind_checks hlink fun kind hkind => .ite (fun h => ?_) fun h => ?_
      · subst h
        obtain ⟨handle, rfl⟩ := array_of_kind hkind
        obtain ⟨items, hitems, hsequence⟩ := arrayItems_of_readable hfinite.readable
        simp only [hsequence, Member, hitems, Option.some.injEq, exists_eq_left']
        refine (Answer.Checks.forM (P := fun entry => view.Member item entry.1)
          fun entry hentry => ?_).congr ?_
        · have hmem : entry.1 ∈ items := List.fst_mem_of_mem_zipIdx hentry
          have hinside := inside_of_arrayItems hitems hmem
          exact ih item (by simp [children]) _ _ (hfinite.inside hinside) (hdecode.inside hinside)
        · nth_rewrite 2 [← List.zipIdx_map_fst 0 items]
          exact List.forall_mem_map.symm
      · refine .throw ?_
        rintro ⟨items, hitems, -⟩
        exact h (hkind.unique (kind_of_arrayItems hitems))
  | dict item =>
      rw [validateValueRef, dictNames_eq hview]
      cases hentries : view.entries value with
      | none => exact .throw (by simp [Member, hentries])
      | some found =>
          simp only [Option.map_some, Member, hentries, Option.some.injEq, exists_eq_left']
          refine (Answer.Checks.forM (P := fun name => ∀ entry ∈ found, entry.1 = name →
            view.Member item entry.2) fun name hname => ?_).congr ?_
          · obtain ⟨entry, hentry, rfl⟩ := List.mem_map.mp hname
            have hinside := inside_of_entries hview hentries hentry
            rw [dictValue_of_mem hview hentries hentry]
            refine (ih item (by simp [children]) _ _ (hfinite.inside hinside)
              (hdecode.inside hinside)).congr ?_
            refine ⟨fun h other hother heq => ?_, fun h => h entry hentry rfl⟩
            have hsame := (dictValue_of_mem hview hentries hother).symm.trans
              (heq ▸ dictValue_of_mem hview hentries hentry)
            exact Option.some.inj hsame ▸ h
          · constructor
            · exact fun h entry hentry => h _ (List.mem_map_of_mem hentry) entry hentry rfl
            · exact fun h _ _ entry hentry _ => h entry hentry
  | tagged tag payload =>
      rw [validateValueRef]
      cases htagged : view.tagAndPayload value with
      | none => exact .throw (by simp [Member, htagged])
      | some parts =>
          obtain ⟨t, p⟩ := parts
          have hinside := (inside_of_tagged htagged).2
          simp only [Member, htagged, Option.some.injEq, Prod.mk.injEq]
          refine .ite (fun h => ?_) fun h => .throw ?_
          · refine (ih payload (by simp [children]) p _ (hfinite.inside hinside)
              (hdecode.inside hinside)).congr ?_
            constructor
            · exact fun hp => ⟨t, p, ⟨rfl, rfl⟩, h, hp⟩
            · rintro ⟨_, _, ⟨rfl, rfl⟩, -, hp⟩
              exact hp
          · rintro ⟨_, _, ⟨rfl, rfl⟩, ht, -⟩
            exact h ht
  | tuple items =>
      refine kind_checks hlink fun kind hkind => .ite (fun h => ?_) fun h => ?_
      · subst h
        obtain ⟨handle, rfl⟩ := tuple_of_kind hkind
        obtain ⟨values, hvalues, hsequence⟩ := tupleItems_of_readable hfinite.readable
        simp only [hsequence, Member, hvalues, Option.some.injEq, exists_eq_left']
        refine .ite (fun hlength => ?_) fun hlength => .throw fun h => hlength h.length_eq.symm
        refine items_checks (fun item hitem => ih item (by simpa [children] using hitem)) hlength
          (fun item hitem => ?_) path 0
        have hinside := inside_of_tupleItems hvalues hitem
        exact ⟨hfinite.inside hinside, hdecode.inside hinside⟩
      · refine .throw ?_
        rintro ⟨items, hitems, -⟩
        exact h (hkind.unique (kind_of_tupleItems hitems))
  | struct fields =>
      rw [validateValueRef, dictNames_eq hview]
      cases hentries : view.entries value with
      | none => exact .throw (by simp [Member, hentries])
      | some found =>
          simp only [Option.map_some, Member, hentries, Option.some.injEq, exists_eq_left']
          refine .ite (fun hnames => ?_) fun hnames => .throw fun h => hnames h.names_eq
          refine fields_checks (fun item hitem => ih item (by simpa [children] using hitem)) hnames
            (fun entry hentry => ?_) path
          have hinside := inside_of_entries hview hentries hentry
          exact ⟨dictValue_of_mem hview hentries hentry, hfinite.inside hinside,
            hdecode.inside hinside⟩
  | enum variants =>
      rw [validateValueRef]
      cases hatom : view.asAtom value with
      | some tag =>
          have hnot := tagAndPayload_of_atom hatom
          simp only [Member, hatom, hnot, Option.some.injEq, exists_eq_left', reduceCtorEq,
            false_and, exists_const, or_false]
          cases hlookup : variants.lookup tag with
          | none => exact .throw (by simp)
          | some payload =>
              cases payload with
              | none => exact .pure rfl
              | some payload => exact .throw (by simp)
      | none =>
          cases htagged : view.tagAndPayload value with
          | none => exact .throw (by simp [Member, htagged, hatom])
          | some parts =>
              obtain ⟨t, p⟩ := parts
              have hinside := (inside_of_tagged htagged).2
              simp only [Member, htagged, hatom, Option.some.injEq, Prod.mk.injEq, reduceCtorEq,
                false_and, exists_const, false_or]
              cases htag : view.asAtom t with
              | none =>
                  refine .throw ?_
                  rintro ⟨_, _, tag, ⟨rfl, rfl⟩, h, -⟩
                  cases htag.symm.trans h
              | some tag =>
                  refine (payload_checks (fun payload hpayload => ih payload ?_) tag
                    (hfinite.inside hinside) (hdecode.inside hinside) path).congr ?_
                  · simpa [children] using hpayload
                  · constructor
                    · exact fun h => ⟨t, p, tag, ⟨rfl, rfl⟩, htag, h⟩
                    · rintro ⟨_, _, tag', ⟨rfl, rfl⟩, htag', h⟩
                      exact Option.some.inj (htag.symm.trans htag') ▸ h
  | union variants =>
      obtain ⟨accepted, haccepted, hmember⟩ := any_checks
        (fun variant hvariant => ih variant (by simpa [children] using hvariant)) hfinite hdecode
        path
      refine ⟨Answer.bind_comes haccepted.comes fun _ _ => by split <;> simp, ?_⟩
      refine Answer.bind_is.trans (Iff.trans ?_ hmember)
      constructor
      · rintro ⟨found, hfound, h⟩
        obtain rfl := hfound.unique haccepted
        cases found with
        | true => rfl
        | false => exact absurd h Answer.not_throw_is
      · rintro rfl
        exact ⟨true, haccepted, Answer.pure_is.mpr rfl⟩
  | function parameters result =>
      refine .ite (fun h => .pure h) fun h => ?_
      refine kind_checks hlink fun kind hkind => .ite (fun _ => .throw h) fun _ => ?_
      exact mismatch_checks hlink h

end Validate

end Telora.HeapView
