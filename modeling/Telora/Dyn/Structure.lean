import Telora.Dyn.Observe
import Telora.Heap.Alike
import Telora.Heap.Dicts

/-!
# Observations of copies

An observer run on copies of a descriptor and a value reads the same names, tags and
kinds at every step, and components that are copies. So the two runs are in step, save
where `fields` compares the ids of a struct with the ids of a value.
-/

namespace Telora

open Library

namespace HeapView

/-- Copies, wherever they come from. -/
def RichAlike (left right : HeapView) (a b : RichValue) : Prop :=
  left.Alike right a.value b.value

/-- Dicts with the same names whose values are copies. -/
def DictAlike (left right : HeapView) (dict dict' : Handle) : Prop :=
  ∃ ids ids' names values values', left.DictAt dict ids names values ∧
    right.DictAt dict' ids' names values' ∧ List.Forall₂ (left.RichAlike right) values values'

/-- Sequences whose values are copies. -/
def SequenceAlike (left right : HeapView) (tuple : Bool) (handle handle' : Handle) : Prop :=
  ∃ values values', left.sequence handle tuple = .ok values ∧
    right.sequence handle' tuple = .ok values' ∧
    List.Forall₂ (left.RichAlike right) values values'

section Kinds

variable {left right view : HeapView} {a b : RuntimeValue}

theorem node_array {values : List RuntimeValue} (h : view.node a = some (.array, values)) :
    ∃ handle items, a = .array handle ∧ view.sequence handle false = .ok items ∧
      values = items.map (·.value) := by
  cases a with
  | array handle =>
      simp only [HeapView.node] at h
      split at h
      · rename_i items hobject
        refine ⟨handle, items, rfl, ?_, (Prod.mk.inj (Option.some.inj h)).2.symm⟩
        rw [sequence, hobject]
        rfl
      · cases h
  | tuple | tagged => simp only [HeapView.node] at h; split at h <;> cases h
  | dict =>
      simp only [HeapView.node] at h
      split at h
      · obtain ⟨_, -, h⟩ := Option.map_eq_some_iff.mp h
        cases h
      · cases h
  | _ => cases h

theorem node_tuple {values : List RuntimeValue} (h : view.node a = some (.tuple, values)) :
    ∃ handle items, a = .tuple handle ∧ view.sequence handle true = .ok items ∧
      values = items.map (·.value) := by
  cases a with
  | tuple handle =>
      simp only [HeapView.node] at h
      split at h
      · rename_i items hobject
        refine ⟨handle, items, rfl, ?_, (Prod.mk.inj (Option.some.inj h)).2.symm⟩
        rw [sequence, hobject]
        rfl
      · cases h
  | array | tagged => simp only [HeapView.node] at h; split at h <;> cases h
  | dict =>
      simp only [HeapView.node] at h
      split at h
      · obtain ⟨_, -, h⟩ := Option.map_eq_some_iff.mp h
        cases h
      · cases h
  | _ => cases h

theorem node_tagged {values : List RuntimeValue} (h : view.node a = some (.tagged, values)) :
    ∃ handle tag payload, a = .tagged handle ∧ view.tagged handle = .ok (tag, payload) ∧
      values = [tag.value, payload.value] := by
  cases a with
  | tagged handle =>
      simp only [HeapView.node] at h
      split at h
      · rename_i tag payload hobject
        refine ⟨handle, tag, payload, rfl, ?_, (Prod.mk.inj (Option.some.inj h)).2.symm⟩
        rw [HeapView.tagged, hobject]
        rfl
      · cases h
  | array | tuple => simp only [HeapView.node] at h; split at h <;> cases h
  | dict =>
      simp only [HeapView.node] at h
      split at h
      · obtain ⟨_, -, h⟩ := Option.map_eq_some_iff.mp h
        cases h
      · cases h
  | _ => cases h

theorem node_dict {names : List String} {values : List RuntimeValue}
    (h : view.node a = some (.dict names, values)) :
    ∃ handle ids items, a = .dict handle ∧ view.DictAt handle ids names items ∧
      values = items.map (·.value) := by
  cases a with
  | dict handle =>
      simp only [HeapView.node] at h
      split at h
      · rename_i shape items hobject
        obtain ⟨names', hnames, h⟩ := Option.map_eq_some_iff.mp h
        obtain ⟨hlabel, rfl⟩ := Prod.mk.inj h
        obtain rfl := Label.dict.inj hlabel
        cases hfields : view.fieldNames shape with
        | error e => rw [hfields] at hnames; cases hnames
        | ok names'' =>
            rw [hfields] at hnames
            obtain rfl := Option.some.inj hnames
            obtain ⟨ids, hids, htexts⟩ := bind_eq_ok.mp hfields
            exact ⟨handle, ids, items, rfl, ⟨⟨shape, hobject, hids⟩, htexts⟩, rfl⟩
      · cases h
  | array | tuple | tagged => simp only [HeapView.node] at h; split at h <;> cases h
  | _ => cases h

theorem forall₂_richAlike {values values' : List RichValue}
    (h : List.Forall₂ (left.Alike right) (values.map (·.value)) (values'.map (·.value))) :
    List.Forall₂ (left.RichAlike right) values values' := by
  rwa [List.forall₂_map_left_iff, List.forall₂_map_right_iff] at h

/-- How copies look to an observer: links to copies, dicts of copies, sequences of copies,
tagged copies, or leaves with the same content. -/
inductive Looks (left right : HeapView) : RuntimeValue → RuntimeValue → Prop where
  | upLink {link link' : Handle} {target target' : Option RichValue}
      (htarget : left.upLink link = .ok target) (htarget' : right.upLink link' = .ok target')
      (h : Option.Rel (left.RichAlike right) target target') :
      Looks left right (.upLink link) (.upLink link')
  | dict {dict dict' : Handle} (h : left.DictAlike right dict dict') :
      Looks left right (.dict dict) (.dict dict')
  | array {items items' : Handle} (h : left.SequenceAlike right false items items') :
      Looks left right (.array items) (.array items')
  | tuple {items items' : Handle} (h : left.SequenceAlike right true items items') :
      Looks left right (.tuple items) (.tuple items')
  | tagged {handle handle' : Handle} {tag tag' payload payload' : RichValue}
      (h : left.tagged handle = .ok (tag, payload)) (h' : right.tagged handle' = .ok (tag', payload'))
      (htag : left.RichAlike right tag tag') (hpayload : left.RichAlike right payload payload') :
      Looks left right (.tagged handle) (.tagged handle')
  | leaf {a b : RuntimeValue} {leaf : Leaf} (h : left.leaf a = some leaf)
      (h' : right.leaf b = some leaf) : Looks left right a b

theorem Alike.looks (h : left.Alike right a b) : left.Looks right a b := by
  rcases h.step with ⟨link, link', target, target', rfl, rfl, htarget, htarget', hrel⟩ |
    ⟨leaf, ha, hb⟩ | ⟨label, as, bs, ha, hb, hrel⟩
  · exact .upLink htarget htarget' hrel
  · exact .leaf ha hb
  · cases label with
    | array =>
        obtain ⟨handle, items, rfl, hitems, rfl⟩ := node_array ha
        obtain ⟨handle', items', rfl, hitems', rfl⟩ := node_array hb
        exact .array ⟨items, items', hitems, hitems', forall₂_richAlike hrel⟩
    | tuple =>
        obtain ⟨handle, items, rfl, hitems, rfl⟩ := node_tuple ha
        obtain ⟨handle', items', rfl, hitems', rfl⟩ := node_tuple hb
        exact .tuple ⟨items, items', hitems, hitems', forall₂_richAlike hrel⟩
    | tagged =>
        obtain ⟨handle, tag, payload, rfl, htagged, rfl⟩ := node_tagged ha
        obtain ⟨handle', tag', payload', rfl, htagged', rfl⟩ := node_tagged hb
        obtain ⟨htag, hpayload, -⟩ := List.forall₂_cons.mp hrel |>.imp id List.forall₂_cons.mp
        exact .tagged htagged htagged' htag hpayload
    | dict names =>
        obtain ⟨handle, ids, items, rfl, hdict, rfl⟩ := node_dict ha
        obtain ⟨handle', ids', items', rfl, hdict', rfl⟩ := node_dict hb
        exact .dict ⟨ids, ids', names, items, items', hdict, hdict', forall₂_richAlike hrel⟩

end Kinds

/-- The name of an atom. -/
def atomName : Leaf → Option String
  | .atom name => some name
  | _ => none

theorem atomText_of_leaf {view : HeapView} {value : RuntimeValue} {leaf : Leaf}
    (h : view.leaf value = some leaf) : view.atomText value = .ok (atomName leaf) := by
  cases value with
  | builtinAtom =>
      obtain rfl := Option.some.inj h
      rfl
  | atom id =>
      obtain ⟨text, htext, rfl⟩ := Option.map_eq_some_iff.mp h
      cases hid : view.text id with
      | error e => rw [hid] at htext; cases htext
      | ok text' =>
          rw [hid] at htext
          obtain rfl := Option.some.inj htext
          rw [atomText, hid]
          rfl
  | shortString id =>
      obtain ⟨text, -, rfl⟩ := Option.map_eq_some_iff.mp h
      rfl
  | int | float => obtain rfl := Option.some.inj h; rfl
  | array | tuple | tagged | dict | upLink => cases h
  | _ =>
      simp only [HeapView.leaf] at h
      split at h
      · obtain rfl := Option.some.inj h
        rfl
      · cases h

section Runs

variable {left right : HeapView}

/-- Copies are the same atom, or neither is an atom. -/
theorem Looks.atomText {a b : RuntimeValue} (h : left.Looks right a b) :
    ∃ found, left.atomText a = .ok found ∧ right.atomText b = .ok found := by
  cases h with
  | leaf ha hb => exact ⟨_, atomText_of_leaf ha, atomText_of_leaf hb⟩
  | _ => exact ⟨none, rfl, rfl⟩

theorem Looks.asDict {a b : RuntimeValue} (h : left.Looks right a b) :
    Option.Rel (left.DictAlike right) a.asDict b.asDict := by
  cases h with
  | dict h => exact .some h
  | leaf ha hb =>
      have hnone : ∀ {view : HeapView} {value leaf}, view.leaf value = some leaf →
          value.asDict = none := by
        intro view value leaf h
        cases value <;> first | rfl | cases h
      rw [hnone ha, hnone hb]
      exact .none
  | _ => exact .none

theorem Looks.asArray {a b : RuntimeValue} (h : left.Looks right a b) :
    Option.Rel (left.SequenceAlike right false) a.asArray b.asArray := by
  cases h with
  | array h => exact .some h
  | leaf ha hb =>
      have hnone : ∀ {view : HeapView} {value leaf}, view.leaf value = some leaf →
          value.asArray = none := by
        intro view value leaf h
        cases value <;> first | rfl | cases h
      rw [hnone ha, hnone hb]
      exact .none
  | _ => exact .none

theorem Looks.asTuple {a b : RuntimeValue} (h : left.Looks right a b) :
    Option.Rel (left.SequenceAlike right true) a.asTuple b.asTuple := by
  cases h with
  | tuple h => exact .some h
  | leaf ha hb =>
      have hnone : ∀ {view : HeapView} {value leaf}, view.leaf value = some leaf →
          value.asTuple = none := by
        intro view value leaf h
        cases value <;> first | rfl | cases h
      rw [hnone ha, hnone hb]
      exact .none
  | _ => exact .none

/-- A read that succeeds on both sides. -/
theorem reading_inStep {α β : Type} {R : α → β → Prop} {read : Except HeapError α}
    {read' : Except HeapError β} {a : α} {b : β} (h : read = .ok a) (h' : read' = .ok b)
    (hrel : R a b) : InStep R (reading read) (reading read') := by
  subst h h'
  exact .returned hrel

theorem DictAlike.get {dict dict' : Handle} (h : left.DictAlike right dict dict') (name : String) :
    InStep (Option.Rel (left.RichAlike right)) (reading (left.dictGetText dict name))
      (reading (right.dictGetText dict' name)) := by
  obtain ⟨ids, ids', names, values, values', hdict, hdict', hrel⟩ := h
  refine reading_inStep (hdict.dictGetText name) (hdict'.dictGetText name) ?_
  rw [lookupName, lookupName]
  cases binarySearchBy (fun index => compare (names[index]?.getD "") name) names.length with
  | none => exact .none
  | some index => exact forall₂_getElem? hrel index

theorem DictAlike.atomField {dict dict' : Handle} (h : left.DictAlike right dict dict')
    (name : String) : InStep Eq (left.atomField dict name) (right.atomField dict' name) := by
  refine (h.get name).bind fun hfound => .returned ?_
  cases hfound with
  | none => rfl
  | some hvalue =>
      obtain ⟨found, hleft, hright⟩ := hvalue.looks.atomText
      rw [Option.bind_some, Option.bind_some, hleft, hright]

/-- A field that both sides read, and refuse alike when it is missing. -/
theorem DictAlike.getOrThrow {dict dict' : Handle} (h : left.DictAlike right dict dict')
    (name error : String) :
    InStep (left.RichAlike right) (reading (left.dictGetText dict name) >>= orThrow error)
      (reading (right.dictGetText dict' name) >>= orThrow error) :=
  (h.get name).bind fun hfound => .orThrow hfound

theorem orThrow_inStep_eq {α ε : Type} {error : ε} {found found' : Option α} (h : found = found') :
    InStep Eq (orThrow error found) (orThrow error found') := by
  subst h
  cases found with
  | none => exact .failed error
  | some value => exact .returned rfl

/-- A leaf is no type metadata. -/
theorem normalizeDynDescriptor_leaf {view : HeapView} {descriptor : RichValue} {leaf : Leaf}
    (h : view.leaf descriptor.value = some leaf) (fuel : Nat) :
    view.normalizeDynDescriptor (fuel + 1) descriptor =
      throw "Dyn descriptor is not canonical Type metadata" := by
  obtain ⟨value, provenance⟩ := descriptor
  cases value with
  | dict | upLink => cases h
  | _ => rfl

/-- The type metadata under copies of a descriptor are copies. -/
theorem normalizeDynDescriptor_inStep (fuel : Nat) {descriptor descriptor' : RichValue}
    (h : left.RichAlike right descriptor descriptor') :
    InStep (left.RichAlike right) (left.normalizeDynDescriptor fuel descriptor)
      (right.normalizeDynDescriptor fuel descriptor') := by
  induction fuel generalizing descriptor descriptor' with
  | zero => exact .running
  | succ fuel ih =>
      obtain ⟨value, provenance⟩ := descriptor
      obtain ⟨value', provenance'⟩ := descriptor'
      have hlooks := Alike.looks h
      simp only [normalizeDynDescriptor]
      cases hlooks with
      | upLink htarget htarget' hrel =>
          exact (reading_inStep htarget htarget' hrel).bind fun hfound =>
            (InStep.orThrow hfound).bind ih
      | dict hdict =>
          refine (hdict.atomField "kind").bind fun hkind => ?_
          refine (orThrow_inStep_eq hkind).bind fun hkind => ?_
          subst hkind
          refine .ite Iff.rfl (fun _ => .returned h) fun _ => ?_
          exact (hdict.get "inner").bind fun hinner => (InStep.orThrow hinner).bind ih
      | leaf ha hb =>
          have hleft := normalizeDynDescriptor_leaf ha fuel
          have hright := normalizeDynDescriptor_leaf hb fuel
          simp only [normalizeDynDescriptor] at hleft hright
          rw [hleft, hright]
          exact .failed _
      | _ => exact .failed _

theorem collectAttributes_inStep {entries entries' : List (InternId × RichValue)}
    (h : List.Forall₂ (fun x y => ∃ text, left.text x.1 = .ok text ∧ right.text y.1 = .ok text)
      entries entries') (collected collected' : List (String × RichValue)) :
    InStep (fun _ _ => True) (left.collectAttributes collected entries)
      (right.collectAttributes collected' entries') := by
  refine InStep.foldlM (S := fun _ _ => True) ?_ h trivial
  rintro _ _ x y - ⟨text, htext, htext'⟩
  exact (reading_inStep (R := Eq) htext htext' rfl).bind fun _ => .returned trivial

theorem stripRuntimeAttributes_leaf {view : HeapView} {value : RichValue} {leaf : Leaf}
    (h : view.leaf value.value = some leaf) (path : String) (fuel : Nat)
    (collected : List (String × RichValue)) :
    view.stripRuntimeAttributes path (fuel + 1) value collected = pure (value, collected) := by
  obtain ⟨value, provenance⟩ := value
  cases value with
  | dict => cases h
  | _ => rfl

/-- The attributes of copies come off in step, and leave copies. -/
theorem stripRuntimeAttributes_inStep (path : String) (fuel : Nat) {value value' : RichValue}
    (h : left.RichAlike right value value') (collected collected' : List (String × RichValue)) :
    InStep (fun p q => left.RichAlike right p.1 q.1)
      (left.stripRuntimeAttributes path fuel value collected)
      (right.stripRuntimeAttributes path fuel value' collected') := by
  induction fuel generalizing value value' collected collected' with
  | zero => exact .running
  | succ fuel ih =>
      obtain ⟨content, provenance⟩ := value
      obtain ⟨content', provenance'⟩ := value'
      have hlooks := Alike.looks h
      simp only [stripRuntimeAttributes]
      cases hlooks with
      | dict hdict =>
          refine (hdict.atomField "kind").bind fun hkind => ?_
          subst hkind
          refine .ite Iff.rfl (fun _ => .returned h) fun _ => ?_
          obtain ⟨ids, ids', names, values, values', hat, hat', hrel⟩ := id hdict
          refine (reading_inStep (R := Eq) hat.dictFields hat'.dictFields rfl).bind
            fun hfields => ?_
          subst hfields
          refine .ite Iff.rfl (fun _ => .failed _) fun _ => ?_
          refine (hdict.get "attributes").bind fun hfound => ?_
          refine (InStep.orThrow hfound).bind fun hattributes => ?_
          refine (InStep.orThrow hattributes.looks.asDict).bind fun hinner => ?_
          obtain ⟨keys, keys', texts, layer, layer', hlayer, hlayer', hvalues⟩ := hinner
          refine (reading_inStep (R := fun p q => p = (keys, layer) ∧ q = (keys', layer'))
            hlayer.dictFieldParts hlayer'.dictFieldParts ⟨rfl, rfl⟩).bind ?_
          rintro _ _ ⟨rfl, rfl⟩
          have hentries := forall₂_zip (sameTexts hlayer.texts hlayer'.texts) hvalues
          refine (collectAttributes_inStep (hentries.imp fun _ _ h => h.1) _ _).bind fun _ => ?_
          refine (hdict.get "inner").bind fun hfound => ?_
          exact (InStep.orThrow hfound).bind fun hinner => ih hinner _ _
      | leaf ha hb =>
          have hleft := stripRuntimeAttributes_leaf ha path fuel collected
          have hright := stripRuntimeAttributes_leaf hb path fuel collected'
          simp only [stripRuntimeAttributes] at hleft hright
          rw [hleft, hright]
          exact .returned h
      | _ => exact .returned h

/-- Two descriptors and two values that are copies. -/
def PairAlike (left right : HeapView) (a b : RichValue × RichValue) : Prop :=
  left.RichAlike right a.1 b.1 ∧ left.RichAlike right a.2 b.2

/-- The same observation of copies: equal names and tags, and components that are copies. -/
inductive SameObservation (left right : HeapView) : DynObservation → DynObservation → Prop where
  | child {descriptor descriptor' value value' : RichValue}
      (hdescriptor : left.RichAlike right descriptor descriptor')
      (hvalue : left.RichAlike right value value') :
      SameObservation left right (.child descriptor value) (.child descriptor' value')
  | children {items items' : List (RichValue × RichValue)}
      (h : List.Forall₂ (left.PairAlike right) items items') :
      SameObservation left right (.children items) (.children items')
  | namedChildren {fields fields' : List (String × RichValue × RichValue)}
      (h : List.Forall₂ (fun x y => x.1 = y.1 ∧ left.PairAlike right x.2 y.2) fields fields') :
      SameObservation left right (.namedChildren fields) (.namedChildren fields')
  | tag (tag : String) : SameObservation left right (.tag tag) (.tag tag)
  | payload {found found' : Option (RichValue × RichValue)}
      (h : Option.Rel (left.PairAlike right) found found') :
      SameObservation left right (.payload found) (.payload found')

section Kind

variable {kind : String} {metadata metadata' : Handle}
  (hmetadata : left.DictAlike right metadata metadata')

include hmetadata

theorem typeField_inStep (name : String) :
    InStep (left.RichAlike right) (left.typeField kind metadata name)
      (right.typeField kind metadata' name) :=
  hmetadata.getOrThrow name _

theorem fieldDescriptor_inStep (name : String) :
    InStep (left.RichAlike right) (left.fieldDescriptor kind metadata name)
      (right.fieldDescriptor kind metadata' name) := by
  refine .ite Iff.rfl (fun _ => ?_) fun _ => .ite Iff.rfl (fun _ => ?_) fun _ => .failed _
  · refine (typeField_inStep hmetadata "fields").bind fun hfields => ?_
    exact (InStep.orThrow hfields.looks.asDict).bind fun hfields => hfields.getOrThrow name _
  · exact typeField_inStep hmetadata "item"

theorem observeField_inStep (name : String) {value value' : RichValue}
    (h : left.RichAlike right value value') :
    InStep (left.SameObservation right) (left.observeField kind metadata name value)
      (right.observeField kind metadata' name value') := by
  refine (InStep.orThrow h.looks.asDict).bind fun hdict => ?_
  refine (hdict.get name).bind fun hfound => ?_
  refine (InStep.orThrow hfound).bind fun hchild => ?_
  exact (fieldDescriptor_inStep hmetadata name).bind fun hdescriptor =>
    .returned (.child hdescriptor hchild)

theorem observeArrayItems_inStep {value value' : RichValue}
    (h : left.RichAlike right value value') :
    InStep (left.SameObservation right) (left.observeArrayItems kind metadata value)
      (right.observeArrayItems kind metadata' value') := by
  refine .ite Iff.rfl (fun _ => .failed _) fun _ => ?_
  refine (InStep.orThrow h.looks.asArray).bind fun harray => ?_
  obtain ⟨values, values', hvalues, hvalues', hrel⟩ := harray
  refine (typeField_inStep hmetadata "item").bind fun hitem => ?_
  refine (reading_inStep hvalues hvalues' hrel).bind fun hrel => .returned (.children ?_)
  rw [List.forall₂_map_left_iff, List.forall₂_map_right_iff]
  exact hrel.imp fun _ _ hvalue => ⟨hitem, hvalue⟩

theorem observeTupleItems_inStep {value value' : RichValue}
    (h : left.RichAlike right value value') :
    InStep (left.SameObservation right) (left.observeTupleItems kind metadata value)
      (right.observeTupleItems kind metadata' value') := by
  refine .ite Iff.rfl (fun _ => .failed _) fun _ => ?_
  refine (InStep.orThrow h.looks.asTuple).bind fun htuple => ?_
  obtain ⟨values, values', hvalues, hvalues', hrel⟩ := htuple
  refine (typeField_inStep hmetadata "items").bind fun hitems => ?_
  refine (InStep.orThrow hitems.looks.asArray).bind fun harray => ?_
  obtain ⟨items, items', hread, hread', hitemsRel⟩ := harray
  refine (reading_inStep hread hread' hitemsRel).bind fun hitemsRel => ?_
  refine (reading_inStep hvalues hvalues' hrel).bind fun hrel => ?_
  refine .ite ?_ (fun _ => .failed _) fun _ => .returned (.children (forall₂_zip hitemsRel hrel))
  rw [hitemsRel.length_eq, hrel.length_eq]

end Kind

/-- The type metadata declares the fields of a struct in a dict. -/
def Declares (view : HeapView) (metadata declared : Handle) : Prop :=
  ∃ fields, view.dictGetText metadata "fields" = .ok (some fields) ∧
    fields.value.asDict = some declared

/-- The ids of the fields of a dict. -/
def fieldIds (view : HeapView) (dict : Handle) : Except HeapError (List InternId) :=
  (view.dictFieldParts dict).map Prod.fst

@[simp] theorem returns_reading {α : Type} {read : Except HeapError α} {a : α} :
    Returns (reading read) a ↔ read = .ok a := by
  cases read with
  | error e => exact ⟨fun h => (by cases Option.some.inj h), fun h => (by cases h)⟩
  | ok b =>
      constructor
      · intro h
        obtain rfl : b = a := Except.ok.inj (Option.some.inj h)
        rfl
      · rintro h
        obtain rfl := Except.ok.inj h
        rfl

theorem returns_typeField {view : HeapView} {kind name : String} {metadata : Handle}
    {found : RichValue} : Returns (view.typeField kind metadata name) found ↔
      view.dictGetText metadata name = .ok (some found) := by
  rw [typeField, returns_bind]
  simp only [returns_reading, returns_orThrow, exists_eq_right]

/-- Fields of one name whose descriptors and values are copies. -/
def FieldAlike (left right : HeapView) (x y : (InternId × RichValue) × RichValue) : Prop :=
  ((∃ text, left.text x.1.1 = .ok text ∧ right.text y.1.1 = .ok text) ∧
    left.RichAlike right x.1.2 y.1.2) ∧ left.RichAlike right x.2 y.2

theorem namedChild_inStep {x y : (InternId × RichValue) × RichValue}
    (h : left.FieldAlike right x y) :
    InStep (fun x y => x.1 = y.1 ∧ left.PairAlike right x.2 y.2) (left.namedChild x)
      (right.namedChild y) := by
  obtain ⟨⟨⟨text, htext, htext'⟩, hdescriptor⟩, hvalue⟩ := h
  refine (reading_inStep (R := Eq) htext htext' rfl).bind fun hname => ?_
  exact .returned ⟨hname, hdescriptor, hvalue⟩

section Fields

variable {kind : String} {metadata metadata' : Handle}

/-- The field descriptors of copies are copies, where the ids of a struct's names agree with
those of the value on both sides or on neither. -/
theorem fieldDescriptors_inStep (hmetadata : left.DictAlike right metadata metadata')
    {ids ids' : List InternId} {values values' : List RichValue}
    (hvalues : List.Forall₂ (left.RichAlike right) values values')
    (hids : kind = "Struct" → ∀ declared declared', left.Declares metadata declared →
      right.Declares metadata' declared' →
      (left.fieldIds declared = .ok ids ↔ right.fieldIds declared' = .ok ids')) :
    InStep (List.Forall₂ (left.RichAlike right))
      (left.fieldDescriptors kind metadata ids values)
      (right.fieldDescriptors kind metadata' ids' values') := by
  refine .ite Iff.rfl (fun hkind => ?_) fun _ => .ite Iff.rfl (fun _ => ?_) fun _ => .failed _
  · refine (typeField_inStep hmetadata "fields").bind_returns fun hfound hfound' hfields => ?_
    refine (InStep.orThrow hfields.looks.asDict).bind_returns fun hdict hdict' hdeclared => ?_
    obtain ⟨keys, keys', names, descriptors, descriptors', hat, hat', hrel⟩ := hdeclared
    have hcompare := hids hkind _ _ ⟨_, returns_typeField.mp hfound, returns_orThrow.mp hdict⟩
      ⟨_, returns_typeField.mp hfound', returns_orThrow.mp hdict'⟩
    rw [fieldIds, fieldIds, hat.dictFieldParts, hat'.dictFieldParts] at hcompare
    refine (reading_inStep (R := fun p q => p = (keys, descriptors) ∧
      q = (keys', descriptors')) hat.dictFieldParts hat'.dictFieldParts ⟨rfl, rfl⟩).bind ?_
    rintro _ _ ⟨rfl, rfl⟩
    refine .ite ?_ (fun _ => .failed _) fun _ => .returned hrel
    rw [not_iff_not]
    exact ⟨fun h => Except.ok.inj (hcompare.mp (congrArg Except.ok h)),
      fun h => Except.ok.inj (hcompare.mpr (congrArg Except.ok h))⟩
  · refine (typeField_inStep hmetadata "item").bind fun hitem => .returned ?_
    rw [hvalues.length_eq]
    exact forall₂_replicate hitem values'.length

theorem observeFields_inStep (hmetadata : left.DictAlike right metadata metadata')
    {value value' : RichValue} (h : left.RichAlike right value value')
    (hids : kind = "Struct" → ∀ declared declared' present present', left.Declares metadata declared →
      right.Declares metadata' declared' → value.value.asDict = some present →
      value'.value.asDict = some present' →
      (left.fieldIds declared = left.fieldIds present ↔
        right.fieldIds declared' = right.fieldIds present')) :
    InStep (left.SameObservation right) (left.observeFields kind metadata value)
      (right.observeFields kind metadata' value') := by
  refine (InStep.orThrow h.looks.asDict).bind_returns fun hdict hdict' halike => ?_
  rename_i present present'
  obtain ⟨ids, ids', names, values, values', hat, hat', hrel⟩ := halike
  refine (reading_inStep (R := fun p q => p = (ids, values) ∧ q = (ids', values'))
    hat.dictFieldParts hat'.dictFieldParts ⟨rfl, rfl⟩).bind ?_
  rintro _ _ ⟨rfl, rfl⟩
  refine (fieldDescriptors_inStep hmetadata hrel ?_).bind fun hdescriptors => ?_
  · intro hkind declared declared' hdeclared hdeclared'
    have hcompare := hids hkind declared declared' present present' hdeclared hdeclared'
      (returns_orThrow.mp hdict) (returns_orThrow.mp hdict')
    rwa [show left.fieldIds present = .ok ids by rw [fieldIds, hat.dictFieldParts]; rfl,
      show right.fieldIds present' = .ok ids' by rw [fieldIds, hat'.dictFieldParts]; rfl] at hcompare
  · have hfields := forall₂_zip (forall₂_zip (sameTexts hat.texts hat'.texts) hdescriptors) hrel
    refine (InStep.mapM (fun h => namedChild_inStep h)
      (show List.Forall₂ (left.FieldAlike right) _ _ from hfields)).bind fun hfields => ?_
    exact .returned (.namedChildren hfields)

end Fields

section Tags

variable {kind : String} {metadata metadata' : Handle}

theorem runtimeTag_leaf {view : HeapView} {value : RichValue} {leaf : Leaf}
    (h : view.leaf value.value = some leaf) : view.runtimeTag kind value =
      (orThrow s!"dyn tagged observer expected Atom or Tagged for {kind}" (atomName leaf)) >>=
        fun name => pure (name, none) := by
  have hatom := atomText_of_leaf h
  obtain ⟨content, provenance⟩ := value
  rw [runtimeTag]
  cases content with
  | builtinAtom atom =>
      obtain rfl := Option.some.inj h
      rfl
  | atom id =>
      obtain ⟨name, -, rfl⟩ := Option.map_eq_some_iff.mp h
      simp only [hatom]
      rfl
  | shortString id =>
      obtain ⟨text, -, rfl⟩ := Option.map_eq_some_iff.mp h
      rfl
  | int | float => obtain rfl := Option.some.inj h; rfl
  | array | tuple | tagged | dict | upLink => cases h
  | _ =>
      simp only [HeapView.leaf] at h
      split at h
      · obtain rfl := Option.some.inj h
        rfl
      · cases h

theorem runtimeTag_inStep {value value' : RichValue} (h : left.RichAlike right value value') :
    InStep (fun p q => p.1 = q.1 ∧ Option.Rel (left.RichAlike right) p.2 q.2)
      (left.runtimeTag kind value) (right.runtimeTag kind value') := by
  obtain ⟨content, provenance⟩ := value
  obtain ⟨content', provenance'⟩ := value'
  have hlooks := Alike.looks h
  cases hlooks with
  | tagged hread hread' htag hpayload =>
      obtain ⟨found, hfound, hfound'⟩ := htag.looks.atomText
      rename_i tag tag' payload payload'
      refine (reading_inStep (R := fun p q => p = (tag, payload) ∧ q = (tag', payload'))
        hread hread' ⟨rfl, rfl⟩).bind ?_
      rintro _ _ ⟨rfl, rfl⟩
      refine (reading_inStep (R := Eq) hfound hfound' rfl).bind fun hname => ?_
      refine (orThrow_inStep_eq hname).bind fun hname => ?_
      exact .returned ⟨hname, .some hpayload⟩
  | leaf ha hb =>
      rw [runtimeTag_leaf ha, runtimeTag_leaf hb]
      exact (orThrow_inStep_eq rfl).bind fun hname => .returned ⟨hname, .none⟩
  | _ => exact .failed _

/-- Tags that are equal, and payloads with descriptors that are copies. -/
def PartsAlike (left right : HeapView) (p q : String × Option (RichValue × RichValue)) : Prop :=
  p.1 = q.1 ∧ Option.Rel (left.PairAlike right) p.2 q.2

theorem variantPayload_inStep (tag : String) (unit : Bool) {variant variant' : RichValue}
    (hvariant : left.RichAlike right variant variant') {payload payload' : Option RichValue}
    (h : Option.Rel (left.RichAlike right) payload payload') :
    InStep (left.PartsAlike right) (variantPayload tag variant unit payload)
      (variantPayload tag variant' unit payload') := by
  cases h with
  | none => exact .ite Iff.rfl (fun _ => .returned ⟨rfl, .none⟩) fun _ => .failed _
  | some hpayload =>
      exact .ite Iff.rfl (fun _ => .failed _) fun _ => .returned ⟨rfl, .some ⟨hvariant, hpayload⟩⟩

section Metadata

variable (hmetadata : left.DictAlike right metadata metadata')

include hmetadata

theorem atomDescriptorParts_inStep (tag : String) {payload payload' : Option RichValue}
    (h : Option.Rel (left.RichAlike right) payload payload') :
    InStep (left.PartsAlike right) (left.atomDescriptorParts metadata tag payload)
      (right.atomDescriptorParts metadata' tag payload') := by
  refine (hmetadata.atomField "tag").bind fun hexpected => ?_
  refine (orThrow_inStep_eq hexpected).bind fun hexpected => ?_
  subst hexpected
  refine .ite ?_ (fun _ => .failed _) fun _ => .returned ⟨rfl, .none⟩
  cases h <;> rfl

theorem taggedDescriptorParts_inStep (tag : String) {payload payload' : Option RichValue}
    (h : Option.Rel (left.RichAlike right) payload payload') :
    InStep (left.PartsAlike right) (left.taggedDescriptorParts metadata tag payload)
      (right.taggedDescriptorParts metadata' tag payload') := by
  refine (hmetadata.atomField "tag").bind fun hexpected => ?_
  refine (orThrow_inStep_eq hexpected).bind fun hexpected => ?_
  subst hexpected
  refine .ite Iff.rfl (fun _ => .failed _) fun _ => ?_
  refine (InStep.orThrow h).bind fun hpayload => ?_
  refine (hmetadata.get "payload").bind fun hfound => ?_
  exact (InStep.orThrow hfound).bind fun hdescriptor =>
    .returned ⟨rfl, .some ⟨hdescriptor, hpayload⟩⟩

theorem enumDescriptorParts_inStep (fuel : Nat) (tag : String)
    {payload payload' : Option RichValue} (h : Option.Rel (left.RichAlike right) payload payload') :
    InStep (left.PartsAlike right) (left.enumDescriptorParts fuel metadata tag payload)
      (right.enumDescriptorParts fuel metadata' tag payload') := by
  refine (hmetadata.get "variants").bind fun hfound => ?_
  refine (InStep.orThrow hfound).bind fun hvariants => ?_
  refine (InStep.orThrow hvariants.looks.asDict).bind fun hdict => ?_
  refine (hdict.get tag).bind fun hfound => ?_
  refine (InStep.orThrow hfound).bind fun hvariant => ?_
  refine (stripRuntimeAttributes_inStep _ fuel hvariant [] []).bind ?_
  rintro ⟨inner, collected⟩ ⟨inner', collected'⟩ hinner
  obtain ⟨found, hread, hread'⟩ := Looks.atomText (Alike.looks hinner)
  dsimp only at hread hread' ⊢
  rw [hread, hread']
  exact variantPayload_inStep tag _ hvariant h

theorem dynTaggedParts_inStep (fuel : Nat) {value value' : RichValue}
    (h : left.RichAlike right value value') :
    InStep (left.PartsAlike right) (left.dynTaggedParts fuel kind metadata value)
      (right.dynTaggedParts fuel kind metadata' value') := by
  refine (runtimeTag_inStep h).bind ?_
  rintro ⟨tag, payload⟩ ⟨_, payload'⟩ ⟨rfl, hpayload⟩
  refine .ite Iff.rfl (fun _ => atomDescriptorParts_inStep hmetadata tag hpayload) fun _ => ?_
  refine .ite Iff.rfl (fun _ => taggedDescriptorParts_inStep hmetadata tag hpayload) fun _ => ?_
  exact .ite Iff.rfl (fun _ => enumDescriptorParts_inStep hmetadata fuel tag hpayload)
    fun _ => .failed _

end Metadata

end Tags

end Runs

end HeapView

end Telora
