import Telora.Heap.Access
import Telora.Heap.Export
import Telora.Value.FloatText

/-!
# Writing JSON

The writer follows the graph of a value and keeps the handles it is inside of. The
trees it can write are the values of JSON; what it writes for one is its rendering.
-/

namespace Telora

open Library

namespace Json

/-- The values that JSON text stands for. -/
inductive Tree where
  | null
  | true
  | false
  | int (value : Int)
  | float (value : F64)
  | string (text : String)
  | array (items : List Tree)
  | object (members : List (String × Tree))

section Text

variable (indent : Option Nat)

def intText (value : Int) : List Char :=
  if value < 0 then '-' :: Nat.toDigits 10 value.natAbs else Nat.toDigits 10 value.natAbs

/-- The four hexadecimal digits of a number below `2 ^ 16`. -/
def hexQuadText (value : Nat) : List Char :=
  List.replicate (4 - (Nat.toDigits 16 value).length) '0' ++ Nat.toDigits 16 value

def escapedChar (c : Char) : List Char :=
  if c = '"' then ['\\', '"']
  else if c = '\\' then ['\\', '\\']
  else if c = '\x08' then ['\\', 'b']
  else if c = '\x0c' then ['\\', 'f']
  else if c = '\n' then ['\\', 'n']
  else if c = '\r' then ['\\', 'r']
  else if c = '\t' then ['\\', 't']
  else if c ≤ '\x1f' then '\\' :: 'u' :: hexQuadText c.toNat
  else [c]

def stringText (value : String) : List Char :=
  '"' :: value.toList.flatMap escapedChar ++ ['"']

/-- A new line at a depth, if the text is indented; the width saturates at the word. -/
def newline (depth : Nat) : List Char :=
  match indent with
  | some indent => '\n' :: List.replicate (min (indent * depth) (2 ^ 64 - 1)) ' '
  | none => []

def separator (index depth : Nat) : List Char :=
  (if 0 < index then [','] else []) ++ newline indent depth

def closeCollection (length depth : Nat) (close : Char) : List Char :=
  (if 0 < length then newline indent depth else []) ++ [close]

/-- Texts from an index on, each after its separator. -/
def collectionText (depth : Nat) : Nat → List (List Char) → List Char
  | _, [] => []
  | index, item :: rest =>
      separator indent index depth ++ item ++ collectionText depth (index + 1) rest

def memberText (key : String) (value : List Char) : List Char :=
  stringText key ++ ':' :: (if indent.isSome then [' '] else []) ++ value

mutual

/-- The rendering of a tree at a depth. -/
def Tree.render (depth : Nat) : Tree → List Char
  | .null => "null".toList
  | .true => "true".toList
  | .false => "false".toList
  | .int value => intText value
  | .float value => value.display
  | .string text => stringText text
  | .array items =>
      '[' :: collectionText indent (depth + 1) 0 (renderItems (depth + 1) items) ++
        closeCollection indent items.length depth ']'
  | .object members =>
      '{' :: collectionText indent (depth + 1) 0 (renderMembers (depth + 1) members) ++
        closeCollection indent members.length depth '}'

def renderItems (depth : Nat) : List Tree → List (List Char)
  | [] => []
  | item :: rest => item.render depth :: renderItems depth rest

def renderMembers (depth : Nat) : List (String × Tree) → List (List Char)
  | [] => []
  | (key, value) :: rest =>
      memberText indent key (value.render depth) :: renderMembers depth rest

end

end Text

section Writer

variable (view : HeapView) (indent : Option Nat)

/-- The message of a heap error. -/
def heapMessage {α : Type} (result : Except HeapError α) : Except String α :=
  result.mapError (·.message)

/-- A field of a dict with its name. -/
def namedEntry (entry : InternId × RichValue) : Except HeapError (String × RichValue) := do
  return (← view.text entry.1, entry.2)

/-- Write a value at a depth; `active` holds the collections the writer is inside of. -/
def writeValue : Nat → List Handle → Nat → RuntimeValue → Except String (List Char)
  | 0, _, _, _ => throw "writer is out of fuel"
  | fuel + 1, active, depth, value =>
      match value with
      | .int value => return intText value
      | .float value =>
          if value.isFinite then return value.display
          else throw "JSON cannot encode a non-finite Float"
      | .builtinAtom atom =>
          match atom with
          | .none => return "null".toList
          | .true => return "true".toList
          | .false => return "false".toList
          | atom => throw ("JSON cannot encode '" ++ atom.name)
      | .shortString id => do
          return stringText (← heapMessage (view.text id))
      | .string handle => do
          match ← heapMessage (view.object handle) with
          | .string text => return stringText text
          | _ => throw "invalid String handle"
      | .array handle =>
          if handle ∈ active then throw "JSON cannot encode cyclic values"
          else do
            let values ← heapMessage (view.sequence handle false)
            let items ← values.mapM fun value =>
              writeValue fuel (handle :: active) (depth + 1) value.value
            return '[' :: collectionText indent (depth + 1) 0 items ++
              closeCollection indent items.length depth ']'
      | .dict handle =>
          if handle ∈ active then throw "JSON cannot encode cyclic values"
          else do
            let (fields, values) ← heapMessage (view.dictFieldParts handle)
            let entries ← heapMessage ((fields.zip values).mapM (namedEntry view))
            let members ← entries.mapM fun entry => do
              return memberText indent entry.1
                (← writeValue fuel (handle :: active) (depth + 1) entry.2.value)
            return '{' :: collectionText indent (depth + 1) 0 members ++
              closeCollection indent members.length depth '}'
      | .atom id => do
          throw ("JSON cannot encode '" ++ (← heapMessage (view.text id)))
      | .bytes _ => throw "JSON cannot encode Bytes"
      | .opaqueValue _ => throw "JSON cannot encode Opaque values"
      | .nativeType _ => throw "JSON cannot encode Type values"
      | .tuple _ => throw "JSON cannot encode Tuple; use a codec first"
      | .tagged _ => throw "JSON cannot encode Tagged; use a codec first"
      | .func _ => throw "JSON cannot encode Func"
      | .dyn _ => throw "JSON cannot encode Dyn"
      | .upLink _ => throw "JSON cannot encode an internal up-link"

/-- The text of a value; the fuel bounds the handles the writer is not inside of. -/
def stringify (value : RichValue) : Except String String :=
  String.ofList <$> writeValue view indent (view.handleCount + 1) [] 0 value.value

end Writer

/-- An integer of the runtime. -/
def IsI64 (value : Int) : Prop := -2 ^ 63 ≤ value ∧ value < 2 ^ 63

mutual

/-- The tree that a runtime value unfolds to, when it is a value of JSON. -/
inductive Encodes (view : HeapView) : RuntimeValue → Tree → Prop
  | int {n} : Encodes view (.int n) (.int n)
  | float {x} : x.isFinite = true → Encodes view (.float x) (.float x)
  | none : Encodes view (.builtinAtom .none) .null
  | true : Encodes view (.builtinAtom .true) .true
  | false : Encodes view (.builtinAtom .false) .false
  | shortString {id text} : view.text id = .ok text →
      Encodes view (.shortString id) (.string text)
  | string {handle text} : view.object handle = .ok (.string text) →
      Encodes view (.string handle) (.string text)
  | array {handle values items} : view.object handle = .ok (.array values) →
      EncodesItems view values items → Encodes view (.array handle) (.array items)
  | dict {handle shape fields values entries members} :
      view.object handle = .ok (.dict shape values) → view.shape shape = .ok fields →
      (fields.zip values).mapM (namedEntry view) = .ok entries →
      EncodesMembers view entries members → Encodes view (.dict handle) (.object members)

inductive EncodesItems (view : HeapView) : List RichValue → List Tree → Prop
  | nil : EncodesItems view [] []
  | cons {value values item items} : Encodes view value.value item →
      EncodesItems view values items → EncodesItems view (value :: values) (item :: items)

inductive EncodesMembers (view : HeapView) :
    List (String × RichValue) → List (String × Tree) → Prop
  | nil : EncodesMembers view [] []
  | cons {key value entries member members} : Encodes view value.value member →
      EncodesMembers view entries members →
      EncodesMembers view ((key, value) :: entries) ((key, member) :: members)

end

/-- What every heap of the runtime keeps: a dict has one value for each field of its shape,
whose names increase, and an integer has 64 bits. -/
structure WellFormed (view : HeapView) : Prop where
  fields : ∀ {handle shape values}, view.object handle = .ok (.dict shape values) →
    ∃ names, view.fieldNames shape = .ok names ∧ names.length = values.length ∧
      names.Pairwise (· < ·)
  arrayInts : ∀ {handle values}, view.object handle = .ok (.array values) →
    ∀ value ∈ values, ∀ n, value.value = .int n → IsI64 n
  dictInts : ∀ {handle shape values}, view.object handle = .ok (.dict shape values) →
    ∀ value ∈ values, ∀ n, value.value = .int n → IsI64 n

section Runs

variable {view : HeapView} {indent : Option Nat}

theorem heapMessage_eq_ok {α : Type} {result : Except HeapError α} {a : α} :
    heapMessage result = .ok a ↔ result = .ok a := by
  cases result with
  | error e => exact ⟨fun h => (by cases h), fun h => (by cases h)⟩
  | ok b => exact ⟨fun h => congrArg _ (Except.ok.inj h), fun h => congrArg _ (Except.ok.inj h)⟩

theorem sequence_eq_ok {handle : Handle} {values : List RichValue} :
    view.sequence handle false = .ok values ↔ view.object handle = .ok (.array values) := by
  unfold HeapView.sequence
  rw [bind_eq_ok]
  constructor
  · rintro ⟨object, hobject, h⟩
    cases object <;> first
      | (obtain rfl := pure_eq_ok.mp h; exact hobject)
      | cases h
  · exact fun hobject => ⟨_, hobject, rfl⟩

theorem dictFieldParts_eq_ok {handle : Handle} {fields : List InternId}
    {values : List RichValue} : view.dictFieldParts handle = .ok (fields, values) ↔
      ∃ shape, view.object handle = .ok (.dict shape values) ∧ view.shape shape = .ok fields := by
  unfold HeapView.dictFieldParts HeapView.dictShape
  constructor
  · intro h
    obtain ⟨⟨shape, values'⟩, hdict, h⟩ := bind_eq_ok.mp h
    obtain ⟨object, hobject, hobjectDict⟩ := bind_eq_ok.mp hdict
    obtain ⟨fields', hfields, h⟩ := bind_eq_ok.mp h
    obtain ⟨rfl, rfl⟩ := Prod.mk.inj (pure_eq_ok.mp h)
    cases object <;> first
      | (obtain ⟨rfl, rfl⟩ := Prod.mk.inj (pure_eq_ok.mp hobjectDict)
         exact ⟨_, hobject, hfields⟩)
      | cases hobjectDict
  · rintro ⟨shape, hobject, hfields⟩
    exact bind_eq_ok.mpr ⟨_, bind_eq_ok.mpr ⟨_, hobject, rfl⟩,
      bind_eq_ok.mpr ⟨_, hfields, rfl⟩⟩

theorem encodesItems_of_forall₂ {values : List RichValue} {texts : List (List Char)} {depth : Nat}
    (h : List.Forall₂ (fun value text =>
      ∃ tree, Encodes view value.value tree ∧ text = tree.render indent depth) values texts) :
    ∃ items, EncodesItems view values items ∧ texts = renderItems indent depth items ∧
      texts.length = items.length := by
  induction h with
  | nil => exact ⟨[], .nil, rfl, rfl⟩
  | cons hvalue _ ih =>
      obtain ⟨tree, htree, rfl⟩ := hvalue
      obtain ⟨items, hitems, rfl, hlength⟩ := ih
      exact ⟨tree :: items, .cons htree hitems, rfl, congrArg (· + 1) hlength⟩

theorem encodesMembers_of_forall₂ {entries : List (String × RichValue)} {texts : List (List Char)}
    {depth : Nat} (h : List.Forall₂ (fun entry text =>
      ∃ tree, Encodes view entry.2.value tree ∧
        text = memberText indent entry.1 (tree.render indent depth)) entries texts) :
    ∃ members, EncodesMembers view entries members ∧
      texts = renderMembers indent depth members ∧ texts.length = members.length := by
  induction h with
  | nil => exact ⟨[], .nil, rfl, rfl⟩
  | @cons entry _ _ _ hvalue _ ih =>
      obtain ⟨tree, htree, rfl⟩ := hvalue
      obtain ⟨members, hmembers, rfl, hlength⟩ := ih
      exact ⟨(entry.1, tree) :: members, .cons htree hmembers, rfl, congrArg (· + 1) hlength⟩

/-- What is written is the rendering of the tree that the value unfolds to. -/
theorem writeValue_sound (fuel : Nat) : ∀ active depth value text,
    writeValue view indent fuel active depth value = .ok text →
      ∃ tree, Encodes view value tree ∧ text = tree.render indent depth := by
  induction fuel with
  | zero => intro active depth value text h; cases h
  | succ fuel ih =>
      intro active depth value text h
      cases value with
      | int n => exact ⟨_, .int, (pure_eq_ok.mp h).symm⟩
      | float x =>
          simp only [writeValue] at h
          split at h
          · next hfinite => exact ⟨_, .float hfinite, (pure_eq_ok.mp h).symm⟩
          · cases h
      | builtinAtom atom =>
          cases atom <;> first
            | exact ⟨_, .none, (pure_eq_ok.mp h).symm⟩
            | exact ⟨_, .true, (pure_eq_ok.mp h).symm⟩
            | exact ⟨_, .false, (pure_eq_ok.mp h).symm⟩
            | cases h
      | shortString id =>
          obtain ⟨content, hcontent, h⟩ := bind_eq_ok.mp h
          exact ⟨_, .shortString (heapMessage_eq_ok.mp hcontent), (pure_eq_ok.mp h).symm⟩
      | string handle =>
          obtain ⟨object, hobject, h⟩ := bind_eq_ok.mp h
          cases object <;> first
            | exact ⟨_, .string (heapMessage_eq_ok.mp hobject), (pure_eq_ok.mp h).symm⟩
            | cases h
      | array handle =>
          obtain ⟨hnew, h⟩ := ite_error_eq_ok.mp h
          obtain ⟨values, hvalues, h⟩ := bind_eq_ok.mp h
          obtain ⟨texts, htexts, h⟩ := bind_eq_ok.mp h
          obtain rfl := pure_eq_ok.mp h
          obtain ⟨items, hitems, rfl, hlength⟩ := encodesItems_of_forall₂
            ((mapM_eq_ok.mp htexts).imp fun value text htext => ih _ _ _ _ htext)
          refine ⟨_, .array (sequence_eq_ok.mp (heapMessage_eq_ok.mp hvalues)) hitems, ?_⟩
          rw [hlength]
          rfl
      | dict handle =>
          obtain ⟨hnew, h⟩ := ite_error_eq_ok.mp h
          obtain ⟨⟨fields, values⟩, hparts, h⟩ := bind_eq_ok.mp h
          obtain ⟨entries, hentries, h⟩ := bind_eq_ok.mp h
          obtain ⟨texts, htexts, h⟩ := bind_eq_ok.mp h
          obtain rfl := pure_eq_ok.mp h
          obtain ⟨shape, hobject, hshape⟩ := dictFieldParts_eq_ok.mp (heapMessage_eq_ok.mp hparts)
          have hwritten : ∀ (entry : String × RichValue) (text : List Char), (do
              return memberText indent entry.1
                (← writeValue view indent fuel (handle :: active) (depth + 1) entry.2.value)) =
                  Except.ok text → ∃ tree, Encodes view entry.2.value tree ∧
                    text = memberText indent entry.1 (tree.render indent (depth + 1)) := by
            intro entry text htext
            obtain ⟨written, hwritten, htext⟩ := bind_eq_ok.mp htext
            obtain ⟨tree, htree, rfl⟩ := ih _ _ _ _ hwritten
            exact ⟨tree, htree, (pure_eq_ok.mp htext).symm⟩
          obtain ⟨members, hmembers, rfl, hlength⟩ :=
            encodesMembers_of_forall₂ ((mapM_eq_ok.mp htexts).imp hwritten)
          refine ⟨_, .dict hobject hshape (heapMessage_eq_ok.mp hentries) hmembers, ?_⟩
          rw [hlength]
          rfl
      | atom id =>
          obtain ⟨content, -, h⟩ := bind_eq_ok.mp h
          cases h
      | _ => cases h

/-- The entries of a well-formed dict hold all its values. -/
theorem WellFormed.entries (hview : WellFormed view) {handle : Handle} {shape : ShapeId}
    {fields : List InternId} {values : List RichValue} {entries : List (String × RichValue)}
    (hobject : view.object handle = .ok (.dict shape values))
    (hshape : view.shape shape = .ok fields)
    (hentries : (fields.zip values).mapM (namedEntry view) = .ok entries) :
    view.fieldNames shape = .ok (entries.map (·.1)) ∧ entries.map (·.2) = values ∧
      (entries.map (·.1)).Pairwise (· < ·) := by
  obtain ⟨names, hnames, hlength, hsorted⟩ := hview.fields hobject
  obtain ⟨fields', hshape', htexts⟩ := bind_eq_ok.mp hnames
  obtain rfl := Except.ok.inj (hshape.symm.trans hshape')
  have hlengths : fields.length = values.length :=
    (mapM_eq_ok.mp htexts).length_eq.trans hlength
  have hparts : entries.map (·.1) = names ∧ entries.map (·.2) = values := by
    replace htexts := mapM_eq_ok.mp htexts
    replace hentries := mapM_eq_ok.mp hentries
    clear hobject hshape hshape' hnames hsorted hlength
    induction htexts generalizing values entries with
    | nil =>
        cases values with
        | nil => cases hentries; exact ⟨rfl, rfl⟩
        | cons value values => cases hlengths
    | cons hname _ ih =>
        cases values with
        | nil => cases hlengths
        | cons value values =>
            cases hentries with
            | cons hentry hrest =>
                obtain ⟨hnames, hvalues⟩ := ih (Nat.succ.inj hlengths) hrest
                obtain ⟨name, hname', hentry⟩ := bind_eq_ok.mp hentry
                obtain rfl := Except.ok.inj (hname.symm.trans hname')
                obtain rfl := pure_eq_ok.mp hentry
                exact ⟨congrArg (_ :: ·) hnames, congrArg (_ :: ·) hvalues⟩
  obtain ⟨rfl, hvalues⟩ := hparts
  exact ⟨hnames, hvalues, hsorted⟩

open HeapView in
mutual

/-- The handle of a value that encodes a tree unfolds. -/
theorem Encodes.unfolds (hview : WellFormed view) {value : RuntimeValue} {tree : Tree} :
    Encodes view value tree → ∀ next, .object next ∈ value.refs → view.Unfolds next
  | .int => unfolds_nil
  | .float _ => unfolds_nil
  | .none => unfolds_nil
  | .true => unfolds_nil
  | .false => unfolds_nil
  | .shortString _ => fun _ hmem => by cases List.mem_singleton.mp hmem
  | .string hobject => (@Denotes.string view False _ _ hobject).unfolds
  | .array hobject hitems =>
      (Unfolds.step hobject (by simp) (by simp) (hitems.unfolds hview)).single
  | .dict hobject hshape hentries hmembers => by
      obtain ⟨-, hvalues, -⟩ := hview.entries hobject hshape hentries
      refine (Unfolds.step hobject (by simp) (by simp) fun next hmem => ?_).single
      rcases List.mem_cons.mp hmem with hshape | hmem
      · cases hshape
      · rw [← hvalues] at hmem
        exact hmembers.unfolds hview next hmem

theorem EncodesItems.unfolds (hview : WellFormed view) {values : List RichValue}
    {items : List Tree} : EncodesItems view values items →
      ∀ next, .object next ∈ values.flatMap RichValue.refs → view.Unfolds next
  | .nil => unfolds_nil
  | .cons hvalue hrest => unfolds_append (hvalue.unfolds hview) (hrest.unfolds hview)

theorem EncodesMembers.unfolds (hview : WellFormed view) {entries : List (String × RichValue)}
    {members : List (String × Tree)} : EncodesMembers view entries members →
      ∀ next, .object next ∈ (entries.map (·.2)).flatMap RichValue.refs → view.Unfolds next
  | .nil => unfolds_nil
  | .cons hvalue hrest => unfolds_append (hvalue.unfolds hview) (hrest.unfolds hview)

end

open HeapView in
mutual

/-- A value that encodes a tree is written as the rendering of the tree. -/
theorem Encodes.written (hview : WellFormed view) {value : RuntimeValue} {tree : Tree}
    {fuel : Nat} (depth : Nat) {active : List Handle}
    (hfuel : view.Descending fuel active value.refs) :
    Encodes view value tree →
      writeValue view indent fuel active depth value = .ok (tree.render indent depth)
  | .int => by
      obtain ⟨fuel, rfl⟩ := hfuel.fuel_succ
      rfl
  | .float hfinite => by
      obtain ⟨fuel, rfl⟩ := hfuel.fuel_succ
      exact if_pos hfinite
  | .none => by
      obtain ⟨fuel, rfl⟩ := hfuel.fuel_succ
      rfl
  | .true => by
      obtain ⟨fuel, rfl⟩ := hfuel.fuel_succ
      rfl
  | .false => by
      obtain ⟨fuel, rfl⟩ := hfuel.fuel_succ
      rfl
  | .shortString htext => by
      obtain ⟨fuel, rfl⟩ := hfuel.fuel_succ
      exact bind_eq_ok.mpr ⟨_, heapMessage_eq_ok.mpr htext, rfl⟩
  | .string hobject => by
      obtain ⟨fuel, rfl⟩ := hfuel.fuel_succ
      exact bind_eq_ok.mpr ⟨_, heapMessage_eq_ok.mpr hobject, rfl⟩
  | .array hobject hitems => by
      obtain ⟨fuel, rfl⟩ := hfuel.fuel_succ
      obtain ⟨hbelow, -, hnew⟩ := hfuel.enter hobject
        (.step hobject (by simp) (by simp) (hitems.unfolds hview))
      obtain ⟨hwritten, hlength⟩ := hitems.written hview (depth + 1) hbelow
      refine ite_error_eq_ok.mpr ⟨hnew, bind_eq_ok.mpr ⟨_, heapMessage_eq_ok.mpr
        (sequence_eq_ok.mpr hobject), bind_eq_ok.mpr ⟨_, hwritten, ?_⟩⟩⟩
      rw [hlength]
      rfl
  | .dict hobject hshape hentries hmembers => by
      obtain ⟨fuel, rfl⟩ := hfuel.fuel_succ
      obtain ⟨-, hvalues, -⟩ := hview.entries hobject hshape hentries
      have hunfolds := hmembers.unfolds hview
      rw [hvalues] at hunfolds
      obtain ⟨hbelow, -, hnew⟩ := hfuel.enter hobject
        (.step hobject (by simp) (by simp) fun next hmem =>
          (List.mem_cons.mp hmem).elim (fun h => by cases h) (hunfolds next))
      replace hbelow := hbelow.mono (List.subset_cons_self _ _)
      rw [← hvalues] at hbelow
      obtain ⟨hwritten, hlength⟩ := hmembers.written hview (depth + 1) hbelow
      refine ite_error_eq_ok.mpr ⟨hnew, bind_eq_ok.mpr ⟨_, heapMessage_eq_ok.mpr
        (dictFieldParts_eq_ok.mpr ⟨_, hobject, hshape⟩), bind_eq_ok.mpr ⟨_,
          heapMessage_eq_ok.mpr hentries, bind_eq_ok.mpr ⟨_, hwritten, ?_⟩⟩⟩⟩
      rw [hlength]
      rfl

theorem EncodesItems.written (hview : WellFormed view) {values : List RichValue}
    {items : List Tree} {fuel : Nat} (depth : Nat) {active : List Handle}
    (hfuel : view.Descending fuel active (values.flatMap RichValue.refs)) :
    EncodesItems view values items →
      values.mapM (fun value => writeValue view indent fuel active depth value.value) =
        .ok (renderItems indent depth items) ∧
      (renderItems indent depth items).length = items.length
  | .nil => ⟨rfl, rfl⟩
  | .cons hvalue hrest => by
      obtain ⟨hwritten, hlength⟩ := hrest.written hview depth (hfuel.mono (List.subset_append_right _ _))
      have hfirst := hvalue.written hview depth (hfuel.mono (List.subset_append_left _ _))
      refine ⟨mapM_eq_ok.mpr (.cons hfirst (mapM_eq_ok.mp hwritten)), ?_⟩
      exact congrArg (· + 1) hlength

theorem EncodesMembers.written (hview : WellFormed view) {entries : List (String × RichValue)}
    {members : List (String × Tree)} {fuel : Nat} (depth : Nat) {active : List Handle}
    (hfuel : view.Descending fuel active ((entries.map (·.2)).flatMap RichValue.refs)) :
    EncodesMembers view entries members →
      entries.mapM (fun entry => do
        return memberText indent entry.1
          (← writeValue view indent fuel active depth entry.2.value)) =
            .ok (renderMembers indent depth members) ∧
      (renderMembers indent depth members).length = members.length
  | .nil => ⟨rfl, rfl⟩
  | .cons hvalue hrest => by
      obtain ⟨hwritten, hlength⟩ := hrest.written hview depth (hfuel.mono (List.subset_append_right _ _))
      have hfirst := hvalue.written hview depth (hfuel.mono (List.subset_append_left _ _))
      refine ⟨mapM_eq_ok.mpr (.cons (bind_eq_ok.mpr ⟨_, hfirst, rfl⟩) (mapM_eq_ok.mp hwritten)), ?_⟩
      exact congrArg (· + 1) hlength

end

/-- A view in which the strings, arrays, dicts, texts and shapes of another view are still
there. -/
structure DataIn (view view' : HeapView) : Prop where
  strings : ∀ {handle text}, view.object handle = .ok (.string text) →
    view'.object handle = .ok (.string text)
  arrays : ∀ {handle values}, view.object handle = .ok (.array values) →
    view'.object handle = .ok (.array values)
  dicts : ∀ {handle shape values}, view.object handle = .ok (.dict shape values) →
    view'.object handle = .ok (.dict shape values)
  texts : ∀ {id text}, view.text id = .ok text → view'.text id = .ok text
  shapes : ∀ {id fields}, view.shape id = .ok fields → view'.shape id = .ok fields

theorem DataIn.namedEntries {view view' : HeapView} (h : DataIn view view')
    {fields : List (InternId × RichValue)} {entries : List (String × RichValue)}
    (hentries : fields.mapM (namedEntry view) = .ok entries) :
    fields.mapM (namedEntry view') = .ok entries := by
  refine mapM_eq_ok.mpr ((mapM_eq_ok.mp hentries).imp fun field entry hentry => ?_)
  obtain ⟨name, hname, hentry⟩ := bind_eq_ok.mp hentry
  exact bind_eq_ok.mpr ⟨name, h.texts hname, hentry⟩

mutual

/-- A value encodes the same tree where the data is still there. -/
theorem Encodes.dataIn {view' : HeapView} (h : DataIn view view') {value : RuntimeValue}
    {tree : Tree} : Encodes view value tree → Encodes view' value tree
  | .int => .int
  | .float hfinite => .float hfinite
  | .none => .none
  | .true => .true
  | .false => .false
  | .shortString htext => .shortString (h.texts htext)
  | .string hobject => .string (h.strings hobject)
  | .array hobject hitems => .array (h.arrays hobject) (hitems.dataIn h)
  | .dict hobject hshape hentries hmembers =>
      .dict (h.dicts hobject) (h.shapes hshape) (h.namedEntries hentries) (hmembers.dataIn h)

theorem EncodesItems.dataIn {view' : HeapView} (h : DataIn view view')
    {values : List RichValue} {items : List Tree} :
    EncodesItems view values items → EncodesItems view' values items
  | .nil => .nil
  | .cons hvalue hrest => .cons (hvalue.dataIn h) (hrest.dataIn h)

theorem EncodesMembers.dataIn {view' : HeapView} (h : DataIn view view')
    {entries : List (String × RichValue)} {members : List (String × Tree)} :
    EncodesMembers view entries members → EncodesMembers view' entries members
  | .nil => .nil
  | .cons hvalue hrest => .cons (hvalue.dataIn h) (hrest.dataIn h)

end

/-- A view with the data of a well-formed view, and no other, is well-formed. -/
theorem WellFormed.dataIn {view' : HeapView} (hview : WellFormed view) (h : DataIn view view')
    (h' : DataIn view' view) : WellFormed view' where
  fields := by
    intro handle shape values hobject
    obtain ⟨names, hnames, hrest⟩ := hview.fields (h'.dicts hobject)
    obtain ⟨fields, hfields, htexts⟩ := bind_eq_ok.mp hnames
    have htexts' := mapM_eq_ok.mpr ((mapM_eq_ok.mp htexts).imp fun _ _ htext => h.texts htext)
    exact ⟨names, bind_eq_ok.mpr ⟨fields, h.shapes hfields, htexts'⟩, hrest⟩
  arrayInts := fun hobject => hview.arrayInts (h'.arrays hobject)
  dictInts := fun hobject => hview.dictInts (h'.dicts hobject)

/-- The text of a value that encodes a tree, at every indentation. -/
theorem Encodes.stringify (hview : WellFormed view) {value : RichValue} {tree : Tree}
    (h : Encodes view value.value tree) :
    stringify view indent value = .ok (String.ofList (tree.render indent 0)) := by
  have hstart : view.Descending (view.handleCount + 1) [] value.value.refs :=
    ⟨⟨List.nodup_nil, List.nil_subset _, by
      rw [HeapView.length_handles]
      exact Nat.lt_succ_self _⟩, fun _ hmem => absurd hmem List.not_mem_nil⟩
  rw [Json.stringify, h.written hview 0 hstart]
  rfl

/-- A value that encodes no tree has no text. -/
theorem stringify_error {value : RichValue} (h : ∀ tree, ¬Encodes view value.value tree) :
    ∃ message, stringify view indent value = .error message := by
  cases hrun : writeValue view indent (view.handleCount + 1) [] 0 value.value with
  | error message => exact ⟨message, by rw [stringify, hrun]; rfl⟩
  | ok text =>
      obtain ⟨tree, htree, -⟩ := writeValue_sound _ _ _ _ _ hrun
      exact absurd htree (h tree)

end Runs

end Json

end Telora
