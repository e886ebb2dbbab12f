import Telora.Codec.Node
import Telora.Json.RoundTrip
import Telora.Vm.Account

/-!
# The JSON natives

`stringify`, `stringify_pretty` with the function it configures, and `parse`, on the heap
of a machine. What they charge to the account is left out: a charge that is refused ends
the run before the result is in the heap.
-/

namespace Telora.Json

open Library Vm

inductive TextFunction where
  | stringify | stringifyPretty | stringifyPrettyValue | parse
  deriving DecidableEq, Repr

/-- The text of a string value. -/
def asStr (view : HeapView) (value : RichValue) : Option String :=
  match value.value with
  | .shortString id => (view.text id).toOption
  | .string handle =>
      match view.object handle with
      | .ok (.string text) => some text
      | _ => none
  | _ => none

section Natives

variable (errorLength : Mode → List Char → Nat) (parser : Parser)
  (fragments : String → List (List Char)) (prettyValue : NativeFunction) (site : Site)
  (background : Heap)

/-- Write a value and put the text in the heap. -/
def runStringify (indent : Option Nat) (value : RichValue) (current : Heap) :
    Except RuntimeError (RichValue × Heap) :=
  match stringify ⟨current, some background⟩ indent value with
  | .error message => .error (site.error .typeMismatch message)
  | .ok text =>
      let (text, current) := current.string (some background) text
      .ok (.new text site.location, current)

/-- Configure the indentation; `prettyValue` is the native that the closure runs. -/
def runStringifyPretty (identity : Nat) (indent : RichValue) (current : Heap) :
    Except RuntimeError (RichValue × Heap) :=
  match indent.value with
  | .int width =>
      if 0 ≤ width ∧ width ≤ 16 then
        let (closure, current) := current.allocate (.closure identity (.native prettyValue)
          [.new (.int width) indent.loc])
        .ok (.new (.func closure) site.location, current)
      else
        .error (site.error .typeMismatch
          "std/json.stringify_pretty indent must be between 0 and 16")
  | _ => .error (site.typeError "Int" indent ⟨current, some background⟩)

def runStringifyPrettyValue (upvalues : List RichValue) (value : RichValue) (current : Heap) :
    Except RuntimeError (RichValue × Heap) :=
  match upvalues with
  | [⟨.int indent, _⟩] => runStringify site background (some indent.toNat) value current
  | _ => .error (site.error .invalidBytecode "configured JSON formatter has invalid upvalues")

def runParse (source : RichValue) (current : Heap) : Except RuntimeError (RichValue × Heap) :=
  match asStr ⟨current, some background⟩ source with
  | none => .error (site.typeError "String" source ⟨current, some background⟩)
  | some text =>
      match parseJson errorLength parser (fragments text) with
      | .ok value =>
          match importValue (some background) current value with
          | .error error => .error (site.error .typeMismatch error.message)
          | .ok (parsed, current) =>
              .ok ((finishCodecResult background (.ok (.existing parsed)) source).run current)
      | .error message =>
          let (rule, current) := current.atom (some background) "Json"
          .ok ((finishCodecResult background
            (.error ⟨message, source, .new rule source.loc⟩) source).run current)

/-- The text functions of `std/json`, each of one argument. -/
def runCoreJson (function : TextFunction) (identity : Nat) (argument : RichValue)
    (upvalues : List RichValue) (current : Heap) : Except RuntimeError (RichValue × Heap) :=
  match function with
  | .stringify => runStringify site background none argument current
  | .stringifyPretty => runStringifyPretty prettyValue site background identity argument current
  | .stringifyPrettyValue => runStringifyPrettyValue site background upvalues argument current
  | .parse => runParse errorLength parser fragments site background argument current

/-- Configure an indentation, and call the function that it configures on a value. -/
def runFormatted (identity : Nat) (indent value : RichValue) (current : Heap) :
    Except RuntimeError (RichValue × Heap) := do
  let (formatter, current) ← runCoreJson errorLength parser fragments prettyValue site background
    .stringifyPretty identity indent [] current
  match formatter.value with
  | .func handle => do
      let (_, upvalues) ← site.heap ((⟨current, some background⟩ : HeapView).closure handle)
      runCoreJson errorLength parser fragments prettyValue site background
        .stringifyPrettyValue identity value upvalues current
  | _ => .error (site.typeError "Func" formatter ⟨current, some background⟩)

/-- The text of a result is parsed to an `'Ok` of a value. -/
def ReadsBack (identity : Nat) (value : Value)
    (result : Except RuntimeError (RichValue × Heap)) : Prop :=
  ∃ text written parsed reread, result = .ok (text, written) ∧
    runCoreJson errorLength parser fragments prettyValue site background .parse identity text []
      written = .ok (parsed, reread) ∧
    (⟨reread, some background⟩ : HeapView).Denotes False parsed.value
      (.tagged (.builtin .ok) value)

/-- The texts of a JSON value, plain and at every indentation from 0 to 16, are parsed to an
equal value; a value that is none has no text. -/
def RoundTrips (identity : Nat) (value : RichValue) (current : Heap) : Prop :=
  let view : HeapView := ⟨current, some background⟩
  let stringified := runCoreJson errorLength parser fragments prettyValue site background
    .stringify identity value [] current
  let formatted := fun indent => runFormatted errorLength parser fragments prettyValue site
    background identity indent value current
  let readsBack := ReadsBack errorLength parser fragments prettyValue site background identity
  (∀ tree, Encodes view value.value tree → ∃ equal, view.Denotes False value.value equal ∧
    readsBack equal stringified ∧
    ∀ indent width, indent.value = .int width → 0 ≤ width → width ≤ 16 →
      readsBack equal (formatted indent)) ∧
  ((∀ tree, ¬Encodes view value.value tree) →
    (∃ error, stringified = .error error) ∧ ∀ indent, ∃ error, formatted indent = .error error)

end Natives

section RoundTrips

variable {errorLength : Mode → List Char → Nat} {parser : Parser}
  {fragments : String → List (List Char)} {prettyValue : NativeFunction} {site : Site}
  {background : Heap} {current : Heap}

theorem closure_kept (identity : Nat) (prototype : RuntimePrototype)
    (upvalues : List RichValue) :
    DataIn ⟨current, some background⟩
      ⟨(current.allocate (.closure identity prototype upvalues)).2, some background⟩ := by
  have hextends := (allocate_spec current (some background)
    (.closure identity prototype upvalues)).1.extends (some background)
  exact ⟨hextends.objects, hextends.objects, hextends.objects, hextends.texts, hextends.shapes⟩

theorem closure_added (identity : Nat) (prototype : RuntimePrototype)
    (upvalues : List RichValue) :
    DataIn ⟨(current.allocate (.closure identity prototype upvalues)).2, some background⟩
      ⟨current, some background⟩ := by
  have hheap : ∀ {storage found},
      (⟨(current.allocate (.closure identity prototype upvalues)).2, some background⟩ :
        HeapView).heap storage = .ok found →
      ∃ old, (⟨current, some background⟩ : HeapView).heap storage = .ok old ∧
        found.text = old.text ∧ found.shapes = old.shapes ∧
        ∀ (slot : Nat) (object : Object), found.objects[slot]? = some object →
          old.objects[slot]? = some object ∨ object = .closure identity prototype upvalues := by
    intro storage found hfound
    by_cases hcurrent : storage = current.storage
    · subst hcurrent
      obtain rfl := Except.ok.inj ((current_heap _ _).symm.trans hfound)
      refine ⟨current, current_heap _ _, rfl, rfl, fun slot object hslot => ?_⟩
      by_cases hlt : slot < current.objects.length
      · exact .inl ((List.getElem?_append_left hlt).symm.trans hslot)
      · have hlast := (List.getElem?_append_right (not_lt.mp hlt)).symm.trans hslot
        exact .inr (List.mem_singleton.mp (List.mem_of_getElem? hlast))
    · have hother := @other_heap (some background) current
        (current.allocate (.closure identity prototype upvalues)).2 rfl storage hcurrent
      exact ⟨found, hother.symm.trans hfound, rfl, rfl, fun _ _ hslot => .inl hslot⟩
  have hobject : ∀ {handle : Handle} {object : Object},
      (⟨(current.allocate (.closure identity prototype upvalues)).2, some background⟩ :
        HeapView).object handle = .ok object →
      (⟨current, some background⟩ : HeapView).object handle = .ok object ∨
        object = .closure identity prototype upvalues := by
    intro handle object h
    obtain ⟨found, hfound, hslot⟩ := HeapView.object_eq_ok.mp h
    obtain ⟨old, hold, -, -, hobjects⟩ := hheap hfound
    exact (hobjects _ _ hslot).imp (fun hslot => HeapView.object_eq_ok.mpr ⟨old, hold, hslot⟩) id
  refine ⟨fun h => ?_, fun h => ?_, fun h => ?_, fun h => ?_, fun h => ?_⟩
  · exact (hobject h).resolve_right (fun hclosure => by cases hclosure)
  · exact (hobject h).resolve_right (fun hclosure => by cases hclosure)
  · exact (hobject h).resolve_right (fun hclosure => by cases hclosure)
  · obtain ⟨found, hfound, hslot⟩ := HeapView.text_eq_ok.mp h
    obtain ⟨old, hold, htext, -⟩ := hheap hfound
    exact HeapView.text_eq_ok.mpr ⟨old, hold, htext ▸ hslot⟩
  · obtain ⟨found, hfound, hslot⟩ := HeapView.shape_eq_ok.mp h
    obtain ⟨old, hold, -, hshapes, -⟩ := hheap hfound
    exact HeapView.shape_eq_ok.mpr ⟨old, hold, hshapes ▸ hslot⟩

/-- The text of a string in a view is the string it denotes. -/
theorem asStr_of_denotes {view : HeapView} {value : RichValue} {text : String}
    (h : view.Denotes False value.value (.string text)) : asStr view value = some text := by
  obtain ⟨value, location⟩ := value
  cases h with
  | shortString htext => simp [asStr, htext, Except.toOption]
  | string hobject => simp [asStr, hobject]
  | upLink hlinks _ _ => exact hlinks.elim

theorem finish_ok {payload : RichValue} {value : Value} (input : RichValue)
    (h : (⟨current, some background⟩ : HeapView).Denotes False payload.value value) :
    ∃ parsed heap, (finishCodecResult background (.ok (.existing payload)) input).run current =
        (parsed, heap) ∧
      (⟨heap, some background⟩ : HeapView).Denotes False parsed.value
        (.tagged (.builtin .ok) value) := by
  let object : Object := .tagged (.new (.builtinAtom .ok) input.loc) payload
  obtain ⟨hgrows, hobject⟩ := allocate_spec current (some background) object
  refine ⟨.new (.tagged (current.allocate object).1) input.loc, (current.allocate object).2,
    rfl, ?_⟩
  rw [RichValue.new_value]
  refine .tagged hobject ?_ (h.fills (hgrows.extends (some background)).fills)
  rw [RichValue.new_value]
  exact .builtinAtom rfl

theorem finish_error (failure : CodecFailure) (input : RichValue) :
    ∃ parsed heap, (finishCodecResult background (.error failure) input).run current =
        (parsed, heap) ∧
      ∀ value, ¬(⟨heap, some background⟩ : HeapView).Denotes False parsed.value
        (.tagged (.builtin .ok) value) := by
  have hrun : (finishCodecResult background (.error failure) input).run current =
      let (payload, heap) := (materialize background (failureNode failure)).run current
      let (handle, heap) := heap.allocate (.tagged (.new (.builtinAtom .err) input.loc) payload)
      (.new (.tagged handle) input.loc, heap) := rfl
  generalize (materialize background (failureNode failure)).run current = result at hrun
  obtain ⟨payload, grown⟩ := result
  let object : Object := .tagged (.new (.builtinAtom .err) input.loc) payload
  refine ⟨.new (.tagged (grown.allocate object).1) input.loc, (grown.allocate object).2,
    hrun, fun value hdenotes => ?_⟩
  have hobject := (allocate_spec grown (some background) object).2
  rw [RichValue.new_value] at hdenotes
  cases hdenotes with
  | tagged hobject' htag _ =>
      obtain ⟨rfl, rfl⟩ := Object.tagged.inj (Except.ok.inj (hobject.symm.trans hobject'))
      rw [RichValue.new_value] at htag
      cases htag with
      | builtinAtom hname => exact absurd hname (by decide)

/-- Parsing a string puts the value of its text in the heap. -/
theorem runParse_ok (site : Site) {text : RichValue} {content : String} {value : Value}
    (hbacked : Backed (some background) current)
    (htext : (⟨current, some background⟩ : HeapView).Denotes False text.value (.string content))
    (hparse : parseJson errorLength parser (fragments content) = .ok value)
    (hplain : Plain value) :
    ∃ parsed heap, runParse errorLength parser fragments site background text current =
        .ok (parsed, heap) ∧
      (⟨heap, some background⟩ : HeapView).Denotes False parsed.value
        (.tagged (.builtin .ok) value) := by
  have hfunctions : ∀ f, f ∉ value.functions := fun f hmem => by
    rw [hplain.2] at hmem
    cases hmem
  obtain ⟨imported, grown, himport, -, hdenotes⟩ := importValue_spec hbacked
    (fun f hmem => absurd hmem (hfunctions f)) (fun f hmem => absurd hmem (hfunctions f))
  obtain ⟨parsed, heap, hfinish, hparsed⟩ := finish_ok text hdenotes
  refine ⟨parsed, heap, ?_, hparsed⟩
  simp only [runParse, asStr_of_denotes htext, hparse, himport, hfinish]

theorem runParse_error (site : Site) {text : RichValue} {content message : String}
    (htext : (⟨current, some background⟩ : HeapView).Denotes False text.value (.string content))
    (hparse : parseJson errorLength parser (fragments content) = .error message) :
    ∃ parsed heap, runParse errorLength parser fragments site background text current =
        .ok (parsed, heap) ∧
      ∀ value, ¬(⟨heap, some background⟩ : HeapView).Denotes False parsed.value
        (.tagged (.builtin .ok) value) := by
  obtain ⟨parsed, heap, hfinish, hparsed⟩ := @finish_error background
    (current.atom (some background) "Json").2
    ⟨message, text, .new (current.atom (some background) "Json").1 text.loc⟩ text
  refine ⟨parsed, heap, ?_, hparsed⟩
  simp only [runParse, asStr_of_denotes htext, hparse, hfinish]

/-- A JSON value is written in the heap as the rendering of its tree. -/
theorem runStringify_ok (site : Site) {value : RichValue} {tree : Tree} (indent : Option Nat)
    (hbacked : Backed (some background) current) (hview : WellFormed ⟨current, some background⟩)
    (h : Encodes ⟨current, some background⟩ value.value tree) :
    ∃ text written, runStringify site background indent value current = .ok (text, written) ∧
      Backed (some background) written ∧
      (⟨written, some background⟩ : HeapView).Denotes False text.value
        (.string (String.ofList (tree.render indent 0))) := by
  obtain ⟨hgrows, hdenotes⟩ := string_spec hbacked (String.ofList (tree.render indent 0))
  refine ⟨.new (current.string (some background) (String.ofList (tree.render indent 0))).1
    site.location, _, ?_, hbacked.grows hgrows.toGrows, by rwa [RichValue.new_value]⟩
  simp only [runStringify, h.stringify hview]

theorem runStringify_error {value : RichValue} (indent : Option Nat)
    (h : ∀ tree, ¬Encodes ⟨current, some background⟩ value.value tree) :
    ∃ error, runStringify site background indent value current = .error error := by
  obtain ⟨message, hmessage⟩ := @stringify_error _ indent _ h
  exact ⟨site.error .typeMismatch message, by simp only [runStringify, hmessage]⟩

/-- Calling the configured function writes at its indentation, next to the closure. -/
theorem runFormatted_eq {indent : RichValue} {width : Int} (identity : Nat) (value : RichValue)
    (hindent : indent.value = .int width) (hlow : 0 ≤ width) (hhigh : width ≤ 16) :
    runFormatted errorLength parser fragments prettyValue site background identity indent value
        current =
      runStringify site background (some width.toNat) value
        (current.allocate (.closure identity (.native prettyValue)
          [.new (.int width) indent.loc])).2 := by
  let closure : Object := .closure identity (.native prettyValue)
    [.new (.int width) indent.loc]
  have hobject := (allocate_spec current (some background) closure).2
  have hconfigured : runStringifyPretty prettyValue site background identity indent current =
      .ok (.new (.func (current.allocate closure).1) site.location,
        (current.allocate closure).2) := by
    simp only [runStringifyPretty, hindent, if_pos (And.intro hlow hhigh)]
    rfl
  have hupvalues : (⟨(current.allocate closure).2, some background⟩ : HeapView).closure
      (current.allocate closure).1 = .ok (.native prettyValue, [.new (.int width) indent.loc]) := by
    rw [HeapView.closure, hobject]
    rfl
  have hwritten : runStringifyPrettyValue site background [.new (.int width) indent.loc] value
      (current.allocate closure).2 =
        runStringify site background (some width.toNat) value (current.allocate closure).2 := by
    cases indent.loc <;> rfl
  simp only [runFormatted, runCoreJson, hconfigured]
  calc
    _ = (do
        let (_, upvalues) ← site.heap (HeapView.closure
          ⟨(current.allocate closure).2, some background⟩ (current.allocate closure).1)
        runStringifyPrettyValue site background upvalues value (current.allocate closure).2) := by
      change (match (RichValue.new _ _).value with | .func handle => _ | _ => _) = _
      rw [RichValue.new_value]
    _ = _ := by
      rw [hupvalues]
      exact hwritten

theorem runFormatted_error {indent value : RichValue} (identity : Nat)
    (h : ∀ tree, ¬Encodes ⟨current, some background⟩ value.value tree) :
    ∃ error, runFormatted errorLength parser fragments prettyValue site background identity
      indent value current = .error error := by
  cases hindent : indent.value with
  | int width =>
      by_cases hwidth : 0 ≤ width ∧ width ≤ 16
      · rw [runFormatted_eq identity value hindent hwidth.1 hwidth.2]
        exact runStringify_error _ fun tree htree =>
          h tree (htree.dataIn (closure_added identity (.native prettyValue) _))
      · simp only [runFormatted, runCoreJson, runStringifyPretty, hindent, if_neg hwidth]
        exact ⟨_, rfl⟩
  | _ =>
      simp only [runFormatted, runCoreJson, runStringifyPretty, hindent]
      exact ⟨_, rfl⟩

section Readings

variable {tree : Tree} {indent : Option Nat} {text : RichValue}

/-- A text is parsed to a value that is equal to the value of its tree only if its floats
have a fraction. -/
theorem ReadsBack.fractional {identity : Nat} {equal : Value} (htree : tree.WellFormed)
    (hfragments : ∀ text, (fragments text).flatten = text.toList)
    (hbacked : Backed (some background) current)
    (htext : (⟨current, some background⟩ : HeapView).Denotes False text.value
      (.string (String.ofList (tree.render indent 0))))
    (hequal : equal.Same tree.value)
    (h : ReadsBack errorLength parser fragments prettyValue site background identity equal
      (.ok (text, current))) : ¬tree.HasIntegralFloat := by
  obtain ⟨_, _, parsed, heap, hresult, hparse, hparsed⟩ := h
  obtain ⟨rfl, rfl⟩ := Prod.mk.inj (Except.ok.inj hresult)
  have hreread := parseJson_render errorLength indent parser htree
    ((hfragments _).trans String.toList_ofList)
  rw [← Tree.reread_eq_iff tree htree]
  cases hread : tree.reread with
  | error message =>
      obtain ⟨_, _, hparse', hnone⟩ := runParse_error site htext (hreread.trans hread)
      obtain ⟨rfl, rfl⟩ := Prod.mk.inj (Except.ok.inj (hparse.symm.trans hparse'))
      exact absurd hparsed (hnone equal)
  | ok value =>
      have hplain := Tree.plain_reread tree hread
      obtain ⟨_, _, hparse', hvalue⟩ :=
        runParse_ok site hbacked htext (hreread.trans hread) hplain
      obtain ⟨rfl, rfl⟩ := Prod.mk.inj (Except.ok.inj (hparse.symm.trans hparse'))
      have hsame : value.Same equal := (Value.tagged.inj (hvalue.same hparsed)).2
      have hvalues : value = tree.value := calc
        value = value.canonical := hplain.1.symm
        _ = equal.canonical := hsame
        _ = tree.value.canonical := hequal
        _ = tree.value := (Tree.plain_value tree).1
      rw [hvalues]

/-- The text of a tree whose floats have a fraction is parsed to the value of the tree. -/
theorem readsBack_of_fractional (identity : Nat) (htree : tree.WellFormed)
    (hfragments : ∀ text, (fragments text).flatten = text.toList)
    (hbacked : Backed (some background) current)
    (htext : (⟨current, some background⟩ : HeapView).Denotes False text.value
      (.string (String.ofList (tree.render indent 0))))
    (hfractional : ¬tree.HasIntegralFloat) :
    ReadsBack errorLength parser fragments prettyValue site background identity tree.value
      (.ok (text, current)) := by
  have hreread := parseJson_render errorLength indent parser htree
    ((hfragments _).trans String.toList_ofList)
  rw [(Tree.reread_eq_iff tree htree).mpr hfractional] at hreread
  obtain ⟨parsed, heap, hparse, hparsed⟩ :=
    runParse_ok site hbacked htext hreread (Tree.plain_value tree)
  exact ⟨text, current, parsed, heap, rfl, hparse, hparsed⟩

end Readings

/-- Only the values whose floats all have a fraction round-trip. -/
theorem RoundTrips.fractional {identity : Nat} {value : RichValue} {tree : Tree}
    (h : RoundTrips errorLength parser fragments prettyValue site background identity value current)
    (hfragments : ∀ text, (fragments text).flatten = text.toList)
    (hbacked : Backed (some background) current)
    (hview : WellFormed ⟨current, some background⟩)
    (hint : ∀ n, value.value = .int n → IsI64 n)
    (htree : Encodes ⟨current, some background⟩ value.value tree) : ¬tree.HasIntegralFloat := by
  obtain ⟨equal, hequal, hplain, -⟩ := h.1 tree htree
  obtain ⟨text, written, hrun, hbacked', htext⟩ :=
    runStringify_ok site none hbacked hview htree
  rw [runCoreJson, hrun] at hplain
  exact hplain.fractional (htree.wellFormed hview hint) hfragments hbacked' htext
    (hequal.same (htree.denotes hview))

/-- JSON text round-trips exactly for the values whose floats all have a fraction. -/
theorem roundTrips_iff (errorLength : Mode → List Char → Nat) (parser : Parser)
    (fragments : String → List (List Char)) (prettyValue : NativeFunction) (site : Site)
    (background current : Heap) (identity : Nat) (value : RichValue)
    (hfragments : ∀ text, (fragments text).flatten = text.toList)
    (hbacked : Backed (some background) current)
    (hview : WellFormed ⟨current, some background⟩)
    (hint : ∀ n, value.value = .int n → IsI64 n) :
    RoundTrips errorLength parser fragments prettyValue site background identity value current ↔
      ∀ tree, Encodes ⟨current, some background⟩ value.value tree → ¬tree.HasIntegralFloat := by
  constructor
  · exact fun h tree htree => h.fractional hfragments hbacked hview hint htree
  · intro hfractional
    refine ⟨fun tree htree => ⟨tree.value, htree.denotes hview, ?_, ?_⟩, fun hnone =>
      ⟨runStringify_error none hnone, fun indent => runFormatted_error identity hnone⟩⟩
    · obtain ⟨text, written, hrun, hbacked', htext⟩ :=
        runStringify_ok site none hbacked hview htree
      rw [runCoreJson, hrun]
      exact readsBack_of_fractional identity (htree.wellFormed hview hint) hfragments hbacked'
        htext (hfractional tree htree)
    · intro indent width hindent hlow hhigh
      beta_reduce
      rw [runFormatted_eq identity value hindent hlow hhigh]
      -- the closure is next to the value, which is written in the grown heap
      have hkept := @closure_kept background current identity (.native prettyValue)
        [.new (.int width) indent.loc]
      have hadded := @closure_added background current identity (.native prettyValue)
        [.new (.int width) indent.loc]
      obtain ⟨text, written, hrun, hbacked', htext⟩ := runStringify_ok site
        (some width.toNat) (hbacked.grows (allocate_spec current none _).1)
        (hview.dataIn hkept hadded) (htree.dataIn hkept)
      rw [hrun]
      exact readsBack_of_fractional identity (htree.wellFormed hview hint) hfragments hbacked'
        htext (hfractional tree htree)

end RoundTrips

/-- A string is lexed in one piece. -/
def onePiece (text : String) : List (List Char) := [text.toList]

def prettyNative : NativeFunction := ⟨"std/json.configured", 1, 0, .coreJson, fun _ h => by cases h⟩

def jsonSite : Site := ⟨⟨"json", 0, 0, 1, [], []⟩, 0⟩

/-- The float `1.0`. -/
def oneFloat : F64 := ⟨0x3ff0000000000000#64⟩

/-- The float `1.5`. -/
def halvesFloat : F64 := ⟨0x3ff8000000000000#64⟩

/-- A heap with an array of a number with a fraction and an integer. -/
def numbersHeap : Heap :=
  { Heap.work with objects := [.array [.unknown (.float halvesFloat), .unknown (.int 7)]] }

theorem numbersHeap_object {handle : Handle} {object : Object}
    (h : (⟨numbersHeap, some .main⟩ : HeapView).object handle = .ok object) :
    object = .array [.unknown (.float halvesFloat), .unknown (.int 7)] := by
  obtain ⟨heap, hheap, hslot⟩ := HeapView.object_eq_ok.mp h
  obtain ⟨storage, slot⟩ := handle
  cases storage with
  | work =>
      obtain rfl := Except.ok.inj hheap
      exact List.mem_singleton.mp (List.mem_of_getElem? hslot)
  | main =>
      obtain rfl := Except.ok.inj hheap
      cases hslot

theorem numbersHeap_wellFormed : WellFormed ⟨numbersHeap, some .main⟩ where
  fields := fun hobject => by cases numbersHeap_object hobject
  arrayInts := by
    intro handle values hobject value hmem n hvalue
    obtain rfl := Object.array.inj (numbersHeap_object hobject)
    rcases List.mem_cons.mp hmem with rfl | hmem
    · cases hvalue
    · obtain rfl := List.mem_singleton.mp hmem
      obtain rfl := RuntimeValue.int.inj hvalue
      exact ⟨by decide, by decide⟩
  dictInts := fun hobject => by cases numbersHeap_object hobject

theorem roundTrips_iff_numbers :
    RoundTrips (fun _ _ => 1) descent onePiece prettyNative jsonSite .main 0
      (.unknown (.array ⟨.work, 0⟩)) numbersHeap := by
  refine (roundTrips_iff (fun _ _ => 1) descent onePiece prettyNative jsonSite .main numbersHeap 0
    (.unknown (.array ⟨.work, 0⟩)) (fun text => List.append_nil _)
    (fun main hmain => by cases hmain; exact ⟨rfl, rfl⟩) numbersHeap_wellFormed
    (fun n h => by cases h)).mpr ?_
  intro tree htree
  cases htree with
  | array hobject hitems =>
      obtain rfl := Object.array.inj (numbersHeap_object hobject)
      cases hitems with
      | cons hfirst hrest =>
          cases hfirst with
          | float _ =>
              cases hrest with
              | cons hsecond hnil =>
                  cases hsecond with
                  | int =>
                      cases hnil with
                      | nil =>
                          rintro (hfloat | hint | hnone)
                          · change halvesFloat.IsIntegral at hfloat
                            exact absurd hfloat (by decide +kernel)
                          · exact hint
                          · exact hnone

/-- `1.0` is written as `1`, which is an integer. -/
theorem oneFloat_not_roundTrips :
    ¬∀ (value : RichValue) (current : Heap), WellFormed ⟨current, some .main⟩ →
      Backed (some .main) current → (∀ n, value.value = .int n → IsI64 n) →
      RoundTrips (fun _ _ => 1) descent onePiece prettyNative jsonSite .main 0 value current := by
  intro hall
  have hbacked : Backed (some .main) numbersHeap :=
    fun main hmain => by cases hmain; exact ⟨rfl, rfl⟩
  have hint : ∀ n, (RichValue.unknown (.float oneFloat)).value = .int n → IsI64 n :=
    fun n h => by cases h
  have hread := hall (.unknown (.float oneFloat)) numbersHeap numbersHeap_wellFormed hbacked hint
  refine hread.fractional (fun text => List.append_nil _) hbacked numbersHeap_wellFormed hint
    (.float (by decide +kernel)) ?_
  change oneFloat.IsIntegral
  decide +kernel

end Telora.Json
