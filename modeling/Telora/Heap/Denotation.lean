import Telora.Heap.Copies
import Telora.Value.Value

/-!
# The public value of a graph

A runtime value denotes the public value that its graph unfolds to; an up-link
denotes what its content denotes, where links are followed. An unfolding is finite, so no graph with a
denotation runs into itself, and every slot on its way is filled.
-/

namespace Telora

open Library Bytecode

namespace HeapView

mutual

/-- The public value that a runtime value unfolds to; `links` says whether up-links on
the way are followed. -/
inductive Denotes (view : HeapView) (links : Prop) : RuntimeValue → Value → Prop where
  | int {n} : Denotes view links (.int n) (.int n)
  | float {x} : Denotes view links (.float x) (.float x)
  | builtinAtom {b a} : a.name = b.name → Denotes view links (.builtinAtom b) (.atom a)
  | atom {id a} : view.text id = .ok a.name → Denotes view links (.atom id) (.atom a)
  | shortString {id s} : view.text id = .ok s → Denotes view links (.shortString id) (.string s)
  | string {h s} : view.object h = .ok (.string s) → Denotes view links (.string h) (.string s)
  | bytes {h b} : view.object h = .ok (.bytes b) → Denotes view links (.bytes h) (.bytes b)
  | nativeType {h t} : view.object h = .ok (.nativeType t) →
      Denotes view links (.nativeType h) (.nativeType t)
  | opaqueValue {h o} : view.object h = .ok (.opaqueValue o) →
      Denotes view links (.opaqueValue h) (.opaqueValue o)
  | array {h vs ws} : view.object h = .ok (.array vs) → DenotesAll view links vs ws →
      Denotes view links (.array h) (.array ws)
  | tuple {h vs ws} : view.object h = .ok (.tuple vs) → DenotesAll view links vs ws →
      Denotes view links (.tuple h) (.tuple ws)
  | tagged {h t p a w} : view.object h = .ok (.tagged t p) → Denotes view links t.value (.atom a) →
      Denotes view links p.value w → Denotes view links (.tagged h) (.tagged a w)
  | dict {h s vs names ws} : view.object h = .ok (.dict s vs) → view.fieldNames s = .ok names →
      DenotesAll view links vs ws → Denotes view links (.dict h) (.dict names ws)
  | func {h i p us q ws} : view.object h = .ok (.closure i p us) → DenotesPrototype view links p q →
      DenotesAll view links us ws → Denotes view links (.func h) (.func i q ws)
  | dyn {h i d v s o d' w} : view.object h = .ok (.dyn i d v s o) → Denotes view links d.value d' →
      Denotes view links v.value w → Denotes view links (.dyn h) (.dyn i d' w s o)
  | upLink {h v w} : links → view.object h = .ok (.upLink (some v)) → Denotes view links v.value w →
      Denotes view links (.upLink h) w

inductive DenotesAll (view : HeapView) (links : Prop) : List RichValue → List Value → Prop where
  | nil : DenotesAll view links [] []
  | cons {v w vs ws} : Denotes view links v.value w → DenotesAll view links vs ws →
      DenotesAll view links (v :: vs) (w :: ws)

inductive DenotesPrototype (view : HeapView) (links : Prop) : RuntimePrototype → Prototype → Prop where
  | native {f} : DenotesPrototype view links (.native f) (.native f)
  | bytecode {h f} : DenotesFunction view links h f →
      DenotesPrototype view links (.bytecode h) (.bytecode f)

/-- Where the function is allocated, and the keys of links that are resolved, are not
part of what a prototype denotes. -/
inductive DenotesFunction (view : HeapView) (links : Prop) : Handle → FunctionRef → Prop where
  | mk {h address code vs ts ps ws keys texts fs} :
      view.object h = .ok (.byteCodeProto code vs ts ps) → DenotesAll view links vs ws →
      ts.mapM view.text = .ok texts → DenotesFunctions view links ps fs →
      DenotesFunction view links h (.mk address (.mk code ws keys texts fs))

inductive DenotesFunctions (view : HeapView) (links : Prop) : List RuntimePrototype → List FunctionRef → Prop where
  | nil : DenotesFunctions view links [] []
  | cons {h f ps fs} : DenotesFunction view links h f → DenotesFunctions view links ps fs →
      DenotesFunctions view links (.bytecode h :: ps) (f :: fs)

end

section Growth

/-- A view in which every filled slot, text and shape of another view is still there. -/
structure Fills (view view' : HeapView) : Prop where
  objects : ∀ {handle object}, view.object handle = .ok object → object ≠ .reserved →
    view'.object handle = .ok object
  texts : ∀ {id text}, view.text id = .ok text → view'.text id = .ok text
  shapes : ∀ {id fields}, view.shape id = .ok fields → view'.shape id = .ok fields

theorem Extends.fills {view view' : HeapView} (h : view.Extends view') : view.Fills view' :=
  ⟨fun hobject _ => h.objects hobject, h.texts, h.shapes⟩

variable {view view' : HeapView} {links : Prop}

theorem Fills.mapM_text (h : view.Fills view') {ids : List InternId} {texts : List String}
    (htexts : ids.mapM view.text = .ok texts) : ids.mapM view'.text = .ok texts :=
  mapM_eq_ok.mpr ((mapM_eq_ok.mp htexts).imp fun _ _ => h.texts)

theorem Fills.fieldNames (h : view.Fills view') {shape : ShapeId} {names : List String}
    (hnames : view.fieldNames shape = .ok names) : view'.fieldNames shape = .ok names := by
  obtain ⟨fields, hfields, htexts⟩ := bind_eq_ok.mp hnames
  exact bind_eq_ok.mpr ⟨fields, h.shapes hfields, h.mapM_text htexts⟩

mutual

/-- A denotation survives the growth of the view. -/
theorem Denotes.fills (h : view.Fills view') {value : RuntimeValue} {w : Value} :
    view.Denotes links value w → view'.Denotes links value w
  | .int => .int
  | .float => .float
  | .builtinAtom hname => .builtinAtom hname
  | .atom htext => .atom (h.texts htext)
  | .shortString htext => .shortString (h.texts htext)
  | .string hobject => .string (h.objects hobject nofun)
  | .bytes hobject => .bytes (h.objects hobject nofun)
  | .nativeType hobject => .nativeType (h.objects hobject nofun)
  | .opaqueValue hobject => .opaqueValue (h.objects hobject nofun)
  | .array hobject hvalues => .array (h.objects hobject nofun) (hvalues.fills h)
  | .tuple hobject hvalues => .tuple (h.objects hobject nofun) (hvalues.fills h)
  | .tagged hobject htag hpayload =>
      .tagged (h.objects hobject nofun) (htag.fills h) (hpayload.fills h)
  | .dict hobject hnames hvalues =>
      .dict (h.objects hobject nofun) (h.fieldNames hnames) (hvalues.fills h)
  | .func hobject hprototype hupvalues =>
      .func (h.objects hobject nofun) (hprototype.fills h) (hupvalues.fills h)
  | .dyn hobject hdescriptor hvalue =>
      .dyn (h.objects hobject nofun) (hdescriptor.fills h) (hvalue.fills h)
  | .upLink hlinks hobject hvalue => .upLink hlinks (h.objects hobject nofun) (hvalue.fills h)

theorem DenotesAll.fills (h : view.Fills view') {values : List RichValue} {ws : List Value} :
    view.DenotesAll links values ws → view'.DenotesAll links values ws
  | .nil => .nil
  | .cons hvalue hrest => .cons (hvalue.fills h) (hrest.fills h)

theorem DenotesPrototype.fills (h : view.Fills view') {prototype : RuntimePrototype}
    {w : Prototype} : view.DenotesPrototype links prototype w → view'.DenotesPrototype links prototype w
  | .native => .native
  | .bytecode hfunction => .bytecode (hfunction.fills h)

theorem DenotesFunction.fills (h : view.Fills view') {handle : Handle} {f : FunctionRef} :
    view.DenotesFunction links handle f → view'.DenotesFunction links handle f
  | .mk hobject hvalues htexts hprototypes =>
      .mk (h.objects hobject nofun) (hvalues.fills h) (h.mapM_text htexts) (hprototypes.fills h)

theorem DenotesFunctions.fills (h : view.Fills view') {prototypes : List RuntimePrototype}
    {fs : List FunctionRef} :
    view.DenotesFunctions links prototypes fs → view'.DenotesFunctions links prototypes fs
  | .nil => .nil
  | .cons hfunction hrest => .cons (hfunction.fills h) (hrest.fills h)

end

theorem DenotesAll.forall₂ {values : List RichValue} {ws : List Value} :
    view.DenotesAll links values ws →
      List.Forall₂ (view.Denotes links) (values.map (·.value)) ws
  | .nil => .nil
  | .cons hvalue hrest => .cons hvalue hrest.forall₂

end Growth

section Finite

variable {view : HeapView}

/-- A handle whose graph is finite, and filled on every way down. -/
inductive Unfolds (view : HeapView) : Handle → Prop where
  | step {handle object} : view.object handle = .ok object → object ≠ .reserved →
      object ≠ .upLink none → (∀ next, .object next ∈ object.refs → Unfolds view next) →
      Unfolds view handle

theorem Unfolds.object {handle : Handle} (h : view.Unfolds handle) :
    ∃ object, view.object handle = .ok object ∧ object ≠ .reserved ∧ object ≠ .upLink none := by
  cases h with
  | step hobject hfilled hlinked _ => exact ⟨_, hobject, hfilled, hlinked⟩

theorem Unfolds.edge {handle next : Handle} (h : view.Unfolds handle)
    (hedge : view.Edge handle next) : view.Unfolds next := by
  obtain ⟨object, hobject, hnext⟩ := hedge
  cases h with
  | step hobject' _ _ hrefs =>
      obtain rfl := Except.ok.inj (hobject.symm.trans hobject')
      exact hrefs next hnext

theorem Unfolds.reaches {refs : List Ref} (h : ∀ next, .object next ∈ refs → view.Unfolds next)
    {handle : Handle} (hreach : view.Reaches refs handle) : view.Unfolds handle := by
  obtain ⟨start, hstart, hpath⟩ := hreach
  induction hpath with
  | refl => exact h _ hstart
  | tail _ hedge ih => exact ih.edge hedge

/-- What unfolds does not lead back to itself. -/
theorem Unfolds.acyclic {handle : Handle} (h : view.Unfolds handle) :
    ¬Relation.TransGen view.Edge handle handle := by
  induction h with
  | @step handle object hobject _ _ hrefs ih =>
      intro hcycle
      obtain ⟨next, ⟨object', hobject', hnext⟩, hback⟩ :=
        Relation.TransGen.head'_iff.mp hcycle
      obtain rfl := Except.ok.inj (hobject.symm.trans hobject')
      -- the cycle also leads from the next handle back to itself
      exact ih next hnext (.tail' hback ⟨object, hobject, hnext⟩)

end Finite

end HeapView

end Telora
