import Telora.Heap.Denotation
import Mathlib.Data.Fintype.Card
import Mathlib.Data.Set.Finite.List

/-!
# Which graphs have a public value

In a well-kinded view a value has a denotation when no handle below it leads back to
itself and no slot below it is reserved or an empty up-link, and only then.
-/

namespace Telora.HeapView

open Library Bytecode

variable {view : HeapView} {links : Prop}

section Finite

theorem Unfolds.single {handle : Handle} (h : view.Unfolds handle) :
    ∀ next, .object next ∈ [Ref.object handle] → view.Unfolds next := by
  intro next hmem
  obtain rfl := Ref.object.inj (List.mem_singleton.mp hmem)
  exact h

theorem unfolds_append {refs refs' : List Ref} (h : ∀ next, .object next ∈ refs → view.Unfolds next)
    (h' : ∀ next, .object next ∈ refs' → view.Unfolds next) :
    ∀ next, .object next ∈ refs ++ refs' → view.Unfolds next :=
  fun next hmem => (List.mem_append.mp hmem).elim (h next) (h' next)

theorem unfolds_nil : ∀ next, .object next ∈ ([] : List Ref) → view.Unfolds next :=
  fun _ hmem => absurd hmem List.not_mem_nil

mutual

/-- Every handle of a value with a denotation unfolds. -/
theorem Denotes.unfolds {value : RuntimeValue} {w : Value} :
    view.Denotes links value w → ∀ next, .object next ∈ value.refs → view.Unfolds next
  | .int => unfolds_nil
  | .float => unfolds_nil
  | .builtinAtom _ => unfolds_nil
  | .atom _ => fun _ hmem => nomatch List.mem_singleton.mp hmem
  | .shortString _ => fun _ hmem => nomatch List.mem_singleton.mp hmem
  | .string hobject => (Unfolds.step hobject nofun nofun unfolds_nil).single
  | .bytes hobject => (Unfolds.step hobject nofun nofun unfolds_nil).single
  | .nativeType hobject => (Unfolds.step hobject nofun nofun unfolds_nil).single
  | .opaqueValue hobject => (Unfolds.step hobject nofun nofun unfolds_nil).single
  | .array hobject hvalues => (Unfolds.step hobject nofun nofun hvalues.unfolds).single
  | .tuple hobject hvalues => (Unfolds.step hobject nofun nofun hvalues.unfolds).single
  | .tagged hobject htag hpayload =>
      (Unfolds.step hobject nofun nofun (unfolds_append htag.unfolds hpayload.unfolds)).single
  | .dict hobject _ hvalues =>
      (Unfolds.step hobject nofun nofun fun next hmem =>
        (List.mem_cons.mp hmem).elim (fun h => nomatch h) (hvalues.unfolds next)).single
  | .func hobject hprototype hupvalues =>
      (Unfolds.step hobject nofun nofun
        (unfolds_append hprototype.unfolds hupvalues.unfolds)).single
  | .dyn hobject hdescriptor hvalue =>
      (Unfolds.step hobject nofun nofun
        (unfolds_append hdescriptor.unfolds hvalue.unfolds)).single
  | .upLink _ hobject hvalue => (Unfolds.step hobject nofun nofun hvalue.unfolds).single

theorem DenotesAll.unfolds {values : List RichValue} {ws : List Value} :
    view.DenotesAll links values ws →
      ∀ next, .object next ∈ values.flatMap RichValue.refs → view.Unfolds next
  | .nil => unfolds_nil
  | .cons hvalue hrest => unfolds_append hvalue.unfolds hrest.unfolds

theorem DenotesPrototype.unfolds {prototype : RuntimePrototype} {w : Prototype} :
    view.DenotesPrototype links prototype w →
      ∀ next, .object next ∈ prototype.refs → view.Unfolds next
  | .native => unfolds_nil
  | .bytecode hfunction => hfunction.unfolds.single

theorem DenotesFunction.unfolds {handle : Handle} {f : FunctionRef} :
    view.DenotesFunction links handle f → view.Unfolds handle
  | .mk hobject hvalues _ hprototypes =>
      .step hobject nofun nofun (unfolds_append hvalues.unfolds
        (unfolds_append (fun _ hmem => nomatch (List.mem_map.mp hmem).choose_spec.2)
          hprototypes.unfolds))

theorem DenotesFunctions.unfolds {prototypes : List RuntimePrototype} {fs : List FunctionRef} :
    view.DenotesFunctions links prototypes fs →
      ∀ next, .object next ∈ prototypes.flatMap RuntimePrototype.refs → view.Unfolds next
  | .nil => unfolds_nil
  | .cons hfunction hrest => unfolds_append hfunction.unfolds.single hrest.unfolds

end

end Finite

section Settled

/-- A filled, well-kinded object whose references lead to filled slots. -/
structure Settled (view : HeapView) (object : Object) : Prop where
  ready : object ≠ .reserved
  kinded : view.ObjectKinded object
  filled : ∀ next, .object next ∈ object.refs →
    ∃ found, view.object next = .ok found ∧ found ≠ .reserved

theorem settled_of_unfolds {object : Object} (hready : object ≠ .reserved)
    (hkinded : view.ObjectKinded object)
    (h : ∀ next, .object next ∈ object.refs → view.Unfolds next) : view.Settled object where
  ready := hready
  kinded := hkinded
  filled := by
    intro next hnext
    obtain ⟨found, hfound, hfilled, -⟩ := (h next hnext).object
    exact ⟨found, hfound, hfilled⟩

/-- An object stays settled while slots are filled. -/
theorem Settled.fills {view' : HeapView} {object : Object} (h : view.Settled object)
    (hfills : view.Fills view') : view'.Settled object where
  ready := h.ready
  filled := by
    intro next hnext
    obtain ⟨found, hfound, hfilled⟩ := h.filled next hnext
    exact ⟨found, hfills.objects hfound hfilled, hfilled⟩
  kinded := by
    by_cases hempty : object = .upLink none
    · subst hempty
      trivial
    · let rH : Handle → Handle → Prop := fun handle handle' => handle = handle' ∧
        ∃ found, view.object handle = .ok found ∧ found ≠ .reserved
      have hkeeps : KeepsKinds view view' rH Eq Eq := by
        constructor
        · rintro handle _ kind ⟨rfl, found, hfound, hfilled⟩ ⟨object, hobject, hkind⟩
          obtain rfl := Except.ok.inj (hfound.symm.trans hobject)
          exact ⟨found, hfills.objects hfound hfilled, hkind⟩
        · rintro id _ rfl ⟨text, htext⟩
          exact ⟨text, hfills.texts htext⟩
        · rintro id _ rfl ⟨fields, hfields, htexts⟩
          refine ⟨fields, hfills.shapes hfields, fun field hmem => ?_⟩
          obtain ⟨text, htext⟩ := htexts field hmem
          exact ⟨text, hfills.texts htext⟩
      have hrel : Object.Rel rH Eq Eq object object := by
        refine Object.Rel.of_refs h.ready hempty fun ref href => ?_
        cases ref with
        | object next => exact .object ⟨rfl, h.filled next href⟩
        | text id => exact .text rfl
        | shape id => exact .shape rfl
      exact hkeeps.object hrel h.kinded

/-- A value with a denotation is kinded. -/
theorem Denotes.kinded {value : RuntimeValue} {w : Value} (h : view.Denotes links value w) :
    view.ValueKinded value := by
  cases h with
  | int => trivial
  | float => trivial
  | builtinAtom => trivial
  | atom htext => exact ⟨_, htext⟩
  | shortString htext => exact ⟨_, htext⟩
  | upLink _ hobject _ => exact ⟨_, hobject, .inr rfl⟩
  | array hobject _ => exact ⟨_, hobject, .inr rfl⟩
  | tuple hobject _ => exact ⟨_, hobject, .inr rfl⟩
  | tagged hobject _ _ => exact ⟨_, hobject, .inr rfl⟩
  | dict hobject _ _ => exact ⟨_, hobject, .inr rfl⟩
  | func hobject _ _ => exact ⟨_, hobject, .inr rfl⟩
  | dyn hobject _ _ => exact ⟨_, hobject, .inr rfl⟩
  | _ hobject => exact ⟨_, hobject, .inr rfl⟩

/-- Without following links only an atom denotes an atom. -/
theorem Denotes.isAtom {value : RuntimeValue} {a : Atom} (h : view.Denotes False value (.atom a)) :
    value.IsAtom := by
  cases h with
  | builtinAtom => trivial
  | atom => trivial
  | upLink hlinks _ _ => exact hlinks.elim

theorem DenotesAll.kinded {values : List RichValue} {ws : List Value} :
    view.DenotesAll links values ws → ∀ value ∈ values, view.ValueKinded value.value
  | .nil => fun _ hmem => absurd hmem List.not_mem_nil
  | .cons hvalue hrest => List.forall_mem_cons.mpr ⟨hvalue.kinded, hrest.kinded⟩

theorem DenotesFunction.kinded {handle : Handle} {f : FunctionRef}
    (h : view.DenotesFunction links handle f) : view.HasKind handle .byteCodeProto := by
  cases h with
  | mk hobject _ _ _ => exact ⟨_, hobject, .inr rfl⟩

theorem DenotesPrototype.kinded {prototype : RuntimePrototype} {w : Prototype}
    (h : view.DenotesPrototype links prototype w) : view.PrototypeKinded prototype := by
  cases h with
  | native => trivial
  | bytecode hfunction => exact hfunction.kinded

theorem DenotesFunctions.kinded {prototypes : List RuntimePrototype} {fs : List FunctionRef} :
    view.DenotesFunctions links prototypes fs → ∀ prototype ∈ prototypes,
      ∃ handle, prototype = .bytecode handle ∧ view.HasKind handle .byteCodeProto
  | .nil => fun _ hmem => absurd hmem List.not_mem_nil
  | .cons hfunction hrest =>
      List.forall_mem_cons.mpr ⟨⟨_, rfl, hfunction.kinded⟩, hrest.kinded⟩

/-- A leaf is settled, and so is what is built of values with denotations. -/
theorem Settled.string {text : String} : view.Settled (.string text) :=
  settled_of_unfolds nofun trivial unfolds_nil

theorem Settled.bytes {bytes : List UInt8} : view.Settled (.bytes bytes) :=
  settled_of_unfolds nofun trivial unfolds_nil

theorem Settled.nativeType {nativeType : NativeType} : view.Settled (.nativeType nativeType) :=
  settled_of_unfolds nofun trivial unfolds_nil

theorem Settled.opaqueValue {value : OpaqueValue} : view.Settled (.opaqueValue value) :=
  settled_of_unfolds nofun trivial unfolds_nil

theorem DenotesAll.settled_array {values : List RichValue} {ws : List Value}
    (h : view.DenotesAll links values ws) : view.Settled (.array values) :=
  settled_of_unfolds nofun h.kinded h.unfolds

theorem DenotesAll.settled_tuple {values : List RichValue} {ws : List Value}
    (h : view.DenotesAll links values ws) : view.Settled (.tuple values) :=
  settled_of_unfolds nofun h.kinded h.unfolds

theorem Denotes.settled_tagged {tag payload : RichValue} {a : Atom} {w : Value}
    (htag : view.Denotes False tag.value (.atom a))
    (hpayload : view.Denotes False payload.value w) : view.Settled (.tagged tag payload) :=
  settled_of_unfolds nofun ⟨htag.isAtom, htag.kinded, hpayload.kinded⟩
    (unfolds_append htag.unfolds hpayload.unfolds)

/-- Ids of texts are kinded. -/
theorem has_text_of_mapM {ids : List InternId} {texts : List String}
    (h : ids.mapM view.text = .ok texts) : ∀ id ∈ ids, view.Has (.text id) := by
  intro id hid
  obtain ⟨text, -, htext⟩ := forall₂_mem_left (mapM_eq_ok.mp h) hid
  exact ⟨text, htext⟩

theorem DenotesAll.settled_dict {shape : ShapeId} {ids : List InternId} {names : List String}
    {values : List RichValue} {ws : List Value} (hshape : view.shape shape = .ok ids)
    (hnames : ids.mapM view.text = .ok names) (h : view.DenotesAll links values ws) :
    view.Settled (.dict shape values) :=
  settled_of_unfolds nofun ⟨⟨ids, hshape, has_text_of_mapM hnames⟩, h.kinded⟩ fun next hmem =>
    (List.mem_cons.mp hmem).elim (fun h => nomatch h) (h.unfolds next)

theorem DenotesAll.settled_closure {identity : Nat} {prototype : RuntimePrototype} {q : Prototype}
    {upvalues : List RichValue} {ws : List Value}
    (hprototype : view.DenotesPrototype links prototype q)
    (h : view.DenotesAll links upvalues ws) :
    view.Settled (.closure identity prototype upvalues) :=
  settled_of_unfolds nofun ⟨hprototype.kinded, h.kinded⟩ (unfolds_append hprototype.unfolds h.unfolds)

theorem Denotes.settled_dyn {identity : Nat} {descriptor value : RichValue} {d w : Value}
    {scheme : Option TypeScheme} {origin : Option String}
    (hdescriptor : view.Denotes links descriptor.value d) (h : view.Denotes links value.value w) :
    view.Settled (.dyn identity descriptor value scheme origin) :=
  settled_of_unfolds nofun ⟨hdescriptor.kinded, h.kinded⟩ (unfolds_append hdescriptor.unfolds h.unfolds)

theorem DenotesAll.settled_byteCodeProto {code : FuncByteCode} {values : List RichValue}
    {ws : List Value} {ids : List InternId} {texts : List String}
    {prototypes : List RuntimePrototype} {fs : List FunctionRef}
    (h : view.DenotesAll links values ws) (htexts : ids.mapM view.text = .ok texts)
    (hprototypes : view.DenotesFunctions links prototypes fs) :
    view.Settled (.byteCodeProto code values ids prototypes) :=
  settled_of_unfolds nofun ⟨h.kinded, has_text_of_mapM htexts, hprototypes.kinded⟩
    (unfolds_append h.unfolds (unfolds_append
      (fun _ hmem => nomatch (List.mem_map.mp hmem).choose_spec.2) hprototypes.unfolds))

end Settled

section Total

/-- A part of the graph without cycles and without unfilled slots unfolds. -/
theorem unfolds_of_acyclic {refs : List Ref}
    (hacyclic : ∀ handle, view.Reaches refs handle → ¬Relation.TransGen view.Edge handle handle)
    (hready : ∀ handle, view.Reaches refs handle →
      ∃ object, view.object handle = .ok object ∧ object ≠ .reserved ∧ object ≠ .upLink none)
    {handle : Handle} (hreach : view.Reaches refs handle) : view.Unfolds handle := by
  let Part := {handle : Handle // view.Reaches refs handle}
  let below : Part → Part → Prop := fun a b => Relation.TransGen view.Edge b.1 a.1
  have hfinite : Finite Part := by
    refine Set.Finite.subset (List.finite_toSet view.handles) fun handle hreach => ?_
    obtain ⟨object, hobject, -⟩ := hready handle hreach
    exact mem_handles hobject
  have htrans : IsTrans Part below := ⟨fun _ _ _ hab hbc => hbc.trans hab⟩
  have hirrefl : Std.Irrefl below := ⟨fun a => hacyclic a.1 a.2⟩
  have hwf := Finite.wellFounded_of_trans_of_irrefl below
  refine hwf.induction (C := fun part : Part => view.Unfolds part.1) ⟨handle, hreach⟩ ?_
  rintro ⟨handle, hreach⟩ ih
  obtain ⟨object, hobject, hfilled, hlinked⟩ := hready handle hreach
  refine .step hobject hfilled hlinked fun next hnext => ?_
  exact ih ⟨next, hreach.step ⟨object, hobject, hnext⟩⟩ (.single ⟨object, hobject, hnext⟩)

/-- What a kinded handle that unfolds denotes, whatever names it. -/
structure HandleDenotes (view : HeapView) (handle : Handle) : Prop where
  value : ∀ value : RuntimeValue, view.ValueKinded value → .object handle ∈ value.refs →
    ∃ w, view.Denotes True value w
  prototype : view.HasKind handle .byteCodeProto → ∃ f, view.DenotesFunction True handle f

/-- A kinded value denotes something when its handle does. -/
theorem exists_denotes_value {value : RuntimeValue} (hkinded : view.ValueKinded value)
    (h : ∀ next, .object next ∈ value.refs → view.HandleDenotes next) :
    ∃ w, view.Denotes True value w := by
  cases value with
  | int => exact ⟨_, .int⟩
  | float => exact ⟨_, .float⟩
  | builtinAtom atom => exact ⟨.atom (.builtin atom), .builtinAtom rfl⟩
  | atom id =>
      obtain ⟨text, htext⟩ := hkinded
      exact ⟨.atom (.named text), .atom htext⟩
  | shortString id =>
      obtain ⟨text, htext⟩ := hkinded
      exact ⟨_, .shortString htext⟩
  | _ => exact (h _ List.mem_cons_self).value _ hkinded List.mem_cons_self

theorem exists_denotesAll {values : List RichValue}
    (hkinded : ∀ value ∈ values, view.ValueKinded value.value)
    (h : ∀ next, .object next ∈ values.flatMap RichValue.refs → view.HandleDenotes next) :
    ∃ ws, view.DenotesAll True values ws := by
  induction values with
  | nil => exact ⟨[], .nil⟩
  | cons value rest ih =>
      obtain ⟨w, hw⟩ := exists_denotes_value (hkinded _ List.mem_cons_self)
        fun next hnext => h next (List.mem_append_left _ hnext)
      obtain ⟨ws, hws⟩ := ih (fun v hv => hkinded v (List.mem_cons_of_mem _ hv))
        fun next hnext => h next (List.mem_append_right _ hnext)
      exact ⟨w :: ws, .cons hw hws⟩

theorem exists_denotesFunctions {prototypes : List RuntimePrototype}
    (hkinded : ∀ prototype ∈ prototypes, ∃ handle, prototype = .bytecode handle ∧
      view.HasKind handle .byteCodeProto)
    (h : ∀ next, .object next ∈ prototypes.flatMap RuntimePrototype.refs →
      view.HandleDenotes next) : ∃ fs, view.DenotesFunctions True prototypes fs := by
  induction prototypes with
  | nil => exact ⟨[], .nil⟩
  | cons prototype rest ih =>
      obtain ⟨handle, rfl, hkind⟩ := hkinded _ List.mem_cons_self
      obtain ⟨f, hf⟩ := (h handle (List.mem_append_left _ List.mem_cons_self)).prototype hkind
      obtain ⟨fs, hfs⟩ := ih (fun p hp => hkinded p (List.mem_cons_of_mem _ hp))
        fun next hnext => h next (List.mem_append_right _ hnext)
      exact ⟨f :: fs, .cons hf hfs⟩

/-- An atom denotes an atom. -/
theorem exists_denotes_atom {value : RuntimeValue} (hkinded : view.ValueKinded value)
    (hatom : value.IsAtom) : ∃ a, view.Denotes True value (.atom a) := by
  cases value with
  | builtinAtom atom => exact ⟨.builtin atom, .builtinAtom rfl⟩
  | atom id =>
      obtain ⟨text, htext⟩ := hkinded
      exact ⟨.named text, .atom htext⟩
  | _ => cases hatom

/-- In a well-kinded view a handle that unfolds denotes. -/
theorem WellKinded.handleDenotes (hkinded : view.WellKinded) {handle : Handle}
    (h : view.Unfolds handle) : view.HandleDenotes handle := by
  induction h with
  | @step handle object hobject hfilled hlinked hrefs ih =>
      clear hrefs
      have hkind : ∀ {kind}, view.HasKind handle kind → object.kind = some kind := by
        rintro kind ⟨object', hobject', hkind⟩
        obtain rfl := Except.ok.inj (hobject.symm.trans hobject')
        exact hkind.resolve_left hfilled
      have hobjectKinded := hkinded hobject
      constructor
      · intro value hvalue hmem
        cases value with
        | int => cases hmem
        | float => cases hmem
        | builtinAtom => cases hmem
        | atom => cases List.mem_singleton.mp hmem
        | shortString => cases List.mem_singleton.mp hmem
        | array =>
            obtain rfl := Ref.object.inj (List.mem_singleton.mp hmem)
            cases object <;> cases hkind hvalue
            obtain ⟨ws, hws⟩ := exists_denotesAll hobjectKinded ih
            exact ⟨_, .array hobject hws⟩
        | tuple =>
            obtain rfl := Ref.object.inj (List.mem_singleton.mp hmem)
            cases object <;> cases hkind hvalue
            obtain ⟨ws, hws⟩ := exists_denotesAll hobjectKinded ih
            exact ⟨_, .tuple hobject hws⟩
        | tagged =>
            obtain rfl := Ref.object.inj (List.mem_singleton.mp hmem)
            cases object <;> cases hkind hvalue
            obtain ⟨hatom, htag, hpayload⟩ := hobjectKinded
            obtain ⟨a, ha⟩ := exists_denotes_atom htag hatom
            obtain ⟨w, hw⟩ := exists_denotes_value hpayload fun next hnext =>
              ih next (List.mem_append_right _ hnext)
            exact ⟨_, .tagged hobject ha hw⟩
        | dict =>
            obtain rfl := Ref.object.inj (List.mem_singleton.mp hmem)
            cases object <;> cases hkind hvalue
            obtain ⟨names, hnames⟩ := hobjectKinded.1.fieldNames
            obtain ⟨ws, hws⟩ := exists_denotesAll hobjectKinded.2 fun next hnext =>
              ih next (List.mem_cons_of_mem _ hnext)
            exact ⟨_, .dict hobject hnames hws⟩
        | func =>
            obtain rfl := Ref.object.inj (List.mem_singleton.mp hmem)
            cases object <;> cases hkind hvalue
            rename_i identity prototype upvalues
            obtain ⟨ws, hws⟩ := exists_denotesAll hobjectKinded.2 fun next hnext =>
              ih next (List.mem_append_right _ hnext)
            cases prototype with
            | native function => exact ⟨_, .func hobject .native hws⟩
            | bytecode proto =>
                obtain ⟨f, hf⟩ := (ih proto (List.mem_append_left _ List.mem_cons_self)).prototype
                  hobjectKinded.1
                exact ⟨_, .func hobject (.bytecode hf) hws⟩
        | dyn =>
            obtain rfl := Ref.object.inj (List.mem_singleton.mp hmem)
            cases object <;> cases hkind hvalue
            obtain ⟨d, hd⟩ := exists_denotes_value hobjectKinded.1 fun next hnext =>
              ih next (List.mem_append_left _ hnext)
            obtain ⟨w, hw⟩ := exists_denotes_value hobjectKinded.2 fun next hnext =>
              ih next (List.mem_append_right _ hnext)
            exact ⟨_, .dyn hobject hd hw⟩
        | upLink =>
            obtain rfl := Ref.object.inj (List.mem_singleton.mp hmem)
            cases object <;> cases hkind hvalue
            rename_i linked
            cases linked with
            | none => exact absurd rfl hlinked
            | some linked =>
                obtain ⟨w, hw⟩ := exists_denotes_value hobjectKinded ih
                exact ⟨_, .upLink trivial hobject hw⟩
        | string =>
            obtain rfl := Ref.object.inj (List.mem_singleton.mp hmem)
            cases object <;> cases hkind hvalue
            exact ⟨_, .string hobject⟩
        | bytes =>
            obtain rfl := Ref.object.inj (List.mem_singleton.mp hmem)
            cases object <;> cases hkind hvalue
            exact ⟨_, .bytes hobject⟩
        | nativeType =>
            obtain rfl := Ref.object.inj (List.mem_singleton.mp hmem)
            cases object <;> cases hkind hvalue
            exact ⟨_, .nativeType hobject⟩
        | opaqueValue =>
            obtain rfl := Ref.object.inj (List.mem_singleton.mp hmem)
            cases object <;> cases hkind hvalue
            exact ⟨_, .opaqueValue hobject⟩
      · intro hproto
        cases object <;> cases hkind hproto
        obtain ⟨hvalues, htexts, hprototypes⟩ := hobjectKinded
        obtain ⟨ws, hws⟩ := exists_denotesAll hvalues fun next hnext =>
          ih next (List.mem_append_left _ hnext)
        obtain ⟨texts, htexts⟩ := exists_mapM_eq_ok htexts
        obtain ⟨fs, hfs⟩ := exists_denotesFunctions hprototypes fun next hnext =>
          ih next (List.mem_append_right _ (List.mem_append_right _ hnext))
        exact ⟨.mk 0 (.mk _ ws [] texts fs), .mk hobject hws htexts hfs⟩

/-- Some handle below the references leads back to itself. -/
def Cyclic (view : HeapView) (refs : List Ref) : Prop :=
  ∃ handle, view.Reaches refs handle ∧ Relation.TransGen view.Edge handle handle

/-- Some slot below the references is reserved, or is an empty up-link. -/
def Unfilled (view : HeapView) (refs : List Ref) : Prop :=
  ∃ handle, view.Reaches refs handle ∧
    (view.object handle = .ok .reserved ∨ view.object handle = .ok (.upLink none))

/-- A kinded value has a public value exactly when its graph is neither cyclic nor
unfilled somewhere. -/
theorem exists_denotes_iff (hkinded : view.WellKinded) {value : RuntimeValue}
    (hvalue : view.ValueKinded value) :
    (∃ w, view.Denotes True value w) ↔ ¬view.Cyclic value.refs ∧ ¬view.Unfilled value.refs := by
  constructor
  · rintro ⟨w, hw⟩
    refine ⟨?_, ?_⟩
    · rintro ⟨handle, hreach, hcycle⟩
      exact (Unfolds.reaches hw.unfolds hreach).acyclic hcycle
    · rintro ⟨handle, hreach, hunfilled⟩
      obtain ⟨object, hobject, hfilled, hlinked⟩ := (Unfolds.reaches hw.unfolds hreach).object
      rcases hunfilled with h | h
      · exact hfilled (Except.ok.inj (hobject.symm.trans h))
      · exact hlinked (Except.ok.inj (hobject.symm.trans h))
  · rintro ⟨hacyclic, hfilled⟩
    refine exists_denotes_value hvalue fun next hnext => hkinded.handleDenotes ?_
    refine @unfolds_of_acyclic view value.refs
      (fun handle hreach hcycle => hacyclic ⟨handle, hreach, hcycle⟩)
      (fun handle hreach => ?_) next (.root hnext)
    obtain ⟨object, hobject⟩ := hreach.has (fun h => (hkinded h).refs) hvalue.refs
    refine ⟨object, hobject, ?_, ?_⟩
    · rintro rfl
      exact hfilled ⟨handle, hreach, .inl hobject⟩
    · rintro rfl
      exact hfilled ⟨handle, hreach, .inr hobject⟩

end Total

end Telora.HeapView
