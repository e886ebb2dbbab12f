import Telora.Heap.Boundary
import Telora.Heap.Unfolding
import Telora.Library.Reachability

/-!
# Export unfolds the graph

An export that succeeds returns what the value denotes, with every function at an
address of its own; a value with a denotation is always exported.
-/

namespace Telora.HeapView

open Library Bytecode

variable {view : HeapView} {links : Prop}

section Addresses

/-- Functions allocated between two addresses: one to an address, none of them with
an external link. -/
structure Allocated (first last : Nat) (functions : List FunctionRef) : Prop where
  le : first ≤ last
  bounds : ∀ f ∈ functions, first ≤ f.address ∧ f.address < last
  coherent : Coherent functions
  closed : ∀ f ∈ functions, f.Closed

theorem Allocated.nil (n : Nat) : Allocated n n [] :=
  ⟨le_refl n, fun _ h => absurd h List.not_mem_nil, fun _ h => absurd h List.not_mem_nil,
    fun _ h => absurd h List.not_mem_nil⟩

theorem Allocated.append {a b c : Nat} {fs gs : List FunctionRef} (hf : Allocated a b fs)
    (hg : Allocated b c gs) : Allocated a c (fs ++ gs) where
  le := hf.le.trans hg.le
  bounds := by
    intro f hmem
    rcases List.mem_append.mp hmem with hmem | hmem
    · exact ⟨(hf.bounds f hmem).1, (hf.bounds f hmem).2.trans_le hg.le⟩
    · exact ⟨hf.le.trans (hg.bounds f hmem).1, (hg.bounds f hmem).2⟩
  coherent := by
    intro f hf' g hg' hsame
    -- functions of the two halves are at different addresses
    rcases List.mem_append.mp hf' with hf' | hf' <;> rcases List.mem_append.mp hg' with hg' | hg'
    · exact hf.coherent f hf' g hg' hsame
    · have := (hf.bounds f hf').2
      have := (hg.bounds g hg').1
      omega
    · have := (hg.bounds f hf').1
      have := (hf.bounds g hg').2
      omega
    · exact hg.coherent f hf' g hg' hsame
  closed := fun f hmem => (List.mem_append.mp hmem).elim (hf.closed f) (hg.closed f)

/-- A function allocated after its links. -/
theorem Allocated.allocate {first last : Nat} {code : FuncByteCode} {values : List Value}
    {text : List String} {prototypes : List FunctionRef}
    (h : Allocated first last (valuesFunctions values ++ prototypesFunctions prototypes)) :
    Allocated first (last + 1) (FunctionRef.mk last (.mk code values [] text prototypes)).functions where
  le := h.le.trans (Nat.le_succ _)
  bounds := by
    intro f hmem
    rcases List.mem_cons.mp hmem with rfl | hmem
    · exact ⟨h.le, Nat.lt_succ_self _⟩
    · exact ⟨(h.bounds f hmem).1, Nat.lt_succ_of_lt (h.bounds f hmem).2⟩
  coherent := by
    intro f hf g hg hsame
    rcases List.mem_cons.mp hf with rfl | hf <;> rcases List.mem_cons.mp hg with rfl | hg
    · rfl
    · exact absurd hsame.symm (h.bounds g hg).2.ne
    · exact absurd hsame (h.bounds f hf).2.ne
    · exact h.coherent f hf g hg hsame
  closed := by
    intro f hmem
    rcases List.mem_cons.mp hmem with rfl | hmem
    · exact fun _ hkey => absurd hkey List.not_mem_nil
    · exact h.closed f hmem

end Addresses

section Sound

theorem exportValues_sound {export_ : RuntimeValue → Export Value}
    (h : ∀ value n, Runs (export_ value) n
      (fun w n' => view.Denotes True value w ∧ Allocated n n' w.functions) fun _ => True)
    (values : List RichValue) (n : Nat) :
    Runs (values.mapM fun value => export_ value.value) n
      (fun ws n' => view.DenotesAll True values ws ∧ Allocated n n' (valuesFunctions ws))
      fun _ => True := by
  induction values generalizing n with
  | nil => exact .pure ⟨.nil, .nil n⟩
  | cons value rest ih =>
      rw [List.mapM_cons]
      refine .bind ((h value.value n).imp ?_ fun _ => id)
      rintro w n₁ ⟨hw, halloc⟩
      refine .bind ((ih n₁).imp ?_ fun _ => id)
      rintro ws n₂ ⟨hws, halloc'⟩
      exact .pure ⟨.cons hw hws, halloc.append halloc'⟩

theorem exportPrototypes_sound {export_ : RuntimePrototype → Export Prototype}
    (h : ∀ prototype n, Runs (export_ prototype) n
      (fun q n' => view.DenotesPrototype True prototype q ∧ Allocated n n' q.functions) fun _ => True)
    (prototypes : List RuntimePrototype) (n : Nat) :
    Runs (prototypes.mapM fun prototype => do bytecodeLink (← export_ prototype)) n
      (fun fs n' => view.DenotesFunctions True prototypes fs ∧ Allocated n n' (prototypesFunctions fs))
      fun _ => True := by
  induction prototypes generalizing n with
  | nil => exact .pure ⟨.nil, .nil n⟩
  | cons prototype rest ih =>
      rw [List.mapM_cons]
      refine .bind (.bind ((h prototype n).imp ?_ fun _ => id))
      rintro q n₁ ⟨hq, halloc⟩
      cases hq with
      | native => exact .throw trivial
      | bytecode hf =>
          refine .pure (.bind ((ih n₁).imp ?_ fun _ => id))
          rintro fs n₂ ⟨hfs, halloc'⟩
          exact .pure ⟨.cons hf hfs, halloc.append halloc'⟩

theorem fromLinkedParts_runs {code : FuncByteCode} {values : List Value} {text : List String}
    {prototypes : List FunctionRef} {n : Nat} {post : FunctionRef → Nat → Prop}
    {fail : HeapError → Prop} (h : post (.mk n (.mk code values [] text prototypes)) (n + 1)) :
    Runs (fromLinkedParts code values text prototypes) n post fail := h

theorem enterObject_ok {handle : Handle} {visiting : List Handle} {object : Object}
    (h : view.enterObject handle visiting = .ok object) : view.object handle = .ok object :=
  (ite_error_eq_ok.mp h).2

/-- An export returns what the value denotes. -/
theorem export_sound (view : HeapView) (fuel : Nat) :
    (∀ visiting value n, Runs (view.exportValueWith fuel visiting value) n
      (fun w n' => view.Denotes True value w ∧ Allocated n n' w.functions) fun _ => True) ∧
    ∀ visiting prototype n, Runs (view.exportPrototype fuel visiting prototype) n
      (fun q n' => view.DenotesPrototype True prototype q ∧ Allocated n n' q.functions)
      fun _ => True := by
  induction fuel with
  | zero =>
      refine ⟨fun _ _ _ => .throw trivial, fun visiting prototype n => ?_⟩
      cases prototype with
      | native function => exact .pure ⟨.native, .nil n⟩
      | bytecode handle => exact .throw trivial
  | succ fuel ih =>
      obtain ⟨ihValue, ihPrototype⟩ := ih
      have hvalues := fun visiting => exportValues_sound (ihValue visiting)
      constructor
      · intro visiting value n
        cases value with
        | int => exact .pure ⟨.int, .nil n⟩
        | float => exact .pure ⟨.float, .nil n⟩
        | builtinAtom => exact .pure ⟨.builtinAtom rfl, .nil n⟩
        | atom id =>
            exact .bind (.lift (fun text htext => .pure ⟨.atom htext, .nil n⟩) fun _ _ => trivial)
        | shortString id =>
            exact .bind (.lift (fun text htext => .pure ⟨.shortString htext, .nil n⟩)
              fun _ _ => trivial)
        | string handle =>
            refine .bind (.lift (fun object hobject => ?_) fun _ _ => trivial)
            cases object <;> first
              | exact .pure ⟨.string (enterObject_ok hobject), .nil n⟩
              | exact .throw trivial
        | bytes handle =>
            refine .bind (.lift (fun object hobject => ?_) fun _ _ => trivial)
            cases object <;> first
              | exact .pure ⟨.bytes (enterObject_ok hobject), .nil n⟩
              | exact .throw trivial
        | nativeType handle =>
            refine .bind (.lift (fun object hobject => ?_) fun _ _ => trivial)
            cases object <;> first
              | exact .pure ⟨.nativeType (enterObject_ok hobject), .nil n⟩
              | exact .throw trivial
        | opaqueValue handle =>
            refine .bind (.lift (fun object hobject => ?_) fun _ _ => trivial)
            cases object <;> first
              | exact .pure ⟨.opaqueValue (enterObject_ok hobject), .nil n⟩
              | exact .throw trivial
        | array handle =>
            refine .bind (.lift (fun object hobject => ?_) fun _ _ => trivial)
            cases object with
            | array values =>
                refine .bind ((hvalues _ values n).imp ?_ fun _ => id)
                rintro ws n₁ ⟨hws, halloc⟩
                exact .pure ⟨.array (enterObject_ok hobject) hws, halloc⟩
            | _ => exact .throw trivial
        | tuple handle =>
            refine .bind (.lift (fun object hobject => ?_) fun _ _ => trivial)
            cases object with
            | tuple values =>
                refine .bind ((hvalues _ values n).imp ?_ fun _ => id)
                rintro ws n₁ ⟨hws, halloc⟩
                exact .pure ⟨.tuple (enterObject_ok hobject) hws, halloc⟩
            | _ => exact .throw trivial
        | tagged handle =>
            refine .bind (.lift (fun object hobject => ?_) fun _ _ => trivial)
            cases object with
            | tagged tag payload =>
                refine .bind ((ihValue _ tag.value n).imp ?_ fun _ => id)
                rintro w n₁ ⟨hw, halloc⟩
                cases w with
                | atom a =>
                    refine .bind (.pure (.bind ((ihValue _ payload.value n₁).imp ?_ fun _ => id)))
                    rintro w n₂ ⟨hw', halloc'⟩
                    exact .pure ⟨.tagged (enterObject_ok hobject) hw hw', halloc.append halloc'⟩
                | _ => exact .bind (.throw trivial)
            | _ => exact .throw trivial
        | dict handle =>
            refine .bind (.lift (fun object hobject => ?_) fun _ _ => trivial)
            cases object with
            | dict shape values =>
                refine .bind (.lift (fun fields hfields => ?_) fun _ _ => trivial)
                refine .bind ((Runs.mapM_lift (fun names hnames => ?_) fun _ _ => trivial))
                refine .bind ((hvalues _ values n).imp ?_ fun _ => id)
                rintro ws n₁ ⟨hws, halloc⟩
                exact .pure ⟨.dict (enterObject_ok hobject)
                  (bind_eq_ok.mpr ⟨fields, hfields, hnames⟩) hws, halloc⟩
            | _ => exact .throw trivial
        | func handle =>
            refine .bind (.lift (fun object hobject => ?_) fun _ _ => trivial)
            cases object with
            | closure identity prototype upvalues =>
                refine .bind ((ihPrototype _ prototype n).imp ?_ fun _ => id)
                rintro q n₁ ⟨hq, halloc⟩
                refine .bind ((hvalues _ upvalues n₁).imp ?_ fun _ => id)
                rintro ws n₂ ⟨hws, halloc'⟩
                exact .pure ⟨.func (enterObject_ok hobject) hq hws, halloc.append halloc'⟩
            | _ => exact .throw trivial
        | dyn handle =>
            refine .bind (.lift (fun object hobject => ?_) fun _ _ => trivial)
            cases object with
            | dyn identity descriptor value scheme origin =>
                refine .bind ((ihValue _ descriptor.value n).imp ?_ fun _ => id)
                rintro d n₁ ⟨hd, halloc⟩
                refine .bind ((ihValue _ value.value n₁).imp ?_ fun _ => id)
                rintro w n₂ ⟨hw, halloc'⟩
                exact .pure ⟨.dyn (enterObject_ok hobject) hd hw, halloc.append halloc'⟩
            | _ => exact .throw trivial
        | upLink handle =>
            refine .bind (.lift (fun linked hlinked => ?_) fun _ _ => trivial)
            cases linked with
            | none => exact .throw trivial
            | some linked =>
                change Runs (if handle ∈ visiting then _ else _) n _ _
                split
                · exact .throw trivial
                · refine (ihValue _ linked.value n).imp ?_ fun _ => id
                  rintro w n₁ ⟨hw, halloc⟩
                  exact ⟨.upLink trivial (upLink_eq_ok.mp hlinked) hw, halloc⟩
      · intro visiting prototype n
        cases prototype with
        | native function => exact .pure ⟨.native, .nil n⟩
        | bytecode handle =>
            refine .bind (.lift (fun object hobject => ?_) fun _ _ => trivial)
            cases object with
            | byteCodeProto code values text prototypes =>
                refine .bind ((hvalues _ values n).imp ?_ fun _ => id)
                rintro ws n₁ ⟨hws, halloc⟩
                refine .bind (Runs.mapM_lift (fun texts htexts => ?_) fun _ _ => trivial)
                refine .bind ((exportPrototypes_sound (ihPrototype _) prototypes n₁).imp ?_
                  fun _ => id)
                rintro fs n₂ ⟨hfs, halloc'⟩
                exact .bind (fromLinkedParts_runs (.pure
                  ⟨.bytecode (.mk (enterObject_ok hobject) hws htexts hfs),
                    (halloc.append halloc').allocate⟩))
            | _ => exact .throw trivial

end Sound

section Complete

/-- A way down that has fuel left and does not lead back to itself. -/
structure Descending (view : HeapView) (fuel : Nat) (visiting : List Handle) (refs : List Ref) :
    Prop where
  within : Within fuel view.handles visiting
  apart : ∀ handle ∈ visiting, ¬view.Reaches refs handle

theorem Descending.mono {fuel : Nat} {visiting : List Handle} {refs refs' : List Ref}
    (h : view.Descending fuel visiting refs) (hsub : refs' ⊆ refs) :
    view.Descending fuel visiting refs' :=
  ⟨h.within, fun handle hmem hreach => h.apart handle hmem (hreach.mono hsub)⟩

/-- Entering a handle that unfolds continues the way down to its object's references. -/
theorem Descending.enter {fuel : Nat} {visiting : List Handle} {handle : Handle} {object : Object}
    (h : view.Descending (fuel + 1) visiting [.object handle])
    (hobject : view.object handle = .ok object) (hunfolds : view.Unfolds handle) :
    view.Descending fuel (handle :: visiting) object.refs ∧
      view.enterObject handle visiting = .ok object ∧ handle ∉ visiting := by
  have hnew : handle ∉ visiting := fun hmem => h.apart handle hmem (.root List.mem_cons_self)
  refine ⟨⟨h.within.enter hnew (mem_handles hobject), ?_⟩, ?_, hnew⟩
  · rintro other hmem ⟨start, hstart, hpath⟩
    have hedge : view.Edge handle start := ⟨object, hobject, hstart⟩
    rcases List.mem_cons.mp hmem with rfl | hmem
    · exact hunfolds.acyclic (.head' hedge hpath)
    · exact h.apart other hmem ⟨handle, List.mem_cons_self, .head hedge hpath⟩
  · rw [enterObject, if_neg hnew, hobject]

/-- A step of an export that reads an object. -/
theorem enter_runs {α : Type} {handle : Handle} {visiting : List Handle} {object : Object}
    (h : view.enterObject handle visiting = .ok object) {k : Object → Export α} {n : Nat}
    {post : α → Nat → Prop} {fail : HeapError → Prop} (hk : Runs (k object) n post fail) :
    Runs (liftM (view.enterObject handle visiting) >>= k) n post fail := by
  rw [h]
  exact .bind (.lift (fun _ ha => Except.ok.inj ha ▸ hk) fun _ he => nomatch he)

theorem lift_runs {α β : Type} {x : Except HeapError α} {a : α} (h : x = .ok a)
    {k : α → Export β} {n : Nat} {post : β → Nat → Prop} {fail : HeapError → Prop}
    (hk : Runs (k a) n post fail) : Runs (liftM x >>= k) n post fail := by
  subst h
  exact .bind (.lift (fun _ ha => Except.ok.inj ha ▸ hk) fun _ he => nomatch he)

theorem Descending.fuel_succ {fuel : Nat} {visiting : List Handle} {refs : List Ref}
    (h : view.Descending fuel visiting refs) : ∃ rest, fuel = rest + 1 :=
  ⟨fuel - 1, (Nat.succ_pred_eq_of_pos h.within.fuel_pos).symm⟩

mutual

/-- A value with a denotation is exported to that value. -/
theorem Denotes.exports {value : RuntimeValue} {w : Value} {fuel : Nat} {visiting : List Handle}
    {n : Nat} (hfuel : view.Descending fuel visiting value.refs) :
    view.Denotes links value w → Runs (view.exportValueWith fuel visiting value) n
      (fun w' _ => w'.canonical = w.canonical) fun _ => False
  | .int => by
      obtain ⟨fuel, rfl⟩ := hfuel.fuel_succ
      exact .pure rfl
  | .float => by
      obtain ⟨fuel, rfl⟩ := hfuel.fuel_succ
      exact .pure rfl
  | .builtinAtom hname => by
      obtain ⟨fuel, rfl⟩ := hfuel.fuel_succ
      exact .pure (congrArg Value.atom (Atom.canonical_eq_iff.mpr hname.symm))
  | .atom htext => by
      obtain ⟨fuel, rfl⟩ := hfuel.fuel_succ
      exact lift_runs htext (.pure (congrArg Value.atom (Atom.canonical_eq_iff.mpr rfl)))
  | .shortString htext => by
      obtain ⟨fuel, rfl⟩ := hfuel.fuel_succ
      exact lift_runs htext (.pure rfl)
  | .string hobject => by
      obtain ⟨fuel, rfl⟩ := hfuel.fuel_succ
      obtain ⟨-, henter, -⟩ := hfuel.enter hobject (.step hobject nofun nofun unfolds_nil)
      exact enter_runs henter (.pure rfl)
  | .bytes hobject => by
      obtain ⟨fuel, rfl⟩ := hfuel.fuel_succ
      obtain ⟨-, henter, -⟩ := hfuel.enter hobject (.step hobject nofun nofun unfolds_nil)
      exact enter_runs henter (.pure rfl)
  | .nativeType hobject => by
      obtain ⟨fuel, rfl⟩ := hfuel.fuel_succ
      obtain ⟨-, henter, -⟩ := hfuel.enter hobject (.step hobject nofun nofun unfolds_nil)
      exact enter_runs henter (.pure rfl)
  | .opaqueValue hobject => by
      obtain ⟨fuel, rfl⟩ := hfuel.fuel_succ
      obtain ⟨-, henter, -⟩ := hfuel.enter hobject (.step hobject nofun nofun unfolds_nil)
      exact enter_runs henter (.pure rfl)
  | .array hobject hvalues => by
      obtain ⟨fuel, rfl⟩ := hfuel.fuel_succ
      obtain ⟨hbelow, henter, -⟩ := hfuel.enter hobject
        (.step hobject nofun nofun hvalues.unfolds)
      refine enter_runs henter (.bind ((hvalues.exports hbelow).imp ?_ fun _ => id))
      exact fun ws' _ hws => .pure (congrArg Value.array hws)
  | .tuple hobject hvalues => by
      obtain ⟨fuel, rfl⟩ := hfuel.fuel_succ
      obtain ⟨hbelow, henter, -⟩ := hfuel.enter hobject
        (.step hobject nofun nofun hvalues.unfolds)
      refine enter_runs henter (.bind ((hvalues.exports hbelow).imp ?_ fun _ => id))
      exact fun ws' _ hws => .pure (congrArg Value.tuple hws)
  | .tagged hobject htag hpayload => by
      obtain ⟨fuel, rfl⟩ := hfuel.fuel_succ
      obtain ⟨hbelow, henter, -⟩ := hfuel.enter hobject
        (.step hobject nofun nofun (unfolds_append htag.unfolds hpayload.unfolds))
      refine enter_runs henter (.bind ((htag.exports
        (hbelow.mono (List.subset_append_left _ _))).imp ?_ fun _ => id))
      intro tag n₁ htagSame
      cases tag with
      | atom a =>
          refine .bind (.pure (.bind ((hpayload.exports
            (hbelow.mono (List.subset_append_right _ _))).imp ?_ fun _ => id)))
          intro w' _ hw'
          exact .pure (congrArg₂ Value.tagged (Value.atom.inj htagSame) hw')
      | _ => cases htagSame
  | .dict hobject hnames hvalues => by
      obtain ⟨fuel, rfl⟩ := hfuel.fuel_succ
      obtain ⟨fields, hfields, htexts⟩ := bind_eq_ok.mp hnames
      obtain ⟨hbelow, henter, -⟩ := hfuel.enter hobject
        (.step hobject nofun nofun fun next hmem =>
          (List.mem_cons.mp hmem).elim (fun h => nomatch h) (hvalues.unfolds next))
      refine enter_runs henter (lift_runs hfields (.bind (Runs.mapM_lift ?_ ?_)))
      · intro names' hnames'
        obtain rfl := Except.ok.inj (htexts.symm.trans hnames')
        refine .bind ((hvalues.exports (hbelow.mono (List.subset_cons_self _ _))).imp ?_ fun _ => id)
        exact fun ws' _ hws => .pure (congrArg (Value.dict _) hws)
      · intro e he
        rw [htexts] at he
        cases he
  | .func hobject hprototype hupvalues => by
      obtain ⟨fuel, rfl⟩ := hfuel.fuel_succ
      obtain ⟨hbelow, henter, -⟩ := hfuel.enter hobject
        (.step hobject nofun nofun (unfolds_append hprototype.unfolds hupvalues.unfolds))
      refine enter_runs henter (.bind ((hprototype.exports
        (hbelow.mono (List.subset_append_left _ _))).imp ?_ fun _ => id))
      intro q' n₁ hq
      refine .bind ((hupvalues.exports (hbelow.mono (List.subset_append_right _ _))).imp ?_
        fun _ => id)
      exact fun ws' _ hws => .pure (congrArg₂ (Value.func _) hq hws)
  | .dyn hobject hdescriptor hvalue => by
      obtain ⟨fuel, rfl⟩ := hfuel.fuel_succ
      obtain ⟨hbelow, henter, -⟩ := hfuel.enter hobject
        (.step hobject nofun nofun (unfolds_append hdescriptor.unfolds hvalue.unfolds))
      refine enter_runs henter (.bind ((hdescriptor.exports
        (hbelow.mono (List.subset_append_left _ _))).imp ?_ fun _ => id))
      intro d' n₁ hd
      refine .bind ((hvalue.exports (hbelow.mono (List.subset_append_right _ _))).imp ?_
        fun _ => id)
      intro w' _ hw
      refine .pure ?_
      rw [Value.canonical, hd, hw, Value.canonical]
  | .upLink _ hobject hvalue => by
      obtain ⟨fuel, rfl⟩ := hfuel.fuel_succ
      obtain ⟨hbelow, -, hnew⟩ := hfuel.enter hobject
        (.step hobject nofun nofun hvalue.unfolds)
      refine lift_runs (upLink_eq_ok.mpr hobject) ?_
      change Runs (if _ ∈ visiting then _ else _) n _ _
      rw [if_neg hnew]
      exact hvalue.exports hbelow

theorem DenotesAll.exports {values : List RichValue} {ws : List Value} {fuel : Nat}
    {visiting : List Handle} {n : Nat}
    (hfuel : view.Descending fuel visiting (values.flatMap RichValue.refs)) :
    view.DenotesAll links values ws →
      Runs (values.mapM fun value => view.exportValueWith fuel visiting value.value) n
        (fun ws' _ => canonicalValues ws' = canonicalValues ws) fun _ => False
  | .nil => .pure rfl
  | .cons hvalue hrest => by
      rw [List.mapM_cons]
      refine .bind ((hvalue.exports (hfuel.mono (List.subset_append_left _ _))).imp ?_ fun _ => id)
      intro w' n₁ hw
      refine .bind ((hrest.exports (hfuel.mono (List.subset_append_right _ _))).imp ?_ fun _ => id)
      exact fun ws' _ hws => .pure (congrArg₂ List.cons hw hws)

theorem DenotesPrototype.exports {prototype : RuntimePrototype} {q : Prototype} {fuel : Nat}
    {visiting : List Handle} {n : Nat}
    (hfuel : view.Descending fuel visiting prototype.refs) :
    view.DenotesPrototype links prototype q →
      Runs (view.exportPrototype fuel visiting prototype) n
        (fun q' _ => q'.canonical = q.canonical) fun _ => False
  | .native => by
      obtain ⟨fuel, rfl⟩ := hfuel.fuel_succ
      exact .pure rfl
  | .bytecode hfunction => (hfunction.exports hfuel).imp
      (fun _ _ h => by obtain ⟨f', rfl, hf⟩ := h; exact congrArg Prototype.bytecode hf)
      fun _ => id

theorem DenotesFunction.exports {handle : Handle} {f : FunctionRef} {fuel : Nat}
    {visiting : List Handle} {n : Nat}
    (hfuel : view.Descending fuel visiting [.object handle]) :
    view.DenotesFunction links handle f →
      Runs (view.exportPrototype fuel visiting (.bytecode handle)) n
        (fun q' _ => ∃ f', q' = .bytecode f' ∧ f'.canonical = f.canonical) fun _ => False
  | .mk hobject hvalues htexts hprototypes => by
      obtain ⟨fuel, rfl⟩ := hfuel.fuel_succ
      obtain ⟨hbelow, henter, -⟩ := hfuel.enter hobject
        (.step hobject nofun nofun (unfolds_append hvalues.unfolds (unfolds_append
          (fun _ hmem => nomatch (List.mem_map.mp hmem).choose_spec.2) hprototypes.unfolds)))
      refine enter_runs henter (.bind ((hvalues.exports
        (hbelow.mono (List.subset_append_left _ _))).imp ?_ fun _ => id))
      intro ws' n₁ hws
      refine .bind (Runs.mapM_lift ?_ ?_)
      · intro texts' htexts'
        obtain rfl := Except.ok.inj (htexts.symm.trans htexts')
        refine .bind ((hprototypes.exports (hbelow.mono ?_)).imp ?_ fun _ => id)
        · exact fun _ hmem => List.mem_append_right _ (List.mem_append_right _ hmem)
        · intro fs' n₂ hfs
          refine .bind (fromLinkedParts_runs (.pure ⟨_, rfl, ?_⟩))
          rw [FunctionRef.canonical, hws, hfs, FunctionRef.canonical]
      · intro e he
        rw [htexts] at he
        cases he

theorem DenotesFunctions.exports {prototypes : List RuntimePrototype} {fs : List FunctionRef}
    {fuel : Nat} {visiting : List Handle} {n : Nat}
    (hfuel : view.Descending fuel visiting (prototypes.flatMap RuntimePrototype.refs)) :
    view.DenotesFunctions links prototypes fs →
      Runs (prototypes.mapM fun prototype => do
          bytecodeLink (← view.exportPrototype fuel visiting prototype)) n
        (fun fs' _ => canonicalFunctions fs' = canonicalFunctions fs) fun _ => False
  | .nil => .pure rfl
  | .cons hfunction hrest => by
      rw [List.mapM_cons]
      refine .bind (.bind ((hfunction.exports
        (hfuel.mono (List.subset_append_left _ _))).imp ?_ fun _ => id))
      rintro _ n₁ ⟨f', rfl, hf⟩
      refine .pure (.bind ((hrest.exports
        (hfuel.mono (List.subset_append_right _ _))).imp ?_ fun _ => id))
      exact fun fs' _ hfs => .pure (congrArg₂ List.cons hf hfs)

end

end Complete

end Telora.HeapView
