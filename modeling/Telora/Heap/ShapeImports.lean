import Telora.Heap.Shapes

/-!
# Imports keep the shapes in order

The dicts of public values list their fields in order, with a value for each. Importing a value,
linking a function, and importing a sourced value intern the fields of a dict in that order, so
they keep a heap in order, whichever of the texts the background already has.
-/

namespace Telora

open Library Bytecode

mutual

/-- Every dict of a value lists its fields in order, with a value for each. -/
def Value.Shaped : Value → Prop
  | .int _ | .float _ | .string _ | .bytes _ | .nativeType _ | .opaqueValue _ | .atom _ => True
  | .dict fields values =>
      fields.Pairwise (· < ·) ∧ fields.length = values.length ∧ valuesShaped values
  | .array values => valuesShaped values
  | .tagged _ payload => payload.Shaped
  | .tuple values => valuesShaped values
  | .func _ prototype upvalues => prototype.Shaped ∧ valuesShaped upvalues
  | .dyn _ descriptor value _ _ => descriptor.Shaped ∧ value.Shaped

def valuesShaped : List Value → Prop
  | [] => True
  | value :: rest => value.Shaped ∧ valuesShaped rest

def Prototype.Shaped : Prototype → Prop
  | .bytecode function => function.Shaped
  | .native _ => True

def FunctionRef.Shaped : FunctionRef → Prop
  | .mk _ (.mk _ values _ _ prototypes) => valuesShaped values ∧ functionsShaped prototypes

def functionsShaped : List FunctionRef → Prop
  | [] => True
  | function :: rest => function.Shaped ∧ functionsShaped rest

end

inductive ValuePathSegment where
  | index (index : Nat)
  | key (key : String)
  deriving DecidableEq, Repr

abbrev ValuePath := List ValuePathSegment

/-- A value together with the locations of its parts. -/
structure SourcedValue where
  value : Value
  values : List (ValuePath × Loc)

/-- A value of data, at its location if that is known. -/
def RichValue.original (value : RuntimeValue) : Option Loc → RichValue
  | some location => ⟨value, .original location⟩
  | none => ⟨value, .unknown⟩

section Sourced

variable (background : Option Heap) (locations : List (ValuePath × Loc))

mutual

/-- Sourced data has no functions; only the heap of the state is used. -/
def importSourcedAt (path : ValuePath) : Value → Import RichValue
  | .int value => return .original (.int value) (locations.lookup path)
  | .float value => return .original (.float value) (locations.lookup path)
  | .string value => do
      return .original (← onHeap (·.string background value)) (locations.lookup path)
  | .bytes value => do
      return .original (.bytes (← onHeap (·.allocate (.bytes value)))) (locations.lookup path)
  | .nativeType value => do
      return .original (.nativeType (← onHeap (·.allocate (.nativeType value))))
        (locations.lookup path)
  | .opaqueValue value => do
      return .original (.opaqueValue (← onHeap (·.allocate (.opaqueValue value))))
        (locations.lookup path)
  | .atom atom => do
      return .original (← importAtom background atom) (locations.lookup path)
  | .tagged tag payload => do
      let tag ← importAtom background tag
      let payload ← importSourcedAt (path ++ [.index 0]) payload
      return .original (.tagged (← onHeap (·.allocate
        (.tagged (.original tag (locations.lookup path)) payload)))) (locations.lookup path)
  | .array values => do
      let values ← importSourcedItems path 0 values
      return .original (.array (← onHeap (·.allocate (.array values)))) (locations.lookup path)
  | .tuple values => do
      let values ← importSourcedItems path 0 values
      return .original (.tuple (← onHeap (·.allocate (.tuple values)))) (locations.lookup path)
  | .dict fields values => do
      let entries ← importSourcedFields path fields values
      let shape ← onHeap (·.internShape (entries.map (·.1)))
      return .original (.dict (← onHeap (·.allocate (.dict shape (entries.map (·.2))))))
        (locations.lookup path)
  | .func _ _ _ => throw ⟨"sourced data cannot contain Func"⟩
  | .dyn _ _ _ _ _ => throw ⟨"sourced data cannot contain Dyn"⟩

def importSourcedItems (path : ValuePath) (index : Nat) : List Value → Import (List RichValue)
  | [] => return []
  | value :: rest => do
      let imported ← importSourcedAt (path ++ [.index index]) value
      return imported :: (← importSourcedItems path (index + 1) rest)

def importSourcedFields (path : ValuePath) :
    List String → List Value → Import (List (InternId × RichValue))
  | field :: fields, value :: rest => do
      let id ← onHeap (·.internIn background field)
      let imported ← importSourcedAt (path ++ [.key field]) value
      return (id, imported) :: (← importSourcedFields path fields rest)
  | _, _ => return []

end

def importSourcedValue (heap : Heap) (sourced : SourcedValue) :
    Except HeapError (RichValue × Heap) := do
  let (imported, state) ←
    (importSourcedAt background sourced.values [] sourced.value).run ⟨heap, []⟩
  return (imported, state.heap)

end Sourced

section Keeping

variable {background : Option Heap} {α β : Type}

/-- A state in order whose heap came from another one. -/
structure Arranged (background : Option Heap) (before after : Importing) : Prop where
  ordered : after.heap.Ordered background
  backed : Backed background after.heap
  widens : before.heap.Widens after.heap

theorem Arranged.refl {s : Importing} (hordered : s.heap.Ordered background)
    (hbacked : Backed background s.heap) : Arranged background s s :=
  ⟨hordered, hbacked, .refl _⟩

theorem Arranged.trans {s s' s'' : Importing} (h : Arranged background s s')
    (h' : Arranged background s' s'') : Arranged background s s'' :=
  ⟨h'.ordered, h'.backed, h.widens.trans h'.widens⟩

theorem Arranged.again {s s' : Importing} (h : Arranged background s s') :
    Arranged background s' s' := .refl h.ordered h.backed

theorem Backed.widens {heap heap' : Heap} (h : Backed background heap)
    (hwidens : heap.Widens heap') : Backed background heap' := fun main hmain =>
  ⟨(h main hmain).1, hwidens.storage.trans (h main hmain).2⟩

/-- Every run of an import keeps a state in order, and its result is as described. -/
def Arranges (background : Option Heap) (x : Import α) (post : Heap → α → Prop) : Prop :=
  ∀ s, Arranged background s s →
    Runs x s (fun a s' => Arranged background s s' ∧ post s'.heap a) fun _ => True

namespace Arranges

variable {post : Heap → α → Prop} {post' : Heap → β → Prop}

theorem pure {a : α} (h : ∀ heap : Heap, post heap a) : Arranges background (Pure.pure a) post :=
  fun _ hs => .pure ⟨hs, h _⟩

theorem throw {e : HeapError} : Arranges background (MonadExcept.throw e : Import α) post :=
  fun _ _ => .throw trivial

theorem bind {x : Import β} {f : β → Import α} (hx : Arranges background x post')
    (hf : ∀ b s, Arranged background s s → post' s.heap b →
      Runs (f b) s (fun a s' => Arranged background s s' ∧ post s'.heap a) fun _ => True) :
    Arranges background (x >>= f) post := by
  intro s hs
  refine .bind ((hx s hs).imp ?_ fun _ => id)
  rintro b s₁ ⟨harranged, hb⟩
  refine (hf b s₁ harranged.again hb).imp ?_ fun _ => id
  rintro a s₂ ⟨harranged', ha⟩
  exact ⟨harranged.trans harranged', ha⟩

theorem weaken {x : Import α} (hx : Arranges background x post) :
    Arranges background x fun _ _ => True :=
  fun s hs => (hx s hs).imp (fun _ _ h => ⟨h.1, trivial⟩) fun _ h => h

/-- The same when nothing is asked of the first result. -/
theorem andThen {x : Import β} {f : β → Import α} (hx : Arranges background x fun _ _ => True)
    (hf : ∀ b, Arranges background (f b) post) : Arranges background (x >>= f) post :=
  hx.bind fun b s hs _ => hf b s hs

theorem onHeap {operation : Heap → α × Heap}
    (h : ∀ heap, heap.Ordered background → Backed background heap →
      (operation heap).2.Ordered background ∧ heap.Widens (operation heap).2 ∧
        post (operation heap).2 (operation heap).1) :
    Arranges background (Telora.onHeap operation) post := by
  intro s hs
  obtain ⟨hordered, hwidens, hpost⟩ := h s.heap hs.ordered hs.backed
  exact ⟨⟨hordered, hs.backed.widens hwidens, hwidens⟩, hpost⟩

theorem allocate {object : Object} (h : ∀ shape values, object ≠ .dict shape values) :
    Arranges background (Telora.onHeap (·.allocate object)) fun _ _ => True :=
  onHeap fun _ hordered _ => by
    obtain ⟨hordered', hwidens⟩ :=
      hordered.allocate fun shape values hdict => absurd hdict (h shape values)
    exact ⟨hordered', hwidens, trivial⟩

theorem internIn (text : String) :
    Arranges background (Telora.onHeap (·.internIn background text)) fun heap id =>
      (⟨heap, background⟩ : HeapView).text id = .ok text :=
  onHeap fun _ hordered hbacked =>
    ⟨(hordered.internIn text).1, (hordered.internIn text).2, (internIn_spec hbacked text).2⟩

theorem string (text : String) :
    Arranges background (Telora.onHeap (·.string background text)) fun _ _ => True := by
  refine onHeap fun heap hordered _ => ?_
  rw [Heap.string]
  split
  · exact ⟨(hordered.internIn text).1, (hordered.internIn text).2, trivial⟩
  · obtain ⟨hordered', hwidens⟩ :=
      @Heap.Ordered.allocate _ _ hordered (.string text) fun _ _ h => nomatch h
    exact ⟨hordered', hwidens, trivial⟩

theorem importAtom (atom : Atom) :
    Arranges background (Telora.importAtom background atom) fun _ _ => True := by
  cases atom with
  | builtin atom => exact .pure fun _ => trivial
  | named name =>
      change Arranges background (Telora.onHeap (·.atom background name)) _
      refine onHeap fun heap hordered _ => ?_
      rw [Heap.atom]
      split
      · exact ⟨hordered, .refl heap, trivial⟩
      · exact ⟨(hordered.internIn name).1, (hordered.internIn name).2, trivial⟩

theorem internTexts (texts : List String) :
    Arranges background (texts.mapM fun text => Telora.onHeap (·.internIn background text))
      fun heap ids => ids.mapM (⟨heap, background⟩ : HeapView).text = .ok texts := by
  induction texts with
  | nil => exact .pure fun _ => rfl
  | cons text rest ih =>
      rw [List.mapM_cons]
      refine (internIn text).bind fun id s hs hid => .bind ((ih s hs).imp ?_ fun _ h => h)
      rintro ids s' ⟨harranged, hids⟩
      have hid' := (harranged.widens.resolves background).texts hid
      exact .pure ⟨harranged, mapM_eq_ok.mpr (.cons hid' (mapM_eq_ok.mp hids))⟩

end Arranges

/-- A dict is allocated with a shape in order and a value for each field. -/
theorem Arranged.internShape {s : Importing} (hs : Arranged background s s) {ids : List InternId}
    (hids : (⟨s.heap, background⟩ : HeapView).Increasing ids) {post : ShapeId → Importing → Prop}
    {fail : HeapError → Prop}
    (hpost : ∀ shape s', Arranged background s s' →
      (⟨s'.heap, background⟩ : HeapView).shape shape = .ok ids → post shape s') :
    Runs (Telora.onHeap (·.internShape ids)) s post fail := by
  obtain ⟨hordered, hwidens⟩ := hs.ordered.internShape hids
  exact hpost (s.heap.internShape ids).1 ⟨(s.heap.internShape ids).2, s.forwarded⟩
    ⟨hordered, hs.backed.widens hwidens, hwidens⟩ (internShape_spec s.heap background ids).2

theorem Arranged.allocateDict {s : Importing} (hs : Arranged background s s) {shape : ShapeId}
    {values : List RichValue} (hfits : (⟨s.heap, background⟩ : HeapView).Fits shape values)
    {post : Handle → Importing → Prop} {fail : HeapError → Prop}
    (hpost : ∀ handle s', Arranged background s s' → post handle s') :
    Runs (Telora.onHeap (·.allocate (.dict shape values))) s post fail := by
  obtain ⟨hordered, hwidens⟩ :=
    @Heap.Ordered.allocate _ _ hs.ordered (.dict shape values) fun shape' values' h => by
      obtain ⟨rfl, rfl⟩ := Object.dict.inj h
      exact hfits
  exact hpost _ ⟨(s.heap.allocate (.dict shape values)).2, s.forwarded⟩
    ⟨hordered, hs.backed.widens hwidens, hwidens⟩

end Keeping

section Imports

variable {background : Option Heap} {externals : String → Option RichValue}

mutual

theorem importValueWith_arranges : ∀ value : Value, value.Shaped →
    Arranges background (importValueWith background externals value) fun _ _ => True
  | .int _, _ => .pure fun _ => trivial
  | .float _, _ => .pure fun _ => trivial
  | .string text, _ => (Arranges.string text).andThen fun _ => .pure fun _ => trivial
  | .bytes _, _ => (Arranges.allocate (by simp)).andThen fun _ =>
      .pure fun _ => trivial
  | .nativeType _, _ => (Arranges.allocate (by simp)).andThen fun _ =>
      .pure fun _ => trivial
  | .opaqueValue _, _ => (Arranges.allocate (by simp)).andThen fun _ =>
      .pure fun _ => trivial
  | .atom atom, _ => (Arranges.importAtom atom).andThen fun _ => .pure fun _ => trivial
  | .tagged tag payload, hshaped => by
      refine (Arranges.importAtom tag).andThen fun _ => ?_
      refine (importValueWith_arranges payload hshaped).andThen fun _ => ?_
      exact (Arranges.allocate (by simp)).andThen fun _ => .pure fun _ => trivial
  | .array values, hshaped => by
      refine (importValues_arranges values hshaped).weaken.andThen fun _ => ?_
      exact (Arranges.allocate (by simp)).andThen fun _ => .pure fun _ => trivial
  | .tuple values, hshaped => by
      refine (importValues_arranges values hshaped).weaken.andThen fun _ => ?_
      exact (Arranges.allocate (by simp)).andThen fun _ => .pure fun _ => trivial
  | .dict fields values, ⟨hsorted, hlength, hvalues⟩ => by
      refine (Arranges.internTexts fields).bind fun ids s hs hids => ?_
      refine .bind (hs.internShape ⟨fields, hids, hsorted⟩ fun shape s₁ hs₁ hshape => ?_)
      refine .bind ((importValues_arranges values hvalues s₁ hs₁.again).imp ?_ fun _ => id)
      rintro imported s₂ ⟨hs₂, himported⟩
      have hids' : ids.length = imported.length :=
        ((mapM_eq_ok.mp hids).length_eq.trans hlength).trans himported.symm
      refine .bind (hs₂.again.allocateDict
        ⟨ids, (hs₂.widens.resolves background).shapes hshape, hids'⟩ fun handle s₃ hs₃ => ?_)
      exact .pure ⟨hs₁.trans (hs₂.trans hs₃), trivial⟩
  | .func identity prototype upvalues, hshaped => by
      refine (importPrototype_arranges prototype hshaped.1).andThen fun _ => ?_
      refine (importValues_arranges upvalues hshaped.2).weaken.andThen fun _ => ?_
      exact (Arranges.allocate (by simp)).andThen fun _ => .pure fun _ => trivial
  | .dyn identity descriptor value scheme origin, hshaped => by
      refine (importValueWith_arranges descriptor hshaped.1).andThen fun _ => ?_
      refine (importValueWith_arranges value hshaped.2).andThen fun _ => ?_
      exact (Arranges.allocate (by simp)).andThen fun _ => .pure fun _ => trivial

theorem importValues_arranges : ∀ values : List Value, valuesShaped values →
    Arranges background (importValues background externals values)
      fun _ imported => imported.length = values.length
  | [], _ => .pure fun _ => rfl
  | value :: rest, hshaped => by
      refine (importValueWith_arranges value hshaped.1).andThen fun imported => ?_
      refine (importValues_arranges rest hshaped.2).bind fun others s hs hothers => ?_
      exact .pure ⟨hs, congrArg (· + 1) hothers⟩

theorem importPrototype_arranges : ∀ prototype : Prototype, prototype.Shaped →
    Arranges background (importPrototype background externals prototype) fun _ _ => True
  | .native _, _ => .pure fun _ => trivial
  | .bytecode function, hshaped =>
      (linkBytecodeWith_arranges function hshaped).andThen fun _ => .pure fun _ => trivial

theorem linkBytecodeWith_arranges : ∀ function : FunctionRef, function.Shaped →
    Arranges background (linkBytecodeWith background externals function) fun _ _ => True
  | .mk address (.mk code values keys text prototypes), hshaped => by
      intro s hs
      refine .bind (.get ?_)
      cases s.forwarded.lookup address with
      | some handle => exact .pure ⟨hs, trivial⟩
      | none =>
          refine .bind ((Arranges.allocate (by simp) s hs).imp ?_ fun _ => id)
          rintro handle s₁ ⟨hs₁, -⟩
          refine .bind (.update ?_)
          have hs₂ : Arranged background s
              { s₁ with forwarded := (address, handle) :: s₁.forwarded } :=
            ⟨hs₁.ordered, hs₁.backed, hs₁.widens⟩
          refine .bind ((linkValues_arranges values keys hshaped.1 _ hs₂.again).imp ?_ fun _ => id)
          rintro values' s₃ ⟨hs₃, -⟩
          refine .bind ((Arranges.internTexts text s₃ hs₃.again).imp ?_ fun _ => id)
          rintro ids s₄ ⟨hs₄, -⟩
          refine .bind ((linkPrototypes_arranges prototypes hshaped.2 s₄ hs₄.again).imp ?_
            fun _ => id)
          rintro prototypes' s₅ ⟨hs₅, -⟩
          refine .bind (.get (.bind (.lift (fun heap hheap => ?_) fun _ _ => trivial)))
          have hall := hs₂.trans (hs₃.trans (hs₄.trans hs₅))
          obtain ⟨hordered, hwidens⟩ := hall.ordered.initializeSlot hheap (by simp)
          exact .bind (.update (.pure
            ⟨⟨hordered, hall.backed.widens hwidens, hall.widens.trans hwidens⟩, trivial⟩))

theorem linkValues_arranges : ∀ (values : List Value) (keys : List (Option String)),
    valuesShaped values →
      Arranges background (linkValues background externals values keys) fun _ _ => True
  | [], _, _ => .pure fun _ => trivial
  | value :: rest, keys, hshaped => by
      rw [linkValues]
      have hrest := linkValues_arranges rest keys.tail hshaped.2
      split
      · split
        · exact hrest.andThen fun _ => .pure fun _ => trivial
        · exact fun s hs => .bind (.throw trivial)
      · refine (importValueWith_arranges value hshaped.1).andThen fun _ => ?_
        exact hrest.andThen fun _ => .pure fun _ => trivial

theorem linkPrototypes_arranges : ∀ functions : List FunctionRef, functionsShaped functions →
    Arranges background (linkPrototypes background externals functions) fun _ _ => True
  | [], _ => .pure fun _ => trivial
  | function :: rest, hshaped =>
      (linkBytecodeWith_arranges function hshaped.1).andThen fun _ =>
        (linkPrototypes_arranges rest hshaped.2).andThen fun _ => .pure fun _ => trivial

end

variable {locations : List (ValuePath × Loc)}

mutual

theorem importSourcedAt_arranges : ∀ (path : ValuePath) (value : Value), value.Shaped →
    Arranges background (importSourcedAt background locations path value) fun _ _ => True
  | _, .int _, _ => .pure fun _ => trivial
  | _, .float _, _ => .pure fun _ => trivial
  | _, .string text, _ => (Arranges.string text).andThen fun _ => .pure fun _ => trivial
  | _, .bytes _, _ => (Arranges.allocate (by simp)).andThen fun _ => .pure fun _ => trivial
  | _, .nativeType _, _ => (Arranges.allocate (by simp)).andThen fun _ => .pure fun _ => trivial
  | _, .opaqueValue _, _ => (Arranges.allocate (by simp)).andThen fun _ => .pure fun _ => trivial
  | _, .atom atom, _ => (Arranges.importAtom atom).andThen fun _ => .pure fun _ => trivial
  | path, .tagged tag payload, hshaped => by
      refine (Arranges.importAtom tag).andThen fun _ => ?_
      refine (importSourcedAt_arranges _ payload hshaped).andThen fun _ => ?_
      exact (Arranges.allocate (by simp)).andThen fun _ => .pure fun _ => trivial
  | path, .array values, hshaped => by
      refine (importSourcedItems_arranges path 0 values hshaped).andThen fun _ => ?_
      exact (Arranges.allocate (by simp)).andThen fun _ => .pure fun _ => trivial
  | path, .tuple values, hshaped => by
      refine (importSourcedItems_arranges path 0 values hshaped).andThen fun _ => ?_
      exact (Arranges.allocate (by simp)).andThen fun _ => .pure fun _ => trivial
  | path, .dict fields values, ⟨hsorted, _, hvalues⟩ => by
      refine (importSourcedFields_arranges path fields values hvalues).bind
        fun entries s hs ⟨names, hnames, hsub⟩ => ?_
      refine .bind (hs.internShape ⟨names, hnames, hsorted.sublist hsub⟩
        fun shape s₁ hs₁ hshape => ?_)
      refine .bind (hs₁.again.allocateDict ⟨_, hshape, ?_⟩ fun handle s₂ hs₂ => ?_)
      · rw [List.length_map, List.length_map]
      · exact .pure ⟨hs₁.trans hs₂, trivial⟩
  | _, .func _ _ _, _ => .throw
  | _, .dyn _ _ _ _ _, _ => .throw

theorem importSourcedItems_arranges : ∀ (path : ValuePath) (index : Nat) (values : List Value),
    valuesShaped values →
      Arranges background (importSourcedItems background locations path index values)
        fun _ _ => True
  | _, _, [], _ => .pure fun _ => trivial
  | path, index, value :: rest, hshaped =>
      (importSourcedAt_arranges _ value hshaped.1).andThen fun _ =>
        (importSourcedItems_arranges path (index + 1) rest hshaped.2).andThen fun _ =>
          .pure fun _ => trivial

/-- The ids of the fields stand for the fields, in their order. -/
theorem importSourcedFields_arranges : ∀ (path : ValuePath) (fields : List String)
    (values : List Value), valuesShaped values →
      Arranges background (importSourcedFields background locations path fields values)
        fun heap entries => ∃ names,
          (entries.map (·.1)).mapM (⟨heap, background⟩ : HeapView).text = .ok names ∧
            names.Sublist fields
  | _, [], [], _ => .pure fun _ => ⟨[], rfl, .slnil⟩
  | _, [], _ :: _, _ => .pure fun _ => ⟨[], rfl, .slnil⟩
  | _, field :: fields, [], _ => .pure fun _ => ⟨[], rfl, List.nil_sublist _⟩
  | path, field :: fields, value :: rest, hshaped => by
      refine (Arranges.internIn field).bind fun id s hs hid => ?_
      refine .bind ((importSourcedAt_arranges _ value hshaped.1 s hs).imp ?_ fun _ h => h)
      rintro imported s₁ ⟨hs₁, -⟩
      refine .bind ((importSourcedFields_arranges path fields rest hshaped.2 s₁ hs₁.again).imp ?_
        fun _ h => h)
      rintro entries s₂ ⟨hs₂, names, hnames, hsub⟩
      have hid' := ((hs₁.trans hs₂).widens.resolves background).texts hid
      exact .pure ⟨hs₁.trans hs₂, field :: names,
        mapM_eq_ok.mpr (.cons hid' (mapM_eq_ok.mp hnames)), hsub.cons_cons field⟩

end

variable {heap heap' : Heap}

/-- What is asked of a heap that took a value or a function over. -/
theorem Arranges.run {α : Type} {x : Import α} (hx : Arranges background x fun _ _ => True)
    (hordered : heap.Ordered background) (hbacked : Backed background heap) {a : α}
    {s : Importing} (hrun : x.run ⟨heap, []⟩ = .ok (a, s)) :
    s.heap.Ordered background ∧ heap.Widens s.heap := by
  obtain ⟨harranged, -⟩ := (hx ⟨heap, []⟩ (.refl hordered hbacked)).of_ok hrun
  exact ⟨harranged.ordered, harranged.widens⟩

theorem importValue_ordered (hordered : heap.Ordered background) (hbacked : Backed background heap)
    {value : Value} (hshaped : value.Shaped) {root : RichValue}
    (h : importValue background heap value = .ok (root, heap')) :
    heap'.Ordered background ∧ heap.Widens heap' := by
  obtain ⟨⟨imported, s⟩, hrun, hresult⟩ := bind_eq_ok.mp h
  obtain ⟨-, rfl⟩ := Prod.mk.inj (pure_eq_ok.mp hresult)
  exact (importValueWith_arranges value hshaped).run hordered hbacked hrun

theorem importSourcedValue_ordered (hordered : heap.Ordered background)
    (hbacked : Backed background heap) {sourced : SourcedValue} (hshaped : sourced.value.Shaped)
    {root : RichValue} (h : importSourcedValue background heap sourced = .ok (root, heap')) :
    heap'.Ordered background ∧ heap.Widens heap' := by
  obtain ⟨⟨imported, s⟩, hrun, hresult⟩ := bind_eq_ok.mp h
  obtain ⟨-, rfl⟩ := Prod.mk.inj (pure_eq_ok.mp hresult)
  exact (importSourcedAt_arranges [] sourced.value hshaped).run hordered hbacked hrun

theorem linkBytecodeResolved_ordered (hordered : heap.Ordered background)
    (hbacked : Backed background heap) {function : FunctionRef} (hshaped : function.Shaped)
    {handle : Handle}
    (h : linkBytecodeResolved background externals heap function = .ok (handle, heap')) :
    heap'.Ordered background ∧ heap.Widens heap' := by
  obtain ⟨⟨linked, s⟩, hrun, hresult⟩ := bind_eq_ok.mp h
  obtain ⟨-, rfl⟩ := Prod.mk.inj (pure_eq_ok.mp hresult)
  exact (linkBytecodeWith_arranges function hshaped).run hordered hbacked hrun

end Imports

end Telora
