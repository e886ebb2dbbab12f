import Telora.Heap.RoundTrip
import Telora.Heap.ShapeCopies
import Telora.Library.Machine
import Telora.Vm.DictInstructions
import Telora.Yaml.Node

/-!
# Dicts of all heaps

One main heap and any number of work heaps over it, changed in any order: values are imported and
functions linked, dicts are made and merged, other objects allocated, and roots copied and
published into the main heap. In every heap that this reaches the fields of each dict are sorted
and unique, so a lookup finds a field exactly when the dict has it.
-/

namespace Telora

open Library Vm

section Reading

/-- What a lookup in a dict ought to find. -/
structure Finds (names : List String) (values : List RichValue) (name : String)
    (found : Option RichValue) : Prop where
  present : ∀ value, found = some value ↔ (name, value) ∈ names.zip values
  absent : found = none ↔ name ∉ names

/-- The dicts that a view sees are sorted, their fields unique, and lookups exact. -/
structure HeapView.DictsInOrder (view : HeapView) : Prop where
  /-- The texts of every shape strictly increase. -/
  shapes : ∀ id ids, view.shape id = .ok ids →
    ∃ names, ids.mapM view.text = .ok names ∧ names.Pairwise (· < ·)
  /-- Every dict has a value for each field of its shape. -/
  dicts : ∀ handle shape values, view.object handle = .ok (.dict shape values) →
    ∃ ids names, view.shape shape = .ok ids ∧ view.DictAt handle ids names values ∧
      names.length = values.length
  /-- A lookup by id finds the field, whichever heaps the texts are interned in. -/
  dictGet : ∀ handle ids names values field name, view.DictAt handle ids names values →
    view.text field = .ok name →
      ∃ found, view.dictGet handle field = .ok found ∧ Finds names values name found
  /-- A lookup by text finds the field. -/
  dictGetText : ∀ handle ids names values name, view.DictAt handle ids names values →
    ∃ found, view.dictGetText handle name = .ok found ∧ Finds names values name found

variable {view : HeapView} {names : List String} {values : List RichValue}

/-- In increasing names the search finds what is there. -/
theorem finds_lookupName (hsorted : names.Pairwise (· < ·)) (hlength : names.length = values.length)
    (name : String) : Finds names values name (HeapView.lookupName names values name) := by
  have hnodup : ((names.zip values).map (·.1)).Nodup := by
    rw [List.map_fst_zip (le_of_eq hlength)]
    exact hsorted.imp fun hlt => hlt.ne
  rw [HeapView.lookupName_eq hsorted hlength]
  refine ⟨fun value => ⟨mem_of_lookup, lookup_of_mem hnodup⟩,
    ⟨fun hnone hmem => ?_, fun h => ?_⟩⟩
  · have := not_mem_keys_of_lookup hnone
    rw [List.map_fst_zip (le_of_eq hlength)] at this
    exact this hmem
  · cases hfound : (names.zip values).lookup name with
    | none => rfl
    | some value => exact absurd (List.of_mem_zip (mem_of_lookup hfound)).1 h

theorem HeapView.dictsInOrder_of_heaps
    (h : ∀ {storage heap}, view.heap storage = .ok heap →
      (∀ ids ∈ heap.shapes.values, view.Increasing ids) ∧
        ∀ shape values, Object.dict shape values ∈ heap.objects → view.Fits shape values) :
    view.DictsInOrder := by
  have hshapes : ∀ id ids, view.shape id = .ok ids → view.Increasing ids := by
    intro id ids hshape
    obtain ⟨heap, hheap, hslot⟩ := HeapView.shape_eq_ok.mp hshape
    exact (h hheap).1 ids (List.mem_of_getElem? hslot)
  have hdicts : ∀ handle shape values, view.object handle = .ok (.dict shape values) →
      ∃ ids names, view.shape shape = .ok ids ∧ view.DictAt handle ids names values ∧
        names.length = values.length := by
    intro handle shape values hobject
    obtain ⟨heap, hheap, hslot⟩ := HeapView.object_eq_ok.mp hobject
    obtain ⟨ids, hids, hlength⟩ := (h hheap).2 shape values (List.mem_of_getElem? hslot)
    obtain ⟨names, hnames, -⟩ := hshapes shape ids hids
    exact ⟨ids, names, hids, ⟨⟨shape, hobject, hids⟩, hnames⟩,
      (mapM_eq_ok.mp hnames).length_eq.symm.trans hlength⟩
  -- what a view reads of a dict is in order
  have hat : ∀ handle ids names values, view.DictAt handle ids names values →
      names.Pairwise (· < ·) ∧ names.length = values.length := by
    intro handle ids names values hat
    obtain ⟨shape, hobject, hshape⟩ := hat.object
    obtain ⟨ids', names', -, hat', hlength⟩ := hdicts handle shape values hobject
    obtain ⟨-, rfl, -⟩ := hat.unique hat'
    obtain ⟨names', hnames', hsorted⟩ := hshapes shape ids hshape
    obtain rfl := Except.ok.inj (hat.texts.symm.trans hnames')
    exact ⟨hsorted, hlength⟩
  refine ⟨hshapes, hdicts, ?_, ?_⟩
  · intro handle ids names values field name hdict hfield
    obtain ⟨hsorted, hlength⟩ := hat handle ids names values hdict
    exact ⟨_, hdict.dictGet hfield hsorted hlength, finds_lookupName hsorted hlength name⟩
  · intro handle ids names values name hdict
    obtain ⟨hsorted, hlength⟩ := hat handle ids names values hdict
    exact ⟨_, hdict.dictGetText name, finds_lookupName hsorted hlength name⟩

end Reading

section Values

variable {view : HeapView} {links : Prop}

/-- What a view sees of a dict has its fields in order, with a value for each. -/
theorem HeapView.DictsInOrder.fieldNames (h : view.DictsInOrder) {handle : Handle}
    {shape : ShapeId} {values : List RichValue} {names : List String}
    (hobject : view.object handle = .ok (.dict shape values))
    (hnames : view.fieldNames shape = .ok names) :
    names.Pairwise (· < ·) ∧ names.length = values.length := by
  obtain ⟨ids, hids, htexts⟩ := bind_eq_ok.mp hnames
  obtain ⟨ids', names', hids', hat, hlength⟩ := h.dicts handle shape values hobject
  obtain rfl := Except.ok.inj (hids.symm.trans hids')
  obtain rfl := Except.ok.inj (htexts.symm.trans hat.texts)
  obtain ⟨sorted, htexts', hsorted⟩ := h.shapes shape ids hids
  obtain rfl := Except.ok.inj (htexts.symm.trans htexts')
  exact ⟨hsorted, hlength⟩

mutual

/-- A value that unfolds from dicts in order has the fields of its dicts in order. -/
theorem HeapView.Denotes.shaped (h : view.DictsInOrder) {value : RuntimeValue} {w : Value} :
    view.Denotes links value w → w.Shaped
  | .int | .float | .builtinAtom _ | .atom _ | .shortString _ | .string _ | .bytes _
  | .nativeType _ | .opaqueValue _ => trivial
  | .array _ hvalues | .tuple _ hvalues => (hvalues.shaped h).2
  | .tagged _ _ hpayload => hpayload.shaped h
  | .dict hobject hnames hvalues =>
      have hfields := h.fieldNames hobject hnames
      ⟨hfields.1, hfields.2.trans (hvalues.shaped h).1, (hvalues.shaped h).2⟩
  | .func _ hprototype hupvalues => ⟨hprototype.shaped h, (hupvalues.shaped h).2⟩
  | .dyn _ hdescriptor hvalue => ⟨hdescriptor.shaped h, hvalue.shaped h⟩
  | .upLink _ _ hvalue => hvalue.shaped h

theorem HeapView.DenotesAll.shaped (h : view.DictsInOrder) {values : List RichValue}
    {ws : List Value} :
    view.DenotesAll links values ws → values.length = ws.length ∧ valuesShaped ws
  | .nil => ⟨rfl, trivial⟩
  | .cons hvalue hrest =>
      ⟨congrArg (· + 1) (hrest.shaped h).1, hvalue.shaped h, (hrest.shaped h).2⟩

theorem HeapView.DenotesPrototype.shaped (h : view.DictsInOrder) {prototype : RuntimePrototype}
    {q : Prototype} : view.DenotesPrototype links prototype q → q.Shaped
  | .native => trivial
  | .bytecode hfunction => hfunction.shaped h

theorem HeapView.DenotesFunction.shaped (h : view.DictsInOrder) {handle : Handle}
    {f : FunctionRef} : view.DenotesFunction links handle f → f.Shaped
  | .mk _ hvalues _ hprototypes => ⟨(hvalues.shaped h).2, hprototypes.shaped h⟩

theorem HeapView.DenotesFunctions.shaped (h : view.DictsInOrder)
    {prototypes : List RuntimePrototype} {fs : List FunctionRef} :
    view.DenotesFunctions links prototypes fs → functionsShaped fs
  | .nil => trivial
  | .cons hfunction hrest => ⟨hfunction.shaped h, hrest.shaped h⟩

end

/-- What is exported from heaps in order may be imported again. -/
theorem HeapView.DictsInOrder.export_shaped (h : view.DictsInOrder) {root : RichValue}
    {value : Value} {next next' : Nat}
    (hexport : (view.exportValue root).run next = .ok (value, next')) : value.Shaped :=
  (HeapView.denotes_of_exportValue hexport).1.shaped h

theorem valuesShaped_iff {values : List Value} :
    valuesShaped values ↔ ∀ value ∈ values, value.Shaped := by
  induction values with
  | nil => exact iff_of_true trivial fun _ h => absurd h List.not_mem_nil
  | cons value rest ih => rw [valuesShaped, ih, List.forall_mem_cons]

theorem Value.shaped_dict {fields : List String} {values : List Value} :
    (Value.dict fields values).Shaped ↔ fields.Pairwise (· < ·) ∧
      fields.length = values.length ∧ ∀ value ∈ values, value.Shaped :=
  and_congr_right fun _ => and_congr_right fun _ => valuesShaped_iff

/-- A dict made of the entries of a host is in order: they are sorted, and a field that is twice
among them is refused. -/
theorem makeDict_shaped {fields : List (String × Value)} {value : Value}
    (hvalues : ∀ field ∈ fields, field.2.Shaped)
    (h : Yaml.YamlNode.makeDict fields = .ok value) : value.Shaped := by
  have hsorted := @List.pairwise_mergeSort (String × Value) (fun left right => left.1 ≤ right.1)
    (fun _ _ _ hab hbc => decide_eq_true (le_trans (of_decide_eq_true hab) (of_decide_eq_true hbc)))
    (fun left right => by simpa using le_total left.1 right.1) fields
  unfold Yaml.YamlNode.makeDict at h
  dsimp only at h
  split at h
  · next hnodup =>
      obtain rfl := Except.ok.inj h
      refine Value.shaped_dict.mpr ⟨?_, by simp only [List.length_map], ?_⟩
      · have hle := List.pairwise_map.mpr (hsorted.imp of_decide_eq_true)
        exact hle.imp₂ (fun _ _ => lt_of_le_of_ne) hnodup
      · rintro w hw
        obtain ⟨field, hfield, rfl⟩ := List.mem_map.mp hw
        exact hvalues field (List.mem_mergeSort.mp hfield)
  · cases h

end Values

/-- The main heap and the work heaps that are open over it. -/
structure Heaps where
  main : Heap
  works : List Heap

/-- What the views of the heaps are: the main heap alone, and each work heap over it. -/
def Heaps.views (heaps : Heaps) : List HeapView :=
  ⟨heaps.main, none⟩ :: heaps.works.map (world heaps.main)

/-- What is done to a work heap over a main heap. -/
inductive WorkStep (main : Heap) : Heap → Heap → Prop where
  | importValue {work work' : Heap} {value : Value} {root : RichValue} : value.Shaped →
      Telora.importValue (some main) work value = .ok (root, work') → WorkStep main work work'
  | importSourced {work work' : Heap} {sourced : SourcedValue} {root : RichValue} :
      sourced.value.Shaped → importSourcedValue (some main) work sourced = .ok (root, work') →
      WorkStep main work work'
  | linkBytecode {work work' : Heap} {externals : String → Option RichValue}
      {function : FunctionRef} {handle : Handle} : function.Shaped →
      linkBytecodeResolved (some main) externals work function = .ok (handle, work') →
      WorkStep main work work'
  | makeDict {T : Type} {env : Environment} {site : Site} {window : Window} {store store' : Store}
      {text : HeapView → T → Except RuntimeError InternId} {dst : Bytecode.Register}
      {fields : List (T × Bytecode.Register)} : env.background = main →
      (Vm.makeDict env site window text dst fields).run store = .ok ((), store') →
      WorkStep main store.current store'.current
  | mergeDicts {env : Environment} {site : Site} {window : Window} {store store' : Store}
      {dst : Bytecode.Register} {dicts : List Bytecode.Register} : env.background = main →
      (Vm.mergeDicts env site window dst dicts).run store = .ok ((), store') →
      WorkStep main store.current store'.current
  | intern {work : Heap} (text : String) : WorkStep main work (work.intern text).2
  | allocate {work : Heap} {object : Object} :
      (∀ shape values, object ≠ .dict shape values) → WorkStep main work (work.allocate object).2
  | initializeUpLink {work work' : Heap} {handle : Handle} {value : RichValue} :
      work.initializeUpLink handle value = .ok work' → WorkStep main work work'

/-- What is copied from a work heap into the main heap. -/
inductive MainStep (main work : Heap) : Heap → Prop where
  | copy {main' : Heap} {roots roots' : List RichValue} :
      copyRoots main ⟨work, none⟩ roots = .ok (roots', main') → MainStep main work main'
  | publish {main' : Heap} {root root' : RichValue} :
      publishRoot main work root = .ok (root', main') → MainStep main work main'

inductive HeapAction where
  | start
  | work (index : Nat)
  | main (index : Nat)

/-- All runs of the heaps, from an empty main heap. -/
def heapSystem : TransitionSystem Heaps HeapAction where
  initial heaps := heaps = ⟨.main, []⟩
  step before action after :=
    match action with
    | .start => after = { before with works := before.works ++ [.work] }
    | .work index => ∃ work work', before.works[index]? = some work ∧
        WorkStep before.main work work' ∧
          after = { before with works := before.works.set index work' }
    | .main index => ∃ work main', before.works[index]? = some work ∧
        MainStep before.main work main' ∧ after = { before with main := main' }

section Steps

variable {heaps : Heaps} {work : Heap}

theorem Heaps.reachable_start (h : heapSystem.Reachable heaps) :
    heapSystem.Reachable ⟨heaps.main, heaps.works ++ [.work]⟩ :=
  h.step (a := HeapAction.start) trivial rfl

theorem Heaps.reachable_work (index : Nat) {work' : Heap} (h : heapSystem.Reachable heaps)
    (hwork : heaps.works[index]? = some work) (hstep : WorkStep heaps.main work work') :
    heapSystem.Reachable ⟨heaps.main, heaps.works.set index work'⟩ :=
  h.step (a := HeapAction.work index) trivial ⟨work, work', hwork, hstep, rfl⟩

theorem Heaps.reachable_main (index : Nat) {main' : Heap} (h : heapSystem.Reachable heaps)
    (hwork : heaps.works[index]? = some work) (hstep : MainStep heaps.main work main') :
    heapSystem.Reachable ⟨main', heaps.works⟩ :=
  h.step (a := HeapAction.main index) trivial ⟨work, main', hwork, hstep, rfl⟩

end Steps

section Invariant

/-- All heaps are in order. -/
structure Heaps.Ordered (heaps : Heaps) : Prop where
  storage : heaps.main.storage = .main
  main : heaps.main.Ordered none
  works : ∀ work ∈ heaps.works, work.storage = .work ∧ work.Ordered (some heaps.main)

theorem WorkStep.ordered {main work work' : Heap} (hstep : WorkStep main work work')
    (hmain : main.storage = .main) (hwork : work.storage = .work)
    (hordered : work.Ordered (some main)) :
    work'.Ordered (some main) ∧ work.Widens work' := by
  have hbacked : Backed (some main) work := fun found hfound =>
    ⟨Option.some.inj hfound ▸ hmain, hwork⟩
  cases hstep with
  | importValue hshaped h => exact importValue_ordered hordered hbacked hshaped h
  | importSourced hshaped h => exact importSourcedValue_ordered hordered hbacked hshaped h
  | linkBytecode hshaped h => exact linkBytecodeResolved_ordered hordered hbacked hshaped h
  | makeDict henv h =>
      subst henv
      obtain ⟨htidy, hwidens⟩ := (makeDict_runs ⟨hmain, hwork, hordered⟩ _ _ _).of_ok h
      exact ⟨htidy.ordered, hwidens⟩
  | mergeDicts henv h =>
      subst henv
      obtain ⟨htidy, hwidens⟩ := (mergeDicts_runs ⟨hmain, hwork, hordered⟩ _ _).of_ok h
      exact ⟨htidy.ordered, hwidens⟩
  | intern text => exact hordered.intern text
  | allocate hobject =>
      exact hordered.allocate fun shape values hdict => absurd hdict (hobject shape values)
  | initializeUpLink h => exact hordered.initializeUpLink h

theorem MainStep.ordered {main work main' : Heap} (hstep : MainStep main work main')
    (h : PendingCopy.Copied main work) : main'.Ordered none ∧ main.Widens main' := by
  cases hstep with
  | copy hcopy => exact copyRoots_ordered h hcopy
  | publish hpublish => exact publishRoot_ordered h hpublish

theorem Heaps.Ordered.step {before after : Heaps} {action : HeapAction} (h : before.Ordered)
    (hstep : heapSystem.step before action after) : after.Ordered := by
  cases action with
  | start =>
      obtain rfl := hstep
      refine ⟨h.storage, h.main, fun work hmem => ?_⟩
      rcases List.mem_append.mp hmem with hold | hnew
      · exact h.works work hold
      · rw [List.mem_singleton.mp hnew]
        exact ⟨rfl, Heap.ordered_new .work _⟩
  | work index =>
      obtain ⟨work, work', hwork, hdone, rfl⟩ := hstep
      obtain ⟨hstorage, hordered⟩ := h.works work (List.mem_of_getElem? hwork)
      obtain ⟨hordered', hwidens⟩ := hdone.ordered h.storage hstorage hordered
      refine ⟨h.storage, h.main, fun other hmem => ?_⟩
      rcases List.mem_or_eq_of_mem_set hmem with hold | rfl
      · exact h.works other hold
      · exact ⟨hwidens.storage.trans hstorage, hordered'⟩
  | main index =>
      obtain ⟨work, main', hwork, hdone, rfl⟩ := hstep
      obtain ⟨hstorage, hordered⟩ := h.works work (List.mem_of_getElem? hwork)
      obtain ⟨hordered', hwidens⟩ := hdone.ordered ⟨h.storage, hstorage, h.main, hordered⟩
      refine ⟨hwidens.storage.trans h.storage, hordered', fun other hmem => ?_⟩
      obtain ⟨hother, hkept⟩ := h.works other hmem
      exact ⟨hother, hkept.behind hwidens h.storage hother⟩

theorem ordered_of_reachable {heaps : Heaps} (h : heapSystem.Reachable heaps) : heaps.Ordered := by
  refine h.invariant (fun heaps hinitial => ?_) fun _ _ _ hinv hstep => hinv.step hstep
  obtain rfl := hinitial
  exact ⟨rfl, Heap.ordered_new .main none, fun _ hmem => (List.not_mem_nil hmem).elim⟩

/-- Every view of heaps in order sees its dicts in order. -/
theorem Heaps.Ordered.dictsInOrder {heaps : Heaps} (h : heaps.Ordered) :
    ∀ view ∈ heaps.views, view.DictsInOrder := by
  intro view hmem
  rcases List.mem_cons.mp hmem with rfl | hmem
  · apply HeapView.dictsInOrder_of_heaps
    intro storage heap hheap
    cases storage with
    | work => simp [HeapView.heap, h.storage] at hheap
    | main =>
        simp only [HeapView.heap, if_pos h.storage] at hheap
        obtain rfl := Except.ok.inj hheap
        exact ⟨h.main.shapes, h.main.dicts⟩
  · obtain ⟨work, hwork, rfl⟩ := List.mem_map.mp hmem
    obtain ⟨hstorage, hordered⟩ := h.works work hwork
    have hresolves := Heap.resolves_world h.storage hstorage
    apply HeapView.dictsInOrder_of_heaps
    intro storage heap hheap
    cases storage with
    | work =>
        have hfront := current_heap work (some heaps.main)
        rw [hstorage] at hfront
        obtain rfl := Except.ok.inj (hheap.symm.trans hfront)
        exact ⟨hordered.shapes, hordered.dicts⟩
    | main =>
        obtain rfl := Except.ok.inj (hheap.symm.trans (world_main h.storage hstorage))
        exact ⟨fun ids hids => (h.main.shapes ids hids).resolves hresolves,
          fun shape values hdict => (h.main.dicts shape values hdict).resolves hresolves⟩

end Invariant

section Reachable

/-- The union of some dicts, the later ones winning: what it ought to hold. -/
def IsUnion (lists : List (List (String × RichValue))) (names : List String)
    (values : List RichValue) : Prop :=
  ∀ name value, (name, value) ∈ names.zip values ↔
    lists.reverse.findSome? (·.lookup name) = some value

/-- A merge of dicts puts their union into its register, unless the quota or the register
refuses it. -/
def MergesDicts (main work : Heap) : Prop :=
  ∀ (env : Environment) (site : Site) (window : Window) (store : Store) (dst : Bytecode.Register)
    (dicts : List Bytecode.Register) (values : List RichValue)
    (lists : List (List (String × RichValue))), env.background = main → store.current = work →
    List.Forall₂ (Holds window store) dicts values →
    List.Forall₂ (Reads (world main work)) values lists →
      Runs (Vm.mergeDicts env site window dst dicts) store
        (fun _ after => ∃ handle ids names merged,
          after.stack = store.stack.set (window.base + dst)
            (some (.new (.dict handle) site.location)) ∧
          (world main after.current).DictAt handle ids names merged ∧ IsUnion lists names merged)
        fun error => error.kind = .allocationQuotaExceeded ∨ ¬dst < window.count

theorem Vm.Reads.nodup {view : HeapView} (h : view.DictsInOrder) {value : RichValue}
    {entries : List (String × RichValue)} (hreads : Reads view value entries) :
    (entries.map (·.1)).Nodup := by
  obtain ⟨handle, ids, names, values, -, hat, rfl⟩ := hreads
  obtain ⟨shape, hobject, hshape⟩ := hat.object
  obtain ⟨ids', names', -, hat', hlength⟩ := h.dicts handle shape values hobject
  obtain ⟨-, rfl, -⟩ := hat.unique hat'
  obtain ⟨names', hnames, hsorted⟩ := h.shapes shape ids hshape
  obtain rfl := Except.ok.inj (hat.texts.symm.trans hnames)
  rw [List.map_fst_zip (le_of_eq hlength)]
  exact hsorted.imp fun hlt => hlt.ne

theorem isUnion_unionOf {lists : List (List (String × RichValue))}
    (hnodup : ∀ entries ∈ lists, (entries.map (·.1)).Nodup) :
    IsUnion lists ((unionOf lists).map (·.1)) ((unionOf lists).map (·.2)) := by
  have hsorted : (unionOf lists).Pairwise (·.1 < ·.1) :=
    pairwise_foldl_insertEntries lists .nil
  have hkeys : ((unionOf lists).map (·.1)).Nodup :=
    List.pairwise_map.mpr (hsorted.imp fun hlt => hlt.ne)
  have hzip : ((unionOf lists).map (·.1)).zip ((unionOf lists).map (·.2)) = unionOf lists := by
    rw [List.zip_map', List.map_id'']
    exact fun _ => rfl
  intro name value
  have hlookup := lookup_foldl_insertEntries hnodup [] name
  rw [List.lookup_nil, Option.or_none] at hlookup
  rw [hzip, ← hlookup]
  exact ⟨lookup_of_mem hkeys, mem_of_lookup⟩

/-- In every heap that is reached the fields of the dicts are sorted and unique, lookups find a
field exactly when the dict has it, and merges make the union in which later dicts win. -/
theorem reachable_dicts_inOrder (heaps : Heaps) (h : heapSystem.Reachable heaps) :
    (∀ view ∈ heaps.views, view.DictsInOrder) ∧
      ∀ work ∈ heaps.works, MergesDicts heaps.main work := by
  have hordered := ordered_of_reachable h
  refine ⟨hordered.dictsInOrder, fun work hmem => ?_⟩
  obtain ⟨hstorage, hwork⟩ := hordered.works work hmem
  have hview := hordered.dictsInOrder (world heaps.main work)
    (List.mem_cons_of_mem _ (List.mem_map_of_mem hmem))
  intro env site window store dst dicts values lists henv hstore hholds hreads
  subst hstore
  have hseen : store.view env = world heaps.main store.current := by
    rw [Store.view, henv]
    rfl
  rw [← hseen] at hreads hview
  have htidy : Tidy env store :=
    ⟨henv ▸ hordered.storage, hstorage, henv ▸ hwork⟩
  refine (mergeDicts_unions htidy dst hholds hreads).imp ?_ fun _ h => h
  rintro _ after ⟨-, -, handle, ids, hat, hstack⟩
  refine ⟨handle, ids, _, _, hstack, ?_, isUnion_unionOf fun entries hentries => ?_⟩
  · rw [Store.view, henv] at hat
    exact hat
  · obtain ⟨value, -, hread⟩ := forall₂_mem_right hreads hentries
    exact hread.nodup hview

/-- A heap in which the fields are interned and a dict of both of them is allocated. -/
def dictHeap (storage : Storage) (left right : Int) : Heap :=
  let heap := (((Heap.new storage).intern "a").2.intern "b").2
  let heap := (heap.internShape [⟨storage, 0⟩, ⟨storage, 1⟩]).2
  (heap.allocate (.dict ⟨storage, 0⟩ [.unknown (.int left), .unknown (.int right)])).2

/-- Two dicts that share a field. -/
def pairWork : Heap :=
  let work := ((dictHeap .work 1 2).internShape [⟨.work, 1⟩]).2
  (work.allocate (.dict ⟨.work, 1⟩ [.unknown (.int 3)])).2

/-- The two dicts and their union. -/
def mergedWork : Heap :=
  (pairWork.allocate (.dict ⟨.work, 0⟩ [.unknown (.int 1), .unknown (.int 3)])).2

def mergeSite : Site := ⟨⟨"main", 0, 0, 3, [.mergeDicts 2 [0, 1]], []⟩, 0⟩

def pairStore : Store where
  stack := [some (.unknown (.dict ⟨.work, 0⟩)), some (.unknown (.dict ⟨.work, 1⟩)), none]
  current := pairWork
  account := .new ⟨10, 10, 1000⟩
  nextIdentity := 1

/-- Two dicts are imported and merged; the union is exported to another work heap, and
published. -/
theorem reachable_dicts_inOrder_merged :
    let heaps : Heaps := ⟨dictHeap .main 1 3, [mergedWork, dictHeap .work 1 3]⟩
    (∀ view ∈ heaps.views, view.DictsInOrder) ∧
      ∀ work ∈ heaps.works, MergesDicts heaps.main work := by
  have hleft : (Value.dict ["a", "b"] [.int 1, .int 2]).Shaped :=
    @makeDict_shaped [("b", .int 2), ("a", .int 1)] _
      (List.forall_mem_cons.mpr ⟨trivial, List.forall_mem_singleton.mpr trivial⟩)
      (by simp [Yaml.YamlNode.makeDict, List.mergeSort])
  have hright : (Value.dict ["b"] [.int 3]).Shaped :=
    @makeDict_shaped [("b", .int 3)] _ (List.forall_mem_singleton.mpr trivial)
      (by simp [Yaml.YamlNode.makeDict])
  have hstart : heapSystem.Reachable ⟨.main, [.work]⟩ :=
    @Heaps.reachable_start ⟨.main, []⟩ (.initial rfl)
  have hfirst : heapSystem.Reachable ⟨.main, [dictHeap .work 1 2]⟩ :=
    Heaps.reachable_work 0 hstart rfl (.importValue hleft rfl)
  have hpair : heapSystem.Reachable ⟨.main, [pairWork]⟩ :=
    Heaps.reachable_work 0 hfirst rfl (.importValue hright rfl)
  obtain ⟨store, hmerge, hstore⟩ : ∃ store, (Vm.mergeDicts (.withoutNatives .main) mergeSite
      ⟨0, 3⟩ 2 [0, 1]).run pairStore = .ok ((), store) ∧ store.current = mergedWork :=
    ⟨_, rfl, rfl⟩
  have hmerged : heapSystem.Reachable ⟨.main, [mergedWork]⟩ :=
    hstore ▸ Heaps.reachable_work 0 hpair rfl (.mergeDicts rfl hmerge)
  have hexport : ((world .main mergedWork).exportValue (.unknown (.dict ⟨.work, 2⟩))).run 0 =
      .ok (.dict ["a", "b"] [.int 1, .int 3], 0) := rfl
  have hunited : (Value.dict ["a", "b"] [.int 1, .int 3]).Shaped :=
    ((ordered_of_reachable hmerged).dictsInOrder _
      (List.mem_cons_of_mem _ List.mem_cons_self)).export_shaped hexport
  have hother : heapSystem.Reachable ⟨.main, [mergedWork, dictHeap .work 1 3]⟩ :=
    Heaps.reachable_work 1 (Heaps.reachable_start hmerged) rfl (.importValue hunited rfl)
  have hpublish : publishRoot .main mergedWork (.unknown (.dict ⟨.work, 2⟩)) =
      .ok (.unknown (.dict ⟨.main, 0⟩), dictHeap .main 1 3) := rfl
  have hpublished :
      heapSystem.Reachable ⟨dictHeap .main 1 3, [mergedWork, dictHeap .work 1 3]⟩ :=
    Heaps.reachable_main 0 hother rfl (.publish hpublish)
  exact reachable_dicts_inOrder _ hpublished

end Reachable

end Telora
