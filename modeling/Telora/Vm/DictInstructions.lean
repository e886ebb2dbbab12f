import Telora.Heap.Shapes
import Telora.Vm.Operations

/-!
# Dict instructions

A dict literal sorts its fields by their texts and refuses to have one twice; a merge collects
the fields of its operands under their texts. Both intern a shape whose texts strictly increase,
with a value for each, and a merge makes the union of its operands in which the later ones win.
-/

namespace Telora.Vm

open Bytecode Library

section Effects

variable {env : Environment} {site : Site} {window : Window} {store : Store} {α : Type}
  {fail : RuntimeError → Prop}

theorem look_runs {read : HeapView → Except RuntimeError α} {post : α → Store → Prop}
    (hok : ∀ a, read (store.view env) = .ok a → post a store)
    (herror : ∀ e, read (store.view env) = .error e → fail e) :
    Runs (look env read) store post fail :=
  .bind (.get (.lift hok herror))

/-- A register that can be read. -/
def Holds (window : Window) (store : Store) (register : Register) (value : RichValue) : Prop :=
  register < window.count ∧ store.stack[window.base + register]?.join = some value

theorem readRegister_runs (register : Register) :
    Runs (readRegister site window register) store
      (fun value after => Holds window store register value ∧ after = store) fun _ => True := by
  unfold readRegister
  refine .bind (.get ?_)
  split
  · rename_i hregister
    split
    · rename_i value hvalue
      exact .pure ⟨⟨hregister, hvalue⟩, rfl⟩
    · exact .throw trivial
  · exact .throw trivial

theorem readRegister_holds {register : Register} {value : RichValue}
    (h : Holds window store register value) :
    Runs (readRegister site window register) store
      (fun found after => found = value ∧ after = store) fail := by
  unfold readRegister
  refine .bind (.get ?_)
  rw [if_pos h.1, h.2]
  exact .pure ⟨rfl, rfl⟩

theorem readMany_holds {registers : List Register} {values : List RichValue}
    (h : List.Forall₂ (Holds window store) registers values) :
    Runs (readMany site window registers) store
      (fun found after => found = values ∧ after = store) fail := by
  rw [readMany]
  induction h with
  | nil => exact .pure ⟨rfl, rfl⟩
  | cons hvalue _ ih =>
      rw [List.mapM_cons]
      refine .bind ((readRegister_holds hvalue).imp ?_ fun _ h => h)
      rintro _ _ ⟨rfl, rfl⟩
      refine .bind (ih.imp ?_ fun _ h => h)
      rintro _ _ ⟨rfl, rfl⟩
      exact .pure ⟨rfl, rfl⟩

theorem onWork_runs {operation : Heap → α × Heap} {post : α → Store → Prop}
    (h : post (operation store.current).1
      { store with current := (operation store.current).2 }) :
    Runs (onWork operation) store post fail := h

/-- A charge changes the account alone. -/
theorem chargeChecked_runs (bytes : Option Nat) (message : String) :
    Runs (chargeChecked site bytes message) store
      (fun _ after => after.current = store.current ∧ after.stack = store.stack)
      fun error => error.kind = .allocationQuotaExceeded := by
  cases bytes with
  | none => exact .throw rfl
  | some bytes =>
      refine .bind (.get ?_)
      cases store.account.chargeAllocation bytes with
      | none => exact .throw rfl
      | some account => exact .update ⟨rfl, rfl⟩

end Effects

section Allocation

variable {env : Environment} {site : Site} {window : Window} {store : Store}

/-- The heaps of an execution, the work heap in order. -/
structure Tidy (env : Environment) (store : Store) : Prop where
  background : env.background.storage = .main
  work : store.current.storage = .work
  ordered : store.current.Ordered (some env.background)

/-- The names of some fields and the heap that has them. -/
structure Names (background : Heap) (heap : Heap) (result : List InternId × Heap)
    (names : List String) : Prop where
  ordered : result.2.Ordered (some background)
  widens : heap.Widens result.2
  texts : result.1.mapM (⟨result.2, some background⟩ : HeapView).text = .ok names

/-- What the allocation of a dict leaves: the dict is in the register. -/
structure Allocated (env : Environment) (site : Site) (window : Window) (dst : Register)
    (names : List String) (values : List RichValue) (before after : Store) : Prop where
  tidy : Tidy env after
  widens : before.current.Widens after.current
  dict : ∃ handle ids, (after.view env).DictAt handle ids names values ∧
    after.stack = before.stack.set (window.base + dst) (some (.new (.dict handle) site.location))

theorem allocateDict_runs (h : Tidy env store) (dst : Register) (texts : List String)
    {fields : Heap → List InternId × Heap} {values : List RichValue} {names : List String}
    (hfields : Names env.background store.current (fields store.current) names)
    (hsorted : names.Pairwise (· < ·)) (hlength : names.length = values.length) :
    Runs (allocateDict env site window dst texts fields values) store
      (fun _ after => Allocated env site window dst names values store after)
      fun error => error.kind = .allocationQuotaExceeded ∨ ¬dst < window.count := by
  refine .bind ((chargeChecked_runs _ _).imp ?_ fun _ => .inl)
  rintro _ store₁ ⟨hcurrent, hstack⟩
  have hstart : fields store₁.current = fields store.current := by rw [hcurrent]
  obtain ⟨hordered, hwidens, htexts⟩ := hfields
  generalize fields store.current = result at hstart hordered hwidens htexts
  obtain ⟨ids, heap⟩ := result
  have hshape := (internShape_spec heap (some env.background) ids).2
  have hids : ids.length = values.length := (mapM_eq_ok.mp htexts).length_eq.trans hlength
  obtain ⟨hordered₁, hwidens₁⟩ := hordered.internShape ⟨names, htexts, hsorted⟩
  obtain ⟨hordered₂, hwidens₂⟩ := hordered₁.allocate fun shape found hdict => by
    obtain ⟨rfl, rfl⟩ := Object.dict.inj hdict
    exact ⟨ids, hshape, hids⟩
  have hobject := (allocate_spec (heap.internShape ids).2 (some env.background)
    (.dict (heap.internShape ids).1 values)).2
  have hall := (hwidens.trans hwidens₁).trans hwidens₂
  refine .bind (onWork_runs ?_)
  rw [hstart]
  refine .bind (onWork_runs (.bind (.bind (onWork_runs (.pure ?_)))))
  unfold writeRegister
  split
  · refine .update ⟨⟨h.background, hall.storage.trans h.work, hordered₂⟩, hall, _, ids,
      ⟨⟨_, hobject, (hwidens₂.resolves _).shapes hshape⟩, ?_⟩, by rw [hstack]⟩
    exact ((hwidens₁.trans hwidens₂).resolves _).names htexts
  · exact .throw (.inr ‹_›)

end Allocation

section Literals

variable {env : Environment} {site : Site} {window : Window} {store : Store} {view : HeapView}

/-- Neighbours that are looked at two by two. -/
theorem isChain_of_zip_tail {α : Type} {p : α × α → Bool} {values : List α}
    (h : (values.zip values.tail).any p = false) :
    values.IsChain fun value next => p (value, next) = false := by
  induction values with
  | nil => exact .nil
  | cons value rest ih =>
      cases rest with
      | nil => exact .singleton value
      | cons next rest =>
          rw [List.tail_cons, List.zip_cons_cons, List.any_cons, Bool.or_eq_false_iff] at h
          exact List.isChain_cons_cons.mpr ⟨h.1, ih h.2⟩

theorem pairwise_lt_of_neighbours {texts : List String} (hle : texts.Pairwise (· ≤ ·))
    (hne : texts.IsChain (· ≠ ·)) : texts.Pairwise (· < ·) := by
  rw [← List.isChain_iff_pairwise]
  induction hne with
  | nil => exact .nil
  | singleton text => exact .singleton text
  | cons_cons hfirst _ ih =>
      obtain ⟨hleast, hrest⟩ := List.pairwise_cons.mp hle
      exact .cons_cons (lt_of_le_of_ne (hleast _ List.mem_cons_self) hfirst) (ih hrest)

theorem heap_eq_ok {α : Type} {result : Except HeapError α} {a : α} :
    site.heap result = .ok a ↔ result = .ok a := mapError_eq_ok

/-- The texts of the sorted fields strictly increase. -/
theorem sortedFields_eq_ok {entries sorted : List (InternId × RichValue)} {texts : List String}
    (hsorted : sortedFields site view entries = .ok sorted)
    (htexts : (sorted.mapM fun entry => site.heap (view.text entry.1)) = .ok texts) :
    (sorted.map (·.1)).mapM view.text = .ok texts ∧ texts.Pairwise (· < ·) := by
  have hread := (mapM_eq_ok.mp htexts).imp fun _ _ => heap_eq_ok.mp
  have hnames : (sorted.map (·.1)).mapM view.text = .ok texts :=
    mapM_eq_ok.mpr (List.forall₂_map_left_iff.mpr hread)
  refine ⟨hnames, ?_⟩
  have htext : ∀ entry ∈ sorted, view.text entry.1 = .ok (view.fieldText entry.1) := by
    intro entry hmem
    obtain ⟨text, -, htext⟩ := forall₂_mem_left hread hmem
    rw [htext, HeapView.fieldText_of_ok htext]
  have htexts' : sorted.map (fun entry => view.fieldText entry.1) = texts := by
    rw [← HeapView.map_fieldText hnames, List.map_map]
    rfl
  unfold sortedFields at hsorted
  simp only at hsorted
  split at hsorted
  · cases hsorted
  · rename_i hdistinct
    obtain hmem := pure_eq_ok.mp hsorted
    rw [hmem] at hdistinct
    have hle : sorted.Pairwise fun left right =>
        view.fieldText left.1 ≤ view.fieldText right.1 := by
      rw [← hmem]
      exact List.pairwise_insertionSort _ _
    have hne := isChain_of_zip_tail (Bool.eq_false_iff.mpr hdistinct)
    rw [← htexts']
    refine pairwise_lt_of_neighbours (List.pairwise_map.mpr hle) ((List.isChain_map _).mpr ?_)
    refine hne.imp_of_mem_imp fun entry next hentry hnext hdiffer hsame => ?_
    rw [decide_eq_false_iff_not, htext entry hentry, htext next hnext] at hdiffer
    exact hdiffer (congrArg some hsame)

theorem makeDict_runs {T : Type} (h : Tidy env store)
    (text : HeapView → T → Except RuntimeError InternId) (dst : Register)
    (fields : List (T × Register)) :
    Runs (makeDict env site window text dst fields) store
      (fun _ after => Tidy env after ∧ store.current.Widens after.current) fun _ => True := by
  have hentries : Runs (fields.mapM fun field => do
      let id ← look env fun view => text view field.1
      return (id, ← readRegister site window field.2)) store
      (fun _ after => after = store ∧ True ∧ _) fun _ => True :=
    @Runs.mapM _ _ _ _ _ _ _ _ (· = store) (fun _ _ => True) (fun _ _ _ => True)
      (fun _ => trivial) (fun _ _ => trivial) (fun _ _ => trivial) (fun field _ s' _ hs' => by
        subst hs'
        refine .bind (look_runs (fun id _ => ?_) fun _ _ => trivial)
        refine .bind ((readRegister_runs field.2).imp ?_ fun _ h => h)
        rintro value after ⟨-, rfl⟩
        exact .pure ⟨rfl, trivial, trivial⟩) rfl
  refine .bind (hentries.imp ?_ fun _ h => h)
  rintro entries _ ⟨rfl, -⟩
  refine .bind (look_runs (fun sorted hsorted => ?_) fun _ _ => trivial)
  refine .bind (look_runs (fun texts htexts => ?_) fun _ _ => trivial)
  obtain ⟨hnames, hincreasing⟩ := sortedFields_eq_ok hsorted htexts
  have hlength : texts.length = (sorted.map (·.2)).length := by
    rw [← (mapM_eq_ok.mp htexts).length_eq, List.length_map]
  refine (allocateDict_runs h dst texts ⟨h.ordered, .refl _, hnames⟩ hincreasing hlength).imp ?_
    fun _ _ => trivial
  exact fun _ after hallocated => ⟨hallocated.tidy, hallocated.widens⟩

end Literals

section Merges

variable {env : Environment} {site : Site} {window : Window} {store : Store} {view : HeapView}

/-- A value is a dict with these entries. -/
def Reads (view : HeapView) (value : RichValue) (entries : List (String × RichValue)) : Prop :=
  ∃ handle ids names values, value.value = .dict handle ∧ view.DictAt handle ids names values ∧
    entries = names.zip values

/-- The union of some dicts: each name has the value of the last one that has it. -/
def unionOf (lists : List (List (String × RichValue))) : List (String × RichValue) :=
  lists.foldl (fun merged entries => insertEntries entries merged) []

theorem dictEntries_eq {refusal : RuntimeError} {value : RichValue}
    {entries : List (String × RichValue)} (h : Reads view value entries) :
    dictEntries site view refusal value = .ok entries := by
  obtain ⟨handle, ids, names, values, hvalue, hat, rfl⟩ := h
  have hread : ∀ (ids : List InternId) (names : List String) (values : List RichValue),
      ids.mapM view.text = .ok names →
      ((ids.zip values).mapM fun entry => do
        return (← site.heap (view.text entry.1), entry.2)) = .ok (names.zip values) := by
    intro ids names values hnames
    induction mapM_eq_ok.mp hnames generalizing values with
    | nil => rfl
    | cons hid htail ih =>
        cases values with
        | nil => rfl
        | cons value values =>
            refine mapM_eq_ok.mpr (.cons ?_ (mapM_eq_ok.mp (ih values (mapM_eq_ok.mpr htail))))
            exact bind_eq_ok.mpr ⟨_, heap_eq_ok.mpr hid, rfl⟩
  rw [dictEntries, hvalue]
  exact bind_eq_ok.mpr ⟨_, heap_eq_ok.mpr hat.dictFieldParts, hread ids names values hat.texts⟩

theorem mergedEntries_eq {values : List RichValue} {lists : List (List (String × RichValue))}
    (h : List.Forall₂ (Reads view) values lists) :
    mergedEntries site view values = .ok (unionOf lists) := by
  rw [mergedEntries, unionOf]
  generalize ([] : List (String × RichValue)) = merged
  induction h generalizing merged with
  | nil => rfl
  | cons hfirst _ ih =>
      rw [List.foldlM_cons, dictEntries_eq hfirst]
      exact ih _

/-- Whatever is merged is in order. -/
theorem mergedEntries_pairwise {values : List RichValue} {merged : List (String × RichValue)}
    (h : mergedEntries site view values = .ok merged) : merged.Pairwise (·.1 < ·.1) := by
  rw [mergedEntries] at h
  have hstart : ([] : List (String × RichValue)).Pairwise (·.1 < ·.1) := .nil
  generalize ([] : List (String × RichValue)) = start at h hstart
  induction values generalizing start with
  | nil =>
      obtain rfl := pure_eq_ok.mp h
      exact hstart
  | cons value rest ih =>
      rw [List.foldlM_cons] at h
      obtain ⟨next, hnext, hrest⟩ := bind_eq_ok.mp h
      obtain ⟨entries, -, hentries⟩ := bind_eq_ok.mp hnext
      obtain rfl := pure_eq_ok.mp hentries
      exact ih _ hrest (pairwise_insertEntries entries hstart)

theorem internAll_names {background heap : Heap} (h : heap.Ordered (some background))
    (texts : List String) : Names background heap (internAll texts heap) texts := by
  induction texts generalizing heap with
  | nil => exact ⟨h, .refl heap, rfl⟩
  | cons text rest ih =>
      obtain ⟨hordered, hwidens⟩ := h.intern text
      have hrest := ih hordered
      have hid : (⟨(heap.intern text).2, some background⟩ : HeapView).text (heap.intern text).1 =
          .ok text :=
        HeapView.text_eq_ok.mpr ⟨_, current_heap _ _, InternTable.insert_resolve _ _⟩
      refine ⟨hrest.ordered, hwidens.trans hrest.widens, ?_⟩
      have hkept := (hrest.widens.resolves (some background)).texts hid
      exact mapM_eq_ok.mpr (.cons hkept (mapM_eq_ok.mp hrest.texts))

/-- A merge allocates what it merged. -/
theorem allocateMerged_runs (h : Tidy env store) (dst : Register)
    {merged : List (String × RichValue)} (hmerged : merged.Pairwise (·.1 < ·.1)) :
    Runs (allocateDict env site window dst (merged.map (·.1)) (internAll (merged.map (·.1)))
        (merged.map (·.2))) store
      (fun _ after => Allocated env site window dst (merged.map (·.1)) (merged.map (·.2))
        store after)
      fun error => error.kind = .allocationQuotaExceeded ∨ ¬dst < window.count :=
  allocateDict_runs h dst _ (internAll_names h.ordered _) (List.pairwise_map.mpr hmerged)
    (by rw [List.length_map, List.length_map])

theorem mergeDicts_runs (h : Tidy env store) (dst : Register) (dicts : List Register) :
    Runs (mergeDicts env site window dst dicts) store
      (fun _ after => Tidy env after ∧ store.current.Widens after.current) fun _ => True := by
  have hread : Runs (readMany site window dicts) store (fun _ after => after = store ∧ True ∧ _)
      fun _ => True :=
    @Runs.mapM _ _ _ _ _ _ _ _ (· = store) (fun _ _ => True) (fun _ _ _ => True)
      (fun _ => trivial) (fun _ _ => trivial) (fun _ _ => trivial) (fun register _ s' _ hs' => by
        subst hs'
        exact (readRegister_runs register).imp (fun _ _ h => ⟨h.2, trivial, trivial⟩)
          fun _ h => h) rfl
  refine .bind (hread.imp ?_ fun _ h => h)
  rintro values _ ⟨rfl, -⟩
  refine .bind (look_runs (fun merged hmerged => ?_) fun _ _ => trivial)
  refine (allocateMerged_runs h dst (mergedEntries_pairwise hmerged)).imp ?_ fun _ _ => trivial
  exact fun _ after hallocated => ⟨hallocated.tidy, hallocated.widens⟩

/-- Given dicts, a merge makes their union, unless the quota or its register refuses it. -/
theorem mergeDicts_unions (h : Tidy env store) (dst : Register) {dicts : List Register}
    {values : List RichValue} {lists : List (List (String × RichValue))}
    (hholds : List.Forall₂ (Holds window store) dicts values)
    (hreads : List.Forall₂ (Reads (store.view env)) values lists) :
    Runs (mergeDicts env site window dst dicts) store
      (fun _ after => Allocated env site window dst ((unionOf lists).map (·.1))
        ((unionOf lists).map (·.2)) store after)
      fun error => error.kind = .allocationQuotaExceeded ∨ ¬dst < window.count := by
  refine .bind ((readMany_holds hholds).imp ?_ fun _ h => h)
  rintro _ _ ⟨rfl, rfl⟩
  have hmerged := @mergedEntries_eq site _ _ _ hreads
  refine .bind (look_runs (fun merged hresult => ?_) fun _ herror => ?_)
  · obtain rfl := Except.ok.inj (hmerged.symm.trans hresult)
    exact allocateMerged_runs h dst (pairwise_foldl_insertEntries lists .nil)
  · cases hmerged.symm.trans herror

end Merges

end Telora.Vm
