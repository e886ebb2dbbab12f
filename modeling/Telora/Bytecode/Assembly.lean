import Telora.Bytecode.Lir
import Telora.Bytecode.Instruction
import Telora.Library.ExceptBind

/-!
# Assembly and linking are sound

Each linked instruction is the operation it was lowered from: the registers are
the same and lie in the frame, the constant, text and prototype indices denote
what the operation named, and a label has become the index of the operation
that follows it. Stepping the linked code therefore runs the operations of the
register IR in label-resolved order.

Linking only appends to its tables, keeps the texts distinct, and gives every
instruction indices that denote the texts and prototypes it named.
-/

namespace Telora.Lir

open Bytecode Library

/-- The operations of a function body, in order. -/
def operations : List Item → List Operation
  | [] => []
  | .label _ :: rest => operations rest
  | .operation value _ :: rest => value :: operations rest

/-- The labels of a function body, in order. -/
def labelIds : List Item → List LabelId
  | [] => []
  | .label id :: rest => id :: labelIds rest
  | .operation _ _ :: rest => labelIds rest

/-- The items that follow a label. -/
def afterLabel : List Item → LabelId → Option (List Item)
  | [], _ => none
  | .label id :: rest, target => if id = target then some rest else afterLabel rest target
  | .operation _ _ :: rest, target => afterLabel rest target

/-- The number of operations before a label: the index of the first operation after it. -/
def labelIndex : List Item → LabelId → Option Nat
  | [], _ => none
  | .label id :: rest, target => if id = target then some 0 else labelIndex rest target
  | .operation _ _ :: rest, target => (labelIndex rest target).map (· + 1)

theorem labelIndex_isSome_iff (items : List Item) (target : LabelId) :
    (∃ index, labelIndex items target = some index) ↔ target ∈ labelIds items := by
  induction items with
  | nil => simp [labelIndex, labelIds]
  | cons item rest ih =>
      cases item with
      | label id =>
          by_cases h : id = target
          · simp [labelIndex, labelIds, h]
          · have h' : ¬target = id := fun e => h e.symm
            simp [labelIndex, labelIds, h, h', ih]
      | operation value origin => simp [labelIndex, labelIds, ih]

/-- The first pass succeeds on distinct labels and binds each to its index. -/
theorem collectLabels_eq_ok {items : List Item} {pc : Nat}
    {labels result : List (LabelId × Nat)} (h : collectLabels items pc labels = .ok result) :
    (labelIds items).Nodup ∧ (∀ id ∈ labelIds items, labels.lookup id = none) ∧
      ∀ target, result.lookup target =
        (labels.lookup target).or ((labelIndex items target).map (pc + ·)) := by
  induction items generalizing pc labels with
  | nil =>
      obtain rfl : labels = result := by simpa [collectLabels] using h
      simp [labelIds, labelIndex]
  | cons item rest ih =>
      cases item with
      | operation value origin =>
          obtain ⟨hnodup, hfresh, hlookup⟩ := ih (by simpa only [collectLabels] using h)
          refine ⟨hnodup, hfresh, fun target => ?_⟩
          rw [hlookup target, labelIndex, Option.map_map]
          congr 2
          funext n
          simp only [Function.comp_apply]
          omega
      | label id =>
          rw [collectLabels, ite_error_eq_ok] at h
          obtain ⟨hnew, h⟩ := h
          have hnone : labels.lookup id = none := by
            cases hl : labels.lookup id with
            | none => rfl
            | some t => exact absurd (by rw [hl]; rfl) hnew
          obtain ⟨hnodup, hfresh, hlookup⟩ := ih h
          have hnotMem : id ∉ labelIds rest := fun hm => by
            have := hfresh id hm
            rw [List.lookup_cons, beq_self_eq_true] at this
            cases this
          refine ⟨List.nodup_cons.mpr ⟨hnotMem, hnodup⟩, ?_, ?_⟩
          · intro other hmem
            rcases List.mem_cons.mp hmem with rfl | hrest
            · exact hnone
            · have hne : (other == id) = false :=
                beq_eq_false_iff_ne.mpr fun e => hnotMem (e ▸ hrest)
              have := hfresh other hrest
              rwa [List.lookup_cons, hne] at this
          · intro target
            rw [hlookup target, labelIndex, List.lookup_cons]
            by_cases ht : target = id
            · subst ht
              rw [beq_self_eq_true, hnone, if_pos rfl]
              rfl
            · have hne : (target == id) = false := beq_eq_false_iff_ne.mpr ht
              rw [hne, if_neg fun e => ht e.symm]

/-- A register kept by lowering lies in the frame. -/
def InFrame (registerCount : Nat) (id : RegisterId) (register : Register) : Prop :=
  id = register ∧ register < registerCount

/-- A shared function assembled from a nested function. -/
def Assembles (function : Function) (ref : FunctionRef) : Prop :=
  ∃ fresh fresh', assemble fresh function = .ok (ref.function, fresh')

section Lowering

variable {registerCount constantCount : Nat} {labels : List (LabelId × Nat)} {fresh : Nat}

@[simp] theorem lowerRegister_eq_ok {id : RegisterId} {register : Register} :
    lowerRegister registerCount id = .ok register ↔ InFrame registerCount id register := by
  unfold lowerRegister InFrame
  rw [ite_error_eq_ok]
  constructor
  · rintro ⟨hlt, h⟩
    obtain rfl := Except.ok.inj h
    exact ⟨rfl, Nat.lt_of_not_le hlt⟩
  · rintro ⟨rfl, hlt⟩
    exact ⟨Nat.not_le.mpr hlt, rfl⟩

@[simp] theorem lowerRegisters_eq_ok {ids : List RegisterId} {registers : List Register} :
    lowerRegisters registerCount ids = .ok registers ↔
      List.Forall₂ (InFrame registerCount) ids registers := by
  simp only [lowerRegisters, mapM_eq_ok, lowerRegister_eq_ok]

@[simp] theorem lowerConstant_eq_ok {constant : ConstantId} {index : Nat} :
    lowerConstant constantCount constant = .ok index ↔
      constant = index ∧ index < constantCount := by
  unfold lowerConstant
  rw [ite_error_eq_ok]
  constructor
  · rintro ⟨hlt, h⟩
    obtain rfl := Except.ok.inj h
    exact ⟨rfl, Nat.lt_of_not_le hlt⟩
  · rintro ⟨rfl, hlt⟩
    exact ⟨Nat.not_le.mpr hlt, rfl⟩

@[simp] theorem lowerLabel_eq_ok {id : LabelId} {target : Nat} :
    lowerLabel labels id = .ok target ↔ labels.lookup id = some target := by
  unfold lowerLabel
  cases labels.lookup id <;> simp

@[simp] theorem lowerWindow_eq_ok {base : RegisterId} {count : Nat} {register : Register} :
    lowerWindow registerCount base count = .ok register ↔
      InFrame registerCount base register ∧ register + count < registerCount := by
  unfold lowerWindow
  rw [bind_eq_ok]
  constructor
  · rintro ⟨r, hr, h⟩
    obtain ⟨hlt, h⟩ := ite_error_eq_ok.mp h
    obtain rfl := Except.ok.inj h
    exact ⟨lowerRegister_eq_ok.mp hr, Nat.lt_of_not_le hlt⟩
  · rintro ⟨hr, hlt⟩
    exact ⟨register, lowerRegister_eq_ok.mpr hr, ite_error_eq_ok.mpr ⟨Nat.not_le.mpr hlt, rfl⟩⟩

/-- The lowered instruction is the operation with its operands checked. -/
def Lowered (registerCount constantCount : Nat) (labels : List (LabelId × Nat)) :
    Operation → Instruction → Prop :=
  Instr.Rel (InFrame registerCount) (fun k k' => k = k' ∧ k' < constantCount) Eq Assembles
    (fun id target => labels.lookup id = some target)

theorem lowerOperation_lowered {operation : Operation} {instruction : Instruction}
    {fresh' : Nat}
    (h : lowerOperation registerCount constantCount labels fresh operation =
      .ok (instruction, fresh')) :
    Lowered registerCount constantCount labels operation instruction ∧
      ∀ w ∈ instruction.window, w.1 + w.2 < registerCount := by
  cases operation with
  | makeDict dst fields =>
      simp only [lowerOperation, bind_eq_ok, pure_eq_ok, lowerRegister_eq_ok, mapM_eq_ok,
        map_eq_ok, Prod.mk.injEq] at h
      obtain ⟨_, hdst, _, hfields, rfl, -⟩ := h
      refine ⟨.makeDict hdst (hfields.imp ?_), by simp [Instr.window]⟩
      rintro ⟨name, value⟩ _ ⟨_, hvalue, rfl⟩
      exact ⟨rfl, hvalue⟩
  | makeClosure dst function captures =>
      simp only [lowerOperation, bind_eq_ok, pure_eq_ok, lowerRegister_eq_ok,
        lowerRegisters_eq_ok, Prod.mk.injEq] at h
      obtain ⟨_, hdst, ⟨assembledFunction, fresh₁⟩, hfunction, _, hcaptures, rfl, -⟩ := h
      exact ⟨.makeClosure hdst ⟨fresh, fresh₁, hfunction⟩ hcaptures, by simp [Instr.window]⟩
  | _ =>
      simp only [lowerOperation, bind_eq_ok, pure_eq_ok, lowerRegister_eq_ok,
        lowerRegisters_eq_ok, lowerConstant_eq_ok, lowerLabel_eq_ok, lowerWindow_eq_ok,
        Prod.mk.injEq, Except.ok.injEq, and_assoc] at h
      repeat obtain ⟨_, h⟩ := h
      subst_vars
      refine ⟨?_, ?_⟩
      · constructor <;> first | assumption | rfl | exact ⟨rfl, ‹_›⟩
      · simp [Instr.window, *]

/-- The second pass lowers the operations in order and drops the labels. -/
theorem lowerItems_lowered {items : List Item} {instructions : List Instruction}
    {origins : List Origin} {fresh' : Nat}
    (h : lowerItems registerCount constantCount labels fresh items =
      .ok (instructions, origins, fresh')) :
    List.Forall₂ (fun operation instruction =>
      Lowered registerCount constantCount labels operation instruction ∧
        ∀ w ∈ instruction.window, w.1 + w.2 < registerCount)
      (operations items) instructions := by
  induction items generalizing fresh instructions origins with
  | nil =>
      simp only [lowerItems, Except.ok.injEq, Prod.mk.injEq] at h
      obtain ⟨rfl, -, -⟩ := h
      exact .nil
  | cons item rest ih =>
      cases item with
      | label id => exact ih h
      | operation value origin =>
          simp only [lowerItems, bind_eq_ok, pure_eq_ok, Prod.mk.injEq] at h
          obtain ⟨⟨instruction, fresh₁⟩, hfirst, ⟨tail, _, _⟩, hrest, rfl, -, rfl⟩ := h
          exact .cons (lowerOperation_lowered hfirst) (ih hrest)

end Lowering

namespace LinkingTable

/-- The later table holds everything the earlier one does, at the same indices. -/
structure Extends (old new : LinkingTable) : Prop where
  values : new.values = old.values
  externalValues : new.externalValues = old.externalValues
  text : old.text <+: new.text
  prototypes : old.prototypes <+: new.prototypes
  nodup : old.text.Nodup → new.text.Nodup

theorem Extends.refl (links : LinkingTable) : Extends links links :=
  ⟨rfl, rfl, List.prefix_refl _, List.prefix_refl _, id⟩

theorem Extends.trans {a b c : LinkingTable} (hab : Extends a b) (hbc : Extends b c) :
    Extends a c :=
  ⟨hbc.values.trans hab.values, hbc.externalValues.trans hab.externalValues,
    hab.text.trans hbc.text, hab.prototypes.trans hbc.prototypes, hbc.nodup ∘ hab.nodup⟩

theorem linkText_extends (links : LinkingTable) (value : String) :
    Extends links (links.linkText value).2 := by
  unfold linkText
  split
  · exact Extends.refl links
  · rename_i hnone
    have hnew : value ∉ links.text := fun hmem => by
      simpa using List.findIdx?_eq_none_iff.mp hnone value hmem
    refine ⟨rfl, rfl, List.prefix_append _ _, List.prefix_refl _, fun hnodup => ?_⟩
    exact List.Nodup.append hnodup (List.nodup_singleton value) (by simpa using hnew)

/-- The linked index denotes the text itself. -/
theorem linkText_denotes (links : LinkingTable) (value : String) :
    (links.linkText value).2.text[(links.linkText value).1]? = some value := by
  unfold linkText
  split
  · rename_i index hindex
    obtain ⟨hlt, heq, -⟩ := List.findIdx?_eq_some_iff_getElem.mp hindex
    rw [List.getElem?_eq_getElem hlt, eq_of_beq heq]
  · simp

theorem linkFields_spec (links : LinkingTable) (fields : List (String × Register)) :
    Extends links (links.linkFields fields).2 ∧
      List.Forall₂ (Instr.FieldRel
        (fun text id => (links.linkFields fields).2.text[id]? = some text) Eq)
        fields (links.linkFields fields).1 := by
  induction fields generalizing links with
  | nil => exact ⟨Extends.refl links, .nil⟩
  | cons field rest ih =>
      obtain ⟨name, register⟩ := field
      obtain ⟨hextends, hrest⟩ := ih (links.linkText name).2
      refine ⟨(linkText_extends links name).trans hextends, .cons ⟨?_, rfl⟩ hrest⟩
      exact getElem?_of_isPrefix hextends.text (linkText_denotes links name)

end LinkingTable

/-- A linked opcode: texts and prototypes have become indices that denote them. -/
def Linked (links : LinkingTable) : Instruction → Opcode → Prop :=
  Instr.Rel Eq Eq (fun text id => links.text[id]? = some text)
    (fun function id => links.prototypes[id]? = some function) Eq

theorem Linked.extends {old new : LinkingTable} (h : old.Extends new)
    {instruction : Instruction} {opcode : Opcode} (hlinked : Linked old instruction opcode) :
    Linked new instruction opcode :=
  Instr.Rel.imp (fun _ _ => id) (fun _ _ => id)
    (fun _ _ => getElem?_of_isPrefix h.text)
    (fun _ _ => getElem?_of_isPrefix h.prototypes) (fun _ _ => id) hlinked

private theorem forall₂_eq_refl {α : Type} (xs : List α) : List.Forall₂ Eq xs xs :=
  List.forall₂_refl xs

theorem linkInstruction_spec (links : LinkingTable) (instruction : Instruction) :
    links.Extends (linkInstruction links instruction).2 ∧
      Linked (linkInstruction links instruction).2 instruction
        (linkInstruction links instruction).1 := by
  cases instruction with
  | makeDict dst fields =>
      obtain ⟨hextends, hfields⟩ := links.linkFields_spec fields
      exact ⟨hextends, .makeDict rfl hfields⟩
  | getField dst dict field =>
      exact ⟨links.linkText_extends field, .getField rfl rfl (links.linkText_denotes field)⟩
  | fieldExists dst value field =>
      exact ⟨links.linkText_extends field, .fieldExists rfl rfl (links.linkText_denotes field)⟩
  | makeClosure dst function captures =>
      refine ⟨⟨rfl, rfl, List.prefix_refl _, List.prefix_append _ _, id⟩, ?_⟩
      exact .makeClosure rfl (by simp [linkInstruction]) (forall₂_eq_refl captures)
  | _ =>
      refine ⟨LinkingTable.Extends.refl links, ?_⟩
      constructor <;> first | rfl | exact forall₂_eq_refl _

/-- Linking a whole body: every opcode denotes its instruction in the final table. -/
theorem linkInstructions_spec (links : LinkingTable) (instructions : List Instruction) :
    links.Extends (linkInstructions links instructions).2 ∧
      List.Forall₂ (Linked (linkInstructions links instructions).2) instructions
        (linkInstructions links instructions).1 := by
  induction instructions generalizing links with
  | nil => exact ⟨LinkingTable.Extends.refl links, .nil⟩
  | cons instruction rest ih =>
      obtain ⟨hfirst, hlinked⟩ := linkInstruction_spec links instruction
      obtain ⟨hrest, htail⟩ := ih (linkInstruction links instruction).2
      exact ⟨hfirst.trans hrest, .cons (hlinked.extends hrest) htail⟩

end Telora.Lir
