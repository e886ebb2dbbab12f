import Telora.Bytecode.Assembly

/-!
# Soundness of assembly and linking

The assembled function denotes its source operation by operation, and stepping
it from its first instruction performs the operations of the items in
label-resolved order whatever the outcomes of the conditional jumps are. A
malformed function is refused.
-/

namespace Telora.Lir

open Bytecode Library

/-- An opcode of `function` denotes an operation of `items`: the registers are the
same and in the frame, the constant is the listed one, the text and the nested
function are found at their index, and a label has become its index. -/
def Denotes (constants : List Value) (items : List Item) (function : BytecodeFunction) :
    Operation → Opcode → Prop :=
  Instr.Rel (InFrame function.code.registerCount)
    (fun constant id => constant = id ∧ ∃ value,
      constants[constant]? = some value ∧ function.valueLink id = some value)
    (fun text id => function.textLink id = some text)
    (fun nested id => ∃ ref, function.prototypeLink id = some ref ∧ Assembles nested ref)
    (fun label target => labelIndex items label = some target)

/-- What an assembled function owes to the function it was assembled from. -/
structure Sound (source : Function) (function : BytecodeFunction) : Prop where
  parameterCount : function.code.parameterCount = source.parameterCount
  captureCount : function.code.captureCount = source.captureCount
  registerCount : function.code.registerCount = source.registerCount
  frame : source.parameterCount + source.captureCount ≤ source.registerCount
  values : function.values = source.constants
  text_nodup : function.text.Nodup
  labels_nodup : (labelIds source.items).Nodup
  operations_ne_nil : operations source.items ≠ []
  denotes : List.Forall₂ (Denotes source.constants source.items function)
    (operations source.items) function.code.instructions
  window : ∀ opcode ∈ function.code.instructions, ∀ w ∈ opcode.window,
    w.1 + w.2 < function.code.registerCount

/-- A function assembles exactly when its passes do and it has an instruction. -/
theorem assemble_eq_ok {fresh fresh' : Nat} {source : Function} {function : BytecodeFunction}
    (h : assemble fresh source = .ok (function, fresh')) :
    source.parameterCount + source.captureCount ≤ source.registerCount ∧
      ∃ labels instructions origins,
        collectLabels source.items 0 [] = .ok labels ∧
        lowerItems source.registerCount source.constants.length labels fresh source.items =
          .ok (instructions, origins, fresh') ∧
        instructions ≠ [] ∧
        function = assembled source.name source.parameterCount source.captureCount
          source.registerCount source.constants instructions (compressOrigins origins) := by
  obtain ⟨name, parameterCount, captureCount, registerCount, constants, items⟩ := source
  rw [assemble] at h
  obtain ⟨hframe, h₁⟩ := ite_throw_eq_ok.mp h
  obtain ⟨labels, hlabels, h₂⟩ := bind_eq_ok.mp h₁
  obtain ⟨⟨instructions, origins, fresh₁⟩, hitems, h₃⟩ := bind_eq_ok.mp h₂
  obtain ⟨hnonempty, h₄⟩ := ite_throw_eq_ok.mp h₃
  obtain ⟨hfunction, rfl⟩ := Prod.mk.inj (pure_eq_ok.mp h₄)
  refine ⟨Nat.le_of_not_lt hframe, labels, instructions, origins, hlabels, hitems, ?_,
    hfunction.symm⟩
  simpa using hnonempty

/-- Lowering and linking together: the opcode denotes the operation. -/
theorem denotes_of_lowered_linked {source : Function} {labels : List (LabelId × Nat)}
    {links : LinkingTable} {code : FuncByteCode}
    (hcode : code.registerCount = source.registerCount)
    (hvalues : links.values = source.constants)
    (hlabels : ∀ label, labels.lookup label = labelIndex source.items label)
    {operation : Operation} {instruction : Instruction} {opcode : Opcode}
    (hlowered : Lowered source.registerCount source.constants.length labels operation instruction)
    (hlinked : Linked links instruction opcode) :
    Denotes source.constants source.items
      (.mk code links.values links.externalValues links.text links.prototypes)
      operation opcode := by
  refine Instr.Rel.comp ?_ ?_ ?_ ?_ ?_ hlowered hlinked
  · rintro id register _ hregister rfl
    rwa [InFrame, BytecodeFunction.code, hcode]
  · rintro constant index _ ⟨rfl, hlt⟩ rfl
    have hget := List.getElem?_eq_getElem hlt
    refine ⟨rfl, _, hget, ?_⟩
    rw [BytecodeFunction.valueLink, BytecodeFunction.values, hvalues, hget]
  · rintro text _ id rfl htext
    exact htext
  · rintro nested ref id hassembles hid
    exact ⟨ref, hid, hassembles⟩
  · rintro label target _ htarget rfl
    rw [← hlabels label, htarget]

/-- Linking keeps call windows. -/
theorem Linked.window_lt {links : LinkingTable} {instruction : Instruction} {opcode : Opcode}
    (h : Linked links instruction opcode) {bound : Nat}
    (hlt : ∀ w ∈ instruction.window, w.1 + w.2 < bound) :
    ∀ w ∈ opcode.window, w.1 + w.2 < bound := by
  intro w hw
  have hwindow := Instr.Rel.window h
  rw [Option.mem_def.mp hw] at hwindow
  cases hi : instruction.window with
  | none => rw [hi] at hwindow; cases hwindow
  | some v =>
      rw [hi] at hwindow
      cases hwindow with
      | some hvw =>
          rw [← hvw.1, ← hvw.2]
          exact hlt v hi

theorem sound_of_assemble {fresh fresh' : Nat} {source : Function} {function : BytecodeFunction}
    (h : assemble fresh source = .ok (function, fresh')) : Sound source function := by
  obtain ⟨hframe, labels, instructions, origins, hlabels, hitems, hnonempty, rfl⟩ :=
    assemble_eq_ok h
  obtain ⟨hnodup, -, hlookup⟩ := collectLabels_eq_ok hlabels
  have hindex : ∀ label, labels.lookup label = labelIndex source.items label := fun label => by
    rw [hlookup label]
    simp
  have hlowered := lowerItems_lowered hitems
  obtain ⟨hextends, hlinked⟩ := linkInstructions_spec
    ⟨source.constants, List.replicate source.constants.length none, [], []⟩ instructions
  have hpairs : List.Forall₂ (fun operation opcode =>
      Denotes source.constants source.items (assembled source.name source.parameterCount
        source.captureCount source.registerCount source.constants instructions
        (compressOrigins origins)) operation opcode ∧
        ∀ w ∈ opcode.window, w.1 + w.2 < source.registerCount)
      (operations source.items) _ :=
    forall₂_comp (fun hl hk => ⟨denotes_of_lowered_linked rfl hextends.values hindex hl.1 hk,
      hk.window_lt hl.2⟩) hlowered hlinked
  exact {
    parameterCount := rfl
    captureCount := rfl
    registerCount := rfl
    frame := hframe
    values := hextends.values
    text_nodup := hextends.nodup List.nodup_nil
    labels_nodup := hnodup
    operations_ne_nil := fun hempty => hnonempty (by
      rw [hempty] at hlowered
      exact List.forall₂_nil_left_iff.mp hlowered)
    denotes := hpairs.imp fun _ _ h => h.1
    window := fun opcode hmem => by
      obtain ⟨_, -, -, hwindow⟩ := forall₂_mem_right hpairs hmem
      exact hwindow }

section Stepping

/-- The operation performed next and the items after it. -/
def nextOperation : List Item → Option (Operation × List Item)
  | [] => none
  | .label _ :: rest => nextOperation rest
  | .operation value _ :: rest => some (value, rest)

/-- Where the items continue after an operation, `taken` telling a false condition. -/
def continueItems (items rest : List Item) (taken : Bool) :
    Instr.Flow LabelId → Option (List Item)
  | .next => some rest
  | .jump label => afterLabel items label
  | .branch label => if taken then afterLabel items label else some rest
  | .leave => none

/-- The operations performed from a cursor into the items, one choice an operation. -/
def itemTrace (items : List Item) : List Bool → List Item → List Operation
  | [], _ => []
  | taken :: choices, cursor =>
      match nextOperation cursor with
      | none => []
      | some (operation, rest) =>
          operation :: match continueItems items rest taken operation.flow with
            | none => []
            | some cursor => itemTrace items choices cursor

/-- The instruction index after an opcode. -/
def continuePc (pc : Nat) (taken : Bool) : Instr.Flow Nat → Option Nat
  | .next => some (pc + 1)
  | .jump target => some target
  | .branch target => if taken then some target else some (pc + 1)
  | .leave => none

/-- The opcodes performed from an instruction index, one choice an opcode. -/
def codeTrace (instructions : List Opcode) : List Bool → Nat → List Opcode
  | [], _ => []
  | taken :: choices, pc =>
      match instructions[pc]? with
      | none => []
      | some opcode =>
          opcode :: match continuePc pc taken opcode.flow with
            | none => []
            | some pc => codeTrace instructions choices pc

/-- An index points at the items that are left when exactly their operations are left. -/
def PointsAt (items : List Item) (pc : Nat) (cursor : List Item) : Prop :=
  ∃ skipped, operations items = skipped ++ operations cursor ∧ skipped.length = pc

theorem nextOperation_eq_none {cursor : List Item} (h : nextOperation cursor = none) :
    operations cursor = [] := by
  induction cursor with
  | nil => rfl
  | cons item rest ih =>
      cases item with
      | label id => exact ih h
      | operation value origin => cases h

theorem nextOperation_eq_some {cursor rest : List Item} {operation : Operation}
    (h : nextOperation cursor = some (operation, rest)) :
    operations cursor = operation :: operations rest := by
  induction cursor with
  | nil => cases h
  | cons item tail ih =>
      cases item with
      | label id => exact ih h
      | operation value origin =>
          simp only [nextOperation, Option.some.injEq, Prod.mk.injEq] at h
          obtain ⟨rfl, rfl⟩ := h
          rfl

/-- The items after a label are pointed at by the index of the label. -/
theorem pointsAt_afterLabel {items : List Item} {label : LabelId} {target : Nat}
    (h : labelIndex items label = some target) :
    ∃ cursor, afterLabel items label = some cursor ∧ PointsAt items target cursor := by
  induction items generalizing target with
  | nil => cases h
  | cons item rest ih =>
      cases item with
      | label id =>
          by_cases hid : id = label
          · obtain rfl : 0 = target := by simpa [labelIndex, hid] using h
            exact ⟨rest, by simp [afterLabel, hid], [], rfl, rfl⟩
          · obtain ⟨cursor, hcursor, hpoints⟩ := ih (by simpa [labelIndex, hid] using h)
            exact ⟨cursor, by simpa [afterLabel, hid] using hcursor, hpoints⟩
      | operation value origin =>
          obtain ⟨index, hindex, rfl⟩ := Option.map_eq_some_iff.mp h
          obtain ⟨cursor, hcursor, skipped, hskipped, hlength⟩ := ih hindex
          refine ⟨cursor, hcursor, value :: skipped, ?_, by simp [hlength]⟩
          rw [operations, hskipped, List.cons_append]

variable {constants : List Value} {items : List Item} {function : BytecodeFunction}

/-- One step: both sides leave, or they continue at corresponding places. -/
theorem continue_pointsAt {operation : Operation} {opcode : Opcode}
    (hdenotes : Denotes constants items function operation opcode) {pc : Nat} {rest : List Item}
    (hrest : PointsAt items (pc + 1) rest) (taken : Bool) :
    Option.Rel (fun cursor pc' => PointsAt items pc' cursor)
      (continueItems items rest taken operation.flow) (continuePc pc taken opcode.flow) := by
  have hflow := Instr.Rel.flow hdenotes
  cases hf : operation.flow <;> cases hf' : opcode.flow <;> rw [hf, hf'] at hflow <;> cases hflow
  case next.next => exact .some hrest
  case jump.jump target target' hlabel =>
    obtain ⟨cursor, hcursor, hpoints⟩ := pointsAt_afterLabel hlabel
    simp only [continueItems, continuePc, hcursor]
    exact .some hpoints
  case branch.branch target target' hlabel =>
    obtain ⟨cursor, hcursor, hpoints⟩ := pointsAt_afterLabel hlabel
    cases taken with
    | true =>
        simp only [continueItems, continuePc, hcursor, if_true]
        exact .some hpoints
    | false => exact .some hrest
  case leave.leave => exact .none

/-- The run lemma: from corresponding places the two traces correspond. -/
theorem trace_denotes
    (hdenotes : List.Forall₂ (Denotes constants items function) (operations items)
      function.code.instructions)
    (choices : List Bool) {pc : Nat} {cursor : List Item} (hpoints : PointsAt items pc cursor) :
    List.Forall₂ (Denotes constants items function) (itemTrace items choices cursor)
      (codeTrace function.code.instructions choices pc) := by
  induction choices generalizing pc cursor with
  | nil => exact .nil
  | cons taken choices ih =>
      obtain ⟨skipped, hskipped, rfl⟩ := hpoints
      have hlength := hdenotes.length_eq
      cases hnext : nextOperation cursor with
      | none =>
          have hend : function.code.instructions[skipped.length]? = none := by
            rw [List.getElem?_eq_none_iff, ← hlength, hskipped, nextOperation_eq_none hnext]
            simp
          simp only [itemTrace, codeTrace, hnext, hend]
          exact .nil
      | some next =>
          obtain ⟨operation, rest⟩ := next
          rw [nextOperation_eq_some hnext] at hskipped
          have hpair : ∃ opcode, function.code.instructions[skipped.length]? = some opcode ∧
              Denotes constants items function operation opcode := by
            have hlt : skipped.length < (operations items).length := by
              rw [hskipped]
              simp
            refine ⟨_, List.getElem?_eq_getElem (hlength ▸ hlt), ?_⟩
            have := hdenotes.get hlt (hlength ▸ hlt)
            simpa [hskipped] using this
          obtain ⟨opcode, hopcode, hop⟩ := hpair
          have hrest : PointsAt items (skipped.length + 1) rest :=
            ⟨skipped ++ [operation], by rw [hskipped, List.append_assoc]; rfl, by simp⟩
          have hcontinue := continue_pointsAt hop hrest taken
          simp only [itemTrace, codeTrace, hnext, hopcode]
          refine .cons hop ?_
          cases hc : continueItems items rest taken operation.flow <;>
            cases hc' : continuePc skipped.length taken opcode.flow <;>
            rw [hc, hc'] at hcontinue <;> cases hcontinue
          case none.none => exact .nil
          case some.some hnextPoints => exact ih hnextPoints

end Stepping

/-- What makes a function malformed: its own items, or a function they close over. -/
inductive Malformed : Function → Prop where
  | duplicateLabel {source} : ¬(labelIds source.items).Nodup → Malformed source
  | undefinedLabel {source operation label} : operation ∈ operations source.items →
      operation.target = some label → label ∉ labelIds source.items → Malformed source
  | register {source operation register} : operation ∈ operations source.items →
      register ∈ operation.registers → source.registerCount ≤ register → Malformed source
  | window {source operation base argumentCount} : operation ∈ operations source.items →
      operation.window = some (base, argumentCount) →
      source.registerCount ≤ base + argumentCount → Malformed source
  | constant {source operation constant} : operation ∈ operations source.items →
      operation.constant = some constant → source.constants.length ≤ constant → Malformed source
  | closed {source operation nested} : operation ∈ operations source.items →
      operation.closed = some nested → Malformed nested → Malformed source

/-- Related options: a value on the left has its partner on the right. -/
theorem rel_of_eq_some {α β : Type} {p : α → β → Prop} {x : Option α} {y : Option β}
    (h : Option.Rel p x y) {a : α} (ha : x = some a) : ∃ b, y = some b ∧ p a b := by
  subst ha
  cases h with
  | some hab => exact ⟨_, rfl, hab⟩

/-- A malformed function does not assemble, whatever addresses are free. -/
theorem not_assemble_of_malformed {source : Function} (hmalformed : Malformed source) :
    ∀ fresh fresh' function, assemble fresh source ≠ .ok (function, fresh') := by
  induction hmalformed with
  | duplicateLabel hdup =>
      intro fresh fresh' function h
      exact hdup (sound_of_assemble h).labels_nodup
  | undefinedLabel hmem htarget hlabel =>
      intro fresh fresh' function h
      obtain ⟨_, -, hdenotes⟩ := forall₂_mem_left (sound_of_assemble h).denotes hmem
      obtain ⟨index, -, hindex⟩ := rel_of_eq_some (Instr.Rel.target hdenotes) htarget
      exact hlabel ((labelIndex_isSome_iff _ _).mp ⟨index, hindex⟩)
  | register hmem hregister hle =>
      intro fresh fresh' function h
      have hsound := sound_of_assemble h
      obtain ⟨_, -, hdenotes⟩ := forall₂_mem_left hsound.denotes hmem
      obtain ⟨_, -, rfl, hlt⟩ :=
        forall₂_mem_left (Instr.Rel.registers hdenotes) hregister
      exact absurd (hsound.registerCount ▸ hlt) (Nat.not_lt.mpr hle)
  | window hmem hwindow hle =>
      intro fresh fresh' function h
      have hsound := sound_of_assemble h
      obtain ⟨opcode, hopcode, hdenotes⟩ := forall₂_mem_left hsound.denotes hmem
      obtain ⟨w, hw, ⟨hbase, -⟩, hcount⟩ :=
        rel_of_eq_some (Instr.Rel.window hdenotes) hwindow
      have hlt := hsound.window opcode hopcode w hw
      rw [← hbase, ← hcount, hsound.registerCount] at hlt
      exact absurd hlt (Nat.not_lt.mpr hle)
  | constant hmem hconstant hle =>
      intro fresh fresh' function h
      obtain ⟨_, -, hdenotes⟩ := forall₂_mem_left (sound_of_assemble h).denotes hmem
      obtain ⟨_, -, -, value, hvalue, -⟩ :=
        rel_of_eq_some (Instr.Rel.constant hdenotes) hconstant
      exact absurd (List.getElem?_eq_some_iff.mp hvalue).1 (Nat.not_lt.mpr hle)
  | closed hmem hclosed _ ih =>
      intro fresh fresh' function h
      obtain ⟨_, -, hdenotes⟩ := forall₂_mem_left (sound_of_assemble h).denotes hmem
      obtain ⟨_, -, ref, -, hassembles⟩ := rel_of_eq_some (Instr.Rel.closed hdenotes) hclosed
      obtain ⟨fresh₁, fresh₂, hnested⟩ := hassembles
      exact ih fresh₁ fresh₂ _ hnested

/-- Assembly and linking are sound, and refuse what is malformed. -/
theorem assemble_sound (fresh : Nat) (source : Function) :
    (∀ function fresh', assemble fresh source = .ok (function, fresh') →
      Sound source function ∧
      (∀ opcode ∈ function.code.instructions, ∀ register ∈ opcode.registers,
        register < function.code.registerCount) ∧
      (∀ label target, labelIndex source.items label = some target →
        target ≤ function.code.instructions.length ∧
          ∃ rest, afterLabel source.items label = some rest ∧
            operations rest = (operations source.items).drop target) ∧
      ∀ choices, List.Forall₂ (Denotes source.constants source.items function)
        (itemTrace source.items choices source.items)
        (codeTrace function.code.instructions choices 0)) ∧
    (Malformed source → ∃ error, assemble fresh source = .error error) := by
  refine ⟨fun function fresh' h => ?_, fun hmalformed => ?_⟩
  · have hsound := sound_of_assemble h
    refine ⟨hsound, ?_, ?_, fun choices => trace_denotes hsound.denotes choices ⟨[], rfl, rfl⟩⟩
    · intro opcode hmem register hregister
      obtain ⟨_, -, hdenotes⟩ := forall₂_mem_right hsound.denotes hmem
      obtain ⟨_, -, -, hlt⟩ := forall₂_mem_right (Instr.Rel.registers hdenotes) hregister
      exact hlt
    · intro label target hindex
      obtain ⟨rest, hafter, skipped, hskipped, rfl⟩ := pointsAt_afterLabel hindex
      rw [← hsound.denotes.length_eq, hskipped]
      exact ⟨by simp, rest, hafter, by simp⟩
  · cases h : assemble fresh source with
    | error error => exact ⟨error, rfl⟩
    | ok result => exact absurd h (not_assemble_of_malformed hmalformed _ _ _)

/-- A loop that reads one field twice and leaves through a label past its last jump. -/
def fieldLoop : Function :=
  .mk "loop" 1 0 2 [.int 1]
    [.label 0, .operation (.getField 1 0 "next") (.synthetic none),
      .operation (.jumpIfFalse 1 1) (.synthetic none),
      .operation (.getField 0 0 "next") (.synthetic none),
      .operation (.jump 0) (.synthetic none), .label 1,
      .operation (.ret 0) (.synthetic none)]

theorem assemble_sound_fieldLoop :
    (∃ function fresh', assemble 0 fieldLoop = .ok (function, fresh') ∧
      Sound fieldLoop function ∧ function.text = ["next"]) ∧
    ∃ error, assemble 0 (.mk "f" 0 0 1 [] [.operation (.jump 3) (.synthetic none)]) =
      .error error :=
  ⟨⟨_, _, rfl, ((assemble_sound 0 fieldLoop).1 _ _ rfl).1, rfl⟩,
    (assemble_sound 0 _).2 (.undefinedLabel List.mem_cons_self rfl (by decide))⟩

end Telora.Lir
