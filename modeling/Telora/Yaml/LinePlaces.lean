import Telora.Yaml.Reading
import Telora.Yaml.Traces

/-!
# Lines at their places

The lines of a document stand in it one behind the other, each with its indentation and its
content at the offset of its start.
-/

namespace Telora.Yaml

open Library

/-- A line stands in a document, and ends where its content ends. -/
structure Line.StandsIn (document : List Char) (line : Line) : Prop where
  text : StandsAt document line.start (spaces line.indent ++ line.content)
  stop : line.stop = line.start + line.indent + byteLength line.content

/-- Lines are one behind the other. -/
def Ordered (lines : List Line) : Prop :=
  lines.Pairwise fun left right => left.stop < right.start

section Places

variable {document : List Char}

theorem byteLength_spaces (n : Nat) : byteLength (spaces n) = n := by
  induction n with
  | zero => rfl
  | succ n ih =>
      rw [spaces_succ, byteLength_cons, ih, Nat.add_comm]
      rfl

/-- The content of a line stands behind its indentation. -/
theorem Line.StandsIn.content {line : Line} (h : line.StandsIn document) :
    StandsAt document (line.start + line.indent) line.content := by
  have hcontent := h.text.right
  rwa [byteLength_spaces] at hcontent

theorem spaces_takeWhile (text : List Char) :
    spaces (text.takeWhile (· = ' ')).length = text.takeWhile (· = ' ') := by
  refine (List.eq_replicate_iff.mpr ⟨rfl, fun c hc => ?_⟩).symm
  have hspace := List.mem_takeWhile_imp hc
  exact of_decide_eq_true hspace

theorem Line.standsIn_ofText {start : Nat} {text : List Char} (h : StandsAt document start text) :
    (Line.ofText start text).StandsIn document := by
  have hsplit : spaces (text.takeWhile (· = ' ')).length ++
      text.drop (text.takeWhile (· = ' ')).length = text := by
    rw [spaces_takeWhile, drop_length_takeWhile]
    exact List.takeWhile_append_dropWhile
  constructor
  · change StandsAt document start (spaces (text.takeWhile (· = ' ')).length ++
      text.drop (text.takeWhile (· = ' ')).length)
    rwa [hsplit]
  · have hlength := congrArg byteLength hsplit
    rw [byteLength_append, byteLength_spaces] at hlength
    change start + byteLength text = start + (text.takeWhile (· = ' ')).length +
      byteLength (text.drop (text.takeWhile (· = ' ')).length)
    omega

/-- What is known of the lines that were cut off, and of the text that is not cut yet. -/
structure CutLines (document : List Char) (start : Nat) (lines : List Line) (next : Nat)
    (pending : List Char) : Prop where
  stands : ∀ line ∈ lines, line.StandsIn document
  ordered : Ordered lines
  behind : ∀ line ∈ lines, start ≤ line.start
  before : ∀ line ∈ lines, line.stop < next
  forward : start ≤ next
  pending : StandsAt document next pending

/-- The text of a line stands where the line starts. -/
theorem stands_line {start : Nat} {pending rest : List Char}
    (h : StandsAt document start (pending ++ rest)) :
    (Line.ofText start (pending.rdropWhile (· = '\r'))).StandsIn document ∧
      byteLength (pending.rdropWhile (· = '\r')) ≤ byteLength pending := by
  obtain ⟨returns, hreturns⟩ := List.rdropWhile_prefix (· = '\r') pending
  have hlength := congrArg byteLength hreturns
  rw [byteLength_append] at hlength
  rw [← hreturns, List.append_assoc] at h
  exact ⟨Line.standsIn_ofText h.left, by omega⟩

theorem completeLines_stands (text : List Char) (start : Nat) (pending : List Char)
    (h : StandsAt document start (pending ++ text)) :
    CutLines document start (completeLines start pending text).1
      (completeLines start pending text).2.1 (completeLines start pending text).2.2 := by
  induction text generalizing start pending with
  | nil =>
      rw [List.append_nil] at h
      exact ⟨fun _ h => (List.not_mem_nil h).elim, .nil, fun _ h => (List.not_mem_nil h).elim,
        fun _ h => (List.not_mem_nil h).elim, Nat.le_refl _, h⟩
  | cons c rest ih =>
      rw [completeLines]
      split
      · next hc =>
          subst hc
          have hrest : StandsAt document (start + byteLength pending + 1) ([] ++ rest) := by
            have hbreak : pending ++ '\n' :: rest = (pending ++ ['\n']) ++ ([] ++ rest) := by
              rw [List.append_assoc]
              rfl
            rw [hbreak] at h
            have hright := h.right
            rwa [byteLength_append] at hright
          have hcut := ih (start + byteLength pending + 1) [] hrest
          obtain ⟨hline, hlength⟩ := stands_line h
          have hstop : (Line.ofText start (pending.rdropWhile (· = '\r'))).stop <
              start + byteLength pending + 1 := by
            change start + byteLength (pending.rdropWhile (· = '\r')) < _
            omega
          refine ⟨List.forall_mem_cons.mpr ⟨hline, hcut.stands⟩,
            List.pairwise_cons.mpr ⟨fun line hmem => ?_, hcut.ordered⟩,
            List.forall_mem_cons.mpr ⟨Nat.le_refl _, fun line hmem => ?_⟩,
            List.forall_mem_cons.mpr ⟨?_, hcut.before⟩, ?_, hcut.pending⟩
          · exact Nat.lt_of_lt_of_le hstop (hcut.behind line hmem)
          · have := hcut.behind line hmem
            omega
          · exact Nat.lt_of_lt_of_le hstop hcut.forward
          · exact Nat.le_trans (by omega) hcut.forward
      · refine ih start (pending ++ [c]) ?_
        rw [List.append_assoc]
        exact h

/-- The lines of a document stand in it, one behind the other. -/
theorem documentLines_stands (fragments : List (List Char)) :
    (∀ line ∈ documentLines fragments, line.StandsIn fragments.flatten) ∧
      Ordered (documentLines fragments) := by
  have hcut : CutLines fragments.flatten 0 (completeLines 0 [] fragments.flatten).1
      (completeLines 0 [] fragments.flatten).2.1 (completeLines 0 [] fragments.flatten).2.2 :=
    completeLines_stands _ _ _ ⟨[], [], (List.append_nil _).symm, rfl⟩
  rw [documentLines, fragmentLines_eq]
  by_cases hempty : byteLength fragments.flatten = 0
  · rw [if_pos hempty, byteLength_eq_zero hempty]
    refine ⟨fun line hmem => ?_, List.pairwise_singleton _ _⟩
    rw [List.mem_singleton.mp hmem]
    exact ⟨⟨[], [], rfl, rfl⟩, rfl⟩
  rw [if_neg hempty]
  simp only [fragmentLines]
  by_cases hpending : (completeLines 0 [] fragments.flatten).2.2 = []
  · rw [if_pos hpending, List.append_nil]
    exact ⟨hcut.stands, hcut.ordered⟩
  · have hlast := hcut.pending
    rw [← List.append_nil (completeLines 0 [] fragments.flatten).2.2] at hlast
    rw [if_neg hpending]
    constructor
    · intro line hmem
      rcases List.mem_append.mp hmem with hmem | hmem
      · exact hcut.stands line hmem
      · rw [List.mem_singleton.mp hmem]
        exact (stands_line hlast).1
    · refine List.pairwise_append.mpr ⟨hcut.ordered, List.pairwise_singleton _ _, ?_⟩
      intro line hmem last hlast
      rw [List.mem_singleton.mp hlast]
      exact hcut.before line hmem

end Places

end Telora.Yaml
