import Mathlib.Data.List.DropRight
import Mathlib.Data.List.SplitBy
import Telora.Yaml.Lowering

/-!
# Lines of a block scalar

Lines are joined by one character each, a line end wherever a line is blank. What is left of the
joined text without its last line ends, and how a folded text is made of paragraphs.
-/

namespace Telora.Yaml

open Library

/-- A line of a block scalar, and whether it is more indented. -/
abbrev Piece := List Char × Bool

section Joined

/-- The lines of a text, each joined to the next. -/
def joinWith (joint : Piece → Piece → Char) : List Piece → List Char
  | [] => []
  | [piece] => piece.1
  | piece :: next :: rest => piece.1 ++ joint piece next :: joinWith joint (next :: rest)

/-- Lines are joined by a space or a line end, and blank lines by line ends. -/
structure Joins (joint : Piece → Piece → Char) : Prop where
  cases : ∀ piece next, joint piece next = ' ' ∨ joint piece next = '\n'
  blank : ∀ piece next : Piece, next.1 = [] → joint piece next = '\n'

def foldJoint (piece next : Piece) : Char :=
  if piece.1.isEmpty || next.1.isEmpty || piece.2 || next.2 then '\n' else ' '

theorem joins_literal : Joins fun _ _ => '\n' where
  cases _ _ := .inr rfl
  blank _ _ _ := rfl

theorem joins_fold : Joins foldJoint where
  cases piece next := by
    rw [foldJoint]
    split
    · exact .inr rfl
    · exact .inl rfl
  blank piece next h := by simp [foldJoint, h]

theorem intercalate_eq_joinWith (pieces : List Piece) :
    ['\n'].intercalate (pieces.map (·.1)) = joinWith (fun _ _ => '\n') pieces := by
  induction pieces with
  | nil => rfl
  | cons piece pieces ih =>
      cases pieces with
      | nil => simp [joinWith]
      | cons next rest =>
          rw [joinWith, ← ih]
          simp [List.intercalate_cons_cons]

theorem foldLines_eq_joinWith (pieces : List Piece) :
    foldLines pieces = joinWith foldJoint pieces := by
  induction pieces with
  | nil => rfl
  | cons piece pieces ih =>
      cases pieces with
      | nil => rfl
      | cons next rest => exact congrArg (piece.1 ++ foldJoint piece next :: ·) ih

variable {joint : Piece → Piece → Char}

theorem joinWith_append {front back : List Piece} (hfront : front ≠ []) (hback : back ≠ []) :
    joinWith joint (front ++ back) = joinWith joint front ++
      joint (front.getLast hfront) (back.head hback) :: joinWith joint back := by
  induction front with
  | nil => exact absurd rfl hfront
  | cons piece front ih =>
      cases front with
      | nil =>
          cases back with
          | nil => exact absurd rfl hback
          | cons next rest => rfl
      | cons next rest =>
          have := ih (List.cons_ne_nil next rest)
          rw [List.cons_append, List.cons_append, joinWith, ← List.cons_append, this, joinWith,
            List.getLast_cons (List.cons_ne_nil next rest), List.append_assoc, List.cons_append]

theorem length_joinWith {pieces : List Piece} (h : pieces ≠ []) :
    (joinWith joint pieces).length + 1 =
      (pieces.map fun piece => piece.1.length).sum + pieces.length := by
  induction pieces with
  | nil => exact absurd rfl h
  | cons piece pieces ih =>
      cases pieces with
      | nil => simp [joinWith]
      | cons next rest =>
          have := ih (List.cons_ne_nil next rest)
          rw [joinWith, List.length_append, List.length_cons, List.map_cons, List.sum_cons,
            List.length_cons]
          omega

/-- Blank lines at the end are line ends. -/
theorem joinWith_blank (hjoins : Joins joint) {front blanks : List Piece} (hfront : front ≠ [])
    (hblank : ∀ piece ∈ blanks, piece.1 = []) :
    joinWith joint (front ++ blanks) =
      joinWith joint front ++ List.replicate blanks.length '\n' := by
  induction blanks using List.reverseRecOn with
  | nil => rw [List.append_nil, List.length_nil, List.replicate_zero, List.append_nil]
  | append_singleton blanks blank ih =>
      have hinit := ih fun piece h => hblank piece (List.mem_append_left _ h)
      have hlast : blank.1 = [] := hblank blank (List.mem_append_right _ List.mem_cons_self)
      have hne : front ++ blanks ≠ [] := fun h => hfront (List.append_eq_nil_iff.mp h).1
      rw [← List.append_assoc, joinWith_append hne (List.cons_ne_nil blank []), hinit,
        List.head_cons, hjoins.blank _ _ hlast, joinWith, hlast, List.length_append,
        List.length_singleton, List.replicate_succ', List.append_assoc]

/-- The last line stands at the end. -/
theorem exists_joinWith_concat (joint : Piece → Piece → Char) (front : List Piece) (last : Piece) :
    ∃ before, joinWith joint (front ++ [last]) = before ++ last.1 := by
  by_cases hfront : front = []
  · rw [hfront]
    exact ⟨[], rfl⟩
  · refine ⟨joinWith joint front ++ [joint (front.getLast hfront) last], ?_⟩
    rw [joinWith_append hfront (List.cons_ne_nil last []), List.append_assoc]
    rfl

theorem mem_joinWith {pieces : List Piece} {piece : Piece} (h : piece ∈ pieces) {c : Char}
    (hc : c ∈ piece.1) : c ∈ joinWith joint pieces := by
  obtain ⟨front, back, rfl⟩ := List.append_of_mem h
  obtain ⟨before, hbefore⟩ := exists_joinWith_concat joint front piece
  have hin : c ∈ joinWith joint (front ++ [piece]) := by
    rw [hbefore]
    exact List.mem_append_right _ hc
  by_cases hback : back = []
  · rwa [hback]
  · rw [List.append_cons, joinWith_append (by simp) hback]
    exact List.mem_append_left _ hin

/-- Where a list has values of a kind there is a last one. -/
theorem exists_last {α : Type} (p : α → Prop) (values : List α) :
    (∀ value ∈ values, ¬p value) ∨
      ∃ front last back, values = front ++ last :: back ∧ p last ∧ ∀ value ∈ back, ¬p value := by
  induction values with
  | nil => exact .inl fun _ h => (List.not_mem_nil h).elim
  | cons value values ih =>
      rcases ih with hnone | ⟨front, last, back, rfl, hlast, hback⟩
      · by_cases hvalue : p value
        · exact .inr ⟨[], value, values, rfl, hvalue, hnone⟩
        · exact .inl (List.forall_mem_cons.mpr ⟨hvalue, hnone⟩)
      · exact .inr ⟨value :: front, last, back, rfl, hlast, hback⟩

/-- The characters of the lines besides spaces and line ends. -/
def solid (text : List Char) : List Char := text.filter fun c => c ≠ ' ' ∧ c ≠ '\n'

theorem solid_append (text rest : List Char) : solid (text ++ rest) = solid text ++ solid rest :=
  List.filter_append _ _

theorem solid_joinWith (hjoins : Joins joint) (pieces : List Piece) :
    solid (joinWith joint pieces) = pieces.flatMap fun piece => solid piece.1 := by
  induction pieces with
  | nil => rfl
  | cons piece pieces ih =>
      cases pieces with
      | nil => simp [joinWith]
      | cons next rest =>
          have hjoint : solid (joint piece next :: joinWith joint (next :: rest)) =
              solid (joinWith joint (next :: rest)) := by
            rcases hjoins.cases piece next with h | h <;> rw [h] <;> rfl
          rw [joinWith, solid_append, hjoint, ih]
          rfl

end Joined

section Stripped

/-- A text without its last line ends. -/
def stripped (text : List Char) : List Char := text.rdropWhile (· = '\n')

theorem exists_stripped (text : List Char) :
    ∃ count, text = stripped text ++ List.replicate count '\n' := by
  induction text using List.reverseRecOn with
  | nil => exact ⟨0, rfl⟩
  | append_singleton text c ih =>
      by_cases hc : c = '\n'
      · obtain ⟨count, hcount⟩ := ih
        refine ⟨count + 1, ?_⟩
        rw [stripped, List.rdropWhile_concat_pos _ _ _ (by simp [hc]), List.replicate_succ',
          ← List.append_assoc, hc]
        exact congrArg (· ++ ['\n']) hcount
      · refine ⟨0, ?_⟩
        rw [stripped, List.rdropWhile_concat_neg _ _ _ (by simp [hc]), List.replicate_zero,
          List.append_nil]

theorem stripped_append (text : List Char) (count : Nat) :
    stripped (text ++ List.replicate count '\n') = stripped text := by
  induction count with
  | zero => rw [List.replicate_zero, List.append_nil]
  | succ count ih =>
      rw [List.replicate_succ', ← List.append_assoc, stripped,
        List.rdropWhile_concat_pos _ _ _ (by simp)]
      exact ih

theorem stripped_stripped (text : List Char) : stripped (stripped text) = stripped text :=
  List.rdropWhile_idempotent _ _

theorem solid_stripped (text : List Char) : solid (stripped text) = solid text := by
  obtain ⟨count, hcount⟩ := exists_stripped text
  have hnone : solid (List.replicate count '\n') = [] := by
    rw [solid, List.filter_eq_nil_iff]
    intro c hc
    rw [(List.mem_replicate.mp hc).2]
    decide
  conv_rhs => rw [hcount, solid_append, hnone, List.append_nil]

/-- A text that ends with some other character is left as it is. -/
theorem stripped_of_end {text : List Char} (front : List Char) {c : Char} (h : c ≠ '\n')
    (htext : text = front ++ [c]) : stripped text = text := by
  rw [htext]
  exact List.rdropWhile_concat_neg _ _ _ (by simp [h])

theorem length_stripped_le (text : List Char) : (stripped text).length ≤ text.length :=
  (List.rdropWhile_prefix _ _).length_le

end Stripped

section Paragraphs

/-- A line of text that is not more indented. -/
def isText (piece : Piece) : Bool := !piece.1.isEmpty && !piece.2

/-- Text lines in a row are one paragraph; any other line stands alone. -/
def paragraphs (pieces : List Piece) : List (List Char) :=
  (pieces.splitBy fun piece next => isText piece && isText next).map fun group =>
    [' '].intercalate (group.map (·.1))

theorem foldJoint_eq (piece next : Piece) :
    foldJoint piece next = if isText piece && isText next then ' ' else '\n' := by
  obtain ⟨line, more⟩ := piece
  obtain ⟨nextLine, nextMore⟩ := next
  cases more <;> cases nextMore <;> cases line <;> cases nextLine <;> rfl

theorem joinWith_group {group : List Piece}
    (h : group.IsChain fun piece next => (isText piece && isText next) = true) :
    joinWith foldJoint group = [' '].intercalate (group.map (·.1)) := by
  induction group with
  | nil => rfl
  | cons piece group ih =>
      cases group with
      | nil => simp [joinWith]
      | cons next rest =>
          obtain ⟨hfirst, hrest⟩ := List.isChain_cons_cons.mp h
          rw [joinWith, ih hrest, foldJoint_eq, if_pos hfirst]
          simp [List.intercalate_cons_cons]

/-- A folded text is its paragraphs, one to a line. -/
theorem joinWith_paragraphs (pieces : List Piece) :
    joinWith foldJoint pieces = ['\n'].intercalate (paragraphs pieces) := by
  rw [paragraphs]
  generalize hgroups : (pieces.splitBy fun piece next => isText piece && isText next) = groups
  obtain ⟨hflatten, hnil, hchains, hends⟩ := List.splitBy_eq_iff.mp hgroups
  rw [hflatten]
  clear hgroups hflatten
  induction groups with
  | nil => rfl
  | cons group groups ih =>
      have hgroup : group ≠ [] := fun h => hnil (h ▸ List.mem_cons_self)
      have hrest := ih (fun h => hnil (List.mem_cons_of_mem _ h))
        (fun m hm => hchains m (List.mem_cons_of_mem _ hm)) hends.tail
      have hfirst := joinWith_group (hchains group List.mem_cons_self)
      cases groups with
      | nil =>
          rw [List.flatten_cons, List.flatten_nil, List.append_nil, hfirst]
          simp
      | cons next groups =>
          obtain ⟨hlast, hhead, hboundary⟩ := (List.isChain_cons_cons.mp hends).1
          have hne : (next :: groups).flatten ≠ [] := fun h =>
            hhead (List.append_eq_nil_iff.mp h).1
          have hnext : (next :: groups).flatten.head hne = next.head hhead :=
            List.head_append_of_ne_nil hhead
          rw [List.flatten_cons, joinWith_append hgroup hne, hrest, hfirst, foldJoint_eq, hnext,
            hboundary]
          simp [List.intercalate_cons_cons]

end Paragraphs

end Telora.Yaml
