import Mathlib.Data.List.Basic
import Mathlib.Tactic.TypeStar

/-!
# Regular expressions with groups

The parsed form of a regular expression, and what it matches: from a position of the text to
another one, with what its groups captured on the way. A match of an engine is one of these;
which one the engine prefers is left open, as is the meaning of assertions.
-/

namespace Telora.Library

inductive Regex (Assertion : Type) where
  | empty
  | literal (text : List Char)
  | class (ranges : List (Char × Char))
  | look (assertion : Assertion)
  | repetition (min : Nat) (max : Option Nat) (greedy : Bool) (sub : Regex Assertion)
  | capture (name : Option String) (sub : Regex Assertion)
  | concat (items : List (Regex Assertion))
  | alternation (items : List (Regex Assertion))

namespace Regex

variable {Assertion : Type}

/-- Where each named group matched last, by the positions of its first character and of the one
after it. -/
abbrev Groups := String → Option (Nat × Nat)

def noGroups : Groups := fun _ => none

def Groups.set (groups : Groups) (name : Option String) (span : Nat × Nat) : Groups :=
  match name with
  | none => groups
  | some name => fun other => if other = name then some span else groups other

/-- The groups that matched still have. -/
def Groups.Within (groups groups' : Groups) : Prop :=
  ∀ name, (groups name).isSome → (groups' name).isSome

/-- A position of the text, with the groups on the way to it. -/
structure Cursor where
  position : Nat
  groups : Groups

/-- One run after another, so many times. -/
def Repeated {State : Type*} (run : State → State → Prop) : Nat → State → State → Prop
  | 0, first, last => first = last
  | count + 1, first, last => ∃ between, run first between ∧ Repeated run count between last

section Matches

variable (holds : Assertion → List Char → Nat → Prop) (text : List Char)

mutual

/-- The expression matches from one cursor to the other. -/
def Matches : Regex Assertion → Cursor → Cursor → Prop
  | .empty, first, last => last = first
  | .literal chars, first, last =>
      chars <+: text.drop first.position ∧ last = ⟨first.position + chars.length, first.groups⟩
  | .class ranges, first, last =>
      (∃ found ∈ text[first.position]?, ∃ range ∈ ranges, range.1 ≤ found ∧ found ≤ range.2) ∧
        last = ⟨first.position + 1, first.groups⟩
  | .look assertion, first, last => holds assertion text first.position ∧ last = first
  | .repetition min max _ sub, first, last =>
      ∃ count, min ≤ count ∧ (∀ most ∈ max, count ≤ most) ∧
        Repeated (fun first last => Matches sub first last) count first last
  | .capture name sub, first, last =>
      ∃ inner, Matches sub first inner ∧
        last = ⟨inner.position, inner.groups.set name (first.position, inner.position)⟩
  | .concat items, first, last => MatchesAll items first last
  | .alternation items, first, last => MatchesOne items first last
termination_by structural regex => regex

def MatchesAll : List (Regex Assertion) → Cursor → Cursor → Prop
  | [], first, last => last = first
  | item :: rest, first, last =>
      ∃ between, Matches item first between ∧ MatchesAll rest between last
termination_by structural items => items

def MatchesOne : List (Regex Assertion) → Cursor → Cursor → Prop
  | [], _, _ => False
  | item :: rest, first, last => Matches item first last ∨ MatchesOne rest first last
termination_by structural items => items

end

end Matches

theorem Groups.within_set (groups : Groups) (name : Option String) (span : Nat × Nat) :
    groups.Within (groups.set name span) := by
  intro other hother
  cases name with
  | none => exact hother
  | some name =>
      change (if other = name then some span else groups other).isSome
      split
      · rfl
      · exact hother

theorem Groups.isSome_set (groups : Groups) (name : String) (span : Nat × Nat) :
    (groups.set (some name) span name).isSome := by
  simp [set]

theorem Repeated.keeps {State : Type*} {run : State → State → Prop} (kept : State → Prop)
    (hrun : ∀ {first last}, run first last → kept first → kept last) {count : Nat}
    {first last : State} (h : Repeated run count first last) (hfirst : kept first) :
    kept last := by
  induction count generalizing first with
  | zero =>
      cases h
      exact hfirst
  | succ count ih =>
      obtain ⟨between, hbetween, h⟩ := h
      exact ih h (hrun hbetween hfirst)

section Kept

variable {holds : Assertion → List Char → Nat → Prop} {text : List Char} {name : String}

mutual

/-- A group that matched before an expression still has a match after it. -/
theorem Matches.keeps {regex : Regex Assertion} {first last : Cursor}
    (h : Matches holds text regex first last) (hname : (first.groups name).isSome) :
    (last.groups name).isSome := by
  cases regex with
  | empty =>
      obtain rfl := h
      exact hname
  | literal chars =>
      obtain ⟨-, rfl⟩ := h
      exact hname
  | «class» ranges =>
      obtain ⟨-, rfl⟩ := h
      exact hname
  | look assertion =>
      obtain ⟨-, rfl⟩ := h
      exact hname
  | repetition min max greedy sub =>
      obtain ⟨count, -, -, h⟩ := h
      exact h.keeps (fun cursor => (cursor.groups name).isSome)
        (fun (hstep : Matches holds text sub _ _) hkept => hstep.keeps hkept) hname
  | capture label sub =>
      obtain ⟨inner, hinner, rfl⟩ := h
      exact inner.groups.within_set label _ name (Matches.keeps hinner hname)
  | concat items => exact MatchesAll.keeps h hname
  | alternation items => exact MatchesOne.keeps h hname
termination_by structural regex

theorem MatchesAll.keeps {items : List (Regex Assertion)} {first last : Cursor}
    (h : MatchesAll holds text items first last) (hname : (first.groups name).isSome) :
    (last.groups name).isSome := by
  cases items with
  | nil =>
      obtain rfl := h
      exact hname
  | cons item rest =>
      obtain ⟨between, hitem, h⟩ := h
      exact MatchesAll.keeps h (Matches.keeps hitem hname)
termination_by structural items

theorem MatchesOne.keeps {items : List (Regex Assertion)} {first last : Cursor}
    (h : MatchesOne holds text items first last) (hname : (first.groups name).isSome) :
    (last.groups name).isSome := by
  cases items with
  | nil => exact h.elim
  | cons item rest =>
      rcases h with hitem | h
      · exact Matches.keeps hitem hname
      · exact MatchesOne.keeps h hname
termination_by structural items

end

end Kept

end Regex

end Telora.Library
