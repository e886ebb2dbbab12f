import Mathlib.Data.List.Sort
import Mathlib.Data.String.Basic
import Telora.Library.Regex

/-!
# Compiled regular expressions

A pattern is parsed and compiled by an engine from outside; its groups have names, no two the
same. The captures that every match has are computed from the parsed form.
-/

namespace Telora.StringParse

open Library

/-- The engine that parses patterns and finds matches. -/
structure RegexEngine where
  Assertion : Type
  Compiled : Type
  parse : String → Except String (Regex Assertion)
  compile : String → Except String Compiled
  captureNames : Compiled → List (Option String)
  /-- What the named groups of the preferred match captured, if the text has a match. -/
  captures : Compiled → List Char → Option (String → Option (List Char))
  holds : Assertion → List Char → Nat → Prop

/-- The part of a text that a group spans. -/
def spanned (text : List Char) (span : Nat × Nat) : List Char :=
  (text.drop span.1).take (span.2 - span.1)

/-- A match that the engine finds is one of the parsed form. -/
def RegexEngine.Faithful (engine : RegexEngine) : Prop :=
  ∀ pattern parsed compiled, engine.parse pattern = .ok parsed →
    engine.compile pattern = .ok compiled →
      ∀ input found, engine.captures compiled input = some found →
        ∃ start last, Regex.Matches engine.holds input parsed ⟨start, Regex.noGroups⟩ last ∧
          ∀ name, found name = (last.groups name).map (spanned input)

mutual

def requiredCaptures {Assertion : Type} : Regex Assertion → List String
  | .capture name sub => name.toList ∪ requiredCaptures sub
  | .concat items => requiredInAll items
  | .alternation items => requiredInEach items
  | .repetition min _ _ sub => if min = 0 then [] else requiredCaptures sub
  | .empty | .literal _ | .class _ | .look _ => []
termination_by structural regex => regex

def requiredInAll {Assertion : Type} : List (Regex Assertion) → List String
  | [] => []
  | item :: rest => requiredCaptures item ∪ requiredInAll rest
termination_by structural items => items

def requiredInEach {Assertion : Type} : List (Regex Assertion) → List String
  | [] => []
  | first :: rest => stillRequired (requiredCaptures first) rest
termination_by structural items => items

/-- Of some captures those that all the items require. -/
def stillRequired {Assertion : Type} (required : List String) :
    List (Regex Assertion) → List String
  | [] => required
  | item :: rest => stillRequired (required ∩ requiredCaptures item) rest
termination_by structural items => items

end

section Presence

variable {Assertion : Type} {holds : Assertion → List Char → Nat → Prop} {text : List Char}

mutual

/-- A required capture takes part in every match. -/
theorem isSome_of_required {regex : Regex Assertion} {first last : Regex.Cursor} {name : String}
    (h : Regex.Matches holds text regex first last) (hname : name ∈ requiredCaptures regex) :
    (last.groups name).isSome := by
  cases regex with
  | empty | literal | «class» | look => exact absurd hname List.not_mem_nil
  | capture label sub =>
      obtain ⟨inner, hinner, rfl⟩ := h
      rcases List.mem_union_iff.mp hname with hlabel | hsub
      · obtain rfl : label = some name := Option.mem_toList.mp hlabel
        exact inner.groups.isSome_set name _
      · exact inner.groups.within_set label _ name (isSome_of_required hinner hsub)
  | concat items => exact isSome_of_requiredInAll h hname
  | alternation items => exact isSome_of_requiredInEach h hname
  | repetition min max greedy sub =>
      obtain ⟨count, hmin, -, h⟩ := h
      rw [requiredCaptures] at hname
      split at hname
      · exact absurd hname List.not_mem_nil
      · -- the first of at least one matches, and the others keep what it captured
        rename_i hne
        cases count with
        | zero => exact absurd (Nat.le_zero.mp hmin) hne
        | succ count =>
            obtain ⟨between, hfirst, h⟩ := h
            exact h.keeps (fun cursor => (cursor.groups name).isSome)
              (fun (hstep : Regex.Matches holds text sub _ _) hkept => hstep.keeps hkept)
              (isSome_of_required hfirst hname)
termination_by structural regex

theorem isSome_of_requiredInAll {items : List (Regex Assertion)} {first last : Regex.Cursor}
    {name : String} (h : Regex.MatchesAll holds text items first last)
    (hname : name ∈ requiredInAll items) : (last.groups name).isSome := by
  cases items with
  | nil => exact absurd hname List.not_mem_nil
  | cons item rest =>
      obtain ⟨between, hitem, h⟩ := h
      rcases List.mem_union_iff.mp hname with hname | hname
      · exact Regex.MatchesAll.keeps h (isSome_of_required hitem hname)
      · exact isSome_of_requiredInAll h hname
termination_by structural items

theorem isSome_of_requiredInEach {items : List (Regex Assertion)} {first last : Regex.Cursor}
    {name : String} (h : Regex.MatchesOne holds text items first last)
    (hname : name ∈ requiredInEach items) : (last.groups name).isSome := by
  cases items with
  | nil => exact h.elim
  | cons item rest =>
      rcases h with hitem | h
      · exact isSome_of_required hitem (mem_of_stillRequired hname)
      · exact isSome_of_stillRequired h hname
termination_by structural items

theorem mem_of_stillRequired {items : List (Regex Assertion)} {required : List String}
    {name : String} (hname : name ∈ stillRequired required items) : name ∈ required := by
  cases items with
  | nil => exact hname
  | cons item rest => exact (List.mem_inter_iff.mp (mem_of_stillRequired hname)).1
termination_by structural items

theorem isSome_of_stillRequired {items : List (Regex Assertion)} {required : List String}
    {first last : Regex.Cursor} {name : String}
    (h : Regex.MatchesOne holds text items first last)
    (hname : name ∈ stillRequired required items) : (last.groups name).isSome := by
  cases items with
  | nil => exact h.elim
  | cons item rest =>
      rcases h with hitem | h
      · exact isSome_of_required hitem (List.mem_inter_iff.mp (mem_of_stillRequired hname)).2
      · exact isSome_of_stillRequired h hname
termination_by structural items

end

end Presence

/-- The names of the groups in order, from a group of the given number on. -/
def collectCaptures (index : Nat) : List (Option String) → List String → Except String (List String)
  | [], captures => .ok captures
  | none :: _, _ => .error s!"capture group {index} must have a name"
  | some name :: rest, captures =>
      if name ∈ captures then .error s!"duplicate capture name {name.quote}"
      else collectCaptures (index + 1) rest (captures.orderedInsert (· ≤ ·) name)

/-- A compiled pattern, as `compilePattern` makes it. -/
structure CompiledRegex (engine : RegexEngine) where
  pattern : String
  regex : engine.Compiled
  captures : List String
  required : List String
  compiled : engine.compile pattern = .ok regex
  named : collectCaptures 1 ((engine.captureNames regex).drop 1) [] = .ok captures
  parsed : ∃ hir, engine.parse pattern = .ok hir ∧ required = requiredCaptures hir

/-- Parse and compile a pattern, and read off the captures. -/
def compilePattern (engine : RegexEngine) (pattern : String) :
    Except String (CompiledRegex engine) :=
  match hparsed : engine.parse pattern with
  | .error error => .error s!"invalid regular expression: {error}"
  | .ok hir =>
      match hcompiled : engine.compile pattern with
      | .error error => .error s!"invalid regular expression: {error}"
      | .ok regex =>
          match hnamed : collectCaptures 1 ((engine.captureNames regex).drop 1) [] with
          | .error message => .error message
          | .ok captures => .ok {
              pattern, regex, captures
              required := requiredCaptures hir
              compiled := hcompiled
              named := hnamed
              parsed := ⟨hir, hparsed, rfl⟩ }

/-- Every match of a compiled pattern has its required captures. -/
theorem CompiledRegex.captured {engine : RegexEngine} (hfaithful : engine.Faithful)
    (compiled : CompiledRegex engine) {input : List Char} {found : String → Option (List Char)}
    (h : engine.captures compiled.regex input = some found) {name : String}
    (hname : name ∈ compiled.required) : (found name).isSome := by
  obtain ⟨hir, hparsed, hrequired⟩ := compiled.parsed
  obtain ⟨start, last, hmatches, hfound⟩ :=
    hfaithful _ _ _ hparsed compiled.compiled _ _ h
  rw [hfound, Option.isSome_map]
  exact isSome_of_required hmatches (hrequired ▸ hname)

end Telora.StringParse
