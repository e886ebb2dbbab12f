import Telora.Library.Text
import Telora.Value.Value

/-!
# Lexical paths

The path functions of the standard library work on the text of a path alone. A path leads
from one directory to another, and the abstract meaning of a path is that walk; what the
functions return is compared with it.
-/

namespace Telora.CorePath

open Library

abbrev dot : List Char := ['.']

abbrev dotDot : List Char := ['.', '.']

def isAbsolute (path : List Char) : Bool := path.head? = some '/'

/-- What a component does to the components that are kept. -/
def normalizeStep (absolute : Bool) (components : List (List Char)) (component : List Char) :
    List (List Char) :=
  if component = [] ∨ component = dot then components
  else if component = dotDot then
    if components.getLast?.any (· ≠ dotDot) then components.dropLast
    else if absolute then components
    else components ++ [component]
  else components ++ [component]

/-- The components that are kept of a path. -/
def keptComponents (path : List Char) : List (List Char) :=
  (path.splitOn '/').foldl (normalizeStep (isAbsolute path)) []

def render (absolute : Bool) (components : List (List Char)) : List Char :=
  if absolute then
    if components = [] then ['/'] else '/' :: ['/'].intercalate components
  else if components = [] then dot
  else ['/'].intercalate components

def normalizeLexicalPath (path : List Char) : List Char :=
  render (isAbsolute path) (keptComponents path)

/-- Put a part behind what is joined so far; an absolute part starts anew. -/
def joinStep (joined part : List Char) : List Char :=
  if isAbsolute part then part
  else if joined ≠ [] ∧ joined.getLast? ≠ some '/' then joined ++ '/' :: part
  else joined ++ part

def join (parts : List (List Char)) : List Char :=
  normalizeLexicalPath (parts.foldl joinStep [])

/-- The index of the last slash. -/
def rfindSlash (text : List Char) : Option Nat :=
  (text.reverse.idxOf? '/').map fun index => text.length - 1 - index

def parent (path : List Char) : Option (List Char) :=
  let normalized := normalizeLexicalPath path
  if normalized = dot ∨ normalized = ['/'] then none
  else if isAbsolute normalized then
    (rfindSlash normalized).map fun index => if index = 0 then ['/'] else normalized.take index
  else some ((rfindSlash normalized).elim dot (normalized.take ·))

def fileName (path : List Char) : Option (List Char) :=
  let normalized := normalizeLexicalPath path
  if normalized = dot ∨ normalized = ['/'] ∨ normalized = dotDot then none
  else (normalized.splitOn '/').getLast?

/-- A directory, as the names from it up to the root. -/
abbrev Directory := List (List Char)

/-- The directory that a component leads to. -/
def visit (directory : Directory) (component : List Char) : Directory :=
  if component = [] ∨ component = dot then directory
  else if component = dotDot then directory.tail
  else component :: directory

/-- The directory that a path leads to. -/
def resolve (base : Directory) (path : List Char) : Directory :=
  (path.splitOn '/').foldl visit (if isAbsolute path then [] else base)

/-- A component that names an entry of a directory. -/
structure Named (component : List Char) : Prop where
  ne_nil : component ≠ []
  ne_dot : component ≠ dot
  ne_dotDot : component ≠ dotDot
  slash : '/' ∉ component

/-- Components that go up first, unless they start at the root, and then down. -/
def NormalComponents (absolute : Bool) (components : List (List Char)) : Prop :=
  ∃ up names, components = List.replicate up dotDot ++ names ∧ (∀ name ∈ names, Named name) ∧
    (absolute → up = 0)

section Components

variable {absolute : Bool} {components : List (List Char)}

theorem normalizeStep_of_named {name : List Char} (h : Named name) :
    normalizeStep absolute components name = components ++ [name] := by
  rw [normalizeStep, if_neg (not_or.mpr ⟨h.ne_nil, h.ne_dot⟩), if_neg h.ne_dotDot]

theorem visit_of_named {directory : Directory} {name : List Char} (h : Named name) :
    visit directory name = name :: directory := by
  rw [visit, if_neg (not_or.mpr ⟨h.ne_nil, h.ne_dot⟩), if_neg h.ne_dotDot]

theorem slash_notin_dotDot : '/' ∉ dotDot := by decide

namespace NormalComponents

theorem nil (absolute : Bool) : NormalComponents absolute [] :=
  ⟨0, [], rfl, fun _ h => absurd h List.not_mem_nil, fun _ => rfl⟩

/-- The last component names an entry, or all of them go up. -/
theorem last {front : List (List Char)} {last : List Char}
    (h : NormalComponents absolute (front ++ [last])) :
    NormalComponents absolute front ∧
      (Named last ∨ absolute = false ∧ last = dotDot ∧
        ∃ up, front = List.replicate up dotDot) := by
  obtain ⟨up, names, hsplit, hnames, hroot⟩ := h
  rcases List.eq_nil_or_concat' names with rfl | ⟨names, name, rfl⟩
  · cases up with
    | zero => simp at hsplit
    | succ up =>
        rw [List.append_nil, List.replicate_succ'] at hsplit
        obtain ⟨rfl, hlast⟩ := List.append_inj' hsplit rfl
        have hrelative : absolute = false := by
          cases absolute with
          | false => rfl
          | true => exact absurd (hroot rfl) (Nat.succ_ne_zero up)
        refine ⟨⟨up, [], (List.append_nil _).symm, hnames, ?_⟩,
          .inr ⟨hrelative, (List.cons.inj hlast).1, up, rfl⟩⟩
        rw [hrelative]
        exact fun h => absurd h Bool.false_ne_true
  · rw [← List.append_assoc] at hsplit
    obtain ⟨rfl, hlast⟩ := List.append_inj' hsplit rfl
    have hname := hnames name (List.mem_append_right _ List.mem_cons_self)
    exact ⟨⟨up, names, rfl, fun name hmem => hnames name (List.mem_append_left _ hmem), hroot⟩,
      .inl ((List.cons.inj hlast).1 ▸ hname)⟩

theorem push {name : List Char} (h : NormalComponents absolute components) (hname : Named name) :
    NormalComponents absolute (components ++ [name]) := by
  obtain ⟨up, names, rfl, hnames, hroot⟩ := h
  refine ⟨up, names ++ [name], List.append_assoc _ _ _, ?_, hroot⟩
  intro other hmem
  rcases List.mem_append.mp hmem with hmem | hmem
  · exact hnames other hmem
  · rwa [List.mem_singleton.mp hmem]

/-- No component is empty, and none has a slash. -/
theorem component (h : NormalComponents absolute components) {component : List Char}
    (hmem : component ∈ components) : component ≠ [] ∧ '/' ∉ component := by
  obtain ⟨up, names, rfl, hnames, -⟩ := h
  rcases List.mem_append.mp hmem with hmem | hmem
  · rw [List.eq_of_mem_replicate hmem]
    exact ⟨List.cons_ne_nil _ _, slash_notin_dotDot⟩
  · exact ⟨(hnames component hmem).ne_nil, (hnames component hmem).slash⟩

/-- A component is skipped, takes the last name away, or is put at the end. -/
theorem step (h : NormalComponents absolute components) {component : List Char}
    (hslash : '/' ∉ component) :
    NormalComponents absolute (normalizeStep absolute components component) := by
  by_cases hskip : component = [] ∨ component = dot
  · rwa [normalizeStep, if_pos hskip]
  by_cases hup : component = dotDot
  · subst hup
    rw [normalizeStep, if_neg hskip, if_pos rfl]
    rcases List.eq_nil_or_concat' components with rfl | ⟨front, last, rfl⟩
    · cases absolute with
      | true => exact nil true
      | false => exact ⟨1, [], rfl, fun _ h => absurd h List.not_mem_nil,
          fun h => absurd h Bool.false_ne_true⟩
    · obtain ⟨hfront, hlast⟩ := h.last
      rw [List.getLast?_concat, Option.any_some, List.dropLast_concat]
      rcases hlast with hname | ⟨rfl, rfl, up, rfl⟩
      · rwa [if_pos (decide_eq_true hname.ne_dotDot)]
      · rw [if_neg (by decide), if_neg Bool.false_ne_true]
        refine ⟨up + 2, [], ?_, fun _ h => absurd h List.not_mem_nil,
          fun h => absurd h Bool.false_ne_true⟩
        rw [List.replicate_succ', List.replicate_succ', List.append_nil]
  · have hname : Named component :=
      ⟨fun h => hskip (.inl h), fun h => hskip (.inr h), hup, hslash⟩
    rw [normalizeStep_of_named hname]
    exact h.push hname

theorem foldl {rest : List (List Char)} (h : NormalComponents absolute components)
    (hrest : ∀ component ∈ rest, '/' ∉ component) :
    NormalComponents absolute (rest.foldl (normalizeStep absolute) components) := by
  induction rest generalizing components with
  | nil => exact h
  | cons component rest ih =>
      exact ih (h.step (hrest component List.mem_cons_self))
        fun component hmem => hrest component (List.mem_cons_of_mem _ hmem)

end NormalComponents

theorem normal_keptComponents (path : List Char) :
    NormalComponents (isAbsolute path) (keptComponents path) :=
  (NormalComponents.nil _).foldl fun _ h => not_mem_of_mem_splitOn h

end Components

section Render

variable {absolute : Bool} {components : List (List Char)}

/-- The text before the last component of a rendered path. -/
def stem (absolute : Bool) (front : List (List Char)) : List Char :=
  if front = [] then if absolute then ['/'] else [] else render absolute front ++ ['/']

theorem intercalate_concat {front : List (List Char)} (hne : front ≠ []) (last : List Char) :
    ['/'].intercalate (front ++ [last]) = ['/'].intercalate front ++ '/' :: last := by
  induction front with
  | nil => exact absurd rfl hne
  | cons first rest ih =>
      cases rest with
      | nil =>
          rw [List.singleton_append, List.intercalate_cons_cons, List.intercalate_singleton,
            List.intercalate_singleton, List.append_assoc, List.singleton_append]
      | cons next rest =>
          rw [List.cons_append, List.cons_append, List.intercalate_cons_cons,
            ← List.cons_append, ih (List.cons_ne_nil _ _), List.intercalate_cons_cons]
          simp only [List.append_assoc]

theorem render_concat (absolute : Bool) (front : List (List Char)) (last : List Char) :
    render absolute (front ++ [last]) = stem absolute front ++ last := by
  have hne : front ++ [last] ≠ [] := by simp
  rw [render, stem]
  by_cases hfront : front = []
  · subst hfront
    cases absolute <;> simp
  · rw [if_neg hfront, render]
    cases absolute <;> simp [hne, hfront, intercalate_concat hfront last]

theorem isAbsolute_append {text more : List Char} (hne : text ≠ []) :
    isAbsolute (text ++ more) = isAbsolute text := by
  rw [isAbsolute, isAbsolute, List.head?_append_of_ne_nil _ hne]

theorem isAbsolute_eq_false {text : List Char} (h : '/' ∉ text) : isAbsolute text = false := by
  cases text with
  | nil => rfl
  | cons c text =>
      refine decide_eq_false fun hhead => h ?_
      rw [List.head?_cons, Option.some.injEq] at hhead
      rw [hhead]
      exact List.mem_cons_self

theorem isAbsolute_render (h : NormalComponents absolute components) :
    isAbsolute (render absolute components) = absolute := by
  cases absolute with
  | true => rw [render, if_pos rfl]; split <;> rfl
  | false =>
      rw [render, if_neg Bool.false_ne_true]
      cases components with
      | nil => rfl
      | cons first rest =>
          obtain ⟨hne, hslash⟩ := h.component List.mem_cons_self
          rw [if_neg (List.cons_ne_nil _ _)]
          cases rest with
          | nil => rw [List.intercalate_singleton, isAbsolute_eq_false hslash]
          | cons next rest =>
              rw [List.intercalate_cons_cons, List.append_assoc, isAbsolute_append hne,
                isAbsolute_eq_false hslash]

theorem isAbsolute_normalize (path : List Char) :
    isAbsolute (normalizeLexicalPath path) = isAbsolute path :=
  isAbsolute_render (normal_keptComponents path)

/-- Going through a rendered path is going through its components. -/
theorem foldl_render {S : Type} {act : S → List Char → S}
    (hskip : ∀ state component, component = [] ∨ component = dot → act state component = state)
    (h : NormalComponents absolute components) (start : S) :
    ((render absolute components).splitOn '/').foldl act start = components.foldl act start := by
  have hparts : components ≠ [] →
      (['/'].intercalate components).splitOn '/' = components := fun hne =>
    List.splitOn_intercalate '/' (fun _ hmem => (h.component hmem).2) hne
  by_cases hnil : components = []
  · subst hnil
    cases absolute with
    | true =>
        change act (act start []) [] = start
        rw [hskip _ _ (.inl rfl), hskip _ _ (.inl rfl)]
    | false => exact hskip start dot (.inr rfl)
  · cases absolute with
    | true =>
        rw [render, if_pos rfl, if_neg hnil, List.splitOn_cons_eq_if_modifyHead,
          if_pos (beq_self_eq_true _), hparts hnil, List.foldl_cons, hskip _ _ (.inl rfl)]
    | false => rw [render, if_neg Bool.false_ne_true, if_neg hnil, hparts hnil]

/-- The kept components do to a state what all of them do, when a name is undone by going
up and going up from the root stays there. -/
theorem foldl_normalizeStep {S : Type} {act : S → List Char → S} {start : S}
    (hskip : ∀ state component, component = [] ∨ component = dot → act state component = state)
    (hback : ∀ state name, Named name → act (act state name) dotDot = state)
    (hroot : absolute = true → act start dotDot = start)
    {parts : List (List Char)} (hparts : ∀ part ∈ parts, '/' ∉ part) :
    (parts.foldl (normalizeStep absolute) []).foldl act start = parts.foldl act start := by
  induction parts using List.reverseRecOn with
  | nil => rfl
  | append_singleton parts part ih =>
      have hbefore : ∀ part ∈ parts, '/' ∉ part := fun part hmem =>
        hparts part (List.mem_append_left _ hmem)
      have hnormal := (NormalComponents.nil absolute).foldl hbefore
      have ih := ih hbefore
      rw [List.foldl_concat, List.foldl_concat]
      generalize parts.foldl (normalizeStep absolute) [] = kept at hnormal ih ⊢
      rw [← ih, normalizeStep]
      by_cases hskipped : part = [] ∨ part = dot
      · rw [if_pos hskipped, hskip _ _ hskipped]
      rw [if_neg hskipped]
      by_cases hup : part = dotDot
      · subst hup
        rw [if_pos rfl]
        rcases List.eq_nil_or_concat' kept with rfl | ⟨front, last, rfl⟩
        · cases absolute with
          | true => exact (hroot rfl).symm
          | false => rfl
        · rw [List.getLast?_concat, Option.any_some, List.dropLast_concat, List.foldl_concat]
          rcases hnormal.last.2 with hname | ⟨rfl, rfl, -⟩
          · rw [if_pos (decide_eq_true hname.ne_dotDot), hback _ _ hname]
          · rw [if_neg (by decide), if_neg Bool.false_ne_true, List.foldl_concat,
              List.foldl_concat]
      · rw [if_neg hup, List.foldl_concat]

end Render

section Join

theorem normalizeStep_of_skip (absolute : Bool) (components : List (List Char))
    (component : List Char) (h : component = [] ∨ component = dot) :
    normalizeStep absolute components component = components := by
  rw [normalizeStep, if_pos h]

theorem normalizeStep_back (absolute : Bool) (components : List (List Char)) (name : List Char)
    (h : Named name) :
    normalizeStep absolute (normalizeStep absolute components name) dotDot = components := by
  rw [normalizeStep_of_named h, normalizeStep, if_neg (by decide), if_pos rfl,
    List.getLast?_concat, Option.any_some, if_pos (decide_eq_true h.ne_dotDot),
    List.dropLast_concat]

theorem visit_of_skip (directory : Directory) (component : List Char)
    (h : component = [] ∨ component = dot) : visit directory component = directory := by
  rw [visit, if_pos h]

theorem visit_dotDot (directory : Directory) : visit directory dotDot = directory.tail := by
  rw [visit, if_neg (by decide), if_pos rfl]

theorem visit_back (directory : Directory) (name : List Char) (h : Named name) :
    visit (visit directory name) dotDot = directory := by
  rw [visit_of_named h, visit_dotDot, List.tail_cons]

/-- Normal components are kept as they are. -/
theorem foldl_of_normal {absolute : Bool} {components : List (List Char)}
    (h : NormalComponents absolute components) :
    components.foldl (normalizeStep absolute) [] = components := by
  induction components using List.reverseRecOn with
  | nil => rfl
  | append_singleton front last ih =>
      rw [List.foldl_concat, ih h.last.1]
      rcases h.last.2 with hname | ⟨rfl, rfl, up, rfl⟩
      · exact normalizeStep_of_named hname
      · cases up with
        | zero => rfl
        | succ up =>
            rw [List.replicate_succ', normalizeStep, if_neg (by decide), if_pos rfl,
              List.getLast?_concat, Option.any_some, if_neg (by decide),
              if_neg Bool.false_ne_true]

/-- A path leads where its kept components lead. -/
theorem resolve_eq (base : Directory) (path : List Char) :
    resolve base path =
      (keptComponents path).foldl visit (if isAbsolute path then [] else base) := by
  refine (foldl_normalizeStep visit_of_skip visit_back (fun h => ?_)
    fun _ hmem => not_mem_of_mem_splitOn hmem).symm
  rw [if_pos h]
  exact visit_dotDot []

theorem resolve_render {absolute : Bool} {components : List (List Char)}
    (h : NormalComponents absolute components) (base : Directory) :
    resolve base (render absolute components) =
      components.foldl visit (if absolute then [] else base) := by
  rw [resolve, isAbsolute_render h, foldl_render visit_of_skip h]

theorem resolve_normalize (base : Directory) (path : List Char) :
    resolve base (normalizeLexicalPath path) = resolve base path := by
  rw [normalizeLexicalPath, resolve_render (normal_keptComponents path), resolve_eq]

/-- What a part makes of the components that are kept of the text before it. -/
def place (kept : Bool × List (List Char)) (part : List Char) : Bool × List (List Char) :=
  if isAbsolute part then (true, keptComponents part)
  else (kept.1, (part.splitOn '/').foldl (normalizeStep kept.1) kept.2)

theorem place_nil (kept : Bool × List (List Char)) : place kept [] = kept := by
  change (kept.1, normalizeStep kept.1 kept.2 []) = kept
  rw [normalizeStep_of_skip _ _ _ (.inl rfl)]

theorem place_start (path : List Char) :
    place (false, []) path = (isAbsolute path, keptComponents path) := by
  rw [place]
  cases habsolute : isAbsolute path with
  | true => rw [if_pos rfl]
  | false => rw [if_neg Bool.false_ne_true, keptComponents, habsolute]

theorem place_normalize (kept : Bool × List (List Char)) (path : List Char) :
    place kept (normalizeLexicalPath path) = place kept path := by
  have hnormal := normal_keptComponents path
  have hparts : ∀ part ∈ path.splitOn '/', '/' ∉ part := fun _ hmem => not_mem_of_mem_splitOn hmem
  rw [place, place, isAbsolute_normalize]
  cases habsolute : isAbsolute path with
  | true =>
      rw [if_pos rfl, if_pos rfl, keptComponents, isAbsolute_normalize, normalizeLexicalPath,
        foldl_render (normalizeStep_of_skip _) hnormal, keptComponents, habsolute]
      exact congrArg _ (foldl_normalizeStep (normalizeStep_of_skip _) (normalizeStep_back _)
        (fun _ => rfl) hparts)
  | false =>
      rw [if_neg Bool.false_ne_true, if_neg Bool.false_ne_true, normalizeLexicalPath,
        foldl_render (normalizeStep_of_skip _) hnormal, keptComponents, habsolute]
      exact congrArg _ (foldl_normalizeStep (normalizeStep_of_skip _) (normalizeStep_back _)
        (fun h => absurd h Bool.false_ne_true) hparts)

/-- Joining two texts and placing the result is placing one after the other. -/
theorem place_joinStep (kept : Bool × List (List Char)) (joined part : List Char) :
    place kept (joinStep joined part) = place (place kept joined) part := by
  rw [joinStep]
  cases hpart : isAbsolute part with
  | true => rw [if_pos rfl, place, place, hpart, if_pos rfl, if_pos rfl]
  | false =>
      rw [if_neg Bool.false_ne_true]
      rcases List.eq_nil_or_concat' joined with rfl | ⟨front, last, rfl⟩
      · rw [if_neg (fun h => h.1 rfl), List.nil_append, place_nil]
      · have hne : front ++ [last] ≠ [] := by simp
        rw [List.getLast?_concat]
        generalize hjoined : front ++ [last] = joined at hne ⊢
        -- a slash at the end only adds an empty component
        have hmore : ∀ text, (isAbsolute text = isAbsolute joined) →
            (∀ absolute start, (text.splitOn '/').foldl (normalizeStep absolute) start =
              (part.splitOn '/').foldl (normalizeStep absolute)
                ((joined.splitOn '/').foldl (normalizeStep absolute) start)) →
            place kept text = place (place kept joined) part := by
          intro text habsolute hfoldl
          rw [place, place, hpart, if_neg Bool.false_ne_true, place, habsolute]
          cases hstart : isAbsolute joined with
          | true =>
              rw [if_pos rfl, if_pos rfl, keptComponents, keptComponents, habsolute, hstart, hfoldl]
          | false =>
              rw [if_neg Bool.false_ne_true, if_neg Bool.false_ne_true, hfoldl]
        by_cases hslash : last = '/'
        · rw [if_neg fun h => h.2 (congrArg some hslash)]
          refine hmore _ (isAbsolute_append hne) fun absolute start => ?_
          subst hslash
          rw [← hjoined, List.append_assoc, List.singleton_append, List.splitOn_append_cons_self,
            List.splitOn_append_cons_self, List.foldl_append, List.foldl_append, List.splitOn_nil,
            List.foldl_cons, normalizeStep_of_skip _ _ _ (.inl rfl), List.foldl_nil]
        · rw [if_pos ⟨hne, fun h => hslash (Option.some.inj h)⟩]
          refine hmore _ (isAbsolute_append hne) fun absolute start => ?_
          rw [List.splitOn_append_cons_self, List.foldl_append]

theorem place_joined (kept : Bool × List (List Char)) (parts : List (List Char))
    (joined : List Char) :
    place kept (parts.foldl joinStep joined) = parts.foldl place (place kept joined) := by
  induction parts generalizing joined with
  | nil => rfl
  | cons part parts ih => rw [List.foldl_cons, List.foldl_cons, ih, place_joinStep]

/-- A join is what is kept after placing the parts one after the other. -/
theorem join_eq (parts : List (List Char)) :
    join parts = render (parts.foldl place (false, [])).1 (parts.foldl place (false, [])).2 := by
  have hplaced := place_joined (false, []) parts []
  rw [place_nil, place_start] at hplaced
  rw [join, normalizeLexicalPath, ← hplaced]

theorem place_join (kept : Bool × List (List Char)) (parts : List (List Char)) :
    place kept (join parts) = parts.foldl place kept := by
  rw [join, place_normalize, place_joined, place_nil]

/-- A join among the parts of a join is the parts it joins. -/
theorem join_nested (before parts after : List (List Char)) :
    join (before ++ join parts :: after) = join (before ++ parts ++ after) := by
  rw [join_eq (before ++ join parts :: after), join_eq (before ++ parts ++ after)]
  simp only [List.foldl_append, List.foldl_cons, place_join]

theorem join_absolute {part : List Char} (h : isAbsolute part = true)
    (before after : List (List Char)) : join (before ++ part :: after) = join (part :: after) := by
  rw [join_eq, join_eq]
  simp only [List.foldl_append, List.foldl_cons, place, h, if_true]

theorem join_singleton (path : List Char) : join [path] = normalizeLexicalPath path := by
  rw [join_eq, List.foldl_cons, List.foldl_nil, place_start, normalizeLexicalPath]

theorem normalize_normalize (path : List Char) :
    normalizeLexicalPath (normalizeLexicalPath path) = normalizeLexicalPath path := by
  rw [← join_singleton, join_eq, List.foldl_cons, List.foldl_nil, place_normalize, place_start,
    normalizeLexicalPath]

end Join

section Parent

variable {path : List Char}

theorem rfindSlash_append {last : List Char} (h : '/' ∉ last) (front : List Char) :
    rfindSlash (front ++ '/' :: last) = some front.length := by
  have hindex : (front ++ '/' :: last).reverse.idxOf? '/' = some last.length := by
    rw [List.reverse_append, List.reverse_cons, List.append_assoc, List.singleton_append,
      List.idxOf?, List.findIdx?_append, List.findIdx?_eq_none_iff.mpr, List.findIdx?_cons,
      if_pos (beq_self_eq_true _), List.length_reverse]
    · simp
    · intro c hmem
      rw [List.mem_reverse] at hmem
      exact beq_eq_false_iff_ne.mpr fun hc => h (hc ▸ hmem)
  rw [rfindSlash, hindex, Option.map_some, List.length_append, List.length_cons]
  congr 1
  omega

theorem rfindSlash_eq_none {text : List Char} (h : '/' ∉ text) : rfindSlash text = none := by
  rw [rfindSlash, Option.map_eq_none_iff, List.idxOf?, List.findIdx?_eq_none_iff]
  intro c hmem
  exact beq_eq_false_iff_ne.mpr fun hc => h (List.mem_reverse.mp (hc ▸ hmem))

/-- A text with a slash before its last part is none of the special results. -/
theorem ne_special {front last : List Char} (hne : last ≠ []) :
    front ++ '/' :: last ≠ dot ∧ front ++ '/' :: last ≠ ['/'] ∧ front ++ '/' :: last ≠ dotDot := by
  have hmem : '/' ∈ front ++ '/' :: last := List.mem_append_right _ List.mem_cons_self
  refine ⟨fun heq => ?_, fun heq => ?_, fun heq => ?_⟩
  · rw [heq] at hmem
    exact absurd hmem (by decide)
  · have hlength := congrArg List.length heq
    rw [List.length_append, List.length_cons, List.length_singleton] at hlength
    exact hne (List.eq_nil_of_length_eq_zero (by omega))
  · rw [heq] at hmem
    exact absurd hmem (by decide)

/-- At the root and at the start there is neither a parent nor a file name. -/
theorem parent_of_nil (h : keptComponents path = []) :
    parent path = none ∧ fileName path = none := by
  have hnormalized : normalizeLexicalPath path = dot ∨ normalizeLexicalPath path = ['/'] := by
    rw [normalizeLexicalPath, h]
    cases isAbsolute path with
    | true => exact .inr rfl
    | false => exact .inl rfl
  rw [parent, if_pos hnormalized, fileName]
  exact ⟨rfl, if_pos (hnormalized.imp id Or.inl)⟩

/-- The parent and the file name of a text with a slash. -/
theorem parent_of_slash {front last : List Char} (hne : last ≠ []) (hslash : '/' ∉ last)
    (h : normalizeLexicalPath path = front ++ '/' :: last) :
    parent path = some (if front = [] then ['/'] else front) ∧ fileName path = some last := by
  obtain ⟨hdot, hroot, hup⟩ := @ne_special front last hne
  rw [parent, fileName, h, if_neg (not_or.mpr ⟨hdot, hroot⟩),
    if_neg (not_or.mpr ⟨hdot, not_or.mpr ⟨hroot, hup⟩⟩), rfindSlash_append hslash,
    List.splitOn_append_cons_self, List.splitOn_eq_singleton hslash, List.getLast?_concat]
  refine ⟨?_, rfl⟩
  rw [Option.map_some, Option.elim_some, List.take_left]
  cases front with
  | nil => rfl
  | cons c front => split <;> rfl

/-- The parent is what comes before the last component, the file name is that component. -/
theorem parent_of_concat {front : List (List Char)} {last : List Char}
    (h : keptComponents path = front ++ [last]) :
    parent path = some (render (isAbsolute path) front) ∧
      fileName path =
        if isAbsolute path = false ∧ front = [] ∧ last = dotDot then none else some last := by
  have hnormal := normal_keptComponents path
  rw [h] at hnormal
  obtain ⟨hne, hslash⟩ := hnormal.component (List.mem_append_right _ List.mem_cons_self)
  have htext : normalizeLexicalPath path = stem (isAbsolute path) front ++ last := by
    rw [normalizeLexicalPath, h, render_concat]
  by_cases hfront : front = []
  · subst hfront
    rw [stem, if_pos rfl] at htext
    cases habsolute : isAbsolute path with
    | true =>
        rw [habsolute, if_pos rfl] at htext
        obtain ⟨hparent, hfile⟩ := @parent_of_slash path [] last hne hslash htext
        exact ⟨hparent, by rw [hfile, if_neg fun h => absurd h.1 (by decide)]⟩
    | false =>
        rw [habsolute, if_neg Bool.false_ne_true, List.nil_append] at htext
        have hroot : last ≠ ['/'] := fun hroot => hslash (hroot ▸ List.mem_cons_self)
        have hdot : last ≠ dot := by
          rcases hnormal.last.2 with hname | ⟨-, rfl, -⟩
          · exact hname.ne_dot
          · decide
        rw [parent, fileName, htext, if_neg (not_or.mpr ⟨hdot, hroot⟩),
          isAbsolute_eq_false hslash, if_neg Bool.false_ne_true, rfindSlash_eq_none hslash,
          List.splitOn_eq_singleton hslash]
        refine ⟨rfl, ?_⟩
        by_cases hup : last = dotDot
        · rw [if_pos (.inr (.inr hup)), if_pos ⟨rfl, rfl, hup⟩]
        · rw [if_neg (not_or.mpr ⟨hdot, not_or.mpr ⟨hroot, hup⟩⟩), if_neg fun h => hup h.2.2]
          rfl
  · rw [stem, if_neg hfront, List.append_assoc, List.singleton_append] at htext
    obtain ⟨hparent, hfile⟩ := parent_of_slash hne hslash htext
    refine ⟨hparent.trans (congrArg some (if_neg ?_)),
      hfile.trans (if_neg fun h => hfront h.2.1).symm⟩
    rcases List.eq_nil_or_concat' front with rfl | ⟨front, name, rfl⟩
    · exact absurd rfl hfront
    · rw [render_concat]
      have := (hnormal.last.1.component (List.mem_append_right _ List.mem_cons_self)).1
      simp [this]

end Parent

/-- What is expected of the functions at a path. -/
structure Lawful (path : List Char) : Prop where
  idempotent : normalizeLexicalPath (normalizeLexicalPath path) = normalizeLexicalPath path
  located : ∀ base, resolve base (normalizeLexicalPath path) = resolve base path
  normal : normalizeLexicalPath path = dot ∨ normalizeLexicalPath path = ['/'] ∨
    ∃ absolute components, components ≠ [] ∧ NormalComponents absolute components ∧
      normalizeLexicalPath path =
        (if absolute then ['/'] else []) ++ ['/'].intercalate components
  associative : ∀ second third,
    join [join [path, second], third] = join [path, second, third] ∧
      join [path, join [second, third]] = join [path, second, third]
  discards : isAbsolute path = true →
    ∀ before after, join (before ++ path :: after) = join (path :: after)
  above : ∀ directory, parent path = some directory →
    ∀ base, resolve base directory = visit (resolve base path) dotDot
  orphan : parent path = none →
    (∀ base, resolve base path = base) ∨ ∀ base, resolve base path = []
  named : ∀ name, fileName path = some name → Named name ∧
    ∃ directory, parent path = some directory ∧
      join [directory, name] = normalizeLexicalPath path

/-- A path that leads some steps up from every directory and nowhere down. -/
def Climbs (path : List Char) : Prop :=
  isAbsolute path = false ∧ ∃ steps, 0 < steps ∧ ∀ base, resolve base path = base.drop steps

section Laws

variable {path : List Char}

theorem foldl_visit_replicate (steps : Nat) (base : Directory) :
    (List.replicate steps dotDot).foldl visit base = base.drop steps := by
  induction steps generalizing base with
  | zero => rfl
  | succ steps ih =>
      rw [List.replicate_succ, List.foldl_cons, visit_dotDot, ih, List.drop_tail]

/-- A path climbs when all its kept components go up. -/
theorem climbs_iff : Climbs path ↔
    isAbsolute path = false ∧ ∃ steps, keptComponents path = List.replicate (steps + 1) dotDot := by
  constructor
  · rintro ⟨hrelative, steps, hpos, hresolve⟩
    refine ⟨hrelative, ?_⟩
    have hnormal := normal_keptComponents path
    have hkept : ∀ base, (keptComponents path).foldl visit base = base.drop steps := by
      intro base
      rw [← hresolve base, resolve_eq, hrelative, if_neg Bool.false_ne_true]
    rcases List.eq_nil_or_concat' (keptComponents path) with hnil | ⟨front, last, hconcat⟩
    · have := hkept [[]]
      rw [hnil, List.drop_of_length_le (show [[]].length ≤ steps from hpos)] at this
      cases this
    · rw [hconcat] at hnormal
      rcases hnormal.last.2 with hname | ⟨-, rfl, up, rfl⟩
      · have := hkept []
        rw [hconcat, List.foldl_concat, visit_of_named hname, List.drop_nil] at this
        cases this
      · exact ⟨up, hconcat.trans List.replicate_succ'.symm⟩
  · rintro ⟨hrelative, steps, hkept⟩
    refine ⟨hrelative, steps + 1, Nat.succ_pos steps, fun base => ?_⟩
    rw [resolve_eq, hrelative, if_neg Bool.false_ne_true, hkept, foldl_visit_replicate]

/-- The functions do what is expected of them at exactly the paths that do not climb. -/
theorem lawful_iff (path : List Char) : Lawful path ↔ ¬ Climbs path := by
  rw [climbs_iff]
  have hnormal := normal_keptComponents path
  constructor
  · rintro h ⟨hrelative, steps, hkept⟩
    rw [List.replicate_succ'] at hkept
    have hparent := h.above _ (parent_of_concat hkept).1 (List.replicate (steps + 2) [])
    rw [hkept] at hnormal
    rw [resolve_render hnormal.last.1, resolve_eq, hrelative, if_neg Bool.false_ne_true, hkept,
      List.foldl_concat, visit_dotDot, visit_dotDot, foldl_visit_replicate] at hparent
    have := congrArg List.length hparent
    simp at this
  · intro hclimbs
    have hlast : ∀ front last, keptComponents path = front ++ [last] → Named last := by
      intro front last hconcat
      rw [hconcat] at hnormal
      rcases hnormal.last.2 with hname | ⟨hrelative, rfl, up, rfl⟩
      · exact hname
      · exact absurd ⟨hrelative, up, hconcat.trans List.replicate_succ'.symm⟩ hclimbs
    refine {
      idempotent := normalize_normalize path
      located := fun base => resolve_normalize base path
      normal := ?_
      associative := fun second third =>
        ⟨join_nested [] [path, second] [third], join_nested [path] [second, third] []⟩
      discards := join_absolute
      above := ?_
      orphan := ?_
      named := ?_ }
    · by_cases hnil : keptComponents path = []
      · rw [normalizeLexicalPath, hnil]
        cases isAbsolute path with
        | true => exact .inr (.inl rfl)
        | false => exact .inl rfl
      · refine .inr (.inr ⟨isAbsolute path, keptComponents path, hnil, hnormal, ?_⟩)
        rw [normalizeLexicalPath, render, if_neg hnil, if_neg hnil]
        cases isAbsolute path <;> rfl
    · intro directory hdirectory base
      rcases List.eq_nil_or_concat' (keptComponents path) with hnil | ⟨front, last, hconcat⟩
      · rw [(parent_of_nil hnil).1] at hdirectory
        cases hdirectory
      · rw [(parent_of_concat hconcat).1, Option.some.injEq] at hdirectory
        have hfront := hconcat ▸ hnormal
        rw [← hdirectory, resolve_render hfront.last.1, resolve_eq, hconcat, List.foldl_concat,
          visit_of_named (hlast front last hconcat), visit_dotDot, List.tail_cons]
    · intro horphan
      rcases List.eq_nil_or_concat' (keptComponents path) with hnil | ⟨front, last, hconcat⟩
      · simp only [resolve_eq, hnil, List.foldl_nil]
        cases isAbsolute path with
        | true => exact .inr fun _ => rfl
        | false => exact .inl fun _ => rfl
      · rw [(parent_of_concat hconcat).1] at horphan
        cases horphan
    · intro name hname
      rcases List.eq_nil_or_concat' (keptComponents path) with hnil | ⟨front, last, hconcat⟩
      · rw [(parent_of_nil hnil).2] at hname
        cases hname
      · obtain ⟨hparent, hfile⟩ := parent_of_concat hconcat
        have hlast := hlast front last hconcat
        rw [hfile, if_neg fun h => hlast.ne_dotDot h.2.2, Option.some.injEq] at hname
        subst hname
        refine ⟨hlast, _, hparent, ?_⟩
        rw [join_eq, List.foldl_cons, List.foldl_cons, List.foldl_nil]
        have hfront := (hconcat ▸ hnormal : NormalComponents _ (front ++ [last])).last.1
        have hkept : keptComponents (render (isAbsolute path) front) = front := by
          rw [keptComponents, isAbsolute_render hfront,
            foldl_render (normalizeStep_of_skip _) hfront, foldl_of_normal hfront]
        rw [place_start, isAbsolute_render hfront, hkept, place,
          isAbsolute_eq_false hlast.slash, if_neg Bool.false_ne_true,
          List.splitOn_eq_singleton hlast.slash, List.foldl_cons, List.foldl_nil,
          normalizeStep_of_named hlast, normalizeLexicalPath, hconcat]

/-- A parent directory has a parent directory of its own. -/
theorem not_lawful_dotDot : ¬ Lawful dotDot := by
  intro h
  exact absurd (h.above dot (by decide) [[]]) (by decide)

end Laws

end Telora.CorePath
