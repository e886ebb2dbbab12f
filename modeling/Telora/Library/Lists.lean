import Mathlib.Data.List.Forall2
import Mathlib.Data.List.Infix
import Mathlib.Data.List.Nodup

/-!
# Lists

Facts about pairwise related lists, growing lists and association lists.
-/

namespace Telora.Library

section Pairwise

variable {α β γ δ : Type}

/-- Pairwise relations compose along the middle list. -/
theorem forall₂_comp {p : α → β → Prop} {q : β → γ → Prop} {s : α → γ → Prop}
    (h : ∀ {x y z}, p x y → q y z → s x z) {xs : List α} {ys : List β} {zs : List γ}
    (hxy : List.Forall₂ p xs ys) (hyz : List.Forall₂ q ys zs) : List.Forall₂ s xs zs := by
  induction hxy generalizing zs with
  | nil => cases hyz; exact .nil
  | cons hp _ ih =>
      cases hyz with
      | cons hq htail => exact .cons (h hp hq) (ih htail)

/-- Every element on the right of a pairwise relation has its partner. -/
theorem forall₂_mem_right {p : α → β → Prop} {xs : List α} {ys : List β}
    (h : List.Forall₂ p xs ys) {y : β} (hy : y ∈ ys) : ∃ x ∈ xs, p x y := by
  induction h with
  | nil => cases hy
  | cons hp _ ih =>
      rcases List.mem_cons.mp hy with rfl | htail
      · exact ⟨_, List.mem_cons_self, hp⟩
      · obtain ⟨x, hx, hxy⟩ := ih htail
        exact ⟨x, List.mem_cons_of_mem _ hx, hxy⟩

/-- Every element on the left of a pairwise relation has its partner. -/
theorem forall₂_mem_left {p : α → β → Prop} {xs : List α} {ys : List β}
    (h : List.Forall₂ p xs ys) {x : α} (hx : x ∈ xs) : ∃ y ∈ ys, p x y :=
  forall₂_mem_right h.flip hx

theorem forall₂_getElem? {p : α → β → Prop} {xs : List α} {ys : List β}
    (h : List.Forall₂ p xs ys) (i : Nat) : Option.Rel p xs[i]? ys[i]? := by
  induction h generalizing i with
  | nil => exact .none
  | cons hp _ ih =>
      cases i with
      | zero => exact .some hp
      | succ i => exact ih i

theorem forall₂_replicate {p : α → β → Prop} {x : α} {y : β} (h : p x y) (n : Nat) :
    List.Forall₂ p (List.replicate n x) (List.replicate n y) := by
  induction n with
  | zero => exact .nil
  | succ n ih => exact .cons h ih

theorem forall₂_zip {p : α → β → Prop} {q : γ → δ → Prop} {xs : List α} {ys : List β}
    {zs : List γ} {ws : List δ} (h : List.Forall₂ p xs ys) (h' : List.Forall₂ q zs ws) :
    List.Forall₂ (fun x y => p x.1 y.1 ∧ q x.2 y.2) (xs.zip zs) (ys.zip ws) := by
  induction h generalizing zs ws with
  | nil => exact .nil
  | cons hp _ ih =>
      cases h' with
      | nil => exact .nil
      | cons hq htail => exact .cons ⟨hp, hq⟩ (ih htail)

theorem forall₂_flatMap {p : α → β → Prop} {q : γ → δ → Prop}
    {f : α → List γ} {g : β → List δ} (hfg : ∀ {x y}, p x y → List.Forall₂ q (f x) (g y))
    {xs : List α} {ys : List β} (h : List.Forall₂ p xs ys) :
    List.Forall₂ q (xs.flatMap f) (ys.flatMap g) := by
  induction h with
  | nil => exact .nil
  | cons hp _ ih => exact List.rel_append (hfg hp) ih

theorem mapM_eq_some_map {f : α → Option β} {g : α → β} {xs : List α}
    (h : ∀ a ∈ xs, f a = some (g a)) : xs.mapM f = some (xs.map g) := by
  induction xs with
  | nil => rfl
  | cons a rest ih =>
      rw [List.mapM_cons, h a List.mem_cons_self, ih fun b hb => h b (List.mem_cons_of_mem _ hb)]
      rfl

theorem exists_mapM_eq_some {f : α → Option β} {xs : List α} (h : ∀ a ∈ xs, ∃ b, f a = some b) :
    ∃ ys, xs.mapM f = some ys ∧ ys.length = xs.length ∧
      ∀ (i : Nat) (a : α), xs[i]? = some a → ∃ b, ys[i]? = some b ∧ f a = some b := by
  induction xs with
  | nil => exact ⟨[], rfl, rfl, fun i a hi => by cases hi⟩
  | cons a rest ih =>
      obtain ⟨b, hb⟩ := h a List.mem_cons_self
      obtain ⟨ys, hys, hlength, hall⟩ := ih fun c hc => h c (List.mem_cons_of_mem _ hc)
      refine ⟨b :: ys, ?_, congrArg Nat.succ hlength, fun i c hi => ?_⟩
      · rw [List.mapM_cons, hb, hys]
        rfl
      · cases i with
        | zero =>
            obtain rfl : a = c := Option.some.inj hi
            exact ⟨b, rfl, hb⟩
        | succ i => exact hall i c hi

end Pairwise

section Growing

variable {α β : Type}

/-- An index into a list reads the same entry of a list that extends it. -/
theorem getElem?_of_isPrefix {old new : List α} (h : old <+: new) {index : Nat} {a : α}
    (hget : old[index]? = some a) : new[index]? = some a := by
  obtain ⟨rest, rfl⟩ := h
  rw [List.getElem?_append_left (List.getElem?_eq_some_iff.mp hget).1, hget]

theorem isPrefix_of_getElem? {old new : List α}
    (h : ∀ i < old.length, new[i]? = old[i]?) : old <+: new := by
  refine List.prefix_iff_eq_take.mpr (List.ext_getElem? fun i => ?_)
  by_cases hi : i < old.length
  · rw [List.getElem?_take_of_lt hi, h i hi]
  · have hlength : old.length ≤ i := Nat.le_of_not_lt hi
    rw [List.getElem?_eq_none hlength, List.getElem?_eq_none]
    exact Nat.le_trans (List.length_take_le _ _) hlength

/-- A list of pairs is known by its two sides. -/
theorem ext_of_map {left right : List (α × β)} (hkeys : left.map (·.1) = right.map (·.1))
    (hvalues : left.map (·.2) = right.map (·.2)) : left = right := by
  induction left generalizing right with
  | nil => exact (List.map_eq_nil_iff.mp hkeys.symm).symm
  | cons entry rest ih =>
      cases right with
      | nil => cases hkeys
      | cons entry' rest' =>
          obtain ⟨hkey, hkeys⟩ := List.cons.inj hkeys
          obtain ⟨hvalue, hvalues⟩ := List.cons.inj hvalues
          rw [ih hkeys hvalues, Prod.ext hkey hvalue]

theorem one_entry {entries : List (α × β)} {a : α} (h : entries.map (·.1) = [a]) :
    ∃ x, entries = [(a, x)] := by
  match entries, h with
  | [(_, x)], h =>
      obtain rfl := List.singleton_inj.mp h
      exact ⟨x, rfl⟩

theorem two_entries {entries : List (α × β)} {a b : α} (h : entries.map (·.1) = [a, b]) :
    ∃ x y, entries = [(a, x), (b, y)] := by
  obtain ⟨⟨a, x⟩, rest, rfl, rfl, hrest⟩ := List.map_eq_cons_iff.mp h
  obtain ⟨y, rfl⟩ := one_entry hrest
  exact ⟨x, y, rfl⟩

theorem three_entries {entries : List (α × β)} {a b c : α}
    (h : entries.map (·.1) = [a, b, c]) : ∃ x y z, entries = [(a, x), (b, y), (c, z)] := by
  obtain ⟨⟨a, x⟩, rest, rfl, rfl, hrest⟩ := List.map_eq_cons_iff.mp h
  obtain ⟨y, z, rfl⟩ := two_entries hrest
  exact ⟨x, y, z, rfl⟩

variable [DecidableEq α]

theorem lookup_cons_self {a : α} {b : β} {entries : List (α × β)} :
    ((a, b) :: entries).lookup a = some b := by
  rw [List.lookup_cons, beq_self_eq_true]

theorem lookup_cons_ne {a a' : α} {b : β} {entries : List (α × β)} (h : a' ≠ a) :
    ((a, b) :: entries).lookup a' = entries.lookup a' := by
  rw [List.lookup_cons, beq_eq_false_iff_ne.mpr h]

theorem lookup_cons_ite (a a' : α) (b : β) (entries : List (α × β)) :
    ((a, b) :: entries).lookup a' = if a' = a then some b else entries.lookup a' := by
  by_cases h : a' = a
  · rw [if_pos h, h, lookup_cons_self]
  · rw [if_neg h, lookup_cons_ne h]

theorem mem_of_lookup {a : α} {b : β} {entries : List (α × β)}
    (h : entries.lookup a = some b) : (a, b) ∈ entries := by
  induction entries with
  | nil => cases h
  | cons entry rest ih =>
      obtain ⟨key, value⟩ := entry
      by_cases hkey : a = key
      · subst hkey
        rw [lookup_cons_self] at h
        rw [Option.some.inj h]
        exact List.mem_cons_self
      · rw [lookup_cons_ne hkey] at h
        exact List.mem_cons_of_mem _ (ih h)

theorem not_mem_keys_of_lookup {a : α} {entries : List (α × β)}
    (h : entries.lookup a = none) : a ∉ entries.map Prod.fst := by
  induction entries with
  | nil => simp
  | cons entry rest ih =>
      obtain ⟨key, value⟩ := entry
      by_cases hkey : a = key
      · subst hkey
        rw [lookup_cons_self] at h
        cases h
      · rw [lookup_cons_ne hkey] at h
        simp only [List.map_cons, List.mem_cons, not_or]
        exact ⟨hkey, ih h⟩

/-- Among distinct keys an entry is found by its key. -/
theorem lookup_of_mem {a : α} {b : β} {entries : List (α × β)}
    (hnodup : (entries.map Prod.fst).Nodup) (h : (a, b) ∈ entries) :
    entries.lookup a = some b := by
  induction entries with
  | nil => cases h
  | cons entry rest ih =>
      rw [List.map_cons, List.nodup_cons] at hnodup
      obtain rfl | hrest := List.mem_cons.mp h
      · exact lookup_cons_self
      · have hne : a ≠ entry.1 := fun heq => hnodup.1 (heq ▸ List.mem_map_of_mem hrest)
        rw [← ih hnodup.2 hrest]
        exact lookup_cons_ne hne

/-- Taking out one key hides no other. -/
theorem lookup_filter_ne {key other : α} (entries : List (α × β)) :
    (entries.filter fun entry => entry.1 ≠ key).lookup other =
      if other = key then none else entries.lookup other := by
  induction entries with
  | nil => simp
  | cons entry rest ih =>
      obtain ⟨name, value⟩ := entry
      rw [List.filter_cons]
      by_cases hname : name = key
      · subst hname
        rw [if_neg (by simp), ih]
        by_cases hother : other = name
        · rw [if_pos hother, if_pos hother]
        · rw [if_neg hother, if_neg hother, lookup_cons_ne hother]
      · rw [if_pos (by simpa using hname)]
        by_cases hother : other = name
        · subst hother
          rw [lookup_cons_self, lookup_cons_self, if_neg hname]
        · rw [lookup_cons_ne hother, lookup_cons_ne hother, ih]

/-- Overwrite the entry of a key in a table without double keys. -/
def replaceEntry (key : α) (value : β) (entries : List (α × β)) : List (α × β) :=
  (key, value) :: entries.filter fun entry => entry.1 ≠ key

theorem lookup_replaceEntry {key other : α} {value : β} (entries : List (α × β)) :
    (replaceEntry key value entries).lookup other =
      if other = key then some value else entries.lookup other := by
  rw [replaceEntry]
  by_cases hother : other = key
  · subst hother
    rw [lookup_cons_self, if_pos rfl]
  · rw [lookup_cons_ne hother, lookup_filter_ne, if_neg hother, if_neg hother]

theorem nodup_replaceEntry {key : α} {value : β} {entries : List (α × β)}
    (h : (entries.map Prod.fst).Nodup) :
    ((replaceEntry key value entries).map Prod.fst).Nodup := by
  refine List.nodup_cons.mpr ⟨fun hmem => ?_, h.sublist (List.filter_sublist.map _)⟩
  obtain ⟨entry, hentry, hkey⟩ := List.mem_map.mp hmem
  exact of_decide_eq_true (List.mem_filter.mp hentry).2 hkey

/-- A table of entries; the last one of a key counts. -/
def collectEntries (entries : List (α × β)) : List (α × β) :=
  entries.foldl (fun table entry => replaceEntry entry.1 entry.2 table) []

theorem lookup_collectEntries (a : α) (entries : List (α × β)) :
    (collectEntries entries).lookup a = entries.reverse.lookup a := by
  induction entries using List.reverseRecOn with
  | nil => rfl
  | append_singleton entries entry ih =>
      obtain ⟨key, value⟩ := entry
      rw [collectEntries, List.foldl_append, List.reverse_append]
      change (replaceEntry key value (collectEntries entries)).lookup a =
        ((key, value) :: entries.reverse).lookup a
      rw [lookup_replaceEntry]
      by_cases hkey : a = key
      · subst hkey
        rw [if_pos rfl, lookup_cons_self]
      · rw [if_neg hkey, lookup_cons_ne hkey, ih]

theorem lookup_map_find {γ : Type} (key : γ → α) (value : γ → β) (a : α) (xs : List γ) :
    (xs.map fun x => (key x, value x)).lookup a = (xs.find? (key · == a)).map value := by
  induction xs with
  | nil => rfl
  | cons x rest ih =>
      rw [List.map_cons, List.find?_cons]
      by_cases hkey : a = key x
      · subst hkey
        rw [lookup_cons_self, beq_self_eq_true]
        rfl
      · rw [lookup_cons_ne hkey, ih, beq_false_of_ne (Ne.symm hkey)]

theorem lookup_map_snd {γ : Type} (f : β → γ) (a : α) (entries : List (α × β)) :
    (entries.map fun entry => (entry.1, f entry.2)).lookup a = (entries.lookup a).map f := by
  induction entries with
  | nil => rfl
  | cons entry rest ih =>
      obtain ⟨key, value⟩ := entry
      by_cases hkey : a = key
      · subst hkey
        rw [List.map_cons, lookup_cons_self, lookup_cons_self, Option.map_some]
      · rw [List.map_cons, lookup_cons_ne hkey, lookup_cons_ne hkey, ih]

end Growing

section Parts
variable {α : Type}

theorem mem_intercalate_iff {a separator : α} {parts : List (List α)} (hne : a ≠ separator) :
    a ∈ [separator].intercalate parts ↔ ∃ part ∈ parts, a ∈ part := by
  induction parts with
  | nil => simp
  | cons part parts ih =>
      cases parts with
      | nil => simp
      | cons next parts =>
          rw [List.intercalate_cons_cons, List.mem_append, List.mem_append, List.mem_singleton, ih,
            List.exists_mem_cons_iff]
          simp [hne]

end Parts

theorem drop_length_takeWhile {α : Type} (p : α → Bool) (values : List α) :
    values.drop (values.takeWhile p).length = values.dropWhile p := by
  induction values with
  | nil => rfl
  | cons value values ih =>
      by_cases h : p value = true
      · rw [List.takeWhile_cons_of_pos h, List.dropWhile_cons_of_pos h]
        exact ih
      · rw [List.takeWhile_cons_of_neg h, List.dropWhile_cons_of_neg h]
        rfl

end Telora.Library
