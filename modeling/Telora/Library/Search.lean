import Mathlib.Order.FixedPoints
import Mathlib.Order.CompletePartialOrder
import Telora.Library.Reachability

/-!
# Searches that assume what they have entered

A rule reduces an element to premises of which all, or some one, are needed. A search
answers an element by its rule and takes every element that it meets again as true. It
looks for the greatest set in which every element has its premises. A search that meets
only elements of that set again is correct, and every other one takes an element as true
that it found to be false. Which of the two it is, the rules decide: what is outside of
the greatest set must be met at one place only.
-/

namespace Telora.Library

variable {α : Type}

/-- A premise of a rule: settled at once, or another element. -/
inductive Premise (α : Type) where
  | known (holds : Bool)
  | element (a : α)

/-- The premises of an element in the order in which they are tried, and the answer of a
premise that settles the rule. -/
structure Rule (α : Type) where
  stop : Bool
  premises : List (Premise α)

namespace Rule

def all (premises : List (Premise α)) : Rule α := ⟨false, premises⟩

def any (premises : List (Premise α)) : Rule α := ⟨true, premises⟩

def known (holds : Bool) : Rule α := all [.known holds]

def one (a : α) : Rule α := all [.element a]

end Rule

/-- What a search remembers. Only `visited` decides its course: `assumed` are the elements
met again, and `answered` are those left, with the answers of their rules. -/
structure SearchRecord (α : Type) where
  visited : List α
  assumed : List α
  answered : List (α × Bool)

namespace SearchRecord

def empty : SearchRecord α := ⟨[], [], []⟩

def enter (record : SearchRecord α) (a : α) : SearchRecord α :=
  { record with visited := a :: record.visited }

def assume (record : SearchRecord α) (a : α) : SearchRecord α :=
  { record with assumed := a :: record.assumed }

def leave (record : SearchRecord α) (a : α) (answer : Bool) : SearchRecord α :=
  { record with answered := (a, answer) :: record.answered }

end SearchRecord

/-- A question about an element, asked with a record. -/
abbrev Ask (α : Type) := α → SearchRecord α → Option (Bool × SearchRecord α)

def Premise.run (ask : Ask α) (record : SearchRecord α) :
    Premise α → Option (Bool × SearchRecord α)
  | .known holds => some (holds, record)
  | .element a => ask a record

/-- Try premises until one has the answer that settles the rule. -/
def runPremises (ask : Ask α) (stop : Bool) :
    List (Premise α) → SearchRecord α → Option (Bool × SearchRecord α)
  | [], record => some (!stop, record)
  | premise :: rest, record => do
      let (answer, record) ← premise.run ask record
      if answer = stop then return (stop, record) else runPremises ask stop rest record

/-- Answer an element; the fuel bounds the depth. -/
def search [DecidableEq α] (rule : α → Rule α) : Nat → Ask α
  | 0, _, _ => none
  | fuel + 1, a, record =>
      if a ∈ record.visited then some (true, record.assume a)
      else do
        let (answer, record) ←
          runPremises (search rule fuel) (rule a).stop (rule a).premises (record.enter a)
        return (answer, record.leave a answer)

def Premise.Holds (R : Set α) : Premise α → Prop
  | .known holds => holds = true
  | .element a => a ∈ R

/-- A rule holds in a set: its premises do, or one of them does. -/
def Rule.Holds (R : Set α) (rule : Rule α) : Prop :=
  if rule.stop then ∃ premise ∈ rule.premises, premise.Holds R
  else ∀ premise ∈ rule.premises, premise.Holds R

theorem Premise.Holds.mono {R S : Set α} (h : R ⊆ S) {premise : Premise α}
    (hholds : premise.Holds R) : premise.Holds S := by
  cases premise with
  | known holds => exact hholds
  | element a => exact h hholds

theorem Rule.Holds.mono {R S : Set α} (h : R ⊆ S) {rule : Rule α} (hholds : rule.Holds R) :
    rule.Holds S := by
  unfold Rule.Holds at hholds ⊢
  split at hholds
  · obtain ⟨premise, hmem, hpremise⟩ := hholds
    rw [if_pos ‹_›]
    exact ⟨premise, hmem, hpremise.mono h⟩
  · rw [if_neg ‹_›]
    exact fun premise hmem => (hholds premise hmem).mono h

theorem Rule.holds_any_cons {R : Set α} {premise : Premise α} {rest : List (Premise α)} :
    Rule.Holds R ⟨true, premise :: rest⟩ ↔ premise.Holds R ∨ Rule.Holds R ⟨true, rest⟩ := by
  simp [Rule.Holds]

theorem Rule.holds_all_cons {R : Set α} {premise : Premise α} {rest : List (Premise α)} :
    Rule.Holds R ⟨false, premise :: rest⟩ ↔ premise.Holds R ∧ Rule.Holds R ⟨false, rest⟩ := by
  simp [Rule.Holds]

theorem Rule.holds_nil {R : Set α} {stop : Bool} : Rule.Holds R ⟨stop, []⟩ ↔ stop = false := by
  cases stop <;> simp [Rule.Holds]

/-- One step back along the rules. -/
def consequence (rule : α → Rule α) : Set α →o Set α where
  toFun R := {a | (rule a).Holds R}
  monotone' _ _ h _ hholds := Rule.Holds.mono h hholds

/-- The greatest set in which the rule of every element holds. -/
def greatest (rule : α → Rule α) : Set α := (consequence rule).gfp

theorem mem_greatest {rule : α → Rule α} {a : α} :
    a ∈ greatest rule ↔ (rule a).Holds (greatest rule) := by
  have h : consequence rule (greatest rule) = greatest rule := (consequence rule).map_gfp
  exact iff_of_eq (congrArg (a ∈ ·) h.symm)

/-- Coinduction: every set that supports itself is part of the greatest one. -/
theorem subset_greatest {rule : α → Rule α} {R : Set α} (h : ∀ a ∈ R, (rule a).Holds R) :
    R ⊆ greatest rule :=
  (consequence rule).le_gfp h

namespace SearchRecord

structure Before (record later : SearchRecord α) : Prop where
  visited : record.visited ⊆ later.visited
  assumed : record.assumed ⊆ later.assumed
  answered : record.answered ⊆ later.answered

theorem Before.refl (record : SearchRecord α) : record.Before record :=
  ⟨List.Subset.refl _, List.Subset.refl _, List.Subset.refl _⟩

theorem Before.trans {record later last : SearchRecord α} (h : record.Before later)
    (h' : later.Before last) : record.Before last :=
  ⟨List.Subset.trans h.visited h'.visited, List.Subset.trans h.assumed h'.assumed,
    List.Subset.trans h.answered h'.answered⟩

theorem before_assume (record : SearchRecord α) (a : α) : record.Before (record.assume a) :=
  ⟨List.Subset.refl _, List.subset_cons_self _ _, List.Subset.refl _⟩

theorem before_enter (record : SearchRecord α) (a : α) : record.Before (record.enter a) :=
  ⟨List.subset_cons_self _ _, List.Subset.refl _, List.Subset.refl _⟩

theorem before_leave (record : SearchRecord α) (a : α) (answer : Bool) :
    record.Before (record.leave a answer) :=
  ⟨List.Subset.refl _, List.Subset.refl _, List.subset_cons_self _ _⟩

/-- The elements that a record takes to be true. -/
def kept (record : SearchRecord α) : Set α :=
  {a | (a, true) ∈ record.answered ∨ a ∈ record.assumed}

theorem Before.kept {record later : SearchRecord α} (h : record.Before later) :
    record.kept ⊆ later.kept :=
  fun _ ha => ha.imp (h.answered ·) (h.assumed ·)

/-- Every element is visited before it is assumed, and left with an answer at last. -/
structure Settles (record later : SearchRecord α) : Prop where
  assumed : ∀ b ∈ later.assumed, b ∈ record.assumed ∨ b ∈ later.visited
  answered : ∀ b ∈ later.visited, b ∈ record.visited ∨ ∃ x, (b, x) ∈ later.answered

end SearchRecord

section Runs

open SearchRecord

variable {ask : Ask α} {stop answer : Bool} {record later : SearchRecord α}

/-- What every question preserves is preserved by trying premises. -/
theorem runPremises_preserves {T : SearchRecord α → SearchRecord α → Prop}
    (hrefl : ∀ record, T record record)
    (htrans : ∀ {record later last}, T record later → T later last → T record last)
    (hask : ∀ {a record answer later}, ask a record = some (answer, later) → T record later)
    (premises : List (Premise α))
    (hrun : runPremises ask stop premises record = some (answer, later)) : T record later := by
  induction premises generalizing record with
  | nil =>
      obtain ⟨rfl, rfl⟩ := Prod.mk.inj (Option.some.inj hrun)
      exact hrefl _
  | cons premise rest ih =>
      obtain ⟨⟨x, next⟩, hpremise, hrest⟩ := Option.bind_eq_some_iff.mp hrun
      have hnext : T record next := by
        cases premise with
        | known holds =>
            obtain ⟨rfl, rfl⟩ := Prod.mk.inj (Option.some.inj hpremise)
            exact hrefl _
        | element a => exact hask hpremise
      by_cases hx : x = stop
      · simp only [hx, if_true] at hrest
        obtain ⟨rfl, rfl⟩ := Prod.mk.inj (Option.some.inj hrest)
        exact hnext
      · simp only [hx, if_false] at hrest
        exact htrans hnext (ih hrest)

/-- If true premises are answered by true, so is a rule that holds. -/
theorem runPremises_complete {R : Set α}
    (hask : ∀ {a record answer later}, ask a record = some (answer, later) → a ∈ R → answer = true)
    (premises : List (Premise α)) (hholds : Rule.Holds R ⟨stop, premises⟩)
    (hrun : runPremises ask stop premises record = some (answer, later)) : answer = true := by
  induction premises generalizing record with
  | nil =>
      obtain ⟨rfl, rfl⟩ := Prod.mk.inj (Option.some.inj hrun)
      rw [Rule.holds_nil.mp hholds]
      rfl
  | cons premise rest ih =>
      obtain ⟨⟨x, next⟩, hpremise, hrest⟩ := Option.bind_eq_some_iff.mp hrun
      have htrue : premise.Holds R → x = true := by
        intro hpremiseHolds
        cases premise with
        | known holds =>
            obtain ⟨rfl, rfl⟩ := Prod.mk.inj (Option.some.inj hpremise)
            exact hpremiseHolds
        | element a => exact hask hpremise hpremiseHolds
      by_cases hx : x = stop
      · simp only [hx, if_true] at hrest
        obtain ⟨rfl, rfl⟩ := Prod.mk.inj (Option.some.inj hrest)
        cases hstop : stop with
        | true => rfl
        | false =>
            subst hstop
            rw [← hx]
            exact htrue (Rule.holds_all_cons.mp hholds).1
      · simp only [hx, if_false] at hrest
        refine ih ?_ hrest
        cases hstop : stop with
        | true =>
            subst hstop
            exact (Rule.holds_any_cons.mp hholds).resolve_left fun hp => hx (htrue hp)
        | false =>
            subst hstop
            exact (Rule.holds_all_cons.mp hholds).2

/-- The first premise settles the rule, or the others are tried from where it ends. -/
theorem runPremises_cons {premise : Premise α} {rest : List (Premise α)}
    (hbefore : ∀ {a record answer later}, ask a record = some (answer, later) →
      record.Before later)
    (hrun : runPremises ask stop (premise :: rest) record = some (answer, later)) :
    ∃ x next, premise.run ask record = some (x, next) ∧ next.Before later ∧
      (x = stop ∧ answer = stop ∧ later = next ∨
        x ≠ stop ∧ runPremises ask stop rest next = some (answer, later)) := by
  obtain ⟨⟨x, next⟩, hpremise, hrest⟩ := Option.bind_eq_some_iff.mp hrun
  refine ⟨x, next, hpremise, ?_⟩
  by_cases hx : x = stop
  · simp only [hx, if_true] at hrest
    obtain ⟨rfl, rfl⟩ := Prod.mk.inj (Option.some.inj hrest)
    exact ⟨.refl _, .inl ⟨hx, rfl, rfl⟩⟩
  · simp only [hx, if_false] at hrest
    exact ⟨runPremises_preserves Before.refl Before.trans hbefore _ hrest, .inr ⟨hx, hrest⟩⟩

/-- If elements are answered correctly, so is a premise. -/
theorem Premise.run_correct {R : Set α}
    (hask : ∀ {a record answer later}, ask a record = some (answer, later) →
      (∀ b ∈ later.assumed, b ∈ R) → (answer = true ↔ a ∈ R)) {premise : Premise α}
    (hrun : premise.run ask record = some (answer, later)) (hassumed : ∀ b ∈ later.assumed, b ∈ R) :
    answer = true ↔ premise.Holds R := by
  cases premise with
  | known holds =>
      obtain ⟨rfl, rfl⟩ := Prod.mk.inj (Option.some.inj hrun)
      rfl
  | element a => exact hask hrun hassumed

/-- If elements are answered correctly, so is a rule. -/
theorem runPremises_correct {R : Set α}
    (hbefore : ∀ {a record answer later}, ask a record = some (answer, later) →
      record.Before later)
    (hask : ∀ {a record answer later}, ask a record = some (answer, later) →
      (∀ b ∈ later.assumed, b ∈ R) → (answer = true ↔ a ∈ R)) (premises : List (Premise α))
    (hrun : runPremises ask stop premises record = some (answer, later))
    (hassumed : ∀ b ∈ later.assumed, b ∈ R) : answer = true ↔ Rule.Holds R ⟨stop, premises⟩ := by
  induction premises generalizing record with
  | nil =>
      obtain ⟨rfl, rfl⟩ := Prod.mk.inj (Option.some.inj hrun)
      rw [Rule.holds_nil]
      simp
  | cons premise rest ih =>
      obtain ⟨x, next, hpremise, hbeforeNext, hrest⟩ := runPremises_cons hbefore hrun
      have hx := premise.run_correct hask hpremise fun b hb => hassumed b (hbeforeNext.assumed hb)
      obtain ⟨rfl, rfl, rfl⟩ | ⟨hne, hrest⟩ := hrest
      · cases answer with
        | true => exact iff_of_true rfl (Rule.holds_any_cons.mpr (.inl (hx.mp rfl)))
        | false =>
            refine iff_of_false Bool.false_ne_true fun hholds => ?_
            exact Bool.false_ne_true (hx.mpr (Rule.holds_all_cons.mp hholds).1)
      · rw [ih hrest]
        cases stop with
        | true =>
            have hfalse : ¬premise.Holds R := fun hholds => hne (hx.mpr hholds)
            rw [Rule.holds_any_cons, or_iff_right hfalse]
        | false =>
            have htrue : premise.Holds R := hx.mp (by simpa using hne)
            rw [Rule.holds_all_cons, and_iff_right htrue]

/-- What a question adds: the rules of the elements that it answers by true hold among the
elements that are taken to be true, and so does what it answers by true itself. -/
structure Adds (rule : α → Rule α) (holds : Set α → Prop) (record later : SearchRecord α)
    (answer : Bool) : Prop where
  answered : answer = true → holds later.kept
  supported : ∀ b, (b, true) ∈ later.answered →
    (b, true) ∈ record.answered ∨ (rule b).Holds later.kept

theorem runPremises_adds {rule : α → Rule α}
    (hbefore : ∀ {a record answer later}, ask a record = some (answer, later) →
      record.Before later)
    (hask : ∀ {a record answer later}, ask a record = some (answer, later) →
      Adds rule (a ∈ ·) record later answer)
    (premises : List (Premise α))
    (hrun : runPremises ask stop premises record = some (answer, later)) :
    Adds rule (Rule.Holds · ⟨stop, premises⟩) record later answer := by
  induction premises generalizing record with
  | nil =>
      obtain ⟨rfl, rfl⟩ := Prod.mk.inj (Option.some.inj hrun)
      exact ⟨fun h => Rule.holds_nil.mpr (by simpa using h), fun b hb => .inl hb⟩
  | cons premise rest ih =>
      obtain ⟨x, next, hpremise, hbeforeNext, hrest⟩ := runPremises_cons hbefore hrun
      have hnext : Adds rule (fun R => premise.Holds R) record next x := by
        cases premise with
        | known holds =>
            obtain ⟨rfl, rfl⟩ := Prod.mk.inj (Option.some.inj hpremise)
            exact ⟨id, fun b hb => .inl hb⟩
        | element a => exact hask hpremise
      obtain ⟨hpremiseHolds, hsupported⟩ := hnext
      obtain ⟨hx, rfl, rfl⟩ | ⟨hx, hrest⟩ := hrest
      · refine ⟨fun htrue => ?_, hsupported⟩
        subst htrue
        exact Rule.holds_any_cons.mpr (.inl (hpremiseHolds hx))
      · obtain ⟨hanswer, hsupported'⟩ := ih hrest
        refine ⟨fun htrue => ?_, fun b hb => ?_⟩
        · cases stop with
          | true => exact Rule.holds_any_cons.mpr (.inr (hanswer htrue))
          | false =>
              have hxtrue : x = true := by simpa using hx
              exact Rule.holds_all_cons.mpr
                ⟨(hpremiseHolds hxtrue).mono hbeforeNext.kept, hanswer htrue⟩
        · obtain hb | hholds := hsupported' b hb
          · exact (hsupported b hb).imp_right (·.mono hbeforeNext.kept)
          · exact .inr hholds

theorem runPremises_ends {elements : List α} {fuel : Nat}
    (hask : ∀ b ∈ elements, ∀ record : SearchRecord α, Within fuel elements record.visited →
      ∃ answer later, ask b record = some (answer, later) ∧ Within fuel elements later.visited)
    {premises : List (Premise α)} (hsub : ∀ b, .element b ∈ premises → b ∈ elements)
    (hrecord : Within fuel elements record.visited) :
    ∃ answer later, runPremises ask stop premises record = some (answer, later) ∧
      Within fuel elements later.visited := by
  induction premises generalizing record with
  | nil => exact ⟨!stop, record, rfl, hrecord⟩
  | cons premise rest ih =>
      obtain ⟨x, next, hpremise, hnext⟩ : ∃ x next,
          premise.run ask record = some (x, next) ∧ Within fuel elements next.visited := by
        cases premise with
        | known holds => exact ⟨holds, record, rfl, hrecord⟩
        | element b => exact hask b (hsub b List.mem_cons_self) record hrecord
      obtain ⟨y, later, hrest, hlater⟩ :=
        ih (fun b hb => hsub b (List.mem_cons_of_mem _ hb)) hnext
      rw [runPremises, hpremise]
      by_cases hx : x = stop
      · exact ⟨stop, next, by simp [hx], hnext⟩
      · exact ⟨y, later, by simp [hx, hrest], hlater⟩

variable [DecidableEq α] {rule : α → Rule α}

/-- An answer is an assumption, or the answer of a rule. -/
theorem search_cases {fuel : Nat} {a : α}
    (hrun : search rule (fuel + 1) a record = some (answer, later)) :
    (a ∈ record.visited ∧ answer = true ∧ later = record.assume a) ∨
      a ∉ record.visited ∧ ∃ last,
        runPremises (search rule fuel) (rule a).stop (rule a).premises (record.enter a) =
          some (answer, last) ∧ later = last.leave a answer := by
  rw [search] at hrun
  by_cases hmem : a ∈ record.visited
  · rw [if_pos hmem] at hrun
    obtain ⟨rfl, rfl⟩ := Prod.mk.inj (Option.some.inj hrun)
    exact .inl ⟨hmem, rfl, rfl⟩
  · rw [if_neg hmem] at hrun
    obtain ⟨⟨x, last⟩, hpremises, hend⟩ := Option.bind_eq_some_iff.mp hrun
    obtain ⟨rfl, rfl⟩ := Prod.mk.inj (Option.some.inj hend)
    exact .inr ⟨hmem, last, hpremises, rfl⟩

theorem search_settles {fuel : Nat} {a : α}
    (hrun : search rule fuel a record = some (answer, later)) :
    record.Before later ∧ Settles record later := by
  induction fuel generalizing a record answer later with
  | zero => cases hrun
  | succ fuel ih =>
      obtain ⟨hmem, -, rfl⟩ | ⟨-, last, hpremises, rfl⟩ := search_cases hrun
      · refine ⟨before_assume record a, fun b hb => ?_, fun b hb => .inl hb⟩
        obtain rfl | hb := List.mem_cons.mp hb
        · exact .inr hmem
        · exact .inl hb
      · have hlast : (record.enter a).Before last ∧ Settles (record.enter a) last := by
          refine runPremises_preserves (T := fun record later => record.Before later ∧
            Settles record later) (fun record => ⟨.refl record, fun _ => .inl, fun _ => .inl⟩) ?_
            ih _ hpremises
          rintro record later last ⟨hbefore, hassumed, hanswered⟩ ⟨hbefore', hassumed', hanswered'⟩
          refine ⟨hbefore.trans hbefore', fun b hb => ?_, fun b hb => ?_⟩
          · exact (hassumed' b hb).elim
              (fun hb => (hassumed b hb).imp_right fun hb => hbefore'.visited hb) .inr
          · exact (hanswered' b hb).elim (fun hb => (hanswered b hb).imp_right fun ⟨x, hx⟩ =>
              ⟨x, hbefore'.answered hx⟩) .inr
        obtain ⟨hbefore, hassumed, hanswered⟩ := hlast
        refine ⟨((before_enter record a).trans hbefore).trans (before_leave last a answer),
          hassumed, fun b hb => ?_⟩
        obtain hb | ⟨x, hx⟩ := hanswered b hb
        · obtain rfl | hb := List.mem_cons.mp hb
          · exact .inr ⟨answer, List.mem_cons_self⟩
          · exact .inl hb
        · exact .inr ⟨x, List.mem_cons_of_mem _ hx⟩

theorem search_before {fuel : Nat} {a : α}
    (hrun : search rule fuel a record = some (answer, later)) : record.Before later :=
  (search_settles hrun).1

/-- An element of the greatest set is never refuted. -/
theorem search_complete {fuel : Nat} {a : α}
    (hrun : search rule fuel a record = some (answer, later)) (ha : a ∈ greatest rule) :
    answer = true := by
  induction fuel generalizing a record answer later with
  | zero => cases hrun
  | succ fuel ih =>
      obtain ⟨-, rfl, -⟩ | ⟨-, last, hpremises, -⟩ := search_cases hrun
      · rfl
      · exact runPremises_complete ih _ (mem_greatest.mp ha) hpremises

/-- No element of the greatest set is left with a false answer. -/
theorem search_refuted {fuel : Nat} {a : α}
    (hrun : search rule fuel a record = some (answer, later)) :
    ∀ b ∈ greatest rule, (b, false) ∈ later.answered → (b, false) ∈ record.answered := by
  induction fuel generalizing a record answer later with
  | zero => cases hrun
  | succ fuel ih =>
      obtain ⟨-, -, rfl⟩ | ⟨-, last, hpremises, rfl⟩ := search_cases hrun
      · exact fun b _ hb => hb
      · have hlast := runPremises_preserves (T := fun record later => ∀ b ∈ greatest rule,
          (b, false) ∈ later.answered → (b, false) ∈ record.answered) (fun _ _ _ => id)
          (fun h h' b hb hfalse => h b hb (h' b hb hfalse)) ih _ hpremises
        intro b hb hfalse
        obtain heq | hfalse := List.mem_cons.mp hfalse
        · obtain ⟨rfl, rfl⟩ := Prod.mk.inj heq
          cases runPremises_complete search_complete _ (mem_greatest.mp hb) hpremises
        · exact hlast b hb hfalse

theorem search_adds {fuel : Nat} {a : α}
    (hrun : search rule fuel a record = some (answer, later)) :
    Adds rule (a ∈ ·) record later answer := by
  induction fuel generalizing a record answer later with
  | zero => cases hrun
  | succ fuel ih =>
      obtain ⟨-, rfl, rfl⟩ | ⟨-, last, hpremises, rfl⟩ := search_cases hrun
      · exact ⟨fun _ => .inr List.mem_cons_self, fun b hb => .inl hb⟩
      · obtain ⟨hanswer, hsupported⟩ := runPremises_adds search_before ih _ hpremises
        have hkept := (before_leave last a answer).kept
        refine ⟨fun htrue => ?_, fun b hb => ?_⟩
        · subst htrue
          exact .inl List.mem_cons_self
        · obtain heq | hb := List.mem_cons.mp hb
          · obtain ⟨rfl, htrue⟩ := Prod.mk.inj heq
            exact .inr ((hanswer htrue.symm).mono hkept)
          · exact (hsupported b hb).imp_right (·.mono hkept)

/-- A search in a finite set ends. -/
theorem search_ends {elements : List α}
    (hclosed : ∀ a ∈ elements, ∀ b, .element b ∈ (rule a).premises → b ∈ elements) {fuel : Nat}
    {a : α} (ha : a ∈ elements) (hwithin : Within fuel elements record.visited) :
    ∃ answer later, search rule fuel a record = some (answer, later) ∧
      Within fuel elements later.visited := by
  induction fuel generalizing a record with
  | zero => exact absurd hwithin.fuel_pos (lt_irrefl 0)
  | succ fuel ih =>
      rw [search]
      by_cases hmem : a ∈ record.visited
      · rw [if_pos hmem]
        exact ⟨true, record.assume a, rfl, hwithin⟩
      · rw [if_neg hmem]
        have henter : Within fuel elements (record.enter a).visited := hwithin.enter hmem ha
        obtain ⟨answer, later, hrun, hlater⟩ :=
          runPremises_ends (fun b hb record hrecord => ih hb hrecord) (hclosed a ha) henter
        exact ⟨answer, later.leave a answer, by rw [hrun]; rfl, hlater.leave⟩

/-- A search that assumes elements of the greatest set only answers membership in it. -/
theorem search_correct {fuel : Nat} {a : α}
    (hrun : search rule fuel a record = some (answer, later))
    (hassumed : ∀ b ∈ later.assumed, b ∈ greatest rule) : answer = true ↔ a ∈ greatest rule := by
  induction fuel generalizing a record answer later with
  | zero => cases hrun
  | succ fuel ih =>
      obtain ⟨-, rfl, rfl⟩ | ⟨-, last, hpremises, rfl⟩ := search_cases hrun
      · exact ⟨fun _ => hassumed a List.mem_cons_self, fun _ => rfl⟩
      · rw [mem_greatest]
        exact runPremises_correct search_before (fun hrun hassumed => ih hrun hassumed) _ hpremises
          hassumed

/-- A search from nothing answers correctly, and takes nothing as true that it finds to be
false, exactly if everything that it meets again is in the greatest set. -/
theorem search_correct_iff {fuel : Nat} {a : α}
    (hrun : search rule fuel a .empty = some (answer, later)) :
    (answer = true ↔ a ∈ greatest rule) ∧ (∀ b ∈ later.assumed, (b, false) ∉ later.answered) ↔
      ∀ b ∈ later.assumed, b ∈ greatest rule := by
  obtain ⟨-, hassumed, hanswered⟩ := search_settles hrun
  obtain ⟨hanswer, hsupported⟩ := search_adds hrun
  have hkept (h : ∀ b ∈ later.assumed, (b, false) ∉ later.answered) :
      later.kept ⊆ greatest rule := by
    refine subset_greatest fun b hb => ?_
    have htrue : (b, true) ∈ later.answered := by
      refine hb.elim id fun hb => ?_
      obtain ⟨x, hx⟩ : ∃ x, (b, x) ∈ later.answered :=
        ((hassumed b hb).resolve_left List.not_mem_nil |> hanswered b).resolve_left
          List.not_mem_nil
      cases x with
      | true => exact hx
      | false => exact absurd hx (h b hb)
    exact (hsupported b htrue).resolve_left List.not_mem_nil
  constructor
  · exact fun ⟨_, h⟩ b hb => hkept h (.inr hb)
  · intro h
    have hdisjoint : ∀ b ∈ later.assumed, (b, false) ∉ later.answered := fun b hb hfalse =>
      List.not_mem_nil (search_refuted hrun b (h b hb) hfalse)
    exact ⟨⟨fun htrue => hkept hdisjoint (hanswer htrue), search_complete hrun⟩, hdisjoint⟩

end Runs

/-- Where an element is met: at the start, or as a premise of an element. -/
abbrev Place (α : Type) := Option (α × Nat)

/-- A premise that is tried: none in front of it settles the rule. -/
def Rule.Tries (R : Set α) (rule : Rule α) (i : Nat) (b : α) : Prop :=
  rule.premises[i]? = some (.element b) ∧
    ∀ premise ∈ rule.premises.take i, premise.Holds R ↔ rule.stop = false

/-- The places where elements are met from a start on, when the greatest set says which
premises hold. -/
inductive Meets (rule : α → Rule α) (start : α) : Place α → α → Prop where
  | start : Meets rule start none start
  | tries {place : Place α} {a b : α} {i : Nat} : Meets rule start place a →
      (rule a).Tries (greatest rule) i b → Meets rule start (some (a, i)) b

/-- What is outside the greatest set is met at one place only. -/
def MetOnce (rule : α → Rule α) (start : α) : Prop :=
  ∀ a ∉ greatest rule, ∀ place place', Meets rule start place a → Meets rule start place' a →
    place = place'

theorem Rule.tries_nil {R : Set α} {stop : Bool} {i : Nat} {b : α} :
    ¬Rule.Tries R ⟨stop, []⟩ i b := by
  simp [Rule.Tries]

theorem Rule.tries_zero {R : Set α} {stop : Bool} {premise : Premise α} {rest : List (Premise α)}
    {b : α} : Rule.Tries R ⟨stop, premise :: rest⟩ 0 b ↔ premise = .element b := by
  simp [Rule.Tries]

theorem Rule.tries_succ {R : Set α} {stop : Bool} {premise : Premise α} {rest : List (Premise α)}
    {i : Nat} {b : α} : Rule.Tries R ⟨stop, premise :: rest⟩ (i + 1) b ↔
      (premise.Holds R ↔ stop = false) ∧ Rule.Tries R ⟨stop, rest⟩ i b := by
  simp only [Rule.Tries, List.getElem?_cons_succ, List.take_succ_cons, List.forall_mem_cons]
  exact and_left_comm

section Places

open SearchRecord

variable {rule : α → Rule α} {entered entered' entered'' : α → Place α}
  {record next later : SearchRecord α}

/-- What a search covers: every premise that is tried of an element entered is met, and is
entered there or met again. -/
structure Covers (rule : α → Rule α) (entered entered' : α → Place α)
    (record later : SearchRecord α) : Prop where
  same : ∀ b ∈ record.visited, entered' b = entered b
  tried : ∀ b ∈ later.visited, b ∉ record.visited → ∀ i c, (rule b).Tries (greatest rule) i c →
    c ∈ later.visited ∧ (entered' c = some (b, i) ∨ c ∈ later.assumed)

theorem Covers.refl (rule : α → Rule α) (entered : α → Place α) (record : SearchRecord α) :
    Covers rule entered entered record record :=
  ⟨fun _ _ => rfl, fun _ hb hnew => absurd hb hnew⟩

/-- Where an element has been met does not change. -/
theorem Covers.met_mono (h : Covers rule entered entered' record later)
    (hbefore : record.Before later) {b : α} {place : Place α}
    (hmet : b ∈ record.visited ∧ (entered b = place ∨ b ∈ record.assumed)) :
    b ∈ later.visited ∧ (entered' b = place ∨ b ∈ later.assumed) :=
  ⟨hbefore.visited hmet.1,
    hmet.2.imp (fun heq => (h.same b hmet.1).trans heq) fun hmem => hbefore.assumed hmem⟩

theorem Covers.trans (h : Covers rule entered entered' record next)
    (h' : Covers rule entered' entered'' next later) (hbefore : record.Before next)
    (hbefore' : next.Before later) : Covers rule entered entered'' record later where
  same b hb := (h'.same b (hbefore.visited hb)).trans (h.same b hb)
  tried b hb hnew i c htries := by
    by_cases hmem : b ∈ next.visited
    · exact h'.met_mono hbefore' (h.tried b hmem hnew i c htries)
    · exact h'.tried b hb hmem i c htries

variable {ask : Ask α} {stop answer : Bool}

variable (entered) in
theorem runPremises_covers (a : α) (k : Nat)
    (hbefore : ∀ {a record answer later}, ask a record = some (answer, later) →
      record.Before later)
    (hcorrect : ∀ {a record answer later}, ask a record = some (answer, later) →
      (∀ b ∈ later.assumed, b ∈ greatest rule) → (answer = true ↔ a ∈ greatest rule))
    (hcovers : ∀ {a record answer later}, ask a record = some (answer, later) →
      (∀ b ∈ later.assumed, b ∈ greatest rule) → ∀ entered place, ∃ entered',
        Covers rule entered entered' record later ∧
          a ∈ later.visited ∧ (entered' a = place ∨ a ∈ later.assumed))
    {premises : List (Premise α)}
    (hrun : runPremises ask stop premises record = some (answer, later))
    (hassumed : ∀ b ∈ later.assumed, b ∈ greatest rule) :
    ∃ entered', Covers rule entered entered' record later ∧
      ∀ i b, Rule.Tries (greatest rule) ⟨stop, premises⟩ i b →
        b ∈ later.visited ∧ (entered' b = some (a, k + i) ∨ b ∈ later.assumed) := by
  induction premises generalizing record entered k with
  | nil =>
      obtain ⟨rfl, rfl⟩ := Prod.mk.inj (Option.some.inj hrun)
      exact ⟨entered, .refl rule entered record, fun i b htries => absurd htries Rule.tries_nil⟩
  | cons premise rest ih =>
      obtain ⟨x, next, hpremise, hbeforeNext, hrest⟩ := runPremises_cons hbefore hrun
      have hgood : ∀ b ∈ next.assumed, b ∈ greatest rule :=
        fun b hb => hassumed b (hbeforeNext.assumed hb)
      have hx := Premise.run_correct hcorrect hpremise hgood
      obtain ⟨entered₁, hbeforeFirst, hfirst, hmet⟩ : ∃ entered₁, record.Before next ∧
          Covers rule entered entered₁ record next ∧ ∀ b, premise = .element b →
            b ∈ next.visited ∧ (entered₁ b = some (a, k) ∨ b ∈ next.assumed) := by
        cases premise with
        | known holds =>
            obtain ⟨rfl, rfl⟩ := Prod.mk.inj (Option.some.inj hpremise)
            exact ⟨entered, .refl _, .refl rule entered record, fun b hb => nomatch hb⟩
        | element b =>
            obtain ⟨entered₁, hcovered, hmet⟩ := hcovers hpremise hgood entered (some (a, k))
            exact ⟨entered₁, hbefore hpremise, hcovered, fun c hc => Premise.element.inj hc ▸ hmet⟩
      obtain ⟨hstop, -, rfl⟩ | ⟨-, hrest⟩ := hrest
      · refine ⟨entered₁, hfirst, fun i b htries => ?_⟩
        cases i with
        | zero => exact hmet b (Rule.tries_zero.mp htries)
        | succ i =>
            -- the first premise settles the rule, so no other is tried
            have hopen := (Rule.tries_succ.mp htries).1
            rw [← hx, hstop] at hopen
            cases stop <;> simp at hopen
      · obtain ⟨entered₂, hsecond, htried⟩ := ih entered₁ (k + 1) hrest
        refine ⟨entered₂, hfirst.trans hsecond hbeforeFirst hbeforeNext, fun i b htries => ?_⟩
        cases i with
        | zero => exact hsecond.met_mono hbeforeNext (hmet b (Rule.tries_zero.mp htries))
        | succ i =>
            rw [show k + (i + 1) = k + 1 + i by omega]
            exact htried i b (Rule.tries_succ.mp htries).2

theorem search_covers [DecidableEq α] {fuel : Nat} {a : α}
    (hrun : search rule fuel a record = some (answer, later))
    (hassumed : ∀ b ∈ later.assumed, b ∈ greatest rule) (entered : α → Place α)
    (place : Place α) :
    ∃ entered', Covers rule entered entered' record later ∧
      a ∈ later.visited ∧ (entered' a = place ∨ a ∈ later.assumed) := by
  induction fuel generalizing a record answer later entered place with
  | zero => cases hrun
  | succ fuel ih =>
      obtain ⟨hmem, -, rfl⟩ | ⟨hnew, last, hpremises, rfl⟩ := search_cases hrun
      · exact ⟨entered, ⟨fun _ _ => rfl, fun _ hb hnew => absurd hb hnew⟩, hmem,
          .inr List.mem_cons_self⟩
      · obtain ⟨entered', ⟨hsame, htried⟩, hpremise⟩ :=
          runPremises_covers (Function.update entered a place) a 0 search_before search_correct
            (fun hrun hassumed entered place => ih hrun hassumed entered place) hpremises hassumed
        have hbefore : (record.enter a).Before last :=
          runPremises_preserves Before.refl Before.trans search_before _ hpremises
        refine ⟨entered', ⟨fun b hb => ?_, fun b hb hb' i c htries => ?_⟩,
          hbefore.visited List.mem_cons_self, .inl ?_⟩
        · have hne : b ≠ a := ne_of_mem_of_not_mem hb hnew
          rw [hsame b (List.mem_cons_of_mem a hb), Function.update_of_ne hne]
        · by_cases hba : b = a
          · subst hba
            have hmet := hpremise i c htries
            rwa [Nat.zero_add] at hmet
          · exact htried b hb (fun hmem => (List.mem_cons.mp hmem).elim hba hb') i c htries
        · rw [hsame a List.mem_cons_self, Function.update_self]

/-- The elements of a record are entered where they are met, the premises of entered elements, and
no one outside the greatest set is met again. -/
structure Entered (rule : α → Rule α) (start : α) (entered : α → Place α)
    (record : SearchRecord α) : Prop where
  meets : ∀ b ∈ record.visited, Meets rule start (entered b) b
  parent : ∀ b ∈ record.visited, ∀ c i, entered b = some (c, i) → c ∈ record.visited
  assumed : ∀ b ∈ record.assumed, b ∈ greatest rule

/-- What is entered is entered at places of a kind, or as premises of what is entered. -/
structure Enters (places : Place α → Prop) (entered entered' : α → Place α)
    (record later : SearchRecord α) : Prop where
  same : ∀ b ∈ record.visited, entered' b = entered b
  new : ∀ b ∈ later.visited, b ∈ record.visited ∨ places (entered' b) ∨
    ∃ c i, entered' b = some (c, i) ∧ c ∉ record.visited

theorem Enters.refl (places : Place α → Prop) (entered : α → Place α) (record : SearchRecord α) :
    Enters places entered entered record record :=
  ⟨fun _ _ => rfl, fun _ hb => .inl hb⟩

theorem Enters.mono {places places' : Place α → Prop}
    (h : Enters places entered entered' record later) (hplaces : ∀ place, places place → places' place) :
    Enters places' entered entered' record later :=
  ⟨h.same, fun b hb => (h.new b hb).imp_right (·.imp_left (hplaces _))⟩

theorem Enters.trans {places : Place α → Prop} (h : Enters places entered entered' record next)
    (h' : Enters places entered' entered'' next later) (hbefore : record.Before next) :
    Enters places entered entered'' record later where
  same b hb := (h'.same b (hbefore.visited hb)).trans (h.same b hb)
  new b hb := by
    obtain hmid | hplace | ⟨c, i, hplace, hc⟩ := h'.new b hb
    · rw [h'.same b hmid]
      exact h.new b hmid
    · exact .inr (.inl hplace)
    · exact .inr (.inr ⟨c, i, hplace, fun hmem => hc (hbefore.visited hmem)⟩)

theorem runPremises_enters {start a : α}
    (hbefore : ∀ {a record answer later}, ask a record = some (answer, later) →
      record.Before later)
    (hcorrect : ∀ {a record answer later}, ask a record = some (answer, later) →
      (∀ b ∈ later.assumed, b ∈ greatest rule) → (answer = true ↔ a ∈ greatest rule))
    (henters : ∀ {b record answer later entered place},
      ask b record = some (answer, later) → Entered rule start entered record →
      Meets rule start place b → (∀ c i, place = some (c, i) → c ∈ record.visited) →
      (∀ c ∈ record.visited, entered c ≠ place) → ∃ entered',
        Entered rule start entered' later ∧ Enters (· = place) entered entered' record later)
    {k : Nat} {premises : List (Premise α)}
    (hrun : runPremises ask stop premises record = some (answer, later))
    (hentered : Entered rule start entered record) (ha : a ∈ record.visited)
    (hmeets : ∀ i b, Rule.Tries (greatest rule) ⟨stop, premises⟩ i b →
      Meets rule start (some (a, k + i)) b)
    (hfresh : ∀ b ∈ record.visited, ∀ i, entered b ≠ some (a, k + i)) :
    ∃ entered', Entered rule start entered' later ∧
      Enters (fun place => ∃ i, place = some (a, k + i)) entered entered' record later := by
  induction premises generalizing record entered k with
  | nil =>
      obtain ⟨rfl, rfl⟩ := Prod.mk.inj (Option.some.inj hrun)
      exact ⟨entered, hentered, .refl _ entered record⟩
  | cons premise rest ih =>
      obtain ⟨x, next, hpremise, hbeforeNext, hrest⟩ := runPremises_cons hbefore hrun
      obtain ⟨entered₁, hbeforeFirst, hentered₁, hfirst⟩ : ∃ entered₁, record.Before next ∧
          Entered rule start entered₁ next ∧
            Enters (· = some (a, k)) entered entered₁ record next := by
        cases premise with
        | known holds =>
            obtain ⟨rfl, rfl⟩ := Prod.mk.inj (Option.some.inj hpremise)
            exact ⟨entered, .refl _, hentered, .refl _ entered record⟩
        | element b =>
            have hplace : ∀ c i, some (a, k) = some (c, i) → c ∈ record.visited := by
              rintro _ _ ⟨⟩
              exact ha
            obtain ⟨entered₁, hentered₁, hfirst⟩ := henters hpremise hentered
              (hmeets 0 b (Rule.tries_zero.mpr rfl)) hplace fun c hc => hfresh c hc 0
            exact ⟨entered₁, hbefore hpremise, hentered₁, hfirst⟩
      have hx := Premise.run_correct hcorrect hpremise hentered₁.assumed
      have hfirstPlaces : Enters (fun place => ∃ i, place = some (a, k + i)) entered entered₁
          record next := hfirst.mono fun place heq => ⟨0, heq⟩
      obtain ⟨hstop, -, rfl⟩ | ⟨hne, hrest⟩ := hrest
      · exact ⟨entered₁, hentered₁, hfirstPlaces⟩
      · have hopen : premise.Holds (greatest rule) ↔ stop = false := by
          rw [← hx, Bool.eq_not_of_ne hne, Bool.not_eq_true']
        have hmeets' : ∀ i b, Rule.Tries (greatest rule) ⟨stop, rest⟩ i b →
            Meets rule start (some (a, k + 1 + i)) b := by
          intro i b htries
          have hmet := hmeets (i + 1) b (Rule.tries_succ.mpr ⟨hopen, htries⟩)
          rwa [show k + (i + 1) = k + 1 + i by omega] at hmet
        have hfresh' : ∀ b ∈ next.visited, ∀ i, entered₁ b ≠ some (a, k + 1 + i) := by
          intro b hb i heq
          obtain hold | hplace | ⟨c, j, hplace, hc⟩ := hfirst.new b hb
          · rw [hfirst.same b hold] at heq
            exact hfresh b hold (1 + i) (by rw [heq, Nat.add_assoc])
          · rw [hplace] at heq
            simp at heq
            omega
          · rw [hplace] at heq
            simp only [Option.some.injEq, Prod.mk.injEq] at heq
            rw [heq.1] at hc
            exact hc ha
        obtain ⟨entered₂, hentered₂, hsecond⟩ :=
          ih hrest hentered₁ (hbeforeFirst.visited ha) hmeets' hfresh'
        refine ⟨entered₂, hentered₂, hfirstPlaces.trans (hsecond.mono ?_) hbeforeFirst⟩
        rintro place ⟨i, rfl⟩
        exact ⟨1 + i, by rw [Nat.add_assoc]⟩

variable [DecidableEq α]

/-- A new element is entered where it is met. -/
theorem Entered.enter {start a : α} {place : Place α} (h : Entered rule start entered record)
    (hnew : a ∉ record.visited) (hmeets : Meets rule start place a)
    (hplace : ∀ c i, place = some (c, i) → c ∈ record.visited) :
    Entered rule start (Function.update entered a place) (record.enter a) := by
  have hold {b : α} (hb : b ∈ record.visited) : Function.update entered a place b = entered b :=
    Function.update_of_ne (ne_of_mem_of_not_mem hb hnew) _ _
  refine ⟨fun b hb => ?_, fun b hb c i heq => ?_, h.assumed⟩
  · obtain rfl | hb := List.mem_cons.mp hb
    · rwa [Function.update_self]
    · rw [hold hb]
      exact h.meets b hb
  · obtain rfl | hb := List.mem_cons.mp hb
    · rw [Function.update_self] at heq
      exact List.mem_cons_of_mem _ (hplace c i heq)
    · rw [hold hb] at heq
      exact List.mem_cons_of_mem _ (h.parent b hb c i heq)

theorem search_enters {start : α} (honce : MetOnce rule start) {fuel : Nat} {a : α}
    {place : Place α} (hrun : search rule fuel a record = some (answer, later))
    (hentered : Entered rule start entered record) (hmeets : Meets rule start place a)
    (hplace : ∀ c i, place = some (c, i) → c ∈ record.visited)
    (hfresh : ∀ c ∈ record.visited, entered c ≠ place) :
    ∃ entered', Entered rule start entered' later ∧
      Enters (· = place) entered entered' record later := by
  induction fuel generalizing a record answer later entered place with
  | zero => cases hrun
  | succ fuel ih =>
      obtain ⟨hmem, -, rfl⟩ | ⟨hnew, last, hpremises, rfl⟩ := search_cases hrun
      · have ha : a ∈ greatest rule := by
          by_contra hout
          exact hfresh a hmem (honce a hout _ _ (hentered.meets a hmem) hmeets)
        refine ⟨entered, ⟨hentered.meets, hentered.parent, fun b hb => ?_⟩, fun _ _ => rfl,
          fun _ hb => .inl hb⟩
        obtain rfl | hb := List.mem_cons.mp hb
        · exact ha
        · exact hentered.assumed b hb
      · have hold {b : α} (hb : b ∈ record.visited) :
            Function.update entered a place b = entered b :=
          Function.update_of_ne (ne_of_mem_of_not_mem hb hnew) _ _
        have hfreshPremises : ∀ b ∈ (record.enter a).visited, ∀ i,
            Function.update entered a place b ≠ some (a, 0 + i) := by
          intro b hb i heq
          obtain rfl | hb := List.mem_cons.mp hb
          · rw [Function.update_self] at heq
            exact hnew (hplace _ _ heq)
          · rw [hold hb] at heq
            exact hnew (hentered.parent b hb _ _ heq)
        obtain ⟨entered', hentered', hsame, hplaces⟩ :=
          runPremises_enters search_before search_correct ih hpremises
            (hentered.enter hnew hmeets hplace) List.mem_cons_self
            (fun i b htries => by rw [Nat.zero_add]; exact .tries hmeets htries) hfreshPremises
        refine ⟨entered', ⟨hentered'.meets, hentered'.parent, hentered'.assumed⟩, fun b hb => ?_,
          fun b hb => ?_⟩
        · rw [hsame b (List.mem_cons_of_mem _ hb), hold hb]
        · obtain hmem | ⟨i, heq⟩ | ⟨c, i, heq, hc⟩ := hplaces b hb
          · obtain rfl | hmem := List.mem_cons.mp hmem
            · refine .inr (.inl ?_)
              rw [hsame _ List.mem_cons_self, Function.update_self]
            · exact .inl hmem
          · exact .inr (.inr ⟨a, 0 + i, heq, hnew⟩)
          · exact .inr (.inr ⟨c, i, heq, fun hmem => hc (List.mem_cons_of_mem _ hmem)⟩)

/-- Everything that a search from nothing meets again is in the greatest set exactly if what is
outside of it is met at one place only. -/
theorem search_assumed_iff {fuel : Nat} {start : α}
    (hrun : search rule fuel start .empty = some (answer, later)) :
    (∀ b ∈ later.assumed, b ∈ greatest rule) ↔ MetOnce rule start := by
  constructor
  · intro hassumed
    obtain ⟨entered, hcovers, hstart⟩ := search_covers hrun hassumed (fun _ => none) none
    have hmet {place : Place α} {b : α} (hmeets : Meets rule start place b) :
        b ∈ later.visited ∧ (entered b = place ∨ b ∈ later.assumed) := by
      induction hmeets with
      | start => exact hstart
      | tries _ htries ih => exact hcovers.tried _ ih.1 List.not_mem_nil _ _ htries
    intro b hout place place' hmeets hmeets'
    have heq := (hmet hmeets).2.resolve_right fun hmem => hout (hassumed b hmem)
    have heq' := (hmet hmeets').2.resolve_right fun hmem => hout (hassumed b hmem)
    exact heq.symm.trans heq'
  · intro honce
    have hnothing : Entered rule start (fun _ => none) .empty := by
      constructor <;> exact fun _ hb => absurd hb List.not_mem_nil
    obtain ⟨entered, hentered, -⟩ := search_enters honce hrun hnothing .start
      (fun _ _ h => nomatch h) fun _ hb => absurd hb List.not_mem_nil
    exact hentered.assumed

end Places

end Telora.Library
