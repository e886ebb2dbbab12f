import Telora.Types.NativeValidate
import Telora.Vm.Step

/-!
# Runs of native functions

The machine answers what a native asks for until the native ends, and a native need not end:
`validate` decodes the metadata of a type through every link, so it works on forever where
the metadata of a recursive type leads back to itself.
-/

namespace Telora.Vm

open Library
open Filter (atTop)

namespace HostProgram

variable {α β : Type} {program : HostProgram α}

theorem search_eq {rounds : Nat → Option β} {next : β → HostProgram α} {round : Nat} {result : β}
    (h : rounds round = some result) : search rounds next round = next result := by
  funext answers
  cases answers <;> rw [search, h]

/-- A search ends when a round has a result, and what follows it ends. -/
theorem Ends.search {rounds : Nat → Option β} {next : β → HostProgram α} (last : Nat)
    (hlast : rounds last ≠ none)
    (hnext : ∀ round result, rounds round = some result → (next result).Ends) {round : Nat}
    (hle : round ≤ last) : (HostProgram.search rounds next round).Ends := by
  induction hle using Nat.decreasingInduction with
  | self =>
      obtain ⟨result, hresult⟩ : ∃ result, rounds last = some result :=
        Option.ne_none_iff_exists'.mp hlast
      rw [search_eq hresult]
      exact hnext last result hresult
  | of_succ round _ ih =>
      cases hround : rounds round with
      | some result =>
          rw [search_eq hround]
          exact hnext round result hround
      | none =>
          have hask : HostProgram.search rounds next round [] = .ask .work := by
            rw [HostProgram.search, hround]
          refine .ask hask fun granted => ?_
          have hrest : (HostProgram.search rounds next round).answered granted =
              HostProgram.search rounds next (round + 1) := by
            funext answers
            rw [answered, HostProgram.search, hround]
          exact hrest ▸ ih

theorem bind_eq_of_finish {next : α → HostProgram β} {result : α}
    (h : program [] = .finish result) : program.bind next = next result := by
  funext answers
  cases answers <;> rw [bind, h]

theorem Ends.bind {next : α → HostProgram β} (h : program.Ends)
    (hnext : ∀ result, (next result).Ends) : Ends (program.bind next) := by
  induction h with
  | finish h => exact bind_eq_of_finish h ▸ hnext _
  | @ask program request h _ ih =>
      have hask : program.bind next [] = .ask request := by rw [HostProgram.bind, h]
      refine .ask hask fun granted => ?_
      have hrest : (program.bind next).answered granted = (program.answered granted).bind next := by
        funext answers
        rw [answered, HostProgram.bind, h]
      exact hrest ▸ ih granted

/-- A search without a result works on, whatever it is answered. -/
theorem search_works {rounds : Nat → Option β} {next : β → HostProgram α}
    (h : ∀ round, rounds round = none) (round : Nat) (answers : List Bool) :
    search rounds next round answers = .ask .work := by
  induction answers generalizing round with
  | nil => rw [search, h]
  | cons granted answers ih =>
      rw [search, h]
      exact ih (round + 1)

theorem bind_works {next : α → HostProgram β} (h : ∀ answers, program answers = .ask .work)
    (answers : List Bool) : program.bind next answers = .ask .work := by
  induction answers generalizing program with
  | nil => rw [bind, h]
  | cons granted answers ih =>
      rw [bind, h]
      exact ih fun answers => h (granted :: answers)

end HostProgram

namespace HostCall

variable {call : HostCall} {store : Store}

/-- A native at work goes on with its work. -/
def Continues (after before : HostCall × Store) : Prop :=
  (hostStep before.1).run before.2 = .ok (.host after.1, after.2)

/-- A native at work comes to its end, as the account and the stack answer it. -/
def EndsFrom (call : HostCall) (store : Store) : Prop := Acc Continues (call, store)

/-- A native that goes on has asked for something, and was answered. -/
theorem Continues.answered {call' : HostCall} {store' : Store}
    (h : Continues (call', store') (call, store)) :
    (∃ request, call.program [] = .ask request) ∧ ∃ granted, call' = call.answered granted := by
  cases hmove : call.program [] with
  | finish result =>
      have hrun : (hostStep call).run store = .ok (.host call', store') := h
      rcases result with error | ⟨value, current⟩ | ⟨request, continuation⟩
      · simp only [hostStep, hmove] at hrun
        cases hrun
      · simp only [hostStep, hmove] at hrun
        cases hrun
      · simp only [hostStep, hmove] at hrun
        cases hrun
  | ask request =>
      refine ⟨⟨request, rfl⟩, ?_⟩
      have hrun : (hostStep call).run store = .ok (.host call', store') := h
      simp only [hostStep, hmove, StateT.run_bind, StateT.run_get, pure_bind] at hrun
      cases request with
      | work =>
          cases hrun
          exact ⟨true, rfl⟩
      | charge bytes =>
          dsimp only at hrun
          split at hrun
          · cases hrun
            exact ⟨true, rfl⟩
          · cases hrun
            exact ⟨false, rfl⟩
      | scratch =>
          dsimp only at hrun
          split at hrun
          · cases hrun
            exact ⟨false, rfl⟩
          · cases hrun
            exact ⟨true, rfl⟩

/-- A program that ends whatever it is answered ends in every run. -/
theorem endsFrom_of_ends (h : call.program.Ends) : call.EndsFrom store := by
  generalize hprogram : call.program = program at h
  induction h generalizing call store with
  | finish h =>
      refine Acc.intro _ fun (call', store') hcontinues => ?_
      obtain ⟨request, hask⟩ := hcontinues.answered.1
      rw [hprogram, h] at hask
      cases hask
  | ask h _ ih =>
      refine Acc.intro _ fun (call', store') hcontinues => ?_
      obtain ⟨granted, rfl⟩ := hcontinues.answered.2
      exact ih granted (hprogram ▸ rfl)

/-- A native that only works on does not end. -/
theorem not_endsFrom_of_works (h : ∀ answers, call.program answers = .ask .work) :
    ¬call.EndsFrom store := by
  intro hends
  unfold EndsFrom at hends
  generalize hpair : (call, store) = pair at hends
  induction hends generalizing call with
  | intro pair _ ih =>
      subst hpair
      have hcontinues : Continues (call.answered true, store) (call, store) := by
        simp only [Continues, hostStep, h]
        rfl
      exact ih _ hcontinues (fun answers => h (true :: answers)) rfl

end HostCall

section Validate

variable {env : Environment} {type value : RichValue} {current : Heap}

theorem scratchRegister_ends {α : Type} {next : HostProgram (Except NativeError α)}
    (h : next.Ends) : (scratchRegister next).Ends := by
  refine .ask rfl fun granted => ?_
  cases granted with
  | false => exact .finish rfl
  | true => exact h

/-- `validate` ends on the metadata that is a tree. -/
theorem nativeValidate_ends (hview : (⟨current, some env.background⟩ : HeapView).DictsOrdered)
    (hsealed : HeapView.Sealed ⟨current, some env.background⟩ type.value)
    (htree : HeapView.IsTree ⟨current, some env.background⟩ type.value)
    (hvalue : HeapView.FiniteValue ⟨current, some env.background⟩ value.value)
    (hvalidated : ∀ checked, (env.validated type value checked current).Ends) :
    (nativeValidate env type value current).Ends := by
  obtain ⟨d, hd⟩ := HeapView.exists_describes hview hsealed htree
  obtain ⟨depth, reply, hreply, -⟩ :=
    (HeapView.nativeValidate_of_describes hview hd hvalue).exists
  obtain ⟨d', hdecode, hrest⟩ := Answer.bind_is.mp hreply
  obtain rfl := (HeapView.describes_of_decode hview hdecode).unique hview hd
  refine .search depth (fun hnone => ?_) (fun round decoded hround => ?_) (Nat.zero_le _)
  · exact absurd (hnone.symm.trans hdecode) nofun
  · cases decoded with
    | error message => exact .finish rfl
    | ok described =>
        obtain rfl := (HeapView.describes_of_decode hview hround).unique hview hd
        refine scratchRegister_ends (scratchRegister_ends ?_)
        refine .search depth (fun hnone => ?_) (fun _ _ _ => hvalidated _) (Nat.zero_le _)
        rw [hnone] at hrest
        exact absurd hrest Answer.not_none_is

/-- A call of `validate` on metadata that is a tree comes to its end. -/
theorem nativeValidate_endsFrom {call : HostCall} {store : Store}
    (hview : (⟨current, some env.background⟩ : HeapView).DictsOrdered)
    (hsealed : HeapView.Sealed ⟨current, some env.background⟩ type.value)
    (htree : HeapView.IsTree ⟨current, some env.background⟩ type.value)
    (hvalue : HeapView.FiniteValue ⟨current, some env.background⟩ value.value)
    (hvalidated : ∀ checked, (env.validated type value checked current).Ends)
    (hprogram : call.program =
      (nativeValidate env type value current).map (callbackResult validateFunction call.site)) :
    call.EndsFrom store := by
  apply HostCall.endsFrom_of_ends
  rw [hprogram]
  exact (nativeValidate_ends hview hsealed htree hvalue hvalidated).bind fun _ => .finish rfl

/-- `validate` works on where the metadata is decoded at no depth. -/
theorem nativeValidate_works
    (h : ∀ depth, HeapView.decodeTypeRef ⟨current, some env.background⟩ depth type.value "Type" =
      .none) (answers : List Bool) :
    nativeValidate env type value current answers = .ask .work :=
  HostProgram.search_works h 0 answers

end Validate

end Telora.Vm
