import Telora.Vm.Machine
import Telora.Library.Runs

/-!
# Registers, charges and allocation

The elementary effects of an instruction. Each of them keeps the length of the
stack and the fuel, so whatever is composed of them does.
-/

namespace Telora.Vm

open Bytecode Library

/-- An instruction threads the store and can fail. -/
abbrev Exec := StateT Store (Except RuntimeError)

/-- The registers of the running frame. -/
structure Window where
  base : Nat
  count : Nat

def ExecutionFrame.window (frame : ExecutionFrame) : Window :=
  ⟨frame.base, frame.function.registerCount⟩

section Effects

variable (site : Site) (window : Window)

def readRegister (register : Register) : Exec RichValue := do
  let store ← get
  if register < window.count then
    match store.stack[window.base + register]?.join with
    | some value => return value
    | none => throw (site.error .invalidBytecode s!"register {register} is uninitialized")
  else
    throw (site.error .invalidBytecode s!"register {register} is out of bounds")

def writeRegister (register : Register) (value : RichValue) : Exec Unit :=
  if register < window.count then
    modify fun store =>
      { store with stack := store.stack.set (window.base + register) (some value) }
  else
    throw (site.error .invalidBytecode s!"register {register} is out of bounds")

def readMany (registers : List Register) : Exec (List RichValue) :=
  registers.mapM (readRegister site window)

/-- The argument registers of a call follow its base register. -/
def readCallArguments (base : Register) (argumentCount : Nat) : Exec (List RichValue) := do
  let store ← get
  if base + 1 + argumentCount ≤ window.count then
    (List.range' (base + 1) argumentCount).mapM fun register =>
      match store.stack[window.base + register]?.join with
      | some value => return value
      | none => throw (site.error .invalidBytecode
          s!"call argument register {register} is uninitialized")
  else
    throw (site.error .invalidBytecode "call window is out of bounds")

def chargeAllocation (bytes : Nat) : Exec Unit := do
  let store ← get
  match store.account.chargeAllocation bytes with
  | some account => set { store with account }
  | none =>
      let quota := store.account.quota.allocationBytes
      throw (site.allocationError s!"allocation quota of {quota} bytes exceeded")

/-- Charge a size that may have overflowed. -/
def chargeChecked (bytes : Option Nat) (message : String) : Exec Unit :=
  match bytes with
  | some bytes => chargeAllocation site bytes
  | none => throw (site.allocationError message)

/-- Charge the slots of a number of values. -/
def chargeValues (env : Environment) (count : Nat) : Exec Unit :=
  chargeChecked site (checkedMul count env.valueSize) "allocation size overflowed"

end Effects

/-- Run an operation on the work heap. -/
def onWork {α : Type} (operation : Heap → α × Heap) : Exec α :=
  modifyGet fun store =>
    let (result, current) := operation store.current
    (result, { store with current })

/-- Allocate a value of the operation at a site. -/
def allocateAt (site : Site) (object : Object) (make : Handle → RuntimeValue) :
    Exec RichValue := do
  return .new (make (← onWork (·.allocate object))) site.location

def freshIdentity : Exec Nat :=
  modifyGet fun store =>
    (store.nextIdentity, { store with nextIdentity := store.nextIdentity + 1 })

/-- Read the store through the view of the work heap over the main heap. -/
def look {α : Type} (env : Environment) (read : HeapView → Except RuntimeError α) : Exec α := do
  let store ← get
  read (store.view env)

/-- The quota and the fuel are as before. -/
structure Unspent (before after : Store) : Prop where
  quota : after.account.quota = before.account.quota
  fuel : after.account.remainingFuel = before.account.remainingFuel

/-- What an instruction leaves alone: the quota, the fuel and the length of the stack. -/
structure Kept (before after : Store) : Prop extends Unspent before after where
  length : after.stack.length = before.stack.length

theorem Kept.refl (store : Store) : Kept store store := ⟨⟨rfl, rfl⟩, rfl⟩

theorem Kept.trans {a b c : Store} (hab : Kept a b) (hbc : Kept b c) : Kept a c :=
  ⟨⟨hbc.quota.trans hab.quota, hbc.fuel.trans hab.fuel⟩, hbc.length.trans hab.length⟩

/-- Every run keeps the stack length, the quota and the fuel. -/
def Keeps {α : Type} (x : Exec α) : Prop :=
  ∀ store, Runs x store (fun _ after => Kept store after) fun _ => True

namespace Keeps

variable {α β : Type}

theorem pure (a : α) : Keeps (Pure.pure a) := fun store => Runs.pure (Kept.refl store)

theorem throw (e : RuntimeError) : Keeps (MonadExcept.throw e : Exec α) :=
  fun _ => Runs.throw trivial

theorem bind {x : Exec β} {f : β → Exec α} (hx : Keeps x) (hf : ∀ b, Keeps (f b)) :
    Keeps (x >>= f) := by
  intro store
  apply Runs.bind
  apply (hx store).imp _ fun _ => id
  intro b mid hmid
  apply (hf b mid).imp _ fun _ => id
  intro a after hafter
  exact hmid.trans hafter

theorem lift (x : Except RuntimeError α) : Keeps (liftM x) :=
  fun store => Runs.lift (fun _ _ => Kept.refl store) fun _ _ => trivial

theorem get : Keeps (MonadState.get : Exec Store) :=
  fun store => Runs.get (Kept.refl store)

theorem mapM {f : β → Exec α} (hf : ∀ b, Keeps (f b)) (xs : List β) : Keeps (xs.mapM f) := by
  induction xs with
  | nil => exact pure []
  | cons x rest ih =>
      rw [List.mapM_cons]
      apply bind (hf x)
      intro y
      apply bind ih
      intro ys
      exact pure (y :: ys)

theorem onWork (operation : Heap → α × Heap) : Keeps (Vm.onWork operation) :=
  fun _ => ⟨⟨rfl, rfl⟩, rfl⟩

theorem freshIdentity : Keeps Vm.freshIdentity := fun _ => ⟨⟨rfl, rfl⟩, rfl⟩

theorem look (env : Environment) (read : HeapView → Except RuntimeError α) :
    Keeps (Vm.look env read) :=
  bind get fun store => lift (read (store.view env))

section Effects

variable (site : Site) (window : Window)

theorem readRegister (register : Register) : Keeps (Vm.readRegister site window register) := by
  apply bind get
  intro store
  split
  · split
    · exact pure _
    · exact throw _
  · exact throw _

theorem writeRegister (register : Register) (value : RichValue) :
    Keeps (Vm.writeRegister site window register value) := by
  unfold Vm.writeRegister
  split
  · intro store
    exact Runs.update ⟨⟨rfl, rfl⟩, List.length_set⟩
  · exact throw _

theorem readMany (registers : List Register) : Keeps (Vm.readMany site window registers) :=
  mapM (readRegister site window) registers

theorem readCallArguments (base : Register) (argumentCount : Nat) :
    Keeps (Vm.readCallArguments site window base argumentCount) := by
  apply bind get
  intro store
  split
  · apply mapM
    intro register
    split
    · exact pure _
    · exact throw _
  · exact throw _

theorem chargeAllocation (bytes : Nat) : Keeps (Vm.chargeAllocation site bytes) := by
  intro store
  apply Runs.bind
  apply Runs.get
  cases hcharge : store.account.chargeAllocation bytes with
  | none => exact Runs.throw trivial
  | some account =>
      obtain ⟨hquota, hfuel⟩ := QuotaAccount.chargeAllocation_eq_some hcharge
      exact Runs.update ⟨⟨hquota, hfuel⟩, rfl⟩

theorem chargeChecked (bytes : Option Nat) (message : String) :
    Keeps (Vm.chargeChecked site bytes message) := by
  unfold Vm.chargeChecked
  split
  · exact chargeAllocation site _
  · exact throw _

theorem chargeValues (env : Environment) (count : Nat) :
    Keeps (Vm.chargeValues site env count) :=
  chargeChecked site _ _

theorem allocateAt (object : Object) (make : Handle → RuntimeValue) :
    Keeps (Vm.allocateAt site object make) :=
  bind (onWork _) fun _ => pure _

end Effects

end Keeps

end Telora.Vm
