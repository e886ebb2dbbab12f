import Telora.Library.Lists
import Telora.Value.Basic

/-!
# Instructions

The three code levels carry the same operations. The register IR names labels,
constants, field texts and nested functions; assembly resolves registers and
labels; linking replaces constants, texts and prototypes by table indices. One
instruction type with the operand types as parameters covers all three.

Two instructions correspond when they are the same operation and their operands
correspond one by one. The operand lists read off what an instruction mentions,
and its flow reads off where control can go next.
-/

namespace Telora.Bytecode

/-- An operation over registers `R`, constants `K`, texts `T`, prototypes `P`
and jump targets `L`. -/
inductive Instr (R K T P L : Type) where
  | loadConst (dst : R) (constant : K)
  | move (dst src : R)
  | makeUpLink (dst : R)
  | readUpLink (dst link : R)
  | initializeUpLink (link src : R)
  | assertUpLinkReady (link : R)
  | assertFunctionArity (value : R) (arity : Nat)
  | add (dst left right : R)
  | subtract (dst left right : R)
  | multiply (dst left right : R)
  | divide (dst left right : R)
  | negate (dst src : R)
  | equal (dst left right : R)
  | lessThan (dst left right : R)
  | makeArray (dst : R) (items : List R)
  | concatArrays (dst : R) (arrays : List R)
  | makeTuple (dst : R) (items : List R)
  | interpolateString (dst : R) (parts : List R)
  | makeDict (dst : R) (fields : List (T × R))
  | mergeDicts (dst : R) (dicts : List R)
  | getField (dst dict : R) (field : T)
  | fieldExists (dst value : R) (field : T)
  | isDict (dst value : R)
  | tupleLengthEquals (dst value : R) (length : Nat)
  | getTuple (dst tuple : R) (index : Nat)
  | taggedTagEquals (dst value tag : R)
  | getTaggedPayload (dst value : R)
  | makeClosure (dst : R) (function : P) (captures : List R)
  | call (base : R) (argumentCount : Nat)
  | tailCall (base : R) (argumentCount : Nat)
  | jump (target : L)
  | jumpIfFalse (condition : R) (target : L)
  | ret (src : R)
  | fail (message : String)
  | panic (message : R)
  | raise (error : R)
  deriving DecidableEq

abbrev RegisterId := Nat
abbrev ConstantId := Nat
abbrev LabelId := Nat
abbrev Register := Nat
abbrev ValueLinkId := Nat
abbrev TextLinkId := Nat
abbrev ProtoLinkId := Nat

/-- A linked instruction: every operand is an index. -/
abbrev Opcode := Instr Register ValueLinkId TextLinkId ProtoLinkId Nat

/-- The origin shared by the instructions from `start` up to `stop`. -/
structure DebugOriginRange where
  start : Nat
  stop : Nat
  origin : Origin
  deriving DecidableEq

/-- The part of a function that holds no value, text or prototype. -/
structure FuncByteCode where
  name : String
  parameterCount : Nat
  captureCount : Nat
  registerCount : Nat
  instructions : List Opcode
  debugOrigins : List DebugOriginRange
  deriving DecidableEq

def FuncByteCode.originAt (code : FuncByteCode) (instruction : Nat) : Option Origin :=
  (code.debugOrigins.find? fun range =>
    range.start ≤ instruction && instruction < range.stop).map (·.origin)

end Telora.Bytecode

namespace Telora.Bytecode.Instr

open Library

variable {R K T P L : Type} {R' K' T' P' L' : Type} {R'' K'' T'' P'' L'' : Type}

/-- A named field corresponds when its text and its register do. -/
def FieldRel (rT : T → T' → Prop) (rR : R → R' → Prop) (x : T × R) (x' : T' × R') : Prop :=
  rT x.1 x'.1 ∧ rR x.2 x'.2

/-- Same operation, related operands. -/
inductive Rel (rR : R → R' → Prop) (rK : K → K' → Prop) (rT : T → T' → Prop)
    (rP : P → P' → Prop) (rL : L → L' → Prop) :
    Instr R K T P L → Instr R' K' T' P' L' → Prop where
  | loadConst {d d' k k'} : rR d d' → rK k k' → Rel rR rK rT rP rL (.loadConst d k) (.loadConst d' k')
  | move {d d' s s'} : rR d d' → rR s s' → Rel rR rK rT rP rL (.move d s) (.move d' s')
  | makeUpLink {d d'} : rR d d' → Rel rR rK rT rP rL (.makeUpLink d) (.makeUpLink d')
  | readUpLink {d d' l l'} : rR d d' → rR l l' →
      Rel rR rK rT rP rL (.readUpLink d l) (.readUpLink d' l')
  | initializeUpLink {l l' s s'} : rR l l' → rR s s' →
      Rel rR rK rT rP rL (.initializeUpLink l s) (.initializeUpLink l' s')
  | assertUpLinkReady {l l'} : rR l l' →
      Rel rR rK rT rP rL (.assertUpLinkReady l) (.assertUpLinkReady l')
  | assertFunctionArity {v v' n} : rR v v' →
      Rel rR rK rT rP rL (.assertFunctionArity v n) (.assertFunctionArity v' n)
  | add {d d' l l' r r'} : rR d d' → rR l l' → rR r r' →
      Rel rR rK rT rP rL (.add d l r) (.add d' l' r')
  | subtract {d d' l l' r r'} : rR d d' → rR l l' → rR r r' →
      Rel rR rK rT rP rL (.subtract d l r) (.subtract d' l' r')
  | multiply {d d' l l' r r'} : rR d d' → rR l l' → rR r r' →
      Rel rR rK rT rP rL (.multiply d l r) (.multiply d' l' r')
  | divide {d d' l l' r r'} : rR d d' → rR l l' → rR r r' →
      Rel rR rK rT rP rL (.divide d l r) (.divide d' l' r')
  | negate {d d' s s'} : rR d d' → rR s s' → Rel rR rK rT rP rL (.negate d s) (.negate d' s')
  | equal {d d' l l' r r'} : rR d d' → rR l l' → rR r r' →
      Rel rR rK rT rP rL (.equal d l r) (.equal d' l' r')
  | lessThan {d d' l l' r r'} : rR d d' → rR l l' → rR r r' →
      Rel rR rK rT rP rL (.lessThan d l r) (.lessThan d' l' r')
  | makeArray {d d' xs xs'} : rR d d' → List.Forall₂ rR xs xs' →
      Rel rR rK rT rP rL (.makeArray d xs) (.makeArray d' xs')
  | concatArrays {d d' xs xs'} : rR d d' → List.Forall₂ rR xs xs' →
      Rel rR rK rT rP rL (.concatArrays d xs) (.concatArrays d' xs')
  | makeTuple {d d' xs xs'} : rR d d' → List.Forall₂ rR xs xs' →
      Rel rR rK rT rP rL (.makeTuple d xs) (.makeTuple d' xs')
  | interpolateString {d d' xs xs'} : rR d d' → List.Forall₂ rR xs xs' →
      Rel rR rK rT rP rL (.interpolateString d xs) (.interpolateString d' xs')
  | makeDict {d d' xs xs'} : rR d d' →
      List.Forall₂ (FieldRel rT rR) xs xs' →
      Rel rR rK rT rP rL (.makeDict d xs) (.makeDict d' xs')
  | mergeDicts {d d' xs xs'} : rR d d' → List.Forall₂ rR xs xs' →
      Rel rR rK rT rP rL (.mergeDicts d xs) (.mergeDicts d' xs')
  | getField {d d' v v' t t'} : rR d d' → rR v v' → rT t t' →
      Rel rR rK rT rP rL (.getField d v t) (.getField d' v' t')
  | fieldExists {d d' v v' t t'} : rR d d' → rR v v' → rT t t' →
      Rel rR rK rT rP rL (.fieldExists d v t) (.fieldExists d' v' t')
  | isDict {d d' v v'} : rR d d' → rR v v' → Rel rR rK rT rP rL (.isDict d v) (.isDict d' v')
  | tupleLengthEquals {d d' v v' n} : rR d d' → rR v v' →
      Rel rR rK rT rP rL (.tupleLengthEquals d v n) (.tupleLengthEquals d' v' n)
  | getTuple {d d' v v' n} : rR d d' → rR v v' →
      Rel rR rK rT rP rL (.getTuple d v n) (.getTuple d' v' n)
  | taggedTagEquals {d d' v v' t t'} : rR d d' → rR v v' → rR t t' →
      Rel rR rK rT rP rL (.taggedTagEquals d v t) (.taggedTagEquals d' v' t')
  | getTaggedPayload {d d' v v'} : rR d d' → rR v v' →
      Rel rR rK rT rP rL (.getTaggedPayload d v) (.getTaggedPayload d' v')
  | makeClosure {d d' p p' xs xs'} : rR d d' → rP p p' → List.Forall₂ rR xs xs' →
      Rel rR rK rT rP rL (.makeClosure d p xs) (.makeClosure d' p' xs')
  | call {b b' n} : rR b b' → Rel rR rK rT rP rL (.call b n) (.call b' n)
  | tailCall {b b' n} : rR b b' → Rel rR rK rT rP rL (.tailCall b n) (.tailCall b' n)
  | jump {t t'} : rL t t' → Rel rR rK rT rP rL (.jump t) (.jump t')
  | jumpIfFalse {c c' t t'} : rR c c' → rL t t' →
      Rel rR rK rT rP rL (.jumpIfFalse c t) (.jumpIfFalse c' t')
  | ret {s s'} : rR s s' → Rel rR rK rT rP rL (.ret s) (.ret s')
  | fail {m} : Rel rR rK rT rP rL (.fail m) (.fail m)
  | panic {m m'} : rR m m' → Rel rR rK rT rP rL (.panic m) (.panic m')
  | raise {e e'} : rR e e' → Rel rR rK rT rP rL (.raise e) (.raise e')

/-- Correspondence composes operand by operand. -/
theorem Rel.comp {rR : R → R' → Prop} {rK : K → K' → Prop} {rT : T → T' → Prop}
    {rP : P → P' → Prop} {rL : L → L' → Prop}
    {sR : R' → R'' → Prop} {sK : K' → K'' → Prop} {sT : T' → T'' → Prop}
    {sP : P' → P'' → Prop} {sL : L' → L'' → Prop}
    {tR : R → R'' → Prop} {tK : K → K'' → Prop} {tT : T → T'' → Prop}
    {tP : P → P'' → Prop} {tL : L → L'' → Prop}
    (hR : ∀ {x y z}, rR x y → sR y z → tR x z) (hK : ∀ {x y z}, rK x y → sK y z → tK x z)
    (hT : ∀ {x y z}, rT x y → sT y z → tT x z) (hP : ∀ {x y z}, rP x y → sP y z → tP x z)
    (hL : ∀ {x y z}, rL x y → sL y z → tL x z)
    {a : Instr R K T P L} {b : Instr R' K' T' P' L'} {c : Instr R'' K'' T'' P'' L''}
    (hab : Rel rR rK rT rP rL a b) (hbc : Rel sR sK sT sP sL b c) :
    Rel tR tK tT tP tL a c := by
  have hRs : ∀ {xs ys zs}, List.Forall₂ rR xs ys → List.Forall₂ sR ys zs →
      List.Forall₂ tR xs zs := fun h₁ h₂ => @forall₂_comp _ _ _ rR sR tR hR _ _ _ h₁ h₂
  have hFields : ∀ {x y z}, FieldRel rT rR x y → FieldRel sT sR y z → FieldRel tT tR x z :=
    fun p q => ⟨hT p.1 q.1, hR p.2 q.2⟩
  have hFs : ∀ {xs ys zs}, List.Forall₂ (FieldRel rT rR) xs ys →
      List.Forall₂ (FieldRel sT sR) ys zs → List.Forall₂ (FieldRel tT tR) xs zs :=
    fun h₁ h₂ =>
      @forall₂_comp _ _ _ (FieldRel rT rR) (FieldRel sT sR) (FieldRel tT tR) hFields _ _ _ h₁ h₂
  cases hab <;> cases hbc <;> constructor <;>
    first
      | exact hR ‹_› ‹_›
      | exact hK ‹_› ‹_›
      | exact hL ‹_› ‹_›
      | exact hT ‹_› ‹_›
      | exact hP ‹_› ‹_›
      | exact hRs ‹_› ‹_›
      | exact hFs ‹_› ‹_›

/-- Weaker operand relations give a weaker correspondence. -/
theorem Rel.imp {rR sR : R → R' → Prop} {rK sK : K → K' → Prop} {rT sT : T → T' → Prop}
    {rP sP : P → P' → Prop} {rL sL : L → L' → Prop}
    (hR : ∀ x y, rR x y → sR x y) (hK : ∀ x y, rK x y → sK x y) (hT : ∀ x y, rT x y → sT x y)
    (hP : ∀ x y, rP x y → sP x y) (hL : ∀ x y, rL x y → sL x y)
    {a : Instr R K T P L} {b : Instr R' K' T' P' L'} (h : Rel rR rK rT rP rL a b) :
    Rel sR sK sT sP sL a b := by
  have hRs : ∀ {xs ys}, List.Forall₂ rR xs ys → List.Forall₂ sR xs ys := fun h => h.imp hR
  have hFs : ∀ {xs ys}, List.Forall₂ (FieldRel rT rR) xs ys → List.Forall₂ (FieldRel sT sR) xs ys :=
    fun h => h.imp fun _ _ p => ⟨hT _ _ p.1, hR _ _ p.2⟩
  cases h <;> constructor <;>
    first
      | exact hR _ _ ‹_›
      | exact hK _ _ ‹_›
      | exact hL _ _ ‹_›
      | exact hT _ _ ‹_›
      | exact hP _ _ ‹_›
      | exact hRs ‹_›
      | exact hFs ‹_›

/-- The registers an instruction names, a call by its base. -/
def registers : Instr R K T P L → List R
  | .loadConst dst _ => [dst]
  | .move dst src => [dst, src]
  | .makeUpLink dst => [dst]
  | .readUpLink dst link => [dst, link]
  | .initializeUpLink link src => [link, src]
  | .assertUpLinkReady link => [link]
  | .assertFunctionArity value _ => [value]
  | .add dst left right => [dst, left, right]
  | .subtract dst left right => [dst, left, right]
  | .multiply dst left right => [dst, left, right]
  | .divide dst left right => [dst, left, right]
  | .negate dst src => [dst, src]
  | .equal dst left right => [dst, left, right]
  | .lessThan dst left right => [dst, left, right]
  | .makeArray dst items => dst :: items
  | .concatArrays dst arrays => dst :: arrays
  | .makeTuple dst items => dst :: items
  | .interpolateString dst parts => dst :: parts
  | .makeDict dst fields => dst :: fields.map Prod.snd
  | .mergeDicts dst dicts => dst :: dicts
  | .getField dst dict _ => [dst, dict]
  | .fieldExists dst value _ => [dst, value]
  | .isDict dst value => [dst, value]
  | .tupleLengthEquals dst value _ => [dst, value]
  | .getTuple dst tuple _ => [dst, tuple]
  | .taggedTagEquals dst value tag => [dst, value, tag]
  | .getTaggedPayload dst value => [dst, value]
  | .makeClosure dst _ captures => dst :: captures
  | .call base _ => [base]
  | .tailCall base _ => [base]
  | .jump _ => []
  | .jumpIfFalse condition _ => [condition]
  | .ret src => [src]
  | .fail _ => []
  | .panic message => [message]
  | .raise error => [error]

/-- The base and argument count of a call window. -/
def window : Instr R K T P L → Option (R × Nat)
  | .call base argumentCount => some (base, argumentCount)
  | .tailCall base argumentCount => some (base, argumentCount)
  | _ => none

/-- The constant an instruction loads. -/
def constant : Instr R K T P L → Option K
  | .loadConst _ constant => some constant
  | _ => none

/-- The jump target an instruction names. -/
def target : Instr R K T P L → Option L
  | .jump target => some target
  | .jumpIfFalse _ target => some target
  | _ => none

/-- The function an instruction closes over. -/
def closed : Instr R K T P L → Option P
  | .makeClosure _ function _ => some function
  | _ => none

/-- Where control can go after an instruction. -/
inductive Flow (L : Type) where
  | next
  | jump (target : L)
  | branch (target : L)
  | leave
  deriving DecidableEq

def flow : Instr R K T P L → Flow L
  | .jump target => .jump target
  | .jumpIfFalse _ target => .branch target
  | .tailCall _ _ => .leave
  | .ret _ => .leave
  | .fail _ => .leave
  | .panic _ => .leave
  | .raise _ => .leave
  | _ => .next

/-- Flows of corresponding instructions have the same shape. -/
inductive Flow.Rel (rL : L → L' → Prop) : Flow L → Flow L' → Prop where
  | next : Flow.Rel rL .next .next
  | jump {t t'} : rL t t' → Flow.Rel rL (.jump t) (.jump t')
  | branch {t t'} : rL t t' → Flow.Rel rL (.branch t) (.branch t')
  | leave : Flow.Rel rL .leave .leave

section Correspondence

variable {rR : R → R' → Prop} {rK : K → K' → Prop} {rT : T → T' → Prop}
  {rP : P → P' → Prop} {rL : L → L' → Prop}
  {a : Instr R K T P L} {b : Instr R' K' T' P' L'}

theorem Rel.flow (h : Rel rR rK rT rP rL a b) : Flow.Rel rL a.flow b.flow := by
  cases h <;> constructor <;> assumption

theorem Rel.constant (h : Rel rR rK rT rP rL a b) : Option.Rel rK a.constant b.constant := by
  cases h <;> constructor
  assumption

theorem Rel.target (h : Rel rR rK rT rP rL a b) : Option.Rel rL a.target b.target := by
  cases h <;> constructor <;> assumption

theorem Rel.closed (h : Rel rR rK rT rP rL a b) : Option.Rel rP a.closed b.closed := by
  cases h <;> constructor
  assumption

theorem Rel.window (h : Rel rR rK rT rP rL a b) :
    Option.Rel (fun w w' => rR w.1 w'.1 ∧ w.2 = w'.2) a.window b.window := by
  cases h <;> constructor; all_goals exact ⟨by assumption, rfl⟩

theorem Rel.registers (h : Rel rR rK rT rP rL a b) :
    List.Forall₂ rR a.registers b.registers := by
  cases h with
  | makeDict hd hfields =>
      refine .cons hd (List.forall₂_map_left_iff.mpr (List.forall₂_map_right_iff.mpr ?_))
      exact hfields.imp fun _ _ hx => hx.2
  | _ => simp_all [Instr.registers]

end Correspondence

end Telora.Bytecode.Instr
