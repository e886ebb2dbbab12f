import Telora.Inference.State

/-!
# Resolution and unification

Resolving replaces every bound variable of a type, to the end of the chain of bindings.
Unification makes two types equal where they can be, looking at resolved types only, and
`check` lets an actual type pass where an expected one is wanted.

A group of recursive closures is inferred against skeletons, whose unknown results are
variables. The body of each closure gives an equation for its result; the equations are
solved by rounds of approximation from below, and the solution is bound to the results.
-/

namespace Telora

open Library TypeDescriptor

section Resolution

variable (debugText : TypeDescriptor → String)

/-- A descriptor with its variables replaced, where all of them have a replacement. -/
def substitute? (valuation : Nat → Option TypeDescriptor) (ty : TypeDescriptor) :
    Option TypeDescriptor :=
  if ty.inferenceLeaves.all fun id => (valuation id).isSome then
    some (ty.substitute debugText fun id => (valuation id).getD (.inference id))
  else none

namespace Substitutions

/-- What a variable stands for, along at most `depth` bindings. -/
def expand (substitutions : Substitutions) : Nat → Nat → Option TypeDescriptor
  | 0, _ => none
  | depth + 1, id =>
      match substitutions.lookup id with
      | none => some (.inference id)
      | some ty => substitute? debugText (expand substitutions depth) ty

/-- A chain of bindings longer than the table has a cycle, and following it does not end. -/
def resolve (substitutions : Substitutions) (ty : TypeDescriptor) : Option TypeDescriptor :=
  substitute? debugText (substitutions.expand debugText (substitutions.length + 1)) ty

/-- Whether a variable occurs in a type; the parts of a resolved type are resolved again. -/
def occurs (substitutions : Substitutions) (id : Nat) : Nat → TypeDescriptor → Option Bool
  | 0, _ => none
  | depth + 1, ty =>
      match substitutions.resolve debugText ty with
      | none => none
      | some (.inference candidate) => some (candidate == id)
      | some resolved => anyOccurs (substitutions.occurs id depth) resolved.components
where
  anyOccurs (occurs : TypeDescriptor → Option Bool) : List TypeDescriptor → Option Bool
    | [] => some false
    | item :: rest =>
        match occurs item with
        | some false => anyOccurs occurs rest
        | found => found

end Substitutions

end Resolution

namespace Infer

variable (context : InferContext)

def ofOption {α : Type} : Option α → Infer α
  | some a => return a
  | none => outOfDepth

def resolve (ty : TypeDescriptor) : Infer TypeDescriptor := do
  ofOption ((← get).substitutions.resolve context.debugText ty)

def requireNumeric (ty : TypeDescriptor) : Infer PUnit := do
  match ← resolve context ty with
  | .inference id => addNumeric id
  | .int | .float | .any | .never => return
  | ty => fail s!"numeric operator requires Int or Float, found {ty.displayName}"

/-- A numeric variable is bound to a numeric type or makes the variable it is bound to
numeric. -/
def checkNumericBinding (id : Nat) (ty : TypeDescriptor) : Infer PUnit := do
  if (← get).numericVariables.contains id then
    match ty with
    | .inference target => addNumeric target
    | .int | .float | .any | .never => pure ⟨⟩
    | _ => fail s!"numeric operator requires Int or Float, found {ty.displayName}"
  match ty with
  | .inference target => if (← get).numericVariables.contains target then addNumeric id
  | _ => pure ⟨⟩

def bindInferenceVariable (id : Nat) (ty : TypeDescriptor) : Infer PUnit := do
  let ty ← resolve context ty
  if ← ofOption ((← get).substitutions.occurs context.debugText id context.depth ty) then
    fail s!"infinite type for ?{id}"
  checkNumericBinding id ty
  substitute id ty

def cannotUnify {α : Type} (left right : TypeDescriptor) : Infer α :=
  fail s!"cannot unify {left.displayName} with {right.displayName}"

section Rules

variable (recurse : TypeDescriptor → TypeDescriptor → Infer PUnit)

def unifyItems (lefts rights : List TypeDescriptor) : Infer PUnit :=
  (lefts.zip rights).forM fun pair => recurse pair.1 pair.2

/-- A tagged type against an enum, whichever side it is on: its payload against the one of
the variant. -/
def unifyTagged (tag : Atom) (payload : TypeDescriptor)
    (variants : List (String × Option TypeDescriptor)) : Infer PUnit :=
  match variants.lookup tag.name with
  | some (some expected) => recurse payload expected
  | _ => fail s!"Enum has no payload variant '{tag.name}"

def unifyVariant (variant other : String × Option TypeDescriptor) : Infer PUnit :=
  match variant.2, other.2 with
  | none, none => pure ⟨⟩
  | some left, some right => recurse left right
  | _, _ => fail s!"Enum variant {variant.1} payload shape differs"

def unifyEqual (left right : TypeDescriptor) : Infer PUnit :=
  if left.eq right then pure ⟨⟩ else cannotUnify left right

/-- The rules for two resolved types, tried in this order. -/
def unifyRules (left right : TypeDescriptor) : Infer PUnit :=
  match left, right with
  | .inference left, .inference right =>
      if left = right then pure ⟨⟩ else bindInferenceVariable context left (.inference right)
  | .inference id, ty => bindInferenceVariable context id ty
  | ty, .inference id => bindInferenceVariable context id ty
  | .any, _ | _, .any => pure ⟨⟩
  | .typeOf _, .type => pure ⟨⟩
  | .typeOf left, .typeOf right => recurse left right
  | .array left, .array right => recurse left right
  | .dict left, .dict right => recurse left right
  | .tagged leftTag leftPayload, .tagged rightTag rightPayload =>
      if leftTag = rightTag then recurse leftPayload rightPayload
      else unifyEqual left right
  | .tagged tag payload, .enum variants => unifyTagged recurse tag payload variants
  | .enum variants, .tagged tag payload => unifyTagged recurse tag payload variants
  | .atom tag, .enum variants | .enum variants, .atom tag =>
      match variants.lookup tag.name with
      | some none => pure ⟨⟩
      | _ => unifyEqual left right
  | .atom tag, .function [parameter] result => recurse (.tagged tag parameter) result
  | .function [parameter] result, .atom tag => recurse (.tagged tag parameter) result
  | .tuple lefts, .tuple rights =>
      if lefts.length = rights.length then unifyItems recurse lefts rights
      else unifyEqual left right
  | .union lefts, .union rights =>
      if lefts.length = rights.length then unifyItems recurse lefts rights
      else unifyEqual left right
  | .struct lefts, .struct rights =>
      if lefts.map (·.1) = rights.map (·.1) then
        unifyItems recurse (lefts.map (·.2)) (rights.map (·.2))
      else unifyEqual left right
  | .enum lefts, .enum rights =>
      if lefts.map (·.1) = rights.map (·.1) then
        (lefts.zip rights).forM fun pair => unifyVariant recurse pair.1 pair.2
      else unifyEqual left right
  | .function leftParameters leftResult, .function rightParameters rightResult =>
      if leftParameters.length = rightParameters.length then do
        unifyItems recurse leftParameters rightParameters
        recurse leftResult rightResult
      else unifyEqual left right
  | left, right => unifyEqual left right

/-- Two types without variables are compared by assignability, either way around. -/
def eitherAssignable (left right : TypeDescriptor) : Bool :=
  !left.containsTypeVariable && !right.containsTypeVariable &&
    (assignable left right || assignable right left)

def unifyResolved (left right : TypeDescriptor) : Infer PUnit :=
  match left, right with
  | .struct fields, .dict item => fields.forM fun field => recurse field.2 item
  | .dict _, .struct _ => cannotUnify left right
  | left, right =>
      if eitherAssignable left right then pure ⟨⟩ else unifyRules context recurse left right

end Rules

/-- No query cancels it: the check that each call starts with is left out. -/
def unify : Nat → TypeDescriptor → TypeDescriptor → Infer PUnit
  | 0, _, _ => outOfDepth
  | depth + 1, left, right => do
      unifyResolved context (unify depth) (← resolve context left) (← resolve context right)

def freshen (ty : TypeDescriptor) : Infer TypeDescriptor := do
  let s ← get
  let fresh := ty.freshenRuntimeNeverLeaves s.nextVariable
  set { s with nextVariable := fresh.2 }
  return fresh.1

/-- Without a structural rule, types without variables are compared and others unified. -/
def checkPlain (actual expected : TypeDescriptor) : Infer PUnit :=
  if !actual.containsTypeVariable && !expected.containsTypeVariable then
    if assignable actual expected then pure ⟨⟩ else cannotUnify actual expected
  else unify context context.depth actual expected

section Rules

variable (recurse : TypeDescriptor → TypeDescriptor → Infer PUnit)

def checkRules (actual expected : TypeDescriptor) : Infer PUnit :=
  match actual, expected with
  | .array actual, .array expected => recurse actual expected
  | .dict actual, .dict expected => recurse actual expected
  | .typeOf actual, .typeOf expected => recurse actual expected
  | .tagged actualTag actualPayload, .tagged expectedTag expectedPayload =>
      if actualTag = expectedTag then recurse actualPayload expectedPayload
      else checkPlain context actual expected
  | .tuple actuals, .tuple expecteds =>
      if actuals.length = expecteds.length then unifyItems recurse actuals expecteds
      else checkPlain context actual expected
  | .struct actuals, .struct expecteds =>
      if actuals.map (·.1) = expecteds.map (·.1) then
        unifyItems recurse (actuals.map (·.2)) (expecteds.map (·.2))
      else checkPlain context actual expected
  | .struct actuals, .dict expected => actuals.forM fun field => recurse field.2 expected
  | .function actualParameters actualResult, .function expectedParameters expectedResult =>
      if actualParameters.length = expectedParameters.length then do
        unifyItems recurse actualParameters expectedParameters
        recurse actualResult expectedResult
      else checkPlain context actual expected
  | actual, expected => checkPlain context actual expected

/-- A variable that an actual type with a `Never` inside is expected to be takes the type
with fresh variables there. -/
def checkResolved (actual expected : TypeDescriptor) : Infer PUnit :=
  match actual, expected with
  | .never, _ => pure ⟨⟩
  | actual, .inference id =>
      if actual.containsRuntimeNeverLeaf then do
        bindInferenceVariable context id (← freshen actual)
      else checkRules context recurse actual (.inference id)
  | actual, expected => checkRules context recurse actual expected

end Rules

def checkWithin : Nat → TypeDescriptor → TypeDescriptor → Infer PUnit
  | 0, _, _ => outOfDepth
  | depth + 1, actual, expected => do
      checkResolved context (checkWithin depth) (← resolve context actual)
        (← resolve context expected)

def check (actual expected : TypeDescriptor) : Infer PUnit :=
  checkWithin context context.depth actual expected

def defaultInferenceVariablesToAny : Nat → TypeDescriptor → Infer PUnit
  | 0, _ => outOfDepth
  | depth + 1, ty => do
      match ← resolve context ty with
      | .inference id => substitute id .any
      | resolved => resolved.components.forM (defaultInferenceVariablesToAny depth)

def freshPairs : List Nat → Infer (List (Nat × Nat)) := fun parameters =>
  parameters.mapM' fun parameter => do return (parameter, ← freshId)

/-- A scheme without parameters is instantiated at the parameters its body mentions. -/
def instantiate (scheme : TypeScheme) : Infer TypeDescriptor := do
  let parameters :=
    if scheme.parameters = [] then scheme.body.collectBoundParameters
    else scheme.parameters.map (·.id)
  return scheme.body.instantiateWith (← freshPairs parameters)

/-- The letters first, then a `T` with the index. -/
def inferredTypeParameterName (index : Nat) : String :=
  if index < 26 then String.singleton (Char.ofNat ('A'.toNat + index)) else s!"T{index}"

/-- The number of the first new parameter, past those the type has. -/
def firstFreeParameter (ty : TypeDescriptor) : Option Nat :=
  match ty.collectBoundParameters.max? with
  | none => some 0
  | some last => if last + 1 < 2 ^ 32 then some (last + 1) else none

/-- The scheme of a resolved type over the variables numbered from `first` on, unless one of
them is numeric. The numbers of its parameters are not bounded, where the source casts the index
of each to 32 bits. -/
def generalization (numericVariables : List Nat) (ty : TypeDescriptor) (first : Nat)
    (location : Loc) : Option TypeScheme :=
  let owned := ty.collectInferenceVariables.filter (first ≤ ·)
  if owned.isEmpty || owned.any numericVariables.contains then none
  else
    (firstFreeParameter ty).map fun firstParameter =>
      { parameters := owned.mapIdx fun index _ =>
          ⟨firstParameter + index, inferredTypeParameterName index, location⟩
        body := ty.bindInferenceVariables (owned.zipIdx firstParameter) }

def generalizeLocalClosure (ty : TypeDescriptor) (first : Nat) (location : Loc) :
    Infer (Option TypeScheme) := do
  let ty ← resolve context ty
  return generalization (← get).numericVariables ty first location

end Infer

namespace TypeDescriptor

end TypeDescriptor

section Approximation

variable (debugText : TypeDescriptor → String) (substitutions : Substitutions)
  (ids : List Nat) (approximations : List (Nat × TypeDescriptor))

/-- A resolved type, unless it still waits for one of the results. -/
def settled (ty : TypeDescriptor) : Option (Option TypeDescriptor) :=
  (substitutions.resolve debugText ty).map fun resolved =>
    if resolved.containsAnyInferenceVariable ids then none else some resolved

mutual

/-- What is known of a type from the approximations of the results; the members of a union
that nothing is known of are left out. -/
def recursiveApproximation : TypeDescriptor → Option (Option TypeDescriptor)
  | .inference id =>
      if ids.contains id then some (approximations.lookup id)
      else settled debugText substitutions ids (.inference id)
  | .union variants =>
      (memberApproximations variants).map fun resolved =>
        if resolved.isEmpty then none else some (canonicalUnion debugText resolved)
  | ty => settled debugText substitutions ids ty
termination_by structural ty => ty

def memberApproximations : List TypeDescriptor → Option (List TypeDescriptor)
  | [] => some []
  | variant :: rest =>
      (recursiveApproximation variant).bind fun first =>
        (memberApproximations rest).map fun others => first.toList ++ others
termination_by structural variants => variants

end

/-- One variable in one round: the approximations of the round so far and whether one of them
is new. -/
def approximateVariable (equations : List (Nat × TypeDescriptor))
    (next : List (Nat × TypeDescriptor) × Bool) (id : Nat) :
    Option (List (Nat × TypeDescriptor) × Bool) :=
  match equations.lookup id with
  | none => some next
  | some equation =>
      (recursiveApproximation debugText substitutions ids approximations equation).map fun
        | none => next
        | some value =>
            if (next.1.lookup id).any (·.eq value) then next
            else (replaceEntry id value next.1, true)

end Approximation

/-- Rounds until nothing is new, and no more than there are variables and one. -/
def approximate (debugText : TypeDescriptor → String) (substitutions : Substitutions)
    (equations : List (Nat × TypeDescriptor)) (ids : List Nat) :
    Nat → List (Nat × TypeDescriptor) → Option (List (Nat × TypeDescriptor))
  | 0, approximations => some approximations
  | rounds + 1, approximations =>
      (ids.foldlM (approximateVariable debugText substitutions ids approximations equations)
          (approximations, false)).bind fun next =>
        if next.2 then approximate debugText substitutions equations ids rounds next.1
        else some next.1

namespace Infer

variable (context : InferContext)

def solveRecursiveEquations (ids : List Nat) : Infer PUnit := do
  let s ← get
  let approximations ← ofOption
    (approximate context.debugText s.substitutions s.recursiveEquations ids (ids.length + 1) [])
  (context.hashOrder approximations).forM fun entry =>
    bindInferenceVariable context entry.1 entry.2

end Infer

end Telora
