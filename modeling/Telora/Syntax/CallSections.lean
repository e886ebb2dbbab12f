import Telora.Library.ExceptBind
import Telora.Syntax.Instantiate

/-!
# Call sections

A call with placeholders among its arguments is a closure over them. The parameters have names
that no identifier of a source has; bare placeholders are numbered by their position, indexed
ones by their index.
-/

namespace Telora

open Library

/-- An argument of a call section. -/
inductive ArgumentNode where
  | placeholder (node : Nat) (location : Loc)
  /-- `_` and its digits. -/
  | indexedPlaceholder (node : Nat) (digits : List Char) (location : Loc)
  | expression (expression : Expr)

inductive CallArgument where
  | bare (node : Nat) (location : Loc)
  | indexed (node index : Nat) (location : Loc)
  | expression (expression : Expr)

/-- What is wrong, and the node it is reported at. -/
abbrev SectionError := Nat × String

namespace CallSection

def maxPlaceholderParameters : Nat := 2 ^ 16 - 1

def placeholderParameter (index : Nat) : String :=
  "\x00telora_placeholder_" ++ toString index

def placeholderVariable (index : Nat) (location : Loc) : Expr :=
  .mk (.variable ⟨placeholderParameter index, location⟩) location

def callArgument : ArgumentNode → Except SectionError CallArgument
  | .placeholder node location => .ok (.bare node location)
  | .indexedPlaceholder node digits location =>
      if Nat.ofDigitChars 10 digits 0 < 2 ^ 64 then
        .ok (.indexed node (Nat.ofDigitChars 10 digits 0) location)
      else .error (node, "placeholder index exceeds the supported range")
  | .expression expression => .ok (.expression expression)

def bareNode : CallArgument → Option Nat
  | .bare node _ => some node
  | _ => none

def indexedNode : CallArgument → Option Nat
  | .indexed node _ _ => some node
  | _ => none

def bareLocation : CallArgument → Option Loc
  | .bare _ location => some location
  | _ => none

def placeholderIndex : CallArgument → Option Nat
  | .indexed _ index _ => some index
  | _ => none

def hasIndex (index : Nat) (argument : CallArgument) : Option Nat :=
  match argument with
  | .indexed node found _ => if found = index then some node else none
  | _ => none

/-- The first use of an index is where its parameter is. -/
def placeIndexed (locations : List (Option Loc)) (argument : CallArgument) :
    List (Option Loc) :=
  match argument with
  | .indexed _ index location => locations.modify index fun found => some (found.getD location)
  | _ => locations

/-- The places of indexed parameters, which are all used and within the limit. -/
def indexedLocations (arguments : List CallArgument) (firstIndexed : Nat) :
    Except SectionError (List Loc) :=
  let largest := (arguments.filterMap placeholderIndex).max?.getD 0
  if maxPlaceholderParameters ≤ largest then
    .error ((arguments.findSome? (hasIndex largest)).getD firstIndexed,
      s!"placeholder index exceeds the limit of {maxPlaceholderParameters} parameters")
  else
    let locations := arguments.foldl placeIndexed (List.replicate (largest + 1) none)
    match locations.findIdx? Option.isNone with
    | some missing => .error (firstIndexed, s!"indexed placeholders are missing _{missing}")
    | none => .ok (locations.filterMap id)

def parameterLocations (arguments : List CallArgument) (sectionNode : Nat) :
    Except SectionError (List Loc) :=
  match arguments.findSome? bareNode, arguments.findSome? indexedNode with
  | some _, some node =>
      .error (node, "cannot mix '_' and indexed placeholders in one call")
  | none, none => .error (sectionNode, "call section requires at least one placeholder")
  | some _, none => .ok (arguments.filterMap bareLocation)
  | none, some node => indexedLocations arguments node

def placeholderParameters (locations : List Loc) : List ClosureParameter :=
  locations.mapIdx fun index location => .mk ⟨placeholderParameter index, location⟩ none

/-- The arguments of the call, from a bare placeholder of the given number on. -/
def callArguments (nextBare : Nat) : List CallArgument → List Expr
  | [] => []
  | .expression expression :: rest => expression :: callArguments nextBare rest
  | .bare _ location :: rest =>
      placeholderVariable nextBare location :: callArguments (nextBare + 1) rest
  | .indexed _ index location :: rest =>
      placeholderVariable index location :: callArguments nextBare rest

def elaborateCallSection (callee : Expr) (arguments : List CallArgument) (sectionNode : Nat)
    (location : Loc) : Except SectionError Expr := do
  let locations ← parameterLocations arguments sectionNode
  let call := Expr.mk (.call callee (callArguments 0 arguments)) location
  return .mk (.closure (placeholderParameters locations) none (.mk [] call location)) location

def sectionExpression (callee : Expr) (arguments : List ArgumentNode) (sectionNode : Nat)
    (location : Loc) : Except SectionError Expr := do
  let arguments ← arguments.mapM callArgument
  elaborateCallSection callee arguments sectionNode location

def isBare : ArgumentNode → Bool
  | .placeholder _ _ => true
  | _ => false

def writtenIndex : ArgumentNode → Option Nat
  | .indexedPlaceholder _ digits _ => some (Nat.ofDigitChars 10 digits 0)
  | _ => none

/-- The indices of the placeholders, as often as they are used. -/
def indices (arguments : List ArgumentNode) : List Nat :=
  arguments.filterMap writtenIndex

/-- There are placeholders, all of one kind, and the indices are those up to a largest one, which
is within the limit. -/
structure PlaceholdersFit (arguments : List ArgumentNode) : Prop where
  some : (∃ argument ∈ arguments, isBare argument = true) ∨ indices arguments ≠ []
  unmixed : (∃ argument ∈ arguments, isBare argument = true) → indices arguments = []
  limit : ∀ index ∈ indices arguments, index < maxPlaceholderParameters
  gapless : ∀ index ∈ indices arguments, ∀ smaller ≤ index, smaller ∈ indices arguments

/-- The number of bare placeholders, or else the number of indices. -/
def arity (arguments : List ArgumentNode) : Nat :=
  if arguments.countP isBare = 0 then (indices arguments).max?.getD 0 + 1
  else arguments.countP isBare

/-- What takes the place of an argument with so many bare placeholders before it. -/
def replacement (values : List Expr) (bareBefore : Nat) : ArgumentNode → Option Expr
  | .expression expression => some expression
  | .placeholder _ _ => values[bareBefore]?
  | .indexedPlaceholder _ digits _ => values[Nat.ofDigitChars 10 digits 0]?

/-- Each bare placeholder is replaced by the value of its number, each indexed one by that of its
index, and the other arguments stay in place. -/
def Filled (values : List Expr) (arguments : List ArgumentNode) (filled : List Expr) : Prop :=
  ∀ position, filled[position]? = arguments[position]?.bind fun argument =>
    replacement values ((arguments.take position).countP isBare) argument

end CallSection

/-- The body of a closure that is applied to as many values as it has parameters. -/
def Expr.applied (function : Expr) (values : List Expr) : Option Block :=
  match function.value with
  | .closure parameters _ body =>
      if parameters.length = values.length then
        some (body.instantiate fun name => ((ClosureParameter.names parameters).zip values).lookup name)
      else none
  | _ => none

namespace CallSection

mutual

/-- Expressions as the parser builds them: an identifier of the source is the name of no
placeholder, and sections are built of expressions that were built before. -/
inductive Parsed : Expr → Prop
  | int (value location) : Parsed (.mk (.int value) location)
  | float (value location) : Parsed (.mk (.float value) location)
  | string (value location) : Parsed (.mk (.string value) location)
  | bytes (value location) : Parsed (.mk (.bytes value) location)
  | atom (name location) : Parsed (.mk (.atom name) location)
  | variable (name location) (h : ∀ index, name.value ≠ placeholderParameter index) :
      Parsed (.mk (.variable name) location)
  | interpolatedString (parts location)
      (h : ∀ expression, .expression expression ∈ parts → Parsed expression) :
      Parsed (.mk (.interpolatedString parts) location)
  | array (items location) (h : ∀ item ∈ items, Parsed item) :
      Parsed (.mk (.array items) location)
  | tuple (items location) (h : ∀ item ∈ items, Parsed item) :
      Parsed (.mk (.tuple items) location)
  | spread (operand location) (h : Parsed operand) : Parsed (.mk (.spread operand) location)
  | dict (fields location) (h : ∀ label value, DictField.mk label value ∈ fields → Parsed value) :
      Parsed (.mk (.dict fields) location)
  | block (block location) (h : ParsedBlock block) : Parsed (.mk (.block block) location)
  | unary (operator operand location) (h : Parsed operand) :
      Parsed (.mk (.unary operator operand) location)
  | propagate (operand location) (h : Parsed operand) :
      Parsed (.mk (.propagate operand) location)
  | return (value location) (h : Parsed value) : Parsed (.mk (.return value) location)
  | panic (message location) (h : Parsed message) : Parsed (.mk (.panic message) location)
  | raise (error location) (h : Parsed error) : Parsed (.mk (.raise error) location)
  | binary (operator left right location) (hleft : Parsed left) (hright : Parsed right) :
      Parsed (.mk (.binary operator left right) location)
  | field (receiver label location) (h : Parsed receiver) :
      Parsed (.mk (.field receiver label) location)
  | call (callee arguments location) (hcallee : Parsed callee)
      (harguments : ∀ argument ∈ arguments, Parsed argument) :
      Parsed (.mk (.call callee arguments) location)
  | typeApply (callee arguments location) (hcallee : Parsed callee)
      (harguments : ∀ expression place, TypeArgument.explicit expression place ∈ arguments →
        Parsed expression) :
      Parsed (.mk (.typeApply callee arguments) location)
  | interpreter (operand elaboration location) (hoperand : Parsed operand)
      (helaboration : Parsed elaboration) :
      Parsed (.mk (.interpreter operand elaboration) location)
  | closure (parameters resultAnnotation body location)
      (hparameters : ∀ label annotation, ClosureParameter.mk label (some annotation) ∈ parameters →
        Parsed annotation)
      (hresult : ∀ annotation ∈ resultAnnotation, Parsed annotation)
      (hbody : ParsedBlock body) :
      Parsed (.mk (.closure parameters resultAnnotation body) location)
  | if (condition thenBranch elseBranch location) (hcondition : Parsed condition)
      (hthen : ParsedBlock thenBranch) (helse : ParsedBlock elseBranch) :
      Parsed (.mk (.if condition thenBranch elseBranch) location)
  | ifLet (pattern value thenBranch elseBranch location) (hvalue : Parsed value)
      (hthen : ParsedBlock thenBranch) (helse : ParsedBlock elseBranch) :
      Parsed (.mk (.ifLet pattern value thenBranch elseBranch) location)
  | letElse (pattern value elseBranch body location) (hvalue : Parsed value)
      (helse : ParsedBlock elseBranch) (hbody : ParsedBlock body) :
      Parsed (.mk (.letElse pattern value elseBranch body) location)
  | match (value arms location) (hvalue : Parsed value)
      (hguards : ∀ pattern guard result required,
        MatchArm.mk pattern (some guard) result required ∈ arms → Parsed guard)
      (harms : ∀ pattern guard result required,
        MatchArm.mk pattern guard result required ∈ arms → Parsed result) :
      Parsed (.mk (.match value arms) location)
  | section (callee arguments sectionNode location expression) (hcallee : Parsed callee)
      (harguments : ∀ argument, ArgumentNode.expression argument ∈ arguments → Parsed argument)
      (h : sectionExpression callee arguments sectionNode location = .ok expression) :
      Parsed expression

inductive ParsedBlock : Block → Prop
  | mk (bindings result location)
      (hannotations : ∀ kind importedName name typeParameters annotation value,
        Binding.mk kind importedName name typeParameters (some annotation) value ∈ bindings →
          Parsed annotation)
      (hvalues : ∀ kind importedName name typeParameters annotation value,
        Binding.mk kind importedName name typeParameters annotation value ∈ bindings → Parsed value)
      (hresult : Parsed result) : ParsedBlock (.mk bindings result location)

end

end CallSection

end Telora
