import Telora.Value.Basic

/-!
# Abstract syntax

Expressions, blocks and patterns as the parser leaves them, with the source range of each
part. Decorators are left out: no pass that is modelled here reads them.
-/

namespace Telora

structure Identifier where
  value : String
  location : Loc
  deriving DecidableEq

inductive BindingKind where
  | letBinding
  | decl
  | defBinding
  | native
  | nativeType
  | type
  | importBinding
  | openImport
  | exportBinding
  deriving DecidableEq

inductive UnaryOperator where
  | negate
  deriving DecidableEq

inductive BinaryOperator where
  | add
  | subtract
  | multiply
  | divide
  | lessThan
  | equal
  | and
  | or
  deriving DecidableEq

mutual

inductive Pattern where
  | mk (value : PatternKind) (location : Loc)

inductive PatternKind where
  | wildcard
  | binding (name : Identifier)
  | int (value : Int)
  | float (value : F64)
  | string (value : String)
  | atom (tag : String)
  | tagged (tag : String) (payload : Pattern)
  | tuple (items : List Pattern)
  | struct (fields : List (Identifier × Pattern))

end

mutual

inductive Expr where
  | mk (value : ExprKind) (location : Loc)

inductive ExprKind where
  | int (value : Int)
  | float (value : F64)
  | string (value : String)
  | interpolatedString (parts : List StringPart)
  | bytes (value : List UInt8)
  | atom (name : String)
  | variable (name : Identifier)
  | array (items : List Expr)
  | spread (operand : Expr)
  | tuple (items : List Expr)
  | dict (fields : List DictField)
  | block (block : Block)
  | unary (operator : UnaryOperator) (operand : Expr)
  | propagate (operand : Expr)
  | return (value : Expr)
  | panic (message : Expr)
  | raise (error : Expr)
  | binary (operator : BinaryOperator) (left right : Expr)
  | field (receiver : Expr) (field : Identifier)
  | call (callee : Expr) (arguments : List Expr)
  | typeApply (callee : Expr) (arguments : List TypeArgument)
  | interpreter (operand elaboration : Expr)
  | closure (parameters : List ClosureParameter) ( resultAnnotation : Option Expr) (body : Block)
  | if (condition : Expr) (thenBranch elseBranch : Block)
  | ifLet (pattern : Pattern) (value : Expr) (thenBranch elseBranch : Block)
  | letElse (pattern : Pattern) (value : Expr) (elseBranch body : Block)
  | match (value : Expr) (arms : List MatchArm)

inductive StringPart where
  | text (text : String)
  | expression (expression : Expr)

/-- An entry of a dict literal; a spread entry has no name. -/
inductive DictField where
  | mk (name : Option Identifier) (value : Expr)

inductive TypeArgument where
  | explicit (expression : Expr) (location : Loc)
  | infer (location : Loc)

inductive ClosureParameter where
  | mk (name : Identifier) ( annotation : Option Expr)

inductive MatchArm where
  | mk (pattern : Pattern) (guard : Option Expr) (value : Expr) (irrefutableRequired : Bool)

inductive Block where
  | mk (bindings : List Binding) (result : Expr) (location : Loc)

/-- A binding; an import item and an export also have the name at the other end. -/
inductive Binding where
  | mk (kind : BindingKind) (importedName : Option Identifier) (name : Identifier)
      (typeParameters : List Identifier) ( annotation : Option Expr) (value : Expr)

end

namespace Expr

def value : Expr → ExprKind
  | .mk value _ => value

def isClosure (expression : Expr) : Bool :=
  match expression.value with
  | .closure .. => true
  | _ => false

end Expr

namespace ClosureParameter

def name : ClosureParameter → Identifier
  | .mk name _ => name

end ClosureParameter

namespace Block

def bindings : Block → List Binding
  | .mk bindings .. => bindings

end Block

namespace Binding

def kind : Binding → BindingKind
  | .mk kind .. => kind

def importedName : Binding → Option Identifier
  | .mk _ importedName .. => importedName

def name : Binding → Identifier
  | .mk _ _ name .. => name

def annotation : Binding → Option Expr
  | .mk _ _ _ _ annotation _ => annotation

def value : Binding → Expr
  | .mk _ _ _ _ _ value => value

end Binding

end Telora
