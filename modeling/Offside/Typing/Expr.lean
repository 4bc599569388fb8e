import Offside.Typing.Functions
import Offside.Typing.Operator
import Offside.Typing.Scope

/-! The types of expressions. The first part that has no type is reported, from left to right and
from the inside out. -/
namespace Offside

/-- Where a part of a program stands, and its type. -/
structure Typed where
  type : Ty
  span : Span
deriving DecidableEq, Repr, Inhabited

/-- The type of a checked expression. -/
def Expr.type (e : Expr Typed) : Ty := e.note.type

/-- Where a checked expression stands. -/
def Expr.span (e : Expr Typed) : Span := e.note.span

namespace Functions

/-- Compares arguments with the types of the parameters, in order; the first has the given index. -/
def matchArguments (function : String) (index : Nat) :
    List (Expr Typed) → List Ty → Except Error Unit
  | argument :: arguments, type :: types =>
    if argument.type = type then matchArguments function (index + 1) arguments types
    else .error ⟨.argumentTypeMismatch function index type.name argument.type.name,
      argument.span.start⟩
  | _, _ => .ok ()

/-- Refuses any other number of arguments. -/
def requireCount (function : String) (expected : Nat) (arguments : List (Expr Typed))
    (p : Position) : Except Error Unit :=
  if arguments.length = expected then .ok ()
  else .error ⟨.argumentCountMismatch function expected arguments.length, p⟩

/-- The type of what a call at a position gives back. -/
def callType (functions : Functions) (function : String) (arguments : List (Expr Typed))
    (p : Position) : Except Error Ty :=
  if function = showFunction then do
    requireCount function 1 arguments p
    return .none
  else match functions.get? function with
    | none => .error ⟨.undeclaredFunction function, p⟩
    | some signature => do
      requireCount function signature.parameters.length arguments p
      matchArguments function 1 arguments signature.parameters
      return signature.returns

end Functions

namespace Expr

/-- The type of a variable at a position. -/
def variableType (scope : Scope) (name : String) (p : Position) : Except Error Ty :=
  match scope.get? name with
  | some type => .ok type
  | none => .error ⟨.undeclaredVariable name, p⟩

mutual
/-- Notes the type of every part of an expression. -/
def check (functions : Functions) (scope : Scope) : Expr Span → Except Error (Expr Typed)
  | .number value span => .ok (.number value ⟨.int, span⟩)
  | .boolean value span => .ok (.boolean value ⟨.bool, span⟩)
  | .noneLiteral span => .ok (.noneLiteral ⟨.none, span⟩)
  | .ident name span => do
    let type ← variableType scope name span.start
    return .ident name ⟨type, span⟩
  | .binary op lhs rhs span => do
    let lhs ← check functions scope lhs
    let rhs ← check functions scope rhs
    let type ← op.resultType lhs.type rhs.type span.start
    return .binary op lhs rhs ⟨type, span⟩
  | .call function arguments span => do
    let arguments ← checkAll functions scope arguments
    let type ← functions.callType function arguments span.start
    return .call function arguments ⟨type, span⟩

def checkAll (functions : Functions) (scope : Scope) :
    List (Expr Span) → Except Error (List (Expr Typed))
  | [] => .ok []
  | e :: rest => do
    let e ← check functions scope e
    return e :: (← checkAll functions scope rest)
end

end Expr
end Offside
