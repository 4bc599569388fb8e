import Offside.Program.Expr
import Offside.Program.OfTree.Refusal
import Offside.Text.Decimal

/-! The expression that a node stands for. Parentheses leave no trace, and a sign becomes a part of
the number after it. -/
namespace Offside.Node

/-- The number that a text writes, for the node with the given span. -/
def numberOf (text : String) (span : Span) : Except Error (Expr Span) :=
  match Text.int64? text.toList with
  | some value => .ok (.number value span)
  | none => .error ⟨.numberOutOfRange text, span.start⟩

/-- The number behind a sign. -/
def signedOf (source : List Char) (span : Span) : List Node → Except Error (Expr Span)
  | [] => isEmpty .unaryExpression span "unary operator"
  | sign :: rest =>
    if sign.text source ≠ "+" ∧ sign.text source ≠ "-" then
      .error ⟨.unknownSign (sign.text source), sign.span.start⟩
    else match rest with
      | [] => endsWith .unaryExpression sign "number"
      | number :: _ =>
        if number.label ≠ .number then
          .error ⟨.signWithoutNumber (number.text source), number.span.start⟩
        else numberOf (sign.text source ++ number.text source) span

/-- The operator that a node stands for. -/
def toOperator (source : List Char) (n : Node) : Except Error Operator :=
  match Operator.ofSymbol? (n.text source) with
  | some op => .ok op
  | none => .error ⟨.unknownOperator (n.text source), n.span.start⟩

mutual
/-- The expression that a node stands for. -/
def toExpr (source : List Char) : Node → Except Error (Expr Span)
  | ⟨.noneLiteral, span, _⟩ => .ok (.noneLiteral span)
  | ⟨.boolean, span, _⟩ => .ok (.boolean (span.text source = "True") span)
  | ⟨.number, span, _⟩ => numberOf (span.text source) span
  | ⟨.variableName, span, _⟩ => .ok (.ident (span.text source) span)
  | ⟨.callExpression, span, children⟩ => do
    let callee :: rest := children | isEmpty .callExpression span "function name"
    callee.requireAs .variableName "function name"
    let list :: _ := rest | endsWith .callExpression callee "argument list"
    return .call (callee.text source) (← toArguments source list) span
  | ⟨.unaryExpression, span, children⟩ => signedOf source span children
  | ⟨.binaryExpression, span, children⟩ => do
    let lhs :: rest := children | isEmpty .binaryExpression span "left operand"
    let op :: rest := rest | endsWith .binaryExpression lhs "operator"
    let rhs :: _ := rest | endsWith .binaryExpression op "right operand"
    return .binary (← op.toOperator source) (← toExpr source lhs) (← toExpr source rhs) span
  | ⟨.parenthesizedExpression, span, children⟩ => do
    let opening :: rest := children | isEmpty .parenthesizedExpression span "`(`"
    let inner :: _ := rest | endsWith .parenthesizedExpression opening "expression"
    toExpr source inner
  | n => n.unexpected "expression"

/-- The arguments in a list of them. -/
def toArguments (source : List Char) : Node → Except Error (List (Expr Span))
  | ⟨label, span, children⟩ => do
    require ⟨label, span, children⟩ .argList
    let opening :: rest := children | isEmpty .argList span "`(`"
    opening.require .openParen
    argumentsAfter source opening "`)`" rest

/-- The arguments after a parenthesis or comma. -/
def argumentsAfter (source : List Char) (last : Node) (expected : String) :
    List Node → Except Error (List (Expr Span))
  | [] => endsWith .argList last expected
  | argument :: rest =>
    if argument.label = .closeParen then .ok []
    else do
      let value ← toExpr source argument
      let next :: rest := rest | endsWith .argList argument "`)`"
      match next.label with
      | .comma => return value :: (← argumentsAfter source next "argument" rest)
      | .closeParen => return [value]
      | _ => next.unexpected "`,` or `)`"
end

end Offside.Node
