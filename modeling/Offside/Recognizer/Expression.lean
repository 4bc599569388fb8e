import Offside.Grammar
import Offside.Recognizer

/-! Expressions. Operators bind as their powers say; among equals the left one comes first. -/
namespace Offside
open Recognizer

namespace Recognizer

/-- The leaf that a name or literal becomes. -/
def primaryLabel? : TokenKind → Option Label
  | .number => some .number
  | .identifier => some .variableName
  | .kwTrue | .kwFalse => some .boolean
  | .kwNone => some .noneLiteral
  | _ => none

/-- A name or literal. -/
def primary : Recognizer Node := do
  match primaryLabel? (← kind) with
  | some label => leaf label
  | none => unexpected

/-- A sign and its operand. -/
def signed (operand : Recognizer Node) : Recognizer Node := do
  let operator ← leaf .operator
  let operand ← operand
  return .branch .unaryExpression [operator, operand]

/-- An expression in parentheses. -/
def grouping (inner : Recognizer Node) : Recognizer Node := do
  let opening ← leaf .openParen
  let inner ← inner
  let closing ← expectLeaf .closeParen .closeParen
  return .branch .parenthesizedExpression [opening, inner, closing]

/-- The comma after an item of a list in parentheses, or nothing before the closing one. -/
def separator : Recognizer (List Node) := do
  match ← kind with
  | .comma => return [← leaf .comma]
  | .closeParen => return []
  | _ => unexpected

/-- The items of a list up to the closing parenthesis, with commas between them and maybe one after
the last. -/
def items (item : Recognizer (List Node)) : Recognizer (List Node) := do
  let nodes ← repeatWhile (· ≠ .closeParen) do
    let nodes ← item
    return nodes ++ (← separator)
  return nodes ++ [← leaf .closeParen]

/-- An operator and its right operand after the left one. -/
def binary (right : Recognizer Node) (left : Node) : Recognizer Node := do
  let operator ← leaf .operator
  let right ← right
  return .branch .binaryExpression [left, operator, right]

/-- The arguments of a call after what is called. -/
def call (argument : Recognizer Node) (callee : Node) : Recognizer Node := do
  let opening ← leaf .openParen
  let nodes ← items (return [← argument])
  return .branch .callExpression [callee, .branch .argList (opening :: nodes)]

end Recognizer

namespace Grammar

/-- The operand that a rule reads, where `expression` reads the expressions in it. -/
def operand (expression : Power → Recognizer Node) : OperandRule → Recognizer Node
  | .primary => primary
  | .signed => signed (expression .sign)
  | .grouping => grouping (expression .loosest)

/-- What goes on after a left operand by a rule. A right operand binds tighter than the operator. -/
def continuation (expression : Power → Recognizer Node) (power : Power) :
    OperatorRule → Node → Recognizer Node
  | .binary => binary (expression power)
  | .call => call (expression .loosest)

/-- Goes on after a left operand if the next operator binds tighter than `power`. -/
def extension (g : Grammar) (expression : Power → Recognizer Node) (power : Power) (left : Node) :
    Recognizer (Option Node) := do
  match g.operator? (← kind) with
  | none => return none
  | some (next, rule) =>
    if power < next then return some (← continuation expression next rule left) else return none

/-- An expression, where `expression` reads those inside it. None starts at the end of the input. -/
def expressionRule (g : Grammar) (expression : Power → Recognizer Node) (power : Power) :
    Recognizer Node := do
  if ← atEnd then unexpected
  else match g.operand? (← kind) with
    | none => unexpected
    | some rule =>
      let left ← operand expression rule
      extend (g.extension expression power) left

/-- The longest expression whose operators outside parentheses bind tighter than `power`. -/
def expression (g : Grammar) (power : Power) : Recognizer Node := nest g.expressionRule power

end Grammar
end Offside
