/-! Labels of the nodes of a concrete tree: rules of the grammar, and the leaves that stand for
single tokens. -/
namespace Offside

inductive Label where
  | script
  | returnStatement | assignStatement | expressionStatement | functionDefinition | whileStatement
  | passStatement | ifStatement
  | body | paramList | argList | typeDef | assignOp
  | variableName | number | boolean | noneLiteral | callExpression | unaryExpression
  | binaryExpression | parenthesizedExpression
  | keyword | operator | openParen | closeParen | comma | colon | arrow
deriving DecidableEq, Repr, Inhabited

namespace Label

/-- The name of a label in a message. -/
def name : Label → String
  | script => "Script"
  | returnStatement => "ReturnStatement"
  | assignStatement => "AssignStatement"
  | expressionStatement => "ExpressionStatement"
  | functionDefinition => "FunctionDefinition"
  | whileStatement => "WhileStatement"
  | passStatement => "PassStatement"
  | ifStatement => "IfStatement"
  | body => "Body"
  | paramList => "ParamList"
  | argList => "ArgList"
  | typeDef => "TypeDef"
  | assignOp => "AssignOp"
  | variableName => "VariableName"
  | number => "Number"
  | boolean => "Boolean"
  | noneLiteral => "None"
  | callExpression => "CallExpression"
  | unaryExpression => "UnaryExpression"
  | binaryExpression => "BinaryExpression"
  | parenthesizedExpression => "ParenthesizedExpression"
  | keyword => "Keyword"
  | operator => "Operator"
  | openParen => "("
  | closeParen => ")"
  | comma => ","
  | colon => ":"
  | arrow => "->"

/-- The labels of expressions. -/
def isExpression : Label → Bool
  | variableName | number | boolean | noneLiteral | callExpression | unaryExpression
  | binaryExpression | parenthesizedExpression => true
  | _ => false

end Label
end Offside
