import Offside.Position

/-! Why a program is refused, and where. A cause carries the pieces of text that its message shows;
its class says which question about the program it answers with no. -/
namespace Offside

/-- The four classes of errors: spelling and layout, shape, types, and names. -/
inductive ErrorClass where
  | lexical | structural | typing | naming
deriving DecidableEq, Repr

/-- The name of the class in a message. -/
def ErrorClass.name : ErrorClass → String
  | .lexical => "SyntaxError"
  | .structural => "ParseError"
  | .typing => "TypeError"
  | .naming => "ReferenceError"

/-- Why a program is refused. -/
inductive Cause where
  /-- No token starts with this character. -/
  | unrecognisedToken (token : String)
  /-- No rule goes on with this token. -/
  | unexpectedToken (token : String)
  /-- One kind of token has to stand here and this is another. -/
  | wrongToken (token message : String)
  /-- A line is as wide as none of the lines that it could continue. -/
  | inconsistentIndentation
  /-- A node stands where another part of the tree is needed. -/
  | unexpectedNode (expected found : String)
  /-- A keyword node has the wrong text. -/
  | unexpectedKeyword (expected found : String)
  /-- A parameter or variable is introduced without a type. -/
  | untypedName (ident : String)
  /-- A variable is declared without a value. -/
  | missingValue (ident : String)
  /-- The operator has a place in the grammar and no meaning. -/
  | unknownOperator (op : String)
  /-- A sign other than plus and minus. -/
  | unknownSign (op : String)
  /-- A sign stands before something that is no number. -/
  | signWithoutNumber (token : String)
  /-- A type that cannot be written. -/
  | unknownType (type : String)
  /-- A number outside 64 bits. -/
  | numberOutOfRange (token : String)
  /-- A condition that is no expression. -/
  | conditionNotExpression (construct found : String)
  /-- A declared type that its value does not have. -/
  | declaredTypeMismatch (expected received : String)
  /-- A returned value that has another type than promised. -/
  | returnTypeMismatch (expected received : String)
  /-- A condition that is no truth value. -/
  | conditionTypeMismatch (construct received : String)
  /-- Operands that the operator does not take. -/
  | operandTypeMismatch (op lhs rhs : String)
  /-- An identity test between other things than two absent values. -/
  | identityOperands (lhs rhs : String)
  /-- A variable that would change its type. -/
  | reassignmentTypeMismatch (ident bound received : String)
  /-- A call with the wrong number of arguments. -/
  | argumentCountMismatch (function : String) (expected received : Nat)
  /-- A call with an argument of the wrong type; arguments are counted from one. -/
  | argumentTypeMismatch (function : String) (index : Nat) (expected received : String)
  /-- A second function of one name. -/
  | functionRedeclared (function : String)
  /-- A function inside another body. -/
  | nestedFunction (function : String)
  /-- A variable that has no value yet. -/
  | undeclaredVariable (ident : String)
  /-- A function that no definition introduces. -/
  | undeclaredFunction (function : String)
deriving DecidableEq, Repr

namespace Cause

/-- The class to which a cause belongs. -/
def errorClass : Cause → ErrorClass
  | unrecognisedToken _ | unexpectedToken _ | wrongToken _ _
  | inconsistentIndentation => .lexical
  | unexpectedNode _ _ | unexpectedKeyword _ _ | untypedName _ | missingValue _
  | unknownOperator _ | unknownSign _ | signWithoutNumber _ | unknownType _ | numberOutOfRange _
  | conditionNotExpression _ _ => .structural
  | declaredTypeMismatch _ _ | returnTypeMismatch _ _ | conditionTypeMismatch _ _
  | operandTypeMismatch _ _ _ | identityOperands _ _ | reassignmentTypeMismatch _ _ _
  | argumentCountMismatch _ _ _ | argumentTypeMismatch _ _ _ _ | functionRedeclared _
  | nestedFunction _ => .typing
  | undeclaredVariable _ | undeclaredFunction _ => .naming

/-- The name of a cause in a report. -/
def name : Cause → String
  | unrecognisedToken _ => "UnrecognisedToken"
  | unexpectedToken _ => "UnexpectedToken"
  | wrongToken _ _ => "UnexpectedTokenDetailed"
  | inconsistentIndentation => "InconsistentIndentation"
  | unexpectedNode _ _ => "UnexpectedNode"
  | unexpectedKeyword _ _ => "UnexpectedKeyword"
  | untypedName _ => "MissingTypeAnnotation"
  | missingValue _ => "MissingInitializer"
  | unknownOperator _ => "UnknownOperator"
  | unknownSign _ => "NotUnaryOperator"
  | signWithoutNumber _ => "NotANumber"
  | unknownType _ => "UnknownType"
  | numberOutOfRange _ => "NumberParseError"
  | conditionNotExpression _ _ => "InvalidCondition"
  | declaredTypeMismatch _ _ => "TypeMatchError"
  | returnTypeMismatch _ _ => "ReturnTypeMismatch"
  | conditionTypeMismatch _ _ => "ConditionTypeMismatch"
  | operandTypeMismatch _ _ _ => "OperandTypeMismatch"
  | identityOperands _ _ => "UnsupportedIdentityOperands"
  | reassignmentTypeMismatch _ _ _ => "ReassignmentTypeMismatch"
  | argumentCountMismatch _ _ _ => "UnexpectedArguments"
  | argumentTypeMismatch _ _ _ _ => "ArgumentTypeMatchError"
  | functionRedeclared _ => "FunctionAlreadyDeclared"
  | nestedFunction _ => "NestedFunctionDefinition"
  | undeclaredVariable _ => "VariableNotDeclared"
  | undeclaredFunction _ => "FunctionNotDeclared"

end Cause

/-- A cause at a position. -/
structure Error where
  cause : Cause
  position : Position
deriving DecidableEq, Repr

end Offside
