import Offside.Error
import Offside.Text.Blank
import Offside.Text.Line
import Offside.Text.Quoted

/-! The text of an error: the message, the tip, and the report, which shows the source line with a
caret below it. Messages quote text that comes from the source; tips put it between back quotes. -/
namespace Offside
open Text

namespace Cause

/-- What is wrong, without the class. -/
def description : Cause → String
  | unrecognisedToken token => "unrecognised token: " ++ quote token
  | unexpectedToken token => "unexpected token: " ++ quote token
  | wrongToken token message =>
    "unexpected token (" ++ message ++ "): " ++ quote token
  | inconsistentIndentation => "unindent does not match any outer indentation level"
  | unexpectedNode expected found => "expected " ++ expected ++ ", found " ++ quote found
  | unexpectedKeyword expected found =>
    "expected keyword " ++ quote expected ++ ", found " ++ quote found
  | untypedName ident => quote ident ++ " doesn't have a type"
  | missingValue ident => "the variable " ++ quote ident ++ " is declared without a value"
  | unknownOperator op => "unknown or unhandled operator: " ++ quote op
  | unknownSign op => "not a unary operator: " ++ quote op
  | signWithoutNumber token => "not a number: " ++ quote token
  | unknownType type => "unknown type " ++ type
  | numberOutOfRange token => "error parsing number: " ++ quote token
  | conditionNotExpression construct found =>
    "invalid " ++ construct ++ " condition: " ++ quote found
  | declaredTypeMismatch expected received =>
    "types do not match: expected " ++ expected ++ ", received " ++ received
  | returnTypeMismatch expected received => received ++ " returned but " ++ expected ++ " expected"
  | conditionTypeMismatch construct received =>
    construct ++ " condition is " ++ received ++ ", not bool"
  | operandTypeMismatch op lhs rhs =>
    "operator " ++ op ++ " cannot be applied to " ++ lhs ++ " and " ++ rhs
  | identityOperands lhs rhs => "`is` can't be used on " ++ lhs ++ " or " ++ rhs
  | reassignmentTypeMismatch ident bound received =>
    "cannot assign " ++ received ++ " to " ++ quote ident ++ " of type " ++ bound
  | argumentCountMismatch function expected received =>
    quote function ++ " expected " ++ toString expected ++ " arguments but got "
      ++ toString received
  | argumentTypeMismatch function index expected received =>
    "got " ++ received ++ " as argument " ++ toString index ++ " of " ++ quote function
      ++ ", expected " ++ expected
  | functionRedeclared function => "function " ++ quote function ++ " already declared"
  | nestedFunction function =>
    "function " ++ quote function ++ " is defined inside another body"
  | undeclaredVariable ident => "variable " ++ quote ident ++ " not declared"
  | undeclaredFunction function => "function " ++ quote function ++ " not found"

/-- What to do about it, where there is something to say. -/
def tip? : Cause → Option String
  | unrecognisedToken _ => none
  | unexpectedToken token => some ("Unexpected token: `" ++ token ++ "`")
  | wrongToken token message =>
    some ("Unexpected token: `" ++ token ++ "`, " ++ message)
  | inconsistentIndentation => some "Dedent does not match any outer indentation level"
  | unexpectedNode expected found => some ("Expected " ++ expected ++ ", found `" ++ found ++ "`")
  | unexpectedKeyword expected found =>
    some ("Expected keyword `" ++ expected ++ "`, found `" ++ found ++ "`")
  | untypedName ident => some ("Add a type annotation, e.g. `" ++ ident ++ " : int`")
  | missingValue ident =>
    some ("Variable `" ++ ident ++ "` must be given a value when it is declared")
  | unknownOperator op => some ("Operator `" ++ op ++ "` is not supported")
  | unknownSign op => some ("Only `+` and `-` may prefix a number, found `" ++ op ++ "`")
  | signWithoutNumber token =>
    some ("A sign may only be applied to a number literal, found `" ++ token ++ "`")
  | unknownType type => some ("Unknown type `" ++ type ++ "`, expected `int` or `bool`")
  | numberOutOfRange token =>
    some ("Invalid number: `" ++ token ++ "`, is it above the integer limit?")
  | conditionNotExpression construct found =>
    some ("The `" ++ construct ++ "` condition must be an expression, found `" ++ found ++ "`")
  | declaredTypeMismatch expected received =>
    some ("Expected type `" ++ expected ++ "`, received `" ++ received ++ "`")
  | returnTypeMismatch expected received =>
    some ("Expected a `" ++ expected ++ "` to be returned, received `" ++ received ++ "`")
  | conditionTypeMismatch construct received =>
    some ("The `" ++ construct ++ "` condition must be `bool`, received `" ++ received ++ "`")
  | operandTypeMismatch op lhs rhs =>
    some ("Operator `" ++ op ++ "` cannot be applied to `" ++ lhs ++ "` and `" ++ rhs ++ "`")
  | identityOperands _ _ => some "`is` can only compare `None` values"
  | reassignmentTypeMismatch ident bound received =>
    some ("Variable `" ++ ident ++ "` is `" ++ bound ++ "` and cannot hold `" ++ received ++ "`")
  | argumentCountMismatch function expected received =>
    some ("`" ++ function ++ "` expects " ++ toString expected ++ " arguments, received "
      ++ toString received)
  | argumentTypeMismatch function index expected received =>
    some ("Argument " ++ toString index ++ " of `" ++ function ++ "` must be `" ++ expected
      ++ "`, received `" ++ received ++ "`")
  | functionRedeclared function => some ("Function `" ++ function ++ "` already declared")
  | nestedFunction function =>
    some ("Move `" ++ function ++ "` to the top level of the program")
  | undeclaredVariable ident =>
    some ("Variable `" ++ ident ++ "` must be assigned before it is used")
  | undeclaredFunction function => some ("Function `" ++ function ++ "` not declared")

end Cause

namespace Error

/-- The class of an error and what is wrong. -/
def message (e : Error) : String := e.cause.errorClass.name ++ ": " ++ e.cause.description

/-- The first line of a report: the name and, where there is one, the tip. -/
def headline (e : Error) : String :=
  "Error: " ++ e.cause.name ++ ((e.cause.tip?.map fun tip => " (" ++ tip ++ ")").getD "")

/-- A text with a fill in front that brings it to a width. A width that is computed has 16 bits, so
there is no such text for a larger one. -/
def padLeft? (fill : Char) (width : Nat) (text : List Char) : Option (List Char) :=
  if width < UInt16.size then some (List.replicate (width - text.length) fill ++ text) else none

/-- How far the leading blanks of a line reach. A report cuts them off and moves the caret. -/
def margin (line : List Char) : Nat := (line.takeWhile (· = ' ')).length

/-- The line of a report that shows the source, without the blanks at its ends. -/
def shownLine (line : List Char) : List Char := trim (line.drop (margin line))

/-- How far the caret stands to the right of the shown line's first character. -/
def caretColumn (l : Line) : Nat := l.column - margin l.text

/-- The lines of a report that show where the error is, if the caret is not too far to the right.
The bars stand below each other, and dashes lead to the caret. -/
def excerpt? (l : Line) : Option (List (List Char)) := do
  let number := (toString l.number).toList
  let bar ← padLeft? ' ' (number.length + 2) ['|']
  let caret ← padLeft? '-' (caretColumn l + 1) ['^']
  return [bar, number ++ [' ', '|', ' '] ++ shownLine l.text, bar ++ ' ' :: caret]

/-- The lines of the report on an error in a source. Where no line holds the position, as at the
end of the input, the message stands for the excerpt. -/
def reportLines? (source : List Char) (e : Error) : Option (List (List Char)) := do
  let shown ← match lineAt? source e.position.offset.toNat with
    | none => some [e.message.toList]
    | some l => excerpt? l
  return e.headline.toList :: ("-> " ++ e.position.file).toList :: shown

/-- The report on an error in a source, with a line feed after each line. -/
def report? (source : List Char) (e : Error) : Option String :=
  (reportLines? source e).map fun lines => String.ofList (lines.flatMap (· ++ ['\n']))

end Error
end Offside
