/-! Binary operators. Operators of one class take the same types of operands. -/
namespace Offside

inductive OperatorClass where
  | arithmetic | relational | equality | logical | identity
deriving DecidableEq, Repr

inductive Operator where
  | plus | minus | times | quotient | remainder
  | greater | less | lessEquals | greaterEquals
  | equals
  | and | or
  | is
deriving DecidableEq, Repr, Inhabited

namespace Operator

def all : List Operator :=
  [plus, minus, times, quotient, remainder, greater, less, lessEquals, greaterEquals, equals, and,
    or, is]

theorem mem_all (op : Operator) : op ∈ all := by cases op <;> decide

/-- How an operator is written. -/
def symbol : Operator → String
  | plus => "+"
  | minus => "-"
  | times => "*"
  | quotient => "//"
  | remainder => "%"
  | greater => ">"
  | less => "<"
  | lessEquals => "<="
  | greaterEquals => ">="
  | equals => "=="
  | and => "and"
  | or => "or"
  | is => "is"

def ofSymbol? (s : String) : Option Operator := all.find? (·.symbol = s)

theorem ofSymbol?_symbol (op : Operator) : ofSymbol? op.symbol = some op := by
  cases op <;> decide

def operatorClass : Operator → OperatorClass
  | plus | minus | times | quotient | remainder => .arithmetic
  | greater | less | lessEquals | greaterEquals => .relational
  | equals => .equality
  | and | or => .logical
  | is => .identity

end Operator
end Offside
