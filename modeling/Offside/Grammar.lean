import Offside.Token.Kind

/-! The rules of the grammar, by the kind of token that calls for them. An expression starts with an
operand and goes on with operators as long as they bind tightly enough. -/
namespace Offside

/-- How tightly an operator binds, from the loosest to the tightest. -/
inductive Power where
  | loosest | disjunction | conjunction | relation | sum | product | sign | call | primary
deriving DecidableEq, Repr, Inhabited

namespace Power

def rank : Power → Nat
  | loosest => 0
  | disjunction => 1
  | conjunction => 2
  | relation => 3
  | sum => 4
  | product => 5
  | sign => 6
  | call => 7
  | primary => 8

instance : LT Power := ⟨fun p q => p.rank < q.rank⟩

instance : LE Power := ⟨fun p q => p.rank ≤ q.rank⟩

instance (p q : Power) : Decidable (p < q) := inferInstanceAs (Decidable (p.rank < q.rank))

instance (p q : Power) : Decidable (p ≤ q) := inferInstanceAs (Decidable (p.rank ≤ q.rank))

end Power

/-- How an operand is read: a name or literal, a sign and its operand, or parentheses. -/
inductive OperandRule where
  | primary | signed | grouping
deriving DecidableEq, Repr

/-- How an expression goes on: with a right operand, or with the arguments of a call. -/
inductive OperatorRule where
  | binary | call
deriving DecidableEq, Repr

/-- How a statement is read. -/
inductive StatementRule where
  | function | return | loop | conditional | pass | assignment
deriving DecidableEq, Repr

/-- The rules that a token calls for at the start of a statement, at the start of an expression and
after an operand. -/
structure Grammar where
  statement? : TokenKind → Option StatementRule
  operand? : TokenKind → Option OperandRule
  operator? : TokenKind → Option (Power × OperatorRule)

namespace Grammar

/-- The grammar without rules. -/
def empty : Grammar := ⟨fun _ => none, fun _ => none, fun _ => none⟩

def addStatement (g : Grammar) (k : TokenKind) (rule : StatementRule) : Grammar :=
  { g with statement? := fun k' => if k' = k then some rule else g.statement? k' }

def addOperand (g : Grammar) (k : TokenKind) (rule : OperandRule) : Grammar :=
  { g with operand? := fun k' => if k' = k then some rule else g.operand? k' }

def addOperator (g : Grammar) (k : TokenKind) (power : Power) (rule : OperatorRule) : Grammar :=
  { g with operator? := fun k' => if k' = k then some (power, rule) else g.operator? k' }

/-- The grammar of the language, put together rule by rule. -/
def standard : Grammar := empty
  |>.addOperator .kwOr .disjunction .binary
  |>.addOperator .kwAnd .conjunction .binary
  |>.addOperator .less .relation .binary
  |>.addOperator .lessEquals .relation .binary
  |>.addOperator .greater .relation .binary
  |>.addOperator .greaterEquals .relation .binary
  |>.addOperator .equals .relation .binary
  |>.addOperator .notEquals .relation .binary
  |>.addOperator .kwIs .relation .binary
  |>.addOperator .plus .sum .binary
  |>.addOperator .dash .sum .binary
  |>.addOperator .star .product .binary
  |>.addOperator .slash .product .binary
  |>.addOperator .slashSlash .product .binary
  |>.addOperator .percent .product .binary
  |>.addOperator .openParen .call .call
  |>.addOperand .number .primary
  |>.addOperand .identifier .primary
  |>.addOperand .kwTrue .primary
  |>.addOperand .kwFalse .primary
  |>.addOperand .kwNone .primary
  |>.addOperand .dash .signed
  |>.addOperand .plus .signed
  |>.addOperand .openParen .grouping
  |>.addStatement .kwDef .function
  |>.addStatement .kwReturn .return
  |>.addStatement .kwWhile .loop
  |>.addStatement .kwIf .conditional
  |>.addStatement .kwPass .pass

end Grammar
end Offside
