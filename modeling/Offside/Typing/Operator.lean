import Offside.Error
import Offside.Program.Operator
import Offside.Program.Ty

/-! The types that operators take and give. No operand changes its type. -/
namespace Offside

/-- The type of a result, if the operators of a class take operands of these types. -/
def OperatorClass.result? : OperatorClass → Ty → Ty → Option Ty
  | .arithmetic, .int, .int => some .int
  | .relational, .int, .int => some .bool
  | .equality, .int, .int | .equality, .bool, .bool => some .bool
  | .logical, .bool, .bool => some .bool
  | .identity, .none, .none => some .bool
  | _, _, _ => none

namespace Operator

/-- Why an operator does not take operands of these types. -/
def mismatch (op : Operator) (lhs rhs : Ty) : Cause :=
  match op.operatorClass with
  | .identity => .identityOperands lhs.name rhs.name
  | _ => .operandTypeMismatch op.symbol lhs.name rhs.name

/-- The type of the result of an operation at a position. -/
def resultType (op : Operator) (lhs rhs : Ty) (p : Position) : Except Error Ty :=
  match op.operatorClass.result? lhs rhs with
  | some type => .ok type
  | none => .error ⟨op.mismatch lhs rhs, p⟩

end Operator
end Offside
