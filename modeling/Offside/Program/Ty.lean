/-! Types of values. -/
namespace Offside

inductive Ty where
  | int | bool | none
deriving DecidableEq, Repr, Inhabited

namespace Ty

/-- The name of a type in a message. -/
def name : Ty → String
  | int => "int"
  | bool => "bool"
  | none => "none"

/-- The type that an annotation stands for. The type of the absent value cannot be written. -/
def ofAnnotation? (s : String) : Option Ty := [int, bool].find? (·.name = s)

end Ty
end Offside
