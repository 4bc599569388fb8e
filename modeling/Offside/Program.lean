import Offside.Program.Stmt

/-! Programs. -/
namespace Offside

/-- The statements at the top level, in order. -/
abbrev Program (α : Type) := List (Stmt α)

/-- Changes every note in a program. -/
def Program.map (f : α → β) (program : Program α) : Program β := Stmt.mapAll f program

end Offside
