import Offside.Error
import Offside.Program.Stmt
import Offside.Typing.Bindings

/-! The variables of a scope, which is either the top level or one function. A checker may bind
further ones; what it has bound stays bound when it refuses. -/
namespace Offside

abbrev Scope := Bindings Ty

abbrev Checker (α : Type) := EStateM Error Scope α

namespace Scope

/-- Binds the parameters of a function, which hide other variables of their names. -/
def withParameters (s : Scope) (parameters : List Parameter) : Scope :=
  parameters.foldl (fun s p => s.insert p.name p.type) s

end Scope

namespace Checker

/-- Gives a variable a value of some type. A variable keeps the type that it has. -/
def declare (name : String) (type : Ty) (p : Position) : Checker Unit := fun s =>
  match s.get? name with
  | none => .ok () (s.insert name type)
  | some bound =>
    if bound = type then .ok () s
    else .error ⟨.reassignmentTypeMismatch name bound.name type.name, p⟩ s

/-- What a function of the scope gives. -/
def reading (f : Scope → Except Error α) : Checker α := fun s =>
  match f s with
  | .ok a => .ok a s
  | .error e => .error e s

/-- What a checker gives from some scope on. -/
def resultIn (s : Scope) (c : Checker α) : Except Error α :=
  match c s with
  | .ok a _ => .ok a
  | .error e _ => .error e

end Checker
end Offside
