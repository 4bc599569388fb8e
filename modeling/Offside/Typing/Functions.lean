import Offside.Error
import Offside.Program
import Offside.Typing.Bindings

/-! The functions of a program. All functions at the top level are known before anything is checked,
so a call may stand before the definition. -/
namespace Offside

/-- The types that a function takes and gives back. -/
structure Signature where
  parameters : List Ty
  returns : Ty
deriving DecidableEq, Repr

/-- The function that shows a value. It takes one argument of any type and cannot be defined. -/
def showFunction : String := "print"

abbrev Functions := Bindings Signature

/-- Adds functions. Those that it has added stay when it refuses. -/
abbrev Registrar := EStateM Error Functions Unit

namespace Registrar

/-- Adds a function unless its name is taken. -/
def add (name : String) (signature : Signature) (p : Position) : Registrar := fun functions =>
  if name = showFunction ∨ (functions.get? name).isSome then
    .error ⟨.functionRedeclared name, p⟩ functions
  else .ok () (functions.insert name signature)

/-- Adds the function that a statement defines, if it defines one. -/
def addDefinition : Stmt Span → Registrar
  | .function name parameters returns _ span =>
    add name ⟨parameters.map (·.type), returns⟩ span.start
  | _ => return

/-- Adds the functions that the statements of a program define. -/
def addAll (program : Program Span) : Registrar := program.forM addDefinition

end Registrar
end Offside
