import Offside.Typing.Stmt

/-! The types of programs. A function sees the variables that are bound above its definition, and
what it binds itself is lost again. -/
namespace Offside
open Checker

namespace Functions

/-- Notes the types in the body of a function with the given variables around it. -/
def checkBody (functions : Functions) (globals : Scope) (parameters : List Parameter)
    (returns : Ty) (body : List (Stmt Span)) : Except Error (List (Stmt Typed)) :=
  resultIn (globals.withParameters parameters) (Stmt.checkAll functions returns body)

/-- Notes the types in a statement at the top level, where nothing is given back. -/
def checkTop (functions : Functions) : Stmt Span → Checker (Stmt Typed)
  | .function name parameters returns body span => do
    let body ← reading fun globals => functions.checkBody globals parameters returns body
    return .function name parameters returns body ⟨.none, span⟩
  | s => s.check functions .none

/-- Notes the types in a program that calls these functions. -/
def checkProgram (functions : Functions) (program : Program Span) :
    Except Error (Program Typed) :=
  resultIn .empty (program.mapM functions.checkTop)

end Functions

namespace Program

/-- The functions that a program defines. -/
def functions (program : Program Span) : Except Error Functions :=
  match Registrar.addAll program .empty with
  | .ok _ functions => .ok functions
  | .error e _ => .error e

/-- Notes the types in a program. -/
def check (program : Program Span) : Except Error (Program Typed) := do
  (← program.functions).checkProgram program

/-- Forgets the types in a program. -/
def untyped (program : Program Typed) : Program Span := program.map Typed.span

end Program

end Offside
