import Offside.Program.OfTree.Refusal
import Offside.Program.Stmt

/-! The types that nodes stand for, and the parameters that have them. -/
namespace Offside.Node

/-- Refuses a name without a type. -/
def lacksType (source : List Char) (name : Node) : Except Error α :=
  .error ⟨.untypedName (name.text source), name.span.start⟩

/-- The type that a name stands for. -/
def typeOfName (source : List Char) (n : Node) : Except Error Ty :=
  match n.label, Ty.ofAnnotation? (n.text source) with
  | .variableName, some type => .ok type
  | _, _ => .error ⟨.unknownType (n.text source), n.span.start⟩

/-- The type after its mark. -/
def toTy (source : List Char) (n : Node) : Except Error Ty := do
  n.require .typeDef
  let mark :: rest := n.children | isEmpty .typeDef n.span "type annotation"
  let name :: _ := rest | endsWith .typeDef mark "type name"
  name.typeOfName source

/-- The parameters after a parenthesis or comma. -/
def parametersAfter (source : List Char) (last : Node) (expected : String) :
    List Node → Except Error (List Parameter)
  | [] => endsWith .paramList last expected
  | name :: rest =>
    match name.label with
    | .closeParen => .ok []
    | .variableName => do
      let type :: rest := rest | name.lacksType source
      if type.label ≠ .typeDef then name.lacksType source
      else
        let parameter : Parameter := ⟨name.text source, ← type.toTy source⟩
        let next :: rest := rest | endsWith .paramList type "`)`"
        match next.label with
        | .comma => return parameter :: (← parametersAfter source next "parameter" rest)
        | .closeParen => return [parameter]
        | _ => next.unexpected "`,` or `)`"
    | _ => name.unexpected "parameter"

/-- The parameters in a list of them. -/
def toParameters (source : List Char) (n : Node) : Except Error (List Parameter) := do
  n.require .paramList
  let opening :: rest := n.children | isEmpty .paramList n.span "`(`"
  opening.require .openParen
  parametersAfter source opening "`)`" rest

end Offside.Node
