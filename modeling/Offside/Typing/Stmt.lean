import Offside.Typing.Expr

/-! The types of statements. A statement that binds a variable or has a value takes the type from
there; all others are of the type of the absent value. -/
namespace Offside

/-- Notes the types of an expression. -/
def Checker.value (functions : Functions) (e : Expr Span) : Checker (Expr Typed) :=
  .reading fun scope => e.check functions scope

/-- Refuses a checked expression of any other type, for the given cause. -/
def Checker.requireType (e : Expr Typed) (type : Ty) (cause : Cause) : Checker Unit := fun s =>
  if e.type = type then .ok () s else .error ⟨cause, e.span.start⟩ s

/-- Notes the types of a condition of the named construct. -/
def Checker.condition (functions : Functions) (construct : String) (e : Expr Span) :
    Checker (Expr Typed) := do
  let e ← value functions e
  requireType e .bool (.conditionTypeMismatch construct e.type.name)
  return e

namespace Stmt

/-- Refuses a function inside another statement. -/
def nested (name : String) (p : Position) : Checker α := fun s => .error ⟨.nestedFunction name, p⟩ s

mutual
/-- Notes the types in a statement of a scope whose `return`s are of the given type. -/
def check (functions : Functions) (returns : Ty) : Stmt Span → Checker (Stmt Typed)
  | .assign name value span => do
    let value ← Checker.value functions value
    Checker.declare name value.type span.start
    return .assign name value ⟨value.type, span⟩
  | .declare name type value span => do
    let value ← Checker.value functions value
    Checker.requireType value type (.declaredTypeMismatch type.name value.type.name)
    Checker.declare name type span.start
    return .declare name type value ⟨type, span⟩
  | .expression value span => do
    let value ← Checker.value functions value
    return .expression value ⟨value.type, span⟩
  | .function name _ _ _ span => nested name span.start
  | .return value span => do
    let value ← Checker.value functions value
    Checker.requireType value returns (.returnTypeMismatch returns.name value.type.name)
    return .return value ⟨value.type, span⟩
  | .conditional first alternatives otherwise span => do
    let first ← checkBranch functions returns first
    let alternatives ← checkBranches functions returns alternatives
    let otherwise ← checkAll functions returns otherwise
    return .conditional first alternatives otherwise ⟨.none, span⟩
  | .loop condition body span => do
    let condition ← Checker.condition functions "while" condition
    let body ← checkAll functions returns body
    return .loop condition body ⟨.none, span⟩
  | .pass span => return .pass ⟨.none, span⟩

def checkAll (functions : Functions) (returns : Ty) : List (Stmt Span) → Checker (List (Stmt Typed))
  | [] => return []
  | s :: rest => do
    let s ← check functions returns s
    return s :: (← checkAll functions returns rest)

def checkBranch (functions : Functions) (returns : Ty) : Branch Span → Checker (Branch Typed)
  | ⟨kind, condition, body, span⟩ => do
    let condition ← Checker.condition functions kind.keyword condition
    let body ← checkAll functions returns body
    return ⟨kind, condition, body, span⟩

def checkBranches (functions : Functions) (returns : Ty) :
    List (Branch Span) → Checker (List (Branch Typed))
  | [] => return []
  | b :: rest => do
    let b ← checkBranch functions returns b
    return b :: (← checkBranches functions returns rest)
end

end Stmt
end Offside
