import Offside.Program

/-! The expressions inside expressions and statements, at every depth. -/
namespace Offside

namespace Expr

mutual
/-- An expression and all expressions in it. -/
def parts : Expr α → List (Expr α)
  | .number value note => [.number value note]
  | .boolean value note => [.boolean value note]
  | .noneLiteral note => [.noneLiteral note]
  | .ident name note => [.ident name note]
  | .binary op lhs rhs note => .binary op lhs rhs note :: (parts lhs ++ parts rhs)
  | .call function arguments note => .call function arguments note :: partsAll arguments

def partsAll : List (Expr α) → List (Expr α)
  | [] => []
  | e :: rest => parts e ++ partsAll rest
end

theorem mem_parts_self (e : Expr α) : e ∈ e.parts := by
  cases e <;> simp [parts]

theorem mem_partsAll {x : Expr α} {es : List (Expr α)} :
    x ∈ partsAll es ↔ ∃ e ∈ es, x ∈ e.parts := by
  induction es with
  | nil => simp [partsAll]
  | cons e rest ih => simp [partsAll, ih]

end Expr

namespace Stmt

mutual
/-- All expressions in a statement. -/
def parts : Stmt α → List (Expr α)
  | .assign _ value _ | .declare _ _ value _ | .expression value _ | .return value _ => value.parts
  | .function _ _ _ body _ => partsAll body
  | .conditional first alternatives otherwise _ =>
    partsOfBranch first ++ partsOfBranches alternatives ++ partsAll otherwise
  | .loop condition body _ => condition.parts ++ partsAll body
  | .pass _ => []

def partsAll : List (Stmt α) → List (Expr α)
  | [] => []
  | s :: rest => parts s ++ partsAll rest

def partsOfBranch : Branch α → List (Expr α)
  | ⟨_, condition, body, _⟩ => condition.parts ++ partsAll body

def partsOfBranches : List (Branch α) → List (Expr α)
  | [] => []
  | b :: rest => partsOfBranch b ++ partsOfBranches rest
end

end Stmt
end Offside
