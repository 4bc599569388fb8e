import Offside.Program

/-! The names in expressions and statements, at every depth, and what is done with each. -/
namespace Offside

/-- A variable that is read or bound, or a function that is called. -/
inductive Mention where
  | read (name : String)
  | bound (name : String)
  | called (name : String)
deriving DecidableEq, Repr

/-- The variable that is mentioned, if it is one. -/
def Mention.asVariable : Mention → Option String
  | read name | bound name => some name
  | called _ => none

namespace Expr

mutual
/-- The variables that an expression reads and the functions that it calls. -/
def mentions : Expr α → List Mention
  | .number _ _ | .boolean _ _ | .noneLiteral _ => []
  | .ident name _ => [.read name]
  | .binary _ lhs rhs _ => mentions lhs ++ mentions rhs
  | .call function arguments _ => .called function :: mentionsAll arguments

def mentionsAll : List (Expr α) → List Mention
  | [] => []
  | e :: rest => mentions e ++ mentionsAll rest
end

mutual
/-- No expression binds a variable. -/
theorem bound_notMem_mentions (name : String) : ∀ e : Expr α, .bound name ∉ e.mentions
  | .number _ _ | .boolean _ _ | .noneLiteral _ | .ident _ _ => by simp [mentions]
  | .binary _ lhs rhs _ => by
    simp [mentions, bound_notMem_mentions name lhs, bound_notMem_mentions name rhs]
  | .call _ arguments _ => by simp [mentions, bound_notMem_mentionsAll name arguments]

theorem bound_notMem_mentionsAll (name : String) : ∀ es : List (Expr α),
    .bound name ∉ mentionsAll es
  | [] => List.not_mem_nil
  | e :: rest => by
    simp [mentionsAll, bound_notMem_mentions name e, bound_notMem_mentionsAll name rest]
end

end Expr

namespace Stmt

mutual
/-- All that a statement reads, binds and calls. -/
def mentions : Stmt α → List Mention
  | .assign name value _ | .declare name _ value _ => .bound name :: value.mentions
  | .expression value _ | .return value _ => value.mentions
  | .function _ _ _ body _ => mentionsAll body
  | .conditional first alternatives otherwise _ =>
    mentionsOfBranch first ++ (mentionsOfBranches alternatives ++ mentionsAll otherwise)
  | .loop condition body _ => condition.mentions ++ mentionsAll body
  | .pass _ => []

def mentionsAll : List (Stmt α) → List Mention
  | [] => []
  | s :: rest => mentions s ++ mentionsAll rest

def mentionsOfBranch : Branch α → List Mention
  | ⟨_, condition, body, _⟩ => condition.mentions ++ mentionsAll body

def mentionsOfBranches : List (Branch α) → List Mention
  | [] => []
  | b :: rest => mentionsOfBranch b ++ mentionsOfBranches rest
end

end Stmt
end Offside
