import Offside.Program

/-! The notes in expressions and statements, at every depth. -/
namespace Offside

namespace Expr

mutual
/-- The note of an expression and those of all expressions in it. -/
def notes : Expr α → List α
  | .number _ note | .boolean _ note | .noneLiteral note | .ident _ note => [note]
  | .binary _ lhs rhs note => note :: (notes lhs ++ notes rhs)
  | .call _ arguments note => note :: notesAll arguments

def notesAll : List (Expr α) → List α
  | [] => []
  | e :: rest => notes e ++ notesAll rest
end

theorem note_mem_notes (e : Expr α) : e.note ∈ e.notes := by
  cases e <;> exact List.mem_cons_self

theorem note_mem_notesAll {e : Expr α} {es : List (Expr α)} (he : e ∈ es) :
    e.note ∈ notesAll es := by
  induction he with
  | head rest => exact List.mem_append_left _ e.note_mem_notes
  | tail _ _ ih => exact List.mem_append_right _ ih

end Expr

namespace Stmt

mutual
/-- The note of a statement and those of everything in it. -/
def notes : Stmt α → List α
  | .assign _ value note | .declare _ _ value note | .expression value note
  | .return value note => note :: value.notes
  | .function _ _ _ body note => note :: notesAll body
  | .conditional first alternatives otherwise note =>
    note :: (notesOfBranch first ++ (notesOfBranches alternatives ++ notesAll otherwise))
  | .loop condition body note => note :: (condition.notes ++ notesAll body)
  | .pass note => [note]

def notesAll : List (Stmt α) → List α
  | [] => []
  | s :: rest => notes s ++ notesAll rest

def notesOfBranch : Branch α → List α
  | ⟨_, condition, body, _⟩ => condition.notes ++ notesAll body

def notesOfBranches : List (Branch α) → List α
  | [] => []
  | b :: rest => notesOfBranch b ++ notesOfBranches rest
end

theorem note_mem_notes (s : Stmt α) : s.note ∈ s.notes := by
  cases s <;> simp only [note, notes, List.mem_cons, true_or]

end Stmt
end Offside
