import Offside.Error
import Offside.Program

/-! Programs whose parts stand elsewhere. A map of positions moves spans and errors, and with every
note and every branch a whole program. -/
namespace Offside

/-- The span between two positions, each of them moved. -/
def Span.map (h : Position → Position) (s : Span) : Span := ⟨h s.start, h s.stop⟩

@[simp] theorem Span.start_map (h : Position → Position) (s : Span) :
    (s.map h).start = h s.start := rfl

@[simp] theorem Span.stop_map (h : Position → Position) (s : Span) :
    (s.map h).stop = h s.stop := rfl

/-- The same cause elsewhere. -/
def Error.map (h : Position → Position) (e : Error) : Error := ⟨e.cause, h e.position⟩

/-- The same cause at a position that is moved. -/
def Error.MovedBy (h : Position → Position) (e e' : Error) : Prop := e' = e.map h

mutual
theorem Expr.map_id : ∀ e : Expr α, e.map id = e
  | .number _ _ | .boolean _ _ | .noneLiteral _ | .ident _ _ => rfl
  | .binary _ lhs rhs _ => by simp only [Expr.map, Expr.map_id lhs, Expr.map_id rhs, id]
  | .call _ arguments _ => by simp only [Expr.map, Expr.mapAll_id arguments, id]

theorem Expr.mapAll_id : ∀ es : List (Expr α), Expr.mapAll id es = es
  | [] => rfl
  | e :: rest => by rw [Expr.mapAll, Expr.map_id e, Expr.mapAll_id rest]
end

namespace Stmt

mutual
/-- Changes every note by `f`, and the span of every branch by `g`. -/
def relocate (f : α → β) (g : Span → Span) : Stmt α → Stmt β
  | .assign name value note => .assign name (value.map f) (f note)
  | .declare name type value note => .declare name type (value.map f) (f note)
  | .expression value note => .expression (value.map f) (f note)
  | .function name parameters returns body note =>
    .function name parameters returns (relocateAll f g body) (f note)
  | .return value note => .return (value.map f) (f note)
  | .conditional first alternatives otherwise note =>
    .conditional (relocateBranch f g first) (relocateBranches f g alternatives)
      (relocateAll f g otherwise) (f note)
  | .loop condition body note => .loop (condition.map f) (relocateAll f g body) (f note)
  | .pass note => .pass (f note)

def relocateAll (f : α → β) (g : Span → Span) : List (Stmt α) → List (Stmt β)
  | [] => []
  | s :: rest => relocate f g s :: relocateAll f g rest

def relocateBranch (f : α → β) (g : Span → Span) : Branch α → Branch β
  | ⟨kind, condition, body, span⟩ => ⟨kind, condition.map f, relocateAll f g body, g span⟩

def relocateBranches (f : α → β) (g : Span → Span) : List (Branch α) → List (Branch β)
  | [] => []
  | b :: rest => relocateBranch f g b :: relocateBranches f g rest
end

mutual
theorem relocate_id : ∀ s : Stmt α, s.relocate id id = s
  | .assign _ _ _ | .declare _ _ _ _ | .expression _ _ | .return _ _ | .pass _ => by
    simp only [relocate, Expr.map_id, id]
  | .function _ _ _ body _ => by simp only [relocate, relocateAll_id body, id]
  | .conditional first alternatives otherwise _ => by
    simp only [relocate, relocateBranch_id first, relocateBranches_id alternatives,
      relocateAll_id otherwise, id]
  | .loop _ body _ => by simp only [relocate, Expr.map_id, relocateAll_id body, id]

theorem relocateAll_id : ∀ body : List (Stmt α), relocateAll id id body = body
  | [] => rfl
  | s :: rest => by rw [relocateAll, relocate_id s, relocateAll_id rest]

theorem relocateBranch_id : ∀ b : Branch α, relocateBranch id id b = b
  | ⟨_, _, body, _⟩ => by simp only [relocateBranch, Expr.map_id, relocateAll_id body, id]

theorem relocateBranches_id : ∀ bs : List (Branch α), relocateBranches id id bs = bs
  | [] => rfl
  | b :: rest => by rw [relocateBranches, relocateBranch_id b, relocateBranches_id rest]
end

end Stmt

/-- A program with all its positions moved. -/
def Program.move (h : Position → Position) (program : Program Span) : Program Span :=
  Stmt.relocateAll (Span.map h) (Span.map h) program

theorem Program.move_id (program : Program Span) : program.move id = program :=
  Stmt.relocateAll_id program

end Offside
