import Offside.Position
import Offside.Program.Expr
import Offside.Program.Ty

/-! Statements, whose notes are of the same kind as those of the expressions in them. -/
namespace Offside

structure Parameter where
  name : String
  type : Ty
deriving DecidableEq, Repr, Inhabited

/-- Whether a branch comes first in its conditional or after others. -/
inductive BranchKind where
  | first | alternative
deriving DecidableEq, Repr, Inhabited

/-- The keyword that starts a branch. -/
def BranchKind.keyword : BranchKind → String
  | first => "if"
  | alternative => "elif"

mutual
inductive Stmt (α : Type) where
  /-- A value for a variable that gets its type from it. -/
  | assign (name : String) (value : Expr α) (note : α)
  /-- A value for a variable of a stated type. -/
  | declare (name : String) (type : Ty) (value : Expr α) (note : α)
  | expression (value : Expr α) (note : α)
  | function (name : String) (parameters : List Parameter) (returns : Ty) (body : List (Stmt α))
      (note : α)
  | return (value : Expr α) (note : α)
  | conditional (first : Branch α) (alternatives : List (Branch α)) (otherwise : List (Stmt α))
      (note : α)
  | loop (condition : Expr α) (body : List (Stmt α)) (note : α)
  | pass (note : α)

/-- The statements for a condition. -/
structure Branch (α : Type) where
  kind : BranchKind
  condition : Expr α
  body : List (Stmt α)
  span : Span
end

instance [Inhabited α] : Inhabited (Stmt α) := ⟨.pass default⟩

namespace Stmt

def note : Stmt α → α
  | assign _ _ note | declare _ _ _ note | expression _ note | function _ _ _ _ note
  | .return _ note | conditional _ _ _ note | loop _ _ note | pass note => note

mutual
/-- Changes every note. -/
def map (f : α → β) : Stmt α → Stmt β
  | .assign name value note => .assign name (value.map f) (f note)
  | .declare name type value note => .declare name type (value.map f) (f note)
  | .expression value note => .expression (value.map f) (f note)
  | .function name parameters returns body note =>
    .function name parameters returns (mapAll f body) (f note)
  | .return value note => .return (value.map f) (f note)
  | .conditional first alternatives otherwise note =>
    .conditional (mapBranch f first) (mapBranches f alternatives) (mapAll f otherwise) (f note)
  | .loop condition body note => .loop (condition.map f) (mapAll f body) (f note)
  | .pass note => .pass (f note)

def mapAll (f : α → β) : List (Stmt α) → List (Stmt β)
  | [] => []
  | s :: rest => map f s :: mapAll f rest

def mapBranch (f : α → β) : Branch α → Branch β
  | ⟨kind, condition, body, span⟩ => ⟨kind, condition.map f, mapAll f body, span⟩

def mapBranches (f : α → β) : List (Branch α) → List (Branch β)
  | [] => []
  | b :: rest => mapBranch f b :: mapBranches f rest
end

@[simp] theorem note_map (f : α → β) (s : Stmt α) : (s.map f).note = f s.note := by
  cases s <;> simp [map, note]

variable [DecidableEq α]

mutual
/-- Whether two statements agree in every part and every note. -/
def same : Stmt α → Stmt α → Bool
  | .assign x v n, .assign y w m => x = y && v = w && n = m
  | .declare x t v n, .declare y u w m => x = y && t = u && v = w && n = m
  | .expression v n, .expression w m => v = w && n = m
  | .function f p t b n, .function g q u c m => f = g && p = q && t = u && sameAll b c && n = m
  | .return v n, .return w m => v = w && n = m
  | .conditional f a o n, .conditional g b p m =>
    sameBranch f g && sameBranches a b && sameAll o p && n = m
  | .loop v b n, .loop w c m => v = w && sameAll b c && n = m
  | .pass n, .pass m => n = m
  | _, _ => false
termination_by structural s => s

def sameAll : List (Stmt α) → List (Stmt α) → Bool
  | [], [] => true
  | a :: as, b :: bs => same a b && sameAll as bs
  | _, _ => false
termination_by structural body => body

def sameBranch : Branch α → Branch α → Bool
  | ⟨k, v, b, s⟩, ⟨l, w, c, t⟩ => k = l && v = w && sameAll b c && s = t
termination_by structural b => b

def sameBranches : List (Branch α) → List (Branch α) → Bool
  | [], [] => true
  | a :: as, b :: bs => sameBranch a b && sameBranches as bs
  | _, _ => false
termination_by structural branches => branches
end

mutual
theorem same_self : ∀ s : Stmt α, same s s = true
  | .assign _ _ _ | .declare _ _ _ _ | .expression _ _ | .return _ _ | .pass _ => by simp [same]
  | .function _ _ _ b _ | .loop _ b _ => by simp [same, sameAll_self b]
  | .conditional f a o _ => by simp [same, sameBranch_self f, sameBranches_self a, sameAll_self o]

theorem sameAll_self : ∀ body : List (Stmt α), sameAll body body = true
  | [] => rfl
  | s :: rest => by simp [sameAll, same_self s, sameAll_self rest]

theorem sameBranch_self : ∀ b : Branch α, sameBranch b b = true
  | ⟨_, _, b, _⟩ => by simp [sameBranch, sameAll_self b]

theorem sameBranches_self : ∀ branches : List (Branch α), sameBranches branches branches = true
  | [] => rfl
  | b :: rest => by simp [sameBranches, sameBranch_self b, sameBranches_self rest]
end

mutual
theorem eq_of_same : ∀ {a b : Stmt α}, same a b = true → a = b
  | .assign _ _ _, b, h => by cases b <;> simp_all [same]
  | .declare _ _ _ _, b, h => by cases b <;> simp_all [same]
  | .expression _ _, b, h => by cases b <;> simp_all [same]
  | .return _ _, b, h => by cases b <;> simp_all [same]
  | .pass _, b, h => by cases b <;> simp_all [same]
  | .function _ _ _ body _, b, h => by
    cases b with
    | function =>
      simp only [same, Bool.and_eq_true, decide_eq_true_eq] at h
      obtain ⟨⟨⟨⟨rfl, rfl⟩, rfl⟩, hb⟩, rfl⟩ := h
      rw [eq_of_sameAll hb]
    | _ => simp [same] at h
  | .conditional f a o _, b, h => by
    cases b with
    | conditional =>
      simp only [same, Bool.and_eq_true, decide_eq_true_eq] at h
      obtain ⟨⟨⟨hf, ha⟩, ho⟩, rfl⟩ := h
      rw [eq_of_sameBranch hf, eq_of_sameBranches ha, eq_of_sameAll ho]
    | _ => simp [same] at h
  | .loop _ body _, b, h => by
    cases b with
    | loop =>
      simp only [same, Bool.and_eq_true, decide_eq_true_eq] at h
      obtain ⟨⟨rfl, hb⟩, rfl⟩ := h
      rw [eq_of_sameAll hb]
    | _ => simp [same] at h

theorem eq_of_sameAll : ∀ {as bs : List (Stmt α)}, sameAll as bs = true → as = bs
  | [], [], _ => rfl
  | [], _ :: _, h | _ :: _, [], h => by simp [sameAll] at h
  | a :: as, b :: bs, h => by
    simp only [sameAll, Bool.and_eq_true] at h
    rw [eq_of_same h.1, eq_of_sameAll h.2]

theorem eq_of_sameBranch : ∀ {a b : Branch α}, sameBranch a b = true → a = b
  | ⟨_, _, body, _⟩, ⟨_, _, _, _⟩, h => by
    simp only [sameBranch, Bool.and_eq_true, decide_eq_true_eq] at h
    obtain ⟨⟨⟨rfl, rfl⟩, hb⟩, rfl⟩ := h
    rw [eq_of_sameAll hb]

theorem eq_of_sameBranches : ∀ {as bs : List (Branch α)}, sameBranches as bs = true → as = bs
  | [], [], _ => rfl
  | [], _ :: _, h | _ :: _, [], h => by simp [sameBranches] at h
  | a :: as, b :: bs, h => by
    simp only [sameBranches, Bool.and_eq_true] at h
    rw [eq_of_sameBranch h.1, eq_of_sameBranches h.2]
end

theorem same_iff {a b : Stmt α} : same a b = true ↔ a = b :=
  ⟨eq_of_same, fun h => h ▸ same_self a⟩

instance : DecidableEq (Stmt α) := fun _ _ => decidable_of_iff _ same_iff

end Stmt
end Offside
