import Offside.Proofs.Alike
import Offside.Proofs.Program.Relocation
import Offside.Typing.Program

/-! The checker does not depend on where the parts of a program stand. A program that is moved is
given the same types, in the places that it is moved to; or it is refused for the same cause, and
the error moves with it. -/
namespace Offside

/-- A type noted elsewhere. -/
def Typed.map (h : Position → Position) (t : Typed) : Typed := ⟨t.type, t.span.map h⟩

/-- A typed program with all its positions moved. -/
def Program.moveTyped (h : Position → Position) (program : Program Typed) : Program Typed :=
  Stmt.relocateAll (Typed.map h) (Span.map h) program

theorem Program.moveTyped_id (program : Program Typed) : program.moveTyped id = program :=
  Stmt.relocateAll_id program

variable {h : Position → Position} {functions : Functions} {scope : Scope} {p : Position}

namespace Expr

@[simp] theorem type_map (e : Expr Typed) : (e.map (Typed.map h)).type = e.type := by
  simp only [type, note_map, Typed.map]

@[simp] theorem start_span_map (e : Expr Typed) :
    (e.map (Typed.map h)).span.start = h e.span.start := by
  simp only [span, note_map, Typed.map, Span.start_map]

theorem variableType_moved (name : String) :
    Except.Alike Eq (Error.MovedBy h) (variableType scope name p)
      (variableType scope name (h p)) := by
  unfold variableType
  split
  · exact .ok rfl
  · exact .error rfl

end Expr

theorem Operator.resultType_moved (op : Operator) (lhs rhs : Ty) :
    Except.Alike Eq (Error.MovedBy h) (op.resultType lhs rhs p) (op.resultType lhs rhs (h p)) := by
  unfold resultType
  split
  · exact .ok rfl
  · exact .error rfl

namespace Functions

theorem requireCount_moved (function : String) (expected : Nat) (arguments : List (Expr Typed)) :
    Except.Alike Eq (Error.MovedBy h) (requireCount function expected arguments p)
      (requireCount function expected (Expr.mapAll (Typed.map h) arguments) (h p)) := by
  unfold requireCount
  rw [Expr.mapAll_eq_map, List.length_map]
  split
  · exact .ok rfl
  · exact .error rfl

theorem matchArguments_moved (function : String) : ∀ (index : Nat)
    (arguments : List (Expr Typed)) (types : List Ty),
    Except.Alike Eq (Error.MovedBy h) (matchArguments function index arguments types)
      (matchArguments function index (Expr.mapAll (Typed.map h) arguments) types)
  | _, [], _ => .ok rfl
  | _, _ :: _, [] => .ok rfl
  | index, a :: rest, type :: types => by
    simp only [Expr.mapAll, matchArguments, Expr.type_map, Expr.start_span_map]
    split
    · exact matchArguments_moved function (index + 1) rest types
    · exact .error rfl

theorem callType_moved (function : String) (arguments : List (Expr Typed)) :
    Except.Alike Eq (Error.MovedBy h) (functions.callType function arguments p)
      (functions.callType function (Expr.mapAll (Typed.map h) arguments) (h p)) := by
  unfold callType
  split
  · exact (requireCount_moved _ _ _).bind fun _ _ _ => .pure rfl
  · split
    · exact .error rfl
    · refine (requireCount_moved _ _ _).bind fun _ _ _ => ?_
      exact (matchArguments_moved _ _ _ _).bind fun _ _ _ => .pure rfl

end Functions

namespace Expr

/-- A checked expression and the same one moved. -/
def MovedBy (h : Position → Position) (t t' : Expr Typed) : Prop := t' = t.map (Typed.map h)

mutual
theorem check_moved : ∀ e : Expr Span, Except.Alike (MovedBy h) (Error.MovedBy h)
    (e.check functions scope) ((e.map (Span.map h)).check functions scope)
  | .number _ _ | .boolean _ _ | .noneLiteral _ => .ok rfl
  | .ident name span => by
    refine (variableType_moved name).bind ?_
    rintro type _ rfl
    exact .pure rfl
  | .binary op lhs rhs span => by
    simp only [check, map]
    refine (check_moved lhs).bind ?_
    rintro l _ rfl
    refine (check_moved rhs).bind ?_
    rintro r _ rfl
    rw [type_map, type_map]
    refine (op.resultType_moved l.type r.type).bind ?_
    rintro type _ rfl
    exact .pure rfl
  | .call function arguments span => by
    simp only [check, map]
    refine (checkAll_moved arguments).bind ?_
    rintro es _ rfl
    refine (Functions.callType_moved function es).bind ?_
    rintro type _ rfl
    exact .pure rfl

theorem checkAll_moved : ∀ es : List (Expr Span),
    Except.Alike (fun ts ts' => ts' = mapAll (Typed.map h) ts) (Error.MovedBy h)
      (checkAll functions scope es) (checkAll functions scope (mapAll (Span.map h) es))
  | [] => .ok rfl
  | e :: rest => by
    simp only [checkAll, mapAll]
    refine (check_moved e).bind ?_
    rintro t _ rfl
    refine (checkAll_moved rest).bind ?_
    rintro ts _ rfl
    exact .pure rfl
end

end Expr

namespace Checker

theorem reading_alike {R : α → α' → Prop} {E : Error → Error → Prop}
    {f : Scope → Except Error α} {f' : Scope → Except Error α'}
    (hf : ∀ scope, Except.Alike R E (f scope) (f' scope)) :
    EStateM.Alike R E (reading f) (reading f') := by
  intro scope
  have hscope := hf scope
  unfold reading
  generalize f scope = x, f' scope = x' at hscope ⊢
  cases hscope with
  | ok ha => exact .ok ha
  | error he => exact .error he

theorem resultIn_alike {R : α → α' → Prop} {E : Error → Error → Prop} {c : Checker α}
    {c' : Checker α'} (hc : EStateM.Alike R E c c') (scope : Scope) :
    Except.Alike R E (resultIn scope c) (resultIn scope c') := by
  have hscope := hc scope
  unfold resultIn
  generalize c scope = r, c' scope = r' at hscope ⊢
  cases hscope with
  | ok ha => exact .ok ha
  | error he => exact .error he

theorem value_moved (e : Expr Span) : EStateM.Alike (Expr.MovedBy h) (Error.MovedBy h)
    (value functions e) (value functions (e.map (Span.map h))) :=
  reading_alike fun _ => Expr.check_moved e

theorem requireType_moved (e : Expr Typed) (type : Ty) (cause : Cause) :
    EStateM.Alike Eq (Error.MovedBy h) (requireType e type cause)
      (requireType (e.map (Typed.map h)) type cause) := by
  intro scope
  unfold requireType
  rw [Expr.type_map, Expr.start_span_map]
  split
  · exact .ok rfl
  · exact .error rfl

theorem declare_moved (name : String) (type : Ty) :
    EStateM.Alike Eq (Error.MovedBy h) (declare name type p) (declare name type (h p)) := by
  intro scope
  unfold declare
  split
  · exact .ok rfl
  · split
    · exact .ok rfl
    · exact .error rfl

theorem condition_moved (construct : String) (e : Expr Span) :
    EStateM.Alike (Expr.MovedBy h) (Error.MovedBy h) (condition functions construct e)
      (condition functions construct (e.map (Span.map h))) := by
  refine (value_moved e).bind ?_
  rintro t _ rfl
  rw [Expr.type_map]
  exact (requireType_moved t .bool _).bind fun _ _ _ => .pure rfl

end Checker

namespace Stmt

/-- A checked statement and the same one moved. -/
def MovedBy (h : Position → Position) (t t' : Stmt Typed) : Prop :=
  t' = t.relocate (Typed.map h) (Span.map h)

mutual
theorem check_moved (R : Ty) : ∀ s : Stmt Span, EStateM.Alike (MovedBy h) (Error.MovedBy h)
    (s.check functions R) ((s.relocate (Span.map h) (Span.map h)).check functions R)
  | .assign name value span => by
    simp only [check, relocate]
    refine (Checker.value_moved value).bind ?_
    rintro t _ rfl
    rw [Expr.type_map]
    exact (Checker.declare_moved name t.type).bind fun _ _ _ => .pure rfl
  | .declare name type value span => by
    simp only [check, relocate]
    refine (Checker.value_moved value).bind ?_
    rintro t _ rfl
    rw [Expr.type_map]
    refine (Checker.requireType_moved t type _).bind fun _ _ _ => ?_
    exact (Checker.declare_moved name type).bind fun _ _ _ => .pure rfl
  | .expression value span => by
    simp only [check, relocate]
    refine (Checker.value_moved value).bind ?_
    rintro t _ rfl
    rw [Expr.type_map]
    exact .pure rfl
  | .function name parameters returns body span => fun _ => .error rfl
  | .return value span => by
    simp only [check, relocate]
    refine (Checker.value_moved value).bind ?_
    rintro t _ rfl
    rw [Expr.type_map]
    exact (Checker.requireType_moved t R _).bind fun _ _ _ => .pure rfl
  | .conditional first alternatives otherwise span => by
    simp only [check, relocate]
    refine (checkBranch_moved R first).bind ?_
    rintro f _ rfl
    refine (checkBranches_moved R alternatives).bind ?_
    rintro as _ rfl
    refine (checkAll_moved R otherwise).bind ?_
    rintro o _ rfl
    exact .pure rfl
  | .loop condition body span => by
    simp only [check, relocate]
    refine (Checker.condition_moved "while" condition).bind ?_
    rintro c _ rfl
    refine (checkAll_moved R body).bind ?_
    rintro b _ rfl
    exact .pure rfl
  | .pass span => .pure rfl

theorem checkAll_moved (R : Ty) : ∀ body : List (Stmt Span),
    EStateM.Alike (fun ts ts' => ts' = relocateAll (Typed.map h) (Span.map h) ts) (Error.MovedBy h)
      (checkAll functions R body)
      (checkAll functions R (relocateAll (Span.map h) (Span.map h) body))
  | [] => .pure rfl
  | s :: rest => by
    simp only [checkAll, relocateAll]
    refine (check_moved R s).bind ?_
    rintro t _ rfl
    refine (checkAll_moved R rest).bind ?_
    rintro ts _ rfl
    exact .pure rfl

theorem checkBranch_moved (R : Ty) : ∀ b : Branch Span,
    EStateM.Alike (fun t t' => t' = relocateBranch (Typed.map h) (Span.map h) t) (Error.MovedBy h)
      (checkBranch functions R b)
      (checkBranch functions R (relocateBranch (Span.map h) (Span.map h) b))
  | ⟨kind, condition, body, span⟩ => by
    simp only [checkBranch, relocateBranch]
    refine (Checker.condition_moved kind.keyword condition).bind ?_
    rintro c _ rfl
    refine (checkAll_moved R body).bind ?_
    rintro b _ rfl
    exact .pure rfl

theorem checkBranches_moved (R : Ty) : ∀ bs : List (Branch Span),
    EStateM.Alike (fun ts ts' => ts' = relocateBranches (Typed.map h) (Span.map h) ts)
      (Error.MovedBy h) (checkBranches functions R bs)
      (checkBranches functions R (relocateBranches (Span.map h) (Span.map h) bs))
  | [] => .pure rfl
  | b :: rest => by
    simp only [checkBranches, relocateBranches]
    refine (checkBranch_moved R b).bind ?_
    rintro t _ rfl
    refine (checkBranches_moved R rest).bind ?_
    rintro ts _ rfl
    exact .pure rfl
end

end Stmt

namespace Registrar

theorem addDefinition_moved (s : Stmt Span) : EStateM.Alike Eq (Error.MovedBy h) (addDefinition s)
    (addDefinition (s.relocate (Span.map h) (Span.map h))) := by
  cases s with
  | function name parameters returns body span =>
    intro known
    simp only [addDefinition, add, Stmt.relocate]
    split
    · exact .error rfl
    · exact .ok rfl
  | _ => exact .pure rfl

theorem addAll_moved (program : Program Span) : EStateM.Alike Eq (Error.MovedBy h) (addAll program)
    (addAll (program.move h)) := by
  induction program with
  | nil => exact .pure rfl
  | cons s rest ih => exact (addDefinition_moved s).bind fun _ _ _ => ih

end Registrar

namespace Functions

theorem checkBody_moved (globals : Scope) (parameters : List Parameter) (returns : Ty)
    (body : List (Stmt Span)) : Except.Alike
      (fun ts ts' => ts' = Stmt.relocateAll (Typed.map h) (Span.map h) ts) (Error.MovedBy h)
      (functions.checkBody globals parameters returns body) (functions.checkBody globals parameters
        returns (Stmt.relocateAll (Span.map h) (Span.map h) body)) :=
  Checker.resultIn_alike (Stmt.checkAll_moved returns body) _

theorem checkTop_moved (s : Stmt Span) : EStateM.Alike (Stmt.MovedBy h) (Error.MovedBy h)
    (functions.checkTop s) (functions.checkTop (s.relocate (Span.map h) (Span.map h))) := by
  cases s with
  | function name parameters returns body span =>
    refine (Checker.reading_alike fun globals =>
      checkBody_moved globals parameters returns body).bind ?_
    rintro ts _ rfl
    exact .pure rfl
  | _ => exact Stmt.check_moved .none _

theorem mapM_checkTop_moved (program : Program Span) :
    EStateM.Alike (fun ts ts' => ts' = Program.moveTyped h ts) (Error.MovedBy h)
      (program.mapM functions.checkTop) ((program.move h).mapM functions.checkTop) := by
  induction program with
  | nil => exact .pure rfl
  | cons s rest ih =>
    change EStateM.Alike _ _ _ (List.mapM functions.checkTop (_ :: Program.move h rest))
    rw [List.mapM_cons, List.mapM_cons]
    refine (checkTop_moved s).bind ?_
    rintro t _ rfl
    refine ih.bind ?_
    rintro ts _ rfl
    exact .pure rfl

end Functions

namespace Program

theorem functions_moved (program : Program Span) :
    Except.Alike Eq (Error.MovedBy h) program.functions (program.move h).functions := by
  have hall := Registrar.addAll_moved (h := h) program .empty
  unfold functions
  generalize Registrar.addAll program .empty = r, Registrar.addAll (program.move h) .empty = r'
    at hall ⊢
  cases hall with
  | ok => exact .ok rfl
  | error he => exact .error he

/-- A program that is moved is checked in the same way. -/
theorem check_moved (program : Program Span) :
    Except.Alike (fun ts ts' => ts' = moveTyped h ts) (Error.MovedBy h) program.check
      (program.move h).check := by
  refine (functions_moved program).bind ?_
  rintro functions _ rfl
  exact Checker.resultIn_alike (Functions.mapM_checkTop_moved program) .empty

end Program
end Offside
