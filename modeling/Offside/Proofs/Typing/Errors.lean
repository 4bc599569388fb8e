import Offside.Proofs.Program.Notes
import Offside.Proofs.Typing.Program

/-! The errors of the checker are about types and names, and each stands where some part of the
program starts. -/
namespace Offside

/-- An error about types or names at a position. -/
structure Error.IsTypingAt (e : Error) (p : Position) : Prop where
  errorClass : e.cause.errorClass = .typing ∨ e.cause.errorClass = .naming
  position : e.position = p

/-- An error about types or names at the start of one of some spans. -/
def Error.IsTypingIn (e : Error) (spans : List Span) : Prop := ∃ s ∈ spans, e.IsTypingAt s.start

namespace Error

variable {e : Error} {xs ys : List Span} {s : Span}

theorem IsTypingIn.mono (h : e.IsTypingIn xs) (hxs : ∀ s ∈ xs, s ∈ ys) : e.IsTypingIn ys := by
  obtain ⟨s, hs, he⟩ := h
  exact ⟨s, hxs s hs, he⟩

theorem IsTypingIn.left (h : e.IsTypingIn xs) : e.IsTypingIn (xs ++ ys) :=
  h.mono fun _ => List.mem_append_left ys

theorem IsTypingIn.right (h : e.IsTypingIn ys) : e.IsTypingIn (xs ++ ys) :=
  h.mono fun _ => List.mem_append_right xs

theorem IsTypingIn.tail (h : e.IsTypingIn xs) : e.IsTypingIn (s :: xs) :=
  h.mono fun _ => List.mem_cons_of_mem s

theorem IsTypingAt.head (h : e.IsTypingAt s.start) : e.IsTypingIn (s :: xs) :=
  ⟨s, List.mem_cons_self, h⟩

end Error

variable {functions : Functions} {scope : Scope} {err : Error} {p : Position}

theorem Operator.isTypingAt_of_resultType {op : Operator} {left right : Ty}
    (h : op.resultType left right p = .error err) : err.IsTypingAt p := by
  unfold resultType at h
  split at h
  · cases h
  · cases h
    have hmismatch : (op.mismatch left right).errorClass = .typing := by
      unfold mismatch
      split <;> rfl
    exact ⟨.inl hmismatch, rfl⟩

namespace Functions

variable {function : String} {arguments : List (Expr Typed)}

theorem isTypingAt_of_requireCount {n : Nat}
    (h : requireCount function n arguments p = .error err) : err.IsTypingAt p := by
  unfold requireCount at h
  split at h
  · cases h
  · cases h
    exact ⟨.inl rfl, rfl⟩

theorem isTypingAt_of_matchArguments : ∀ {arguments : List (Expr Typed)} {index : Nat}
    {types : List Ty}, matchArguments function index arguments types = .error err →
      ∃ a ∈ arguments, err.IsTypingAt a.span.start
  | [], _, types, h => by cases types <;> cases h
  | _ :: _, _, [], h => by cases h
  | a :: rest, index, type :: types, h => by
    rw [matchArguments] at h
    split at h
    · obtain ⟨b, hb, hat⟩ := isTypingAt_of_matchArguments h
      exact ⟨b, List.mem_cons_of_mem a hb, hat⟩
    · cases h
      exact ⟨a, List.mem_cons_self, .inl rfl, rfl⟩

/-- A call is refused as a whole, or for one of its arguments. -/
theorem isTypingAt_of_callType (h : functions.callType function arguments p = .error err) :
    err.IsTypingAt p ∨ ∃ a ∈ arguments, err.IsTypingAt a.span.start := by
  unfold callType at h
  split at h
  · exact .inl (isTypingAt_of_requireCount (Except.of_bind_pure_eq_error h))
  · split at h
    · cases h
      exact .inl ⟨.inr rfl, rfl⟩
    · obtain hcount | ⟨-, -, hmatch⟩ := Except.bind_eq_error_iff.1 h
      · exact .inl (isTypingAt_of_requireCount hcount)
      · exact .inr (isTypingAt_of_matchArguments (Except.of_bind_pure_eq_error hmatch))

end Functions

namespace Expr

theorem isTypingAt_of_variableType {name : String}
    (h : variableType scope name p = .error err) : err.IsTypingAt p := by
  unfold variableType at h
  split at h
  · cases h
  · cases h
    exact ⟨.inr rfl, rfl⟩

/-- A checked expression stands where the expression did. -/
theorem span_of_check {e : Expr Span} {t : Expr Typed} (h : e.check functions scope = .ok t) :
    t.span = e.note := by
  rw [← (annotated_of_check h).1, note_map]
  rfl

theorem span_mem_of_checkAll {es : List (Expr Span)} {ts : List (Expr Typed)}
    (h : checkAll functions scope es = .ok ts) {t : Expr Typed} (ht : t ∈ ts) :
    t.span ∈ notesAll es := by
  obtain ⟨hmap, -⟩ := annotated_of_checkAll h
  have hmem : t.map Typed.span ∈ es := by
    rw [← hmap, mapAll_eq_map]
    exact List.mem_map_of_mem ht
  have hnote := note_mem_notesAll hmem
  rwa [note_map] at hnote

mutual
/-- What the checker says about an expression, it says about one of its parts. -/
theorem isTypingIn_of_check : ∀ {e : Expr Span}, e.check functions scope = .error err →
    err.IsTypingIn e.notes
  | .number .., h | .boolean .., h | .noneLiteral .., h => by cases h
  | .ident name span, h =>
    (isTypingAt_of_variableType (Except.of_bind_pure_eq_error h)).head
  | .binary op lhs rhs span, h => by
    rw [check] at h
    obtain hl | ⟨l, -, h⟩ := Except.bind_eq_error_iff.1 h
    · exact (isTypingIn_of_check hl).left.tail
    obtain hr | ⟨r, -, h⟩ := Except.bind_eq_error_iff.1 h
    · exact (isTypingIn_of_check hr).right.tail
    · exact (Operator.isTypingAt_of_resultType (Except.of_bind_pure_eq_error h)).head
  | .call function arguments span, h => by
    rw [check] at h
    obtain hargs | ⟨ts, hts, h⟩ := Except.bind_eq_error_iff.1 h
    · exact (isTypingIn_of_checkAll hargs).tail
    obtain hat | ⟨t, ht, hat⟩ :=
      Functions.isTypingAt_of_callType (Except.of_bind_pure_eq_error h)
    · exact hat.head
    · exact Error.IsTypingIn.tail ⟨t.span, span_mem_of_checkAll hts ht, hat⟩

theorem isTypingIn_of_checkAll : ∀ {es : List (Expr Span)},
    checkAll functions scope es = .error err → err.IsTypingIn (notesAll es)
  | [], h => by cases h
  | e :: rest, h => by
    rw [checkAll] at h
    obtain he | ⟨t, -, h⟩ := Except.bind_eq_error_iff.1 h
    · exact (isTypingIn_of_check he).left
    · exact (isTypingIn_of_checkAll (Except.of_bind_pure_eq_error h)).right
end

end Expr

namespace Checker

variable {scope' : Scope}

theorem isTypingAt_of_declare {name : String} {type : Ty}
    (h : declare name type p scope = .error err scope') : err.IsTypingAt p := by
  unfold declare at h
  split at h
  · cases h
  · split at h
    · cases h
    · cases h
      exact ⟨.inl rfl, rfl⟩

theorem reading_eq_error_iff {f : Scope → Except Error α} :
    reading f scope = .error err scope' ↔ f scope = .error err ∧ scope = scope' := by
  unfold reading
  split <;> simp_all

theorem resultIn_eq_error_iff {c : Checker α} :
    resultIn scope c = .error err ↔ ∃ scope', c scope = .error err scope' := by
  unfold resultIn
  split <;> simp_all

theorem isTypingIn_of_value {e : Expr Span} (h : value functions e scope = .error err scope') :
    err.IsTypingIn e.notes :=
  Expr.isTypingIn_of_check (reading_eq_error_iff.1 h).1

/-- A checked expression of another type is refused where it starts. -/
theorem isTypingIn_of_requireType {e : Expr Span} {t : Expr Typed} {type : Ty} {cause : Cause}
    (ht : e.check functions scope = .ok t) (hcause : cause.errorClass = .typing)
    (h : requireType t type cause scope = .error err scope') : err.IsTypingIn e.notes := by
  unfold requireType at h
  split at h
  · cases h
  · cases h
    refine ⟨e.note, e.note_mem_notes, .inl hcause, ?_⟩
    rw [Expr.span_of_check ht]

theorem isTypingIn_of_condition {construct : String} {e : Expr Span}
    (h : condition functions construct e scope = .error err scope') : err.IsTypingIn e.notes := by
  obtain hvalue | ⟨t, _, hvalue, h⟩ := EStateM.bind_eq_error_iff.1 h
  · exact isTypingIn_of_value hvalue
  · obtain ⟨ht, rfl⟩ := value_eq_ok_iff.1 hvalue
    exact isTypingIn_of_requireType ht rfl (EStateM.of_bind_pure_eq_error h)

end Checker

namespace Stmt

mutual
/-- What the checker says about a statement, it says about one of its parts. -/
theorem isTypingIn_of_check {R : Ty} : ∀ {s : Stmt Span} {scope scope' : Scope},
    s.check functions R scope = .error err scope' → err.IsTypingIn s.notes
  | .assign name value span, scope, scope', h => by
    rw [check] at h
    obtain hvalue | ⟨t, _, -, h⟩ := EStateM.bind_eq_error_iff.1 h
    · exact (Checker.isTypingIn_of_value hvalue).tail
    · exact (Checker.isTypingAt_of_declare (EStateM.of_bind_pure_eq_error h)).head
  | .declare name type value span, scope, scope', h => by
    rw [check] at h
    obtain hvalue | ⟨t, _, hvalue, h⟩ := EStateM.bind_eq_error_iff.1 h
    · exact (Checker.isTypingIn_of_value hvalue).tail
    obtain ⟨ht, rfl⟩ := Checker.value_eq_ok_iff.1 hvalue
    obtain htype | ⟨_, _, -, h⟩ := EStateM.bind_eq_error_iff.1 h
    · exact (Checker.isTypingIn_of_requireType ht rfl htype).tail
    · exact (Checker.isTypingAt_of_declare (EStateM.of_bind_pure_eq_error h)).head
  | .expression value span, scope, scope', h =>
    (Checker.isTypingIn_of_value (EStateM.of_bind_pure_eq_error h)).tail
  | .function name parameters returns body span, scope, scope', h => by
    cases h
    exact Error.IsTypingAt.head ⟨.inl rfl, rfl⟩
  | .return value span, scope, scope', h => by
    rw [check] at h
    obtain hvalue | ⟨t, _, hvalue, h⟩ := EStateM.bind_eq_error_iff.1 h
    · exact (Checker.isTypingIn_of_value hvalue).tail
    · obtain ⟨ht, rfl⟩ := Checker.value_eq_ok_iff.1 hvalue
      exact (Checker.isTypingIn_of_requireType ht rfl (EStateM.of_bind_pure_eq_error h)).tail
  | .conditional first alternatives otherwise span, scope, scope', h => by
    rw [check] at h
    obtain hf | ⟨f, _, -, h⟩ := EStateM.bind_eq_error_iff.1 h
    · exact (isTypingIn_of_checkBranch hf).left.tail
    obtain ha | ⟨as, _, -, h⟩ := EStateM.bind_eq_error_iff.1 h
    · exact (isTypingIn_of_checkBranches ha).left.right.tail
    · exact (isTypingIn_of_checkAll (EStateM.of_bind_pure_eq_error h)).right.right.tail
  | .loop condition body span, scope, scope', h => by
    rw [check] at h
    obtain hc | ⟨c, _, -, h⟩ := EStateM.bind_eq_error_iff.1 h
    · exact (Checker.isTypingIn_of_condition hc).left.tail
    · exact (isTypingIn_of_checkAll (EStateM.of_bind_pure_eq_error h)).right.tail
  | .pass span, scope, scope', h => by cases h

theorem isTypingIn_of_checkAll {R : Ty} : ∀ {body : List (Stmt Span)} {scope scope' : Scope},
    checkAll functions R body scope = .error err scope' → err.IsTypingIn (notesAll body)
  | [], scope, scope', h => by cases h
  | s :: rest, scope, scope', h => by
    rw [checkAll] at h
    obtain hs | ⟨t, _, -, h⟩ := EStateM.bind_eq_error_iff.1 h
    · exact (isTypingIn_of_check hs).left
    · exact (isTypingIn_of_checkAll (EStateM.of_bind_pure_eq_error h)).right

theorem isTypingIn_of_checkBranch {R : Ty} : ∀ {b : Branch Span} {scope scope' : Scope},
    checkBranch functions R b scope = .error err scope' → err.IsTypingIn (notesOfBranch b)
  | ⟨kind, condition, body, span⟩, scope, scope', h => by
    rw [checkBranch] at h
    obtain hc | ⟨c, _, -, h⟩ := EStateM.bind_eq_error_iff.1 h
    · exact (Checker.isTypingIn_of_condition hc).left
    · exact (isTypingIn_of_checkAll (EStateM.of_bind_pure_eq_error h)).right

theorem isTypingIn_of_checkBranches {R : Ty} :
    ∀ {bs : List (Branch Span)} {scope scope' : Scope},
    checkBranches functions R bs scope = .error err scope' → err.IsTypingIn (notesOfBranches bs)
  | [], scope, scope', h => by cases h
  | b :: rest, scope, scope', h => by
    rw [checkBranches] at h
    obtain hb | ⟨t, _, -, h⟩ := EStateM.bind_eq_error_iff.1 h
    · exact (isTypingIn_of_checkBranch hb).left
    · exact (isTypingIn_of_checkBranches (EStateM.of_bind_pure_eq_error h)).right
end

end Stmt

namespace Registrar

theorem isTypingAt_of_addDefinition {s : Stmt Span} {known known' : Functions}
    (h : addDefinition s known = .error err known') : err.IsTypingAt s.note.start := by
  cases s with
  | function name parameters returns body span =>
    rw [addDefinition, add] at h
    split at h
    · cases h
      exact ⟨.inl rfl, rfl⟩
    · cases h
  | _ => cases h

theorem isTypingIn_of_addAll {program : Program Span} {known known' : Functions}
    (h : addAll program known = .error err known') : err.IsTypingIn (Stmt.notesAll program) := by
  induction program generalizing known with
  | nil => cases h
  | cons s rest ih =>
    have hcons : addAll (s :: rest) = addDefinition s >>= fun _ => addAll rest := rfl
    rw [hcons] at h
    obtain hs | ⟨_, _, -, hrest⟩ := EStateM.bind_eq_error_iff.1 h
    · exact Error.IsTypingIn.left ⟨s.note, s.note_mem_notes, isTypingAt_of_addDefinition hs⟩
    · exact (ih hrest).right

end Registrar

namespace Functions

theorem isTypingIn_of_checkTop {s : Stmt Span} {scope' : Scope}
    (h : functions.checkTop s scope = .error err scope') : err.IsTypingIn s.notes := by
  cases s with
  | function name parameters returns body span =>
    have hbody := EStateM.of_bind_pure_eq_error h
    obtain ⟨hresult, -⟩ := Checker.reading_eq_error_iff.1 hbody
    obtain ⟨_, hall⟩ := Checker.resultIn_eq_error_iff.1 hresult
    exact (Stmt.isTypingIn_of_checkAll hall).tail
  | _ =>
    have hcheck : Stmt.check functions .none _ scope = .error err scope' := h
    exact Stmt.isTypingIn_of_check hcheck

theorem isTypingIn_of_checkProgram {program : Program Span}
    (h : functions.checkProgram program = .error err) :
    err.IsTypingIn (Stmt.notesAll program) := by
  obtain ⟨scope', hrun⟩ := Checker.resultIn_eq_error_iff.1 h
  clear h
  generalize Bindings.empty = scope at hrun
  induction program generalizing scope with
  | nil => cases hrun
  | cons s rest ih =>
    rw [List.mapM_cons] at hrun
    obtain hs | ⟨t, _, -, hrest⟩ := EStateM.bind_eq_error_iff.1 hrun
    · exact (isTypingIn_of_checkTop hs).left
    · exact (ih _ (EStateM.of_bind_pure_eq_error hrest)).right

end Functions

/-- The checker refuses a program only for its types and names, where one of its parts starts. -/
theorem Program.isTypingIn_of_check {program : Program Span} (h : program.check = .error err) :
    err.IsTypingIn (Stmt.notesAll program) := by
  obtain hfunctions | ⟨functions, -, hchecked⟩ := Except.bind_eq_error_iff.1 h
  · unfold functions at hfunctions
    split at hfunctions
    · cases hfunctions
    · rename_i hadded
      cases hfunctions
      exact Registrar.isTypingIn_of_addAll hadded
  · exact Functions.isTypingIn_of_checkProgram hchecked

end Offside
