import Offside.Proofs.Typing.Program

/-! Where the variables of a scope occur, and with which types. What a scope binds and reads agrees on
one type for every variable, since a binding is checked against the one before it. Parameters are
bound without this check, so they agree with the rest exactly if they agree with each other. -/
namespace Offside
open Typing

/-- A variable and the type that it has in one place. -/
abbrev Occurrence := String × Ty

/-- Whether each variable has the same type in all places. -/
def OneType (occurrences : List Occurrence) : Prop :=
  ∀ name type other, (name, type) ∈ occurrences → (name, other) ∈ occurrences → type = other

/-- The variable that an expression reads if it is one, and the type that is noted there. -/
def Expr.read? : Expr Typed → Option Occurrence
  | .ident name note => some (name, note.type)
  | _ => none

namespace Stmt

mutual
/-- The variables that a statement binds, with the types that are stated and noted there. A function
has a scope of its own. -/
def bindings : Stmt Typed → List Occurrence
  | .assign name _ note => [(name, note.type)]
  | .declare name type _ note => [(name, type), (name, note.type)]
  | .conditional first alternatives otherwise _ =>
    bindingsOfBranch first ++ bindingsOfBranches alternatives ++ bindingsAll otherwise
  | .loop _ body _ => bindingsAll body
  | .expression _ _ | .function _ _ _ _ _ | .return _ _ | .pass _ => []

def bindingsAll : List (Stmt Typed) → List Occurrence
  | [] => []
  | s :: rest => bindings s ++ bindingsAll rest

def bindingsOfBranch : Branch Typed → List Occurrence
  | ⟨_, _, body, _⟩ => bindingsAll body

def bindingsOfBranches : List (Branch Typed) → List Occurrence
  | [] => []
  | b :: rest => bindingsOfBranch b ++ bindingsOfBranches rest
end

/-- Whether a statement defines a function. -/
def isFunction : Stmt α → Bool
  | .function _ _ _ _ _ => true
  | _ => false

end Stmt

/-- A part of a program with a scope of its own: statements, and the parameters around them. -/
structure Extent (α : Type) where
  parameters : List Parameter
  statements : List (Stmt α)

namespace Extent

/-- What the parameters are declared as. -/
def declared (e : Extent Typed) : List Occurrence := e.parameters.map fun p => (p.name, p.type)

/-- What the statements bind and read. -/
def used (e : Extent Typed) : List Occurrence :=
  Stmt.bindingsAll e.statements ++ (Stmt.partsAll e.statements).filterMap Expr.read?

end Extent

namespace Program

/-- The statements at the top level that are no functions. -/
def topLevel (program : Program α) : List (Stmt α) := program.filter (!·.isFunction)

/-- The functions at the top level. Elsewhere none is accepted. -/
def functionExtents (program : Program α) : List (Extent α) := program.filterMap fun
  | .function _ parameters _ body _ => some ⟨parameters, body⟩
  | _ => none

/-- The parts of a program with scopes of their own. -/
def extents (program : Program α) : List (Extent α) :=
  ⟨[], program.topLevel⟩ :: program.functionExtents

end Program

namespace Typing

/-- The variables have these types in a context. -/
def Knows (G : Context) (occurrences : List Occurrence) : Prop :=
  ∀ o ∈ occurrences, G o.1 = some o.2

namespace Knows

variable {F : Signatures} {G H : Context} {xs ys : List Occurrence}

theorem nil : Knows G [] := List.forall_mem_nil _

theorem append (hx : Knows G xs) (hy : Knows G ys) : Knows G (xs ++ ys) :=
  List.forall_mem_append.2 ⟨hx, hy⟩

theorem mono (hG : G.Extends H) (h : Knows G xs) : Knows H xs := fun o ho => hG _ _ (h o ho)

theorem oneType (h : Knows G xs) : OneType xs := by
  intro name type other ht ho
  have htype := h _ ht
  have hother := h _ ho
  exact Option.some.inj (htype.symm.trans hother)

/-- A context in which noted types are right knows the variables that are read. -/
theorem of_annotated {ts : List (Expr Typed)} (h : Annotated F G ts) :
    Knows G (ts.filterMap Expr.read?) := by
  intro o ho
  obtain ⟨x, hx, hread⟩ := List.mem_filterMap.1 ho
  cases x with
  | ident name note =>
    cases hread
    have htype : HasType F G (.ident name note.span) note.type := h _ hx
    cases htype with
    | ident hG => exact hG
  | _ => cases hread

end Knows

/-- A variable has the type of the last parameter of its name, or the one that it had before. -/
theorem Context.withParameters_cases (G : Context) (parameters : List Parameter) (name : String) :
    (G.withParameters parameters name = G name ∧ ∀ p ∈ parameters, p.name ≠ name) ∨
      ∃ q ∈ parameters, q.name = name ∧ G.withParameters parameters name = some q.type := by
  induction parameters generalizing G with
  | nil => exact .inl ⟨rfl, List.forall_mem_nil _⟩
  | cons p rest ih =>
    obtain ⟨hsame, hrest⟩ | ⟨q, hq, hname, htype⟩ := ih (G.set p.name p.type)
    · by_cases hp : name = p.name
      · right
        refine ⟨p, List.mem_cons_self, hp.symm, ?_⟩
        rw [withParameters, hsame, set, if_pos hp]
      · left
        constructor
        · rw [withParameters, hsame, set, if_neg hp]
        · exact List.forall_mem_cons.2 ⟨Ne.symm hp, hrest⟩
    · right
      exact ⟨q, List.mem_cons_of_mem p hq, hname, htype⟩

end Typing

namespace Stmt

variable {functions : Functions}

mutual
/-- The scope that a checked statement leaves knows what the statement binds. -/
theorem knows_of_check {R : Ty} : ∀ {s : Stmt Span} {t : Stmt Typed} {scope scope' : Scope},
    s.check functions R scope = .ok t scope' → Knows scope'.get? t.bindings
  | .assign name value span, t, scope, scope', h => by
    simp only [check, EStateM.bind_eq_ok_iff, Checker.value_eq_ok_iff, EStateM.pure_eq_ok_iff] at h
    obtain ⟨v, _, ⟨-, rfl⟩, _, _, hd, rfl, rfl⟩ := h
    obtain ⟨-, hs⟩ := Checker.admits_of_declare hd
    rw [hs]
    intro o ho
    rw [List.mem_singleton.1 ho]
    exact if_pos rfl
  | .declare name type value span, t, scope, scope', h => by
    simp only [check, EStateM.bind_eq_ok_iff, Checker.value_eq_ok_iff,
      Checker.requireType_eq_ok_iff, EStateM.pure_eq_ok_iff] at h
    obtain ⟨v, _, ⟨-, rfl⟩, _, _, ⟨-, rfl⟩, _, _, hd, rfl, rfl⟩ := h
    obtain ⟨-, hs⟩ := Checker.admits_of_declare hd
    rw [hs]
    intro o ho
    have heq : o = (name, type) := by simpa [bindings] using ho
    rw [heq]
    exact if_pos rfl
  | .expression value span, t, scope, scope', h => by
    simp only [check, EStateM.bind_eq_ok_iff, EStateM.pure_eq_ok_iff] at h
    obtain ⟨v, _, -, rfl, rfl⟩ := h
    exact .nil
  | .function name parameters returns body span, t, scope, scope', h => by cases h
  | .return value span, t, scope, scope', h => by
    simp only [check, EStateM.bind_eq_ok_iff, EStateM.pure_eq_ok_iff] at h
    obtain ⟨v, _, -, _, _, -, rfl, rfl⟩ := h
    exact .nil
  | .conditional first alternatives otherwise span, t, scope, scope', h => by
    simp only [check, EStateM.bind_eq_ok_iff, EStateM.pure_eq_ok_iff] at h
    obtain ⟨f, _, hf, as, _, has, o, _, ho, rfl, rfl⟩ := h
    have halternatives := (accepts_of_checkBranches has).1.extends
    have hotherwise := (accepts_of_checkAll ho).1.extends
    have hfirst := (knows_of_checkBranch hf).mono halternatives
    exact ((hfirst.append (knows_of_checkBranches has)).mono hotherwise).append
      (knows_of_checkAll ho)
  | .loop condition body span, t, scope, scope', h => by
    simp only [check, EStateM.bind_eq_ok_iff, EStateM.pure_eq_ok_iff] at h
    obtain ⟨c, _, -, b, _, hb, rfl, rfl⟩ := h
    exact knows_of_checkAll hb
  | .pass span, t, scope, scope', h => by
    simp only [check, EStateM.pure_eq_ok_iff] at h
    obtain ⟨rfl, rfl⟩ := h
    exact .nil

theorem knows_of_checkAll {R : Ty} :
    ∀ {body : List (Stmt Span)} {ts : List (Stmt Typed)} {scope scope' : Scope},
    checkAll functions R body scope = .ok ts scope' → Knows scope'.get? (bindingsAll ts)
  | [], ts, scope, scope', h => by
    simp only [checkAll, EStateM.pure_eq_ok_iff] at h
    obtain ⟨rfl, rfl⟩ := h
    exact .nil
  | s :: rest, ts, scope, scope', h => by
    simp only [checkAll, EStateM.bind_eq_ok_iff, EStateM.pure_eq_ok_iff] at h
    obtain ⟨t, _, ht, us, _, hus, rfl, rfl⟩ := h
    have hrest := (accepts_of_checkAll hus).1.extends
    exact ((knows_of_check ht).mono hrest).append (knows_of_checkAll hus)

theorem knows_of_checkBranch {R : Ty} :
    ∀ {b : Branch Span} {t : Branch Typed} {scope scope' : Scope},
    checkBranch functions R b scope = .ok t scope' → Knows scope'.get? (bindingsOfBranch t)
  | ⟨kind, condition, body, span⟩, t, scope, scope', h => by
    simp only [checkBranch, EStateM.bind_eq_ok_iff, EStateM.pure_eq_ok_iff] at h
    obtain ⟨c, _, -, us, _, hus, rfl, rfl⟩ := h
    exact knows_of_checkAll hus

theorem knows_of_checkBranches {R : Ty} :
    ∀ {bs : List (Branch Span)} {ts : List (Branch Typed)} {scope scope' : Scope},
    checkBranches functions R bs scope = .ok ts scope' → Knows scope'.get? (bindingsOfBranches ts)
  | [], ts, scope, scope', h => by
    simp only [checkBranches, EStateM.pure_eq_ok_iff] at h
    obtain ⟨rfl, rfl⟩ := h
    exact .nil
  | b :: rest, ts, scope, scope', h => by
    simp only [checkBranches, EStateM.bind_eq_ok_iff, EStateM.pure_eq_ok_iff] at h
    obtain ⟨t, _, ht, us, _, hus, rfl, rfl⟩ := h
    have hrest := (accepts_of_checkBranches hus).1.extends
    exact ((knows_of_checkBranch ht).mono hrest).append (knows_of_checkBranches hus)
end

end Stmt

namespace Extent

/-- Some context with the parameters, and maybe more variables, knows what an extent uses. -/
def Agrees (e : Extent Typed) : Prop :=
  ∃ G H : Context, (G.withParameters e.parameters).Extends H ∧ Knows H e.used

theorem agrees_of_checkAll {functions : Functions} {R : Ty} {scope scope' : Scope} {G : Context}
    {parameters : List Parameter} {body : List (Stmt Span)} {ts : List (Stmt Typed)}
    (hscope : scope.get? = G.withParameters parameters)
    (h : Stmt.checkAll functions R body scope = .ok ts scope') : Agrees ⟨parameters, ts⟩ := by
  obtain ⟨haccepts, -, hannotated⟩ := Stmt.accepts_of_checkAll h
  refine ⟨G, scope'.get?, ?_, ?_⟩
  · rw [← hscope]
    exact haccepts.extends
  · exact (Stmt.knows_of_checkAll h).append (.of_annotated hannotated)

/-- Everything agrees if the parameters do. -/
theorem Agrees.oneType_iff {e : Extent Typed} (h : e.Agrees) :
    OneType e.used ∧ (OneType (e.declared ++ e.used) ↔ OneType e.declared) := by
  obtain ⟨G, H, hG, hused⟩ := h
  refine ⟨hused.oneType, ?_, ?_⟩
  · intro hall name type other ht ho
    exact hall name type other (List.mem_append_left _ ht) (List.mem_append_left _ ho)
  · intro hone
    apply Knows.oneType (G := H)
    apply Knows.append _ hused
    intro o ho
    obtain ⟨p, hp, rfl⟩ := List.mem_map.1 ho
    obtain ⟨-, hnone⟩ | ⟨q, hq, hname, htype⟩ := G.withParameters_cases e.parameters p.name
    · exact absurd rfl (hnone p hp)
    · have hq : (p.name, q.type) ∈ e.declared := List.mem_map.2 ⟨q, hq, by rw [hname]⟩
      have heq := hone p.name p.type q.type ho hq
      rw [heq]
      exact hG _ _ htype

end Extent

namespace Functions

variable {functions : Functions} {scope scope' : Scope}

/-- What is true of a program's run of the checker: the scope grows, it knows what the top level uses,
and every function agrees. -/
structure Agrees (functions : Functions) (ts : Program Typed) (scope scope' : Scope) : Prop where
  grows : Context.Extends scope.get? scope'.get?
  binds : Knows scope'.get? (Stmt.bindingsAll ts.topLevel)
  reads : Annotated functions.get? scope'.get? (Stmt.partsAll ts.topLevel)
  agree : ∀ e ∈ ts.functionExtents, e.Agrees

theorem agrees_function {name : String} {parameters : List Parameter} {R : Ty}
    {body : List (Stmt Span)} {us : List (Stmt Typed)} {note : Typed} {ts : Program Typed}
    (hbody : functions.checkBody scope parameters R body = .ok us)
    (h : functions.Agrees ts scope scope') :
    functions.Agrees (.function name parameters R us note :: ts) scope scope' := by
  obtain ⟨inner, hus⟩ := Checker.resultIn_eq_ok_iff.1 hbody
  refine ⟨h.grows, h.binds, h.reads, ?_⟩
  intro e he
  obtain rfl | he := List.mem_cons.1 he
  · exact Extent.agrees_of_checkAll (Scope.get?_withParameters scope parameters) hus
  · exact h.agree e he

theorem agrees_statement {s : Stmt Span} {t : Stmt Typed} {middle : Scope} {ts : Program Typed}
    (ht : s.check functions .none scope = .ok t middle) (h : functions.Agrees ts middle scope') :
    functions.Agrees (t :: ts) scope scope' := by
  obtain ⟨haccepts, hmap, hannotated⟩ := Stmt.accepts_of_check ht
  cases t with
  | function =>
    rw [← hmap] at haccepts
    cases haccepts
  | _ =>
    constructor
    · exact haccepts.extends.trans h.grows
    · exact ((Stmt.knows_of_check ht).mono h.grows).append h.binds
    · exact (hannotated.mono h.grows).append h.reads
    · exact h.agree

theorem agrees_of_mapM {program : Program Span} {ts : Program Typed}
    (h : program.mapM functions.checkTop scope = .ok ts scope') :
    functions.Agrees ts scope scope' := by
  induction program generalizing scope ts with
  | nil =>
    rw [List.mapM_nil] at h
    obtain ⟨rfl, rfl⟩ := EStateM.pure_eq_ok_iff.1 h
    exact ⟨.refl _, .nil, List.forall_mem_nil _, List.forall_mem_nil _⟩
  | cons s rest ih =>
    obtain ⟨t, s₁, us, ht, hus, rfl⟩ := EStateM.mapM_cons_eq_ok_iff.1 h
    cases s with
    | function name parameters returns body span =>
      obtain ⟨body', hbody, rfl, rfl⟩ := checkTop_function_eq_ok_iff.1 ht
      exact agrees_function hbody (ih hus)
    | _ => exact agrees_statement ht (ih hus)

end Functions

namespace Program

theorem agrees_of_check {program : Program Span} {ts : Program Typed}
    (h : program.check = .ok ts) : ∀ e ∈ ts.extents, e.Agrees := by
  obtain ⟨functions, -, hts⟩ := Except.bind_eq_ok_iff.1 h
  obtain ⟨scope', hrun⟩ := Checker.resultIn_eq_ok_iff.1 hts
  have hagrees := Functions.agrees_of_mapM hrun
  intro e he
  obtain rfl | he := List.mem_cons.1 he
  · exact ⟨_, _, hagrees.grows, hagrees.binds.append (.of_annotated hagrees.reads)⟩
  · exact hagrees.agree e he

/-- A variable has one type in a scope. In every part of an accepted program that has a scope of its
own, all that is bound and read of a variable has the same type; and the parameters have it too
exactly if those of one name are declared alike. -/
theorem one_type_in_extents {program : Program Span} {ts : Program Typed}
    (h : program.check = .ok ts) (e : Extent Typed) (he : e ∈ ts.extents) :
    OneType e.used ∧ (OneType (e.declared ++ e.used) ↔ OneType e.declared) :=
  (agrees_of_check h e he).oneType_iff

/-- A variable at the top level and a parameter of the same name may differ, and a parameter may be
repeated with the same type. -/
theorem one_type_in_extents_hidden :
    let span : Span := ⟨⟨0, "shell"⟩, ⟨0, "shell"⟩⟩
    let program : Program Span := [
      .assign "x" (.number 1 span) span,
      .function "f" [⟨"x", .bool⟩, ⟨"x", .bool⟩] .none
        [.loop (.ident "x" span) [.declare "x" .bool (.boolean true span) span] span] span,
      .expression (.ident "x" span) span]
    ∃ ts, program.check = .ok ts ∧ ∃ e ∈ ts.extents, e.parameters.length = 2 ∧
      OneType e.used ∧ (OneType (e.declared ++ e.used) ↔ OneType e.declared) := by
  intro span program
  let note : Typed := ⟨.bool, span⟩
  let e : Extent Typed := ⟨[⟨"x", .bool⟩, ⟨"x", .bool⟩],
    [.loop (.ident "x" note) [.declare "x" .bool (.boolean true note) note] ⟨.none, span⟩]⟩
  let ts : Program Typed := [
    .assign "x" (.number 1 ⟨.int, span⟩) ⟨.int, span⟩,
    .function "f" e.parameters .none e.statements ⟨.none, span⟩,
    .expression (.ident "x" ⟨.int, span⟩) ⟨.int, span⟩]
  have hts : program.check = .ok ts := by rfl
  have he : e ∈ ts.extents := List.mem_cons_of_mem _ List.mem_cons_self
  exact ⟨ts, hts, e, he, rfl, one_type_in_extents hts e he⟩

/-- Parameters of one name that are declared with different types are accepted all the same. -/
theorem parameters_of_two_types :
    let span : Span := ⟨⟨0, "shell"⟩, ⟨0, "shell"⟩⟩
    let program : Program Span := [
      .function "f" [⟨"x", .int⟩, ⟨"x", .bool⟩] .none [.pass span] span]
    ∃ ts, program.check = .ok ts ∧ ∃ e ∈ ts.extents, ¬ OneType (e.declared ++ e.used) := by
  intro span program
  let e : Extent Typed := ⟨[⟨"x", .int⟩, ⟨"x", .bool⟩], [.pass ⟨.none, span⟩]⟩
  let ts : Program Typed := [.function "f" e.parameters .none e.statements ⟨.none, span⟩]
  have hts : program.check = .ok ts := by rfl
  have he : e ∈ ts.extents := List.mem_cons_of_mem _ List.mem_cons_self
  have hint : ("x", Ty.int) ∈ e.declared ++ e.used := List.mem_cons_self
  have hbool : ("x", Ty.bool) ∈ e.declared ++ e.used := List.mem_cons_of_mem _ List.mem_cons_self
  refine ⟨ts, hts, e, he, ?_⟩
  intro hone
  cases hone "x" .int .bool hint hbool

end Program
end Offside
