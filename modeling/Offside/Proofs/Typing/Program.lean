import Offside.Proofs.Typing.Registration
import Offside.Proofs.Typing.Stmt

/-! The checker of programs decides the rules: its statements are checked in order, each function in
a context of its own. The result is the program with its types. -/
namespace Offside
open Typing

/-- What the names of the functions that a program defines stand for. -/
def Program.signatures (program : Program Span) : Signatures := fun name =>
  program.definitions.lookup name

/-- The types that a program notes in its expressions are theirs by the rules: in a function by the
context that its body leaves, and elsewhere by the context that the statement leaves. -/
inductive Typing.Notes (F : Signatures) : Context → Program Typed → Context → Prop
  | nil {G} : Notes F G [] G
  | function {G H K name parameters returns body note rest} :
      AcceptsAll F returns (G.withParameters parameters) (Stmt.mapAll Typed.span body) K →
      Annotated F K (Stmt.partsAll body) → Notes F G rest H →
      Notes F G (.function name parameters returns body note :: rest) H
  | statement {G G₁ H t rest} : Accepts F .none G (t.map Typed.span) G₁ →
      Annotated F G₁ t.parts → Notes F G₁ rest H → Notes F G (t :: rest) H

namespace Checker

theorem reading_eq_ok_iff {f : Scope → Except Error α} {a : α} {scope scope' : Scope} :
    reading f scope = .ok a scope' ↔ f scope = .ok a ∧ scope = scope' := by
  unfold reading
  split <;> simp_all

theorem resultIn_eq_ok_iff {c : Checker α} {a : α} {scope : Scope} :
    resultIn scope c = .ok a ↔ ∃ scope', c scope = .ok a scope' := by
  unfold resultIn
  split <;> simp_all

end Checker

namespace Functions

variable {functions : Functions} {scope : Scope}

theorem checkTop_function_eq_ok_iff {name : String} {parameters : List Parameter} {R : Ty}
    {body : List (Stmt Span)} {span : Span} {t : Stmt Typed} {scope' : Scope} :
    functions.checkTop (.function name parameters R body span) scope = .ok t scope' ↔
      ∃ ts, functions.checkBody scope parameters R body = .ok ts ∧
        t = .function name parameters R ts ⟨.none, span⟩ ∧ scope' = scope := by
  simp only [checkTop, EStateM.bind_eq_ok_iff, Checker.reading_eq_ok_iff, EStateM.pure_eq_ok_iff]
  constructor
  · rintro ⟨ts, _, ⟨hts, rfl⟩, rfl, rfl⟩
    exact ⟨ts, hts, rfl, rfl⟩
  · rintro ⟨ts, hts, rfl, rfl⟩
    exact ⟨ts, scope', ⟨hts, rfl⟩, rfl, rfl⟩

/-- The checker accepts the body of a function exactly if its statements are well-typed in the
context of its parameters. -/
theorem exists_checkBody_eq_ok_iff {parameters : List Parameter} {R : Ty}
    {body : List (Stmt Span)} :
    (∃ ts, functions.checkBody scope parameters R body = .ok ts) ↔
      ∃ H, AcceptsAll functions.get? R (Context.withParameters scope.get? parameters) body H := by
  simp only [checkBody, Checker.resultIn_eq_ok_iff, ← Scope.get?_withParameters]
  constructor
  · rintro ⟨ts, scope', h⟩
    exact ⟨scope'.get?, (Stmt.accepts_of_checkAll h).1⟩
  · rintro ⟨H, h⟩
    obtain ⟨ts, scope', hts, -⟩ := Stmt.checkAll_of_accepts h
    exact ⟨ts, scope', hts⟩

theorem acceptsTop_of_checkTop {s : Stmt Span} {t : Stmt Typed} {scope' : Scope}
    (h : functions.checkTop s scope = .ok t scope') :
    AcceptsTop functions.get? scope.get? s scope'.get? := by
  cases s with
  | function name parameters returns body span =>
    obtain ⟨ts, hts, rfl, rfl⟩ := checkTop_function_eq_ok_iff.1 h
    obtain ⟨H, hb⟩ := exists_checkBody_eq_ok_iff.1 ⟨ts, hts⟩
    exact .function hb
  | _ => exact .statement (Stmt.accepts_of_check h).1

theorem checkTop_of_acceptsTop {s : Stmt Span} {H : Context}
    (h : AcceptsTop functions.get? scope.get? s H) :
    ∃ t scope', functions.checkTop s scope = .ok t scope' ∧ scope'.get? = H := by
  cases h with
  | @function _ name parameters returns body span hb =>
    obtain ⟨ts, hts⟩ := exists_checkBody_eq_ok_iff.2 ⟨_, hb⟩
    exact ⟨_, scope, checkTop_function_eq_ok_iff.2 ⟨ts, hts, rfl, rfl⟩, rfl⟩
  | statement hs =>
    cases s with
    | function => cases hs
    | _ => exact Stmt.check_of_accepts hs

theorem exists_mapM_checkTop_iff {program : Program Span} {H : Context} :
    (∃ ts scope', program.mapM functions.checkTop scope = .ok ts scope' ∧ scope'.get? = H) ↔
      AcceptsProgram functions.get? scope.get? program H := by
  induction program generalizing scope with
  | nil =>
    rw [List.mapM_nil]
    simp only [EStateM.pure_eq_ok_iff]
    constructor
    · rintro ⟨_, _, ⟨-, rfl⟩, rfl⟩
      exact .nil
    · rintro ⟨⟩
      exact ⟨[], scope, ⟨rfl, rfl⟩, rfl⟩
  | cons s rest ih =>
    simp only [EStateM.mapM_cons_eq_ok_iff]
    constructor
    · rintro ⟨_, s₂, ⟨t, s₁, ts, ht, hts, rfl⟩, hH⟩
      exact .cons (acceptsTop_of_checkTop ht) (ih.1 ⟨ts, s₂, hts, hH⟩)
    · rintro (_ | ⟨hs, hr⟩)
      obtain ⟨t, s₁, ht, rfl⟩ := checkTop_of_acceptsTop hs
      obtain ⟨ts, s₂, hts, hH⟩ := ih.2 hr
      exact ⟨t :: ts, s₂, ⟨t, s₁, ts, ht, hts, rfl⟩, hH⟩

/-- A statement at the top level comes back with its types. -/
theorem notes_of_checkTop {s : Stmt Span} {t : Stmt Typed} {scope' : Scope} {rest : Program Typed}
    {H : Context} (h : functions.checkTop s scope = .ok t scope')
    (hrest : Notes functions.get? scope'.get? rest H) :
    t.map Typed.span = s ∧ Notes functions.get? scope.get? (t :: rest) H := by
  cases s with
  | function name parameters returns body span =>
    obtain ⟨ts, hbody, rfl, rfl⟩ := checkTop_function_eq_ok_iff.1 h
    obtain ⟨_, hts⟩ := Checker.resultIn_eq_ok_iff.1 hbody
    obtain ⟨haccepts, hmap, hannotated⟩ := Stmt.accepts_of_checkAll hts
    rw [Scope.get?_withParameters, ← hmap] at haccepts
    exact ⟨by rw [Stmt.map, hmap], .function haccepts hannotated hrest⟩
  | _ =>
    obtain ⟨haccepts, hmap, hannotated⟩ := Stmt.accepts_of_check h
    rw [← hmap] at haccepts
    exact ⟨hmap, .statement haccepts hannotated hrest⟩

theorem notes_of_mapM_checkTop {program : Program Span} {ts : Program Typed} {scope' : Scope}
    (h : program.mapM functions.checkTop scope = .ok ts scope') :
    ts.untyped = program ∧ Notes functions.get? scope.get? ts scope'.get? := by
  induction program generalizing scope ts with
  | nil =>
    rw [List.mapM_nil] at h
    obtain ⟨rfl, rfl⟩ := EStateM.pure_eq_ok_iff.1 h
    exact ⟨rfl, .nil⟩
  | cons s rest ih =>
    obtain ⟨t, s₁, us, ht, hus, rfl⟩ := EStateM.mapM_cons_eq_ok_iff.1 h
    obtain ⟨hrest, hnotes⟩ := ih hus
    obtain ⟨hfirst, hall⟩ := notes_of_checkTop ht hnotes
    exact ⟨by rw [← hfirst, ← hrest]; rfl, hall⟩

/-- What the checker gives is the program with its types. -/
theorem notes_of_checkProgram {program : Program Span} {ts : Program Typed}
    (h : functions.checkProgram program = .ok ts) :
    ts.untyped = program ∧ ∃ H, Notes functions.get? .empty ts H := by
  obtain ⟨scope', hrun⟩ := Checker.resultIn_eq_ok_iff.1 h
  obtain ⟨huntyped, hnotes⟩ := notes_of_mapM_checkTop hrun
  exact ⟨huntyped, _, hnotes⟩

/-- The checker accepts a program that calls known functions exactly if its statements are
well-typed in order. -/
theorem exists_checkProgram_eq_ok_iff {program : Program Span} :
    (∃ ts, functions.checkProgram program = .ok ts) ↔
      ∃ H, AcceptsProgram functions.get? .empty program H := by
  have hempty : (Bindings.empty : Scope).get? = Context.empty := rfl
  simp only [checkProgram, Checker.resultIn_eq_ok_iff, ← hempty, ← exists_mapM_checkTop_iff]
  constructor
  · rintro ⟨ts, scope', h⟩
    exact ⟨_, ts, scope', h, rfl⟩
  · rintro ⟨_, ts, scope', h, -⟩
    exact ⟨ts, scope', h⟩

end Functions

namespace Program

theorem functions_eq_ok_iff {program : Program Span} {functions : Functions} :
    program.functions = .ok functions ↔
      Functions.Admits .empty program.definitions ∧
        functions = Functions.addedTo .empty program.definitions := by
  rw [← Registrar.addAll_eq_ok_iff (u := ()), Program.functions]
  split <;> simp_all

/-- The functions that a program registers are those that it defines. -/
theorem get?_functions {program : Program Span} {functions : Functions}
    (h : program.functions = .ok functions) : functions.get? = program.signatures := by
  obtain ⟨hadmits, rfl⟩ := functions_eq_ok_iff.1 h
  funext name
  rw [Functions.get?_addedTo hadmits]
  simp [Program.signatures]

/-- What the checker gives is the program with its types. -/
theorem notes_of_check {program : Program Span} {ts : Program Typed} (h : program.check = .ok ts) :
    ts.untyped = program ∧ ∃ H, Notes program.signatures .empty ts H := by
  obtain ⟨functions, hfunctions, hts⟩ := Except.bind_eq_ok_iff.1 h
  rw [← get?_functions hfunctions]
  exact Functions.notes_of_checkProgram hts

/-- The checker accepts a program exactly if the functions that it defines can be told apart, none
hides the one that shows a value, and its statements are well-typed in order. -/
theorem exists_check_eq_ok_iff {program : Program Span} :
    (∃ ts, program.check = .ok ts) ↔
      (program.definitions.map Prod.fst).Nodup ∧
        showFunction ∉ program.definitions.map Prod.fst ∧
          ∃ H, AcceptsProgram program.signatures .empty program H := by
  have hadmits : Functions.Admits .empty program.definitions ↔
      (program.definitions.map Prod.fst).Nodup ∧
        showFunction ∉ program.definitions.map Prod.fst := by
    refine and_congr_right fun _ => ⟨fun h hm => ?_, fun h d hd => ⟨fun hn => h ?_, rfl⟩⟩
    · obtain ⟨d, hd, hn⟩ := List.mem_map.1 hm
      exact (h d hd).1 hn
    · exact hn ▸ List.mem_map_of_mem hd
  have hsig : Functions.Admits .empty program.definitions →
      (Functions.addedTo .empty program.definitions).get? = program.signatures :=
    fun h => get?_functions (functions_eq_ok_iff.2 ⟨h, rfl⟩)
  simp only [check, Except.bind_eq_ok_iff, functions_eq_ok_iff]
  rw [← and_assoc, ← hadmits]
  constructor
  · rintro ⟨ts, functions, ⟨ha, rfl⟩, hts⟩
    obtain ⟨H, hp⟩ := Functions.exists_checkProgram_eq_ok_iff.1 ⟨ts, hts⟩
    exact ⟨ha, H, hsig ha ▸ hp⟩
  · rintro ⟨ha, H, hp⟩
    rw [← hsig ha] at hp
    obtain ⟨ts, hts⟩ := Functions.exists_checkProgram_eq_ok_iff.2 ⟨H, hp⟩
    exact ⟨ts, _, ⟨ha, rfl⟩, hts⟩

end Program

/-- The checker decides the typing rules. For any functions and variables it accepts an expression
exactly if this has a type, and then gives it with the type of every node; it accepts a statement
exactly if this is well-typed, leaves the variables that the rules say, and gives the statement with
the types of its expressions; and it accepts a program exactly if its functions can be told apart
and its statements are well-typed in order, and gives the program with the types of its
expressions. -/
theorem Typing.decided_by_check :
    (∀ (functions : Functions) (scope : Scope) (e : Expr Span),
      ((∃ t, e.check functions scope = .ok t) ↔
        ∃ type, HasType functions.get? scope.get? e type) ∧
      ∀ t, e.check functions scope = .ok t ↔ t.map Typed.span = e ∧ ∀ x ∈ t.parts, ∀ type,
        HasType functions.get? scope.get? (x.map Typed.span) type ↔ type = x.type) ∧
    (∀ (functions : Functions) (R : Ty) (scope : Scope) (s : Stmt Span),
      (∀ H : Context, (∃ t scope', s.check functions R scope = .ok t scope' ∧ scope'.get? = H) ↔
        Accepts functions.get? R scope.get? s H) ∧
      ∀ t scope', s.check functions R scope = .ok t scope' → t.map Typed.span = s ∧
        ∀ x ∈ t.parts, ∀ type,
          HasType functions.get? scope'.get? (x.map Typed.span) type ↔ type = x.type) ∧
    (∀ (functions : Functions) (program : Program Span),
      ((∃ ts, functions.checkProgram program = .ok ts) ↔
        ∃ H, AcceptsProgram functions.get? .empty program H) ∧
      ∀ ts, functions.checkProgram program = .ok ts →
        ts.untyped = program ∧ ∃ H, Notes functions.get? .empty ts H) ∧
    ∀ program : Program Span,
      ((∃ ts, program.check = .ok ts) ↔
        (program.definitions.map Prod.fst).Nodup ∧
          showFunction ∉ program.definitions.map Prod.fst ∧
            ∃ H, AcceptsProgram program.signatures .empty program H) ∧
      ∀ ts, program.check = .ok ts →
        ts.untyped = program ∧ ∃ H, Notes program.signatures .empty ts H := by
  refine ⟨fun functions scope e => ⟨Expr.exists_check_eq_ok_iff, fun t => ?expression⟩,
    fun functions R scope s => ⟨fun H => Stmt.exists_check_eq_ok_iff, fun t scope' h => ?statement⟩,
    fun functions program => ⟨Functions.exists_checkProgram_eq_ok_iff,
      fun ts => Functions.notes_of_checkProgram⟩,
    fun program => ⟨Program.exists_check_eq_ok_iff, fun ts => Program.notes_of_check⟩⟩
  case expression => rw [Expr.check_eq_ok_iff, Annotated.iff_forall_unique]
  case statement =>
    obtain ⟨-, hmap, hannotated⟩ := Stmt.accepts_of_check h
    exact ⟨hmap, Annotated.iff_forall_unique.1 hannotated⟩

end Offside
