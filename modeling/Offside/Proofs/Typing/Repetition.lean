import Offside.Proofs.Typing.Effect

/-! Statements that have been checked once can be checked again. The variables that they bind are
known by then, with the types that they got, so a second pass sees more than the first at every
point, and still gives the same types. -/
namespace Offside
open Typing

variable {functions : Functions} {scope scope' : Scope}

namespace Checker

/-- A checker that, where it succeeds, forgets no variable, and succeeds again with the same result
wherever all is known that it left, without any change there. -/
def Repeats (c : Checker α) : Prop :=
  ∀ scope a scope', c scope = .ok a scope' → Context.Extends scope.get? scope'.get? ∧
    ∀ H : Scope, Context.Extends scope'.get? H.get? → c H = .ok a H

namespace Repeats

protected theorem pure (a : α) : Repeats (pure a) := by
  intro scope b scope' h
  obtain ⟨rfl, rfl⟩ := EStateM.pure_eq_ok_iff.1 h
  exact ⟨.refl _, fun H _ => rfl⟩

theorem bind {c : Checker α} {f : α → Checker β} (hc : Repeats c) (hf : ∀ a, Repeats (f a)) :
    Repeats (c >>= f) := by
  intro scope b scope' h
  obtain ⟨a, middle, ha, hb⟩ := EStateM.bind_eq_ok_iff.1 h
  obtain ⟨hmiddle, hagain⟩ := hc scope a middle ha
  obtain ⟨hscope', hagain'⟩ := hf a middle b scope' hb
  refine ⟨hmiddle.trans hscope', ?_⟩
  intro H hH
  exact EStateM.bind_eq_ok_iff.2 ⟨a, H, hagain H (hscope'.trans hH), hagain' H hH⟩

/-- The types of an expression stay right where more variables are known. -/
theorem value (e : Expr Span) : Repeats (Checker.value functions e) := by
  intro scope t scope' h
  obtain ⟨he, rfl⟩ := value_eq_ok_iff.1 h
  obtain ⟨hspan, hannotated⟩ := Expr.check_eq_ok_iff.1 he
  refine ⟨.refl _, ?_⟩
  intro H hH
  exact value_eq_ok_iff.2 ⟨Expr.check_eq_ok_iff.2 ⟨hspan, hannotated.mono hH⟩, rfl⟩

theorem requireType (e : Expr Typed) (type : Ty) (cause : Cause) :
    Repeats (Checker.requireType e type cause) := by
  intro scope u scope' h
  obtain ⟨htype, rfl⟩ := requireType_eq_ok_iff.1 h
  exact ⟨.refl _, fun H _ => requireType_eq_ok_iff.2 ⟨htype, rfl⟩⟩

theorem condition (construct : String) (e : Expr Span) :
    Repeats (Checker.condition functions construct e) :=
  (value e).bind fun _ => (requireType _ _ _).bind fun _ => .pure _

/-- A variable that has the type already is not bound anew. -/
theorem declare (name : String) (type : Ty) (p : Position) :
    Repeats (Checker.declare name type p) := by
  intro scope u scope' h
  obtain ⟨hadmits, hset⟩ := admits_of_declare h
  rw [hset]
  refine ⟨Context.extends_set hadmits, ?_⟩
  intro H hH
  have hbound : H.get? name = some type := hH name type (if_pos rfl)
  simp only [Checker.declare, hbound, if_true]

end Repeats
end Checker

namespace Stmt
open Checker

mutual
theorem check_repeats (R : Ty) : ∀ s : Stmt Span, Repeats (s.check functions R)
  | .assign name value span =>
    (Repeats.value value).bind fun _ => (Repeats.declare _ _ _).bind fun _ => .pure _
  | .declare name type value span =>
    (Repeats.value value).bind fun _ => (Repeats.requireType _ _ _).bind fun _ =>
      (Repeats.declare _ _ _).bind fun _ => .pure _
  | .expression value span => (Repeats.value value).bind fun _ => .pure _
  | .function name parameters returns body span => by
    intro scope t scope' h
    cases h
  | .return value span =>
    (Repeats.value value).bind fun _ => (Repeats.requireType _ _ _).bind fun _ => .pure _
  | .conditional first alternatives otherwise span =>
    (checkBranch_repeats R first).bind fun _ => (checkBranches_repeats R alternatives).bind fun _ =>
      (checkAll_repeats R otherwise).bind fun _ => .pure _
  | .loop condition body span =>
    (Repeats.condition "while" condition).bind fun _ => (checkAll_repeats R body).bind fun _ =>
      .pure _
  | .pass span => .pure _

theorem checkAll_repeats (R : Ty) : ∀ body : List (Stmt Span), Repeats (checkAll functions R body)
  | [] => .pure _
  | s :: rest =>
    (check_repeats R s).bind fun _ => (checkAll_repeats R rest).bind fun _ => .pure _

theorem checkBranch_repeats (R : Ty) : ∀ b : Branch Span, Repeats (checkBranch functions R b)
  | ⟨kind, condition, body, _⟩ =>
    (Repeats.condition kind.keyword condition).bind fun _ =>
      (checkAll_repeats R body).bind fun _ => .pure _

theorem checkBranches_repeats (R : Ty) : ∀ bs : List (Branch Span),
    Repeats (checkBranches functions R bs)
  | [] => .pure _
  | b :: rest =>
    (checkBranch_repeats R b).bind fun _ => (checkBranches_repeats R rest).bind fun _ => .pure _
end

/-- Statements that are accepted in some scope are accepted again in the scope that they leave, with
the same types, and this scope then stays as it is. -/
theorem checked_again {R : Ty} {body : List (Stmt Span)} {ts : List (Stmt Typed)}
    (h : checkAll functions R body scope = .ok ts scope') :
    checkAll functions R body scope' = .ok ts scope' := by
  obtain ⟨-, hagain⟩ := checkAll_repeats R body scope ts scope' h
  exact hagain scope' (.refl scope'.get?)

/-- The first pass binds two of the variables in branches of a loop, and the second finds them
bound. -/
theorem checked_again_loop :
    let span : Span := ⟨⟨0, "shell"⟩, ⟨0, "shell"⟩⟩
    let functions : Functions := .empty
    let scope : Scope := Bindings.insert .empty "g" .bool
    let condition : Expr Span := .ident "g" span
    let body : List (Stmt Span) := [
      .loop condition [.conditional ⟨.first, condition, [.assign "x" (.number 1 span) span], span⟩
        [⟨.alternative, condition, [.declare "y" .bool condition span], span⟩]
        [.assign "x" (.number 2 span) span] span] span,
      .return (.ident "y" span) span]
    ∃ ts scope', checkAll functions .bool body scope = .ok ts scope' ∧
      scope'.get? "y" = some .bool ∧ checkAll functions .bool body scope' = .ok ts scope' := by
  intro span functions scope condition body
  obtain ⟨ts, hts⟩ : ∃ ts, resultIn scope (checkAll functions .bool body) = .ok ts :=
    Except.exists_eq_ok (by decide +kernel)
  obtain ⟨scope', h⟩ := resultIn_eq_ok_iff.1 hts
  have hy : (scopeAfter scope (checkAll functions .bool body)).get? "y" = some .bool := by
    decide +kernel
  rw [scopeAfter_of_ok h] at hy
  exact ⟨ts, scope', h, hy, checked_again h⟩

end Stmt
end Offside
