import Offside.Proofs.Typing.Expr

/-! The checker of statements decides the rules. The scope that it leaves is the context that the
rules give, and the types that it notes are those of this context. -/
namespace Offside
open Typing

variable {functions : Functions} {scope scope' : Scope}

theorem Scope.get?_withParameters (s : Scope) (parameters : List Parameter) :
    (s.withParameters parameters).get? = Context.withParameters s.get? parameters := by
  induction parameters generalizing s with
  | nil => rfl
  | cons p rest ih =>
    have hp : (s.insert p.name p.type).get? = Context.set s.get? p.name p.type := by
      funext other
      exact s.get?_insert p.name other p.type
    change (Scope.withParameters (s.insert p.name p.type) rest).get? = _
    rw [ih, hp]
    rfl

namespace Checker

theorem admits_of_declare {name : String} {type : Ty} {p : Position} {u : Unit}
    (h : declare name type p scope = .ok u scope') :
    Context.Admits scope.get? name type ∧ scope'.get? = Context.set scope.get? name type := by
  unfold declare at h
  split at h
  · rename_i hx
    cases h
    refine ⟨fun bound hb => by simp [hx] at hb, ?_⟩
    funext other
    exact scope.get?_insert name other type
  · rename_i bound hx
    split at h
    · rename_i hb
      cases h
      subst hb
      refine ⟨fun other ho => Option.some.inj (ho.symm.trans hx), ?_⟩
      funext other
      by_cases ho : other = name
      · simp [Context.set, ho, hx]
      · simp [Context.set, ho]
    · cases h

theorem declare_of_admits {name : String} {type : Ty} (p : Position)
    (h : Context.Admits scope.get? name type) :
    ∃ scope', declare name type p scope = .ok () scope' ∧
      scope'.get? = Context.set scope.get? name type := by
  have hok : ∃ scope', declare name type p scope = .ok () scope' := by
    unfold declare
    split
    · exact ⟨_, rfl⟩
    · rename_i bound hx
      rw [if_pos (h bound hx)]
      exact ⟨_, rfl⟩
  obtain ⟨scope', hok⟩ := hok
  exact ⟨scope', hok, (admits_of_declare hok).2⟩

theorem value_eq_ok_iff {e : Expr Span} {t : Expr Typed} :
    value functions e scope = .ok t scope' ↔ e.check functions scope = .ok t ∧ scope = scope' := by
  unfold value reading
  split <;> simp_all

theorem requireType_eq_ok_iff {t : Expr Typed} {type : Ty} {cause : Cause} {u : Unit} :
    requireType t type cause scope = .ok u scope' ↔ t.type = type ∧ scope = scope' := by
  unfold requireType
  split <;> simp_all

theorem condition_eq_ok_iff {construct : String} {e : Expr Span} {t : Expr Typed} :
    condition functions construct e scope = .ok t scope' ↔
      e.check functions scope = .ok t ∧ t.type = .bool ∧ scope = scope' := by
  simp only [condition, EStateM.bind_eq_ok_iff, value_eq_ok_iff, requireType_eq_ok_iff,
    EStateM.pure_eq_ok_iff]
  constructor
  · rintro ⟨_, _, ⟨he, rfl⟩, _, _, ⟨hb, rfl⟩, rfl, rfl⟩
    exact ⟨he, hb, rfl⟩
  · rintro ⟨he, hb, rfl⟩
    exact ⟨t, scope, ⟨he, rfl⟩, (), scope, ⟨hb, rfl⟩, rfl, rfl⟩

end Checker

namespace Stmt

mutual
/-- A statement that the checker accepts is well-typed by the rules. The result is the statement
with its types, which are right in the context that the statement leaves. -/
theorem accepts_of_check {R : Ty} : ∀ {s : Stmt Span} {t : Stmt Typed} {scope scope' : Scope},
    s.check functions R scope = .ok t scope' →
      Accepts functions.get? R scope.get? s scope'.get? ∧ t.map Typed.span = s ∧
        Annotated functions.get? scope'.get? t.parts
  | .assign name value span, t, scope, scope', h => by
    simp only [check, EStateM.bind_eq_ok_iff, Checker.value_eq_ok_iff, EStateM.pure_eq_ok_iff] at h
    obtain ⟨v, _, ⟨hv, rfl⟩, _, _, hd, rfl, rfl⟩ := h
    obtain ⟨rfl, ha⟩ := Expr.annotated_of_check hv
    obtain ⟨hx, hs⟩ := Checker.admits_of_declare hd
    rw [hs]
    exact ⟨.assign ha.hasType hx, rfl, ha.mono (Context.extends_set hx)⟩
  | .declare name type value span, t, scope, scope', h => by
    simp only [check, EStateM.bind_eq_ok_iff, Checker.value_eq_ok_iff,
      Checker.requireType_eq_ok_iff, EStateM.pure_eq_ok_iff] at h
    obtain ⟨v, _, ⟨hv, rfl⟩, _, _, ⟨rfl, rfl⟩, _, _, hd, rfl, rfl⟩ := h
    obtain ⟨rfl, ha⟩ := Expr.annotated_of_check hv
    obtain ⟨hx, hs⟩ := Checker.admits_of_declare hd
    rw [hs]
    exact ⟨.declare ha.hasType hx, rfl, ha.mono (Context.extends_set hx)⟩
  | .expression value span, t, scope, scope', h => by
    simp only [check, EStateM.bind_eq_ok_iff, Checker.value_eq_ok_iff, EStateM.pure_eq_ok_iff] at h
    obtain ⟨v, _, ⟨hv, rfl⟩, rfl, rfl⟩ := h
    obtain ⟨rfl, ha⟩ := Expr.annotated_of_check hv
    exact ⟨.expression ha.hasType, rfl, ha⟩
  | .function name parameters returns body span, t, scope, scope', h => by cases h
  | .return value span, t, scope, scope', h => by
    simp only [check, EStateM.bind_eq_ok_iff, Checker.value_eq_ok_iff,
      Checker.requireType_eq_ok_iff, EStateM.pure_eq_ok_iff] at h
    obtain ⟨v, _, ⟨hv, rfl⟩, _, _, ⟨rfl, rfl⟩, rfl, rfl⟩ := h
    obtain ⟨rfl, ha⟩ := Expr.annotated_of_check hv
    exact ⟨.return ha.hasType, rfl, ha⟩
  | .conditional first alternatives otherwise span, t, scope, scope', h => by
    simp only [check, EStateM.bind_eq_ok_iff, EStateM.pure_eq_ok_iff] at h
    obtain ⟨f, _, hf, as, _, has, o, _, ho, rfl, rfl⟩ := h
    obtain ⟨hf, rfl, haf⟩ := accepts_of_checkBranch hf
    obtain ⟨has, rfl, haa⟩ := accepts_of_checkBranches has
    obtain ⟨ho, rfl, hao⟩ := accepts_of_checkAll ho
    refine ⟨.conditional hf has ho, rfl, ?_⟩
    exact ((haf.mono has.extends).append haa |>.mono ho.extends).append hao
  | .loop condition body span, t, scope, scope', h => by
    simp only [check, EStateM.bind_eq_ok_iff, Checker.condition_eq_ok_iff,
      EStateM.pure_eq_ok_iff] at h
    obtain ⟨c, _, ⟨hc, hb, rfl⟩, b, _, hbody, rfl, rfl⟩ := h
    obtain ⟨rfl, hac⟩ := Expr.annotated_of_check hc
    obtain ⟨hbody, rfl, hab⟩ := accepts_of_checkAll hbody
    refine ⟨.loop (hb ▸ hac.hasType) hbody, rfl, ?_⟩
    exact (hac.mono hbody.extends).append hab
  | .pass span, t, scope, scope', h => by
    simp only [check, EStateM.pure_eq_ok_iff] at h
    obtain ⟨rfl, rfl⟩ := h
    exact ⟨.pass, rfl, fun x hx => nomatch hx⟩

theorem accepts_of_checkAll {R : Ty} :
    ∀ {body : List (Stmt Span)} {ts : List (Stmt Typed)} {scope scope' : Scope},
    checkAll functions R body scope = .ok ts scope' →
      AcceptsAll functions.get? R scope.get? body scope'.get? ∧ mapAll Typed.span ts = body ∧
        Annotated functions.get? scope'.get? (partsAll ts)
  | [], ts, scope, scope', h => by
    simp only [checkAll, EStateM.pure_eq_ok_iff] at h
    obtain ⟨rfl, rfl⟩ := h
    exact ⟨.nil, rfl, fun x hx => nomatch hx⟩
  | s :: rest, ts, scope, scope', h => by
    simp only [checkAll, EStateM.bind_eq_ok_iff, EStateM.pure_eq_ok_iff] at h
    obtain ⟨t, _, ht, us, _, hus, rfl, rfl⟩ := h
    obtain ⟨hs, rfl, ha⟩ := accepts_of_check ht
    obtain ⟨hr, rfl, har⟩ := accepts_of_checkAll hus
    exact ⟨.cons hs hr, rfl, (ha.mono hr.extends).append har⟩

theorem accepts_of_checkBranch {R : Ty} :
    ∀ {b : Branch Span} {t : Branch Typed} {scope scope' : Scope},
    checkBranch functions R b scope = .ok t scope' →
      AcceptsBranch functions.get? R scope.get? b scope'.get? ∧ mapBranch Typed.span t = b ∧
        Annotated functions.get? scope'.get? (partsOfBranch t)
  | ⟨kind, condition, body, span⟩, t, scope, scope', h => by
    simp only [checkBranch, EStateM.bind_eq_ok_iff, Checker.condition_eq_ok_iff,
      EStateM.pure_eq_ok_iff] at h
    obtain ⟨c, _, ⟨hc, hb, rfl⟩, us, _, hus, rfl, rfl⟩ := h
    obtain ⟨rfl, hac⟩ := Expr.annotated_of_check hc
    obtain ⟨hbody, rfl, hab⟩ := accepts_of_checkAll hus
    exact ⟨.mk (hb ▸ hac.hasType) hbody, rfl, (hac.mono hbody.extends).append hab⟩

theorem accepts_of_checkBranches {R : Ty} :
    ∀ {bs : List (Branch Span)} {ts : List (Branch Typed)} {scope scope' : Scope},
    checkBranches functions R bs scope = .ok ts scope' →
      AcceptsBranches functions.get? R scope.get? bs scope'.get? ∧ mapBranches Typed.span ts = bs ∧
        Annotated functions.get? scope'.get? (partsOfBranches ts)
  | [], ts, scope, scope', h => by
    simp only [checkBranches, EStateM.pure_eq_ok_iff] at h
    obtain ⟨rfl, rfl⟩ := h
    exact ⟨.nil, rfl, fun x hx => nomatch hx⟩
  | b :: rest, ts, scope, scope', h => by
    simp only [checkBranches, EStateM.bind_eq_ok_iff, EStateM.pure_eq_ok_iff] at h
    obtain ⟨t, _, ht, us, _, hus, rfl, rfl⟩ := h
    obtain ⟨hb, rfl, ha⟩ := accepts_of_checkBranch ht
    obtain ⟨hr, rfl, har⟩ := accepts_of_checkBranches hus
    exact ⟨.cons hb hr, rfl, (ha.mono hr.extends).append har⟩
end

mutual
/-- The checker accepts every statement that is well-typed by the rules, and leaves a scope that
knows what the rules say. -/
theorem check_of_accepts {R : Ty} : ∀ {s : Stmt Span} {scope : Scope} {H : Context},
    Accepts functions.get? R scope.get? s H →
      ∃ t scope', s.check functions R scope = .ok t scope' ∧ scope'.get? = H
  | .assign name value span, scope, _, .assign hv hx => by
    obtain ⟨v, hvc, rfl⟩ := Expr.check_of_hasType hv
    obtain ⟨scope', hd, hs⟩ := Checker.declare_of_admits span.start hx
    refine ⟨.assign name v ⟨v.type, span⟩, scope', ?_, hs⟩
    simp only [check, EStateM.bind_eq_ok_iff, Checker.value_eq_ok_iff, EStateM.pure_eq_ok_iff]
    exact ⟨v, scope, ⟨hvc, rfl⟩, (), scope', hd, rfl, rfl⟩
  | .declare name type value span, scope, _, .declare hv hx => by
    obtain ⟨v, hvc, hvt⟩ := Expr.check_of_hasType hv
    obtain ⟨scope', hd, hs⟩ := Checker.declare_of_admits span.start hx
    refine ⟨.declare name type v ⟨type, span⟩, scope', ?_, hs⟩
    simp only [check, EStateM.bind_eq_ok_iff, Checker.value_eq_ok_iff,
      Checker.requireType_eq_ok_iff, EStateM.pure_eq_ok_iff]
    exact ⟨v, scope, ⟨hvc, rfl⟩, (), scope, ⟨hvt, rfl⟩, (), scope', hd, rfl, rfl⟩
  | .expression value span, scope, _, .expression hv => by
    obtain ⟨v, hvc, rfl⟩ := Expr.check_of_hasType hv
    refine ⟨.expression v ⟨v.type, span⟩, scope, ?_, rfl⟩
    simp only [check, EStateM.bind_eq_ok_iff, Checker.value_eq_ok_iff, EStateM.pure_eq_ok_iff]
    exact ⟨v, scope, ⟨hvc, rfl⟩, rfl, rfl⟩
  | .return value span, scope, _, .return hv => by
    obtain ⟨v, hvc, hvt⟩ := Expr.check_of_hasType hv
    refine ⟨.return v ⟨v.type, span⟩, scope, ?_, rfl⟩
    simp only [check, EStateM.bind_eq_ok_iff, Checker.value_eq_ok_iff,
      Checker.requireType_eq_ok_iff, EStateM.pure_eq_ok_iff]
    exact ⟨v, scope, ⟨hvc, rfl⟩, (), scope, ⟨hvt, rfl⟩, rfl, rfl⟩
  | .conditional first alternatives otherwise span, scope, _, .conditional hf ha ho => by
    obtain ⟨f, s₁, hfc, rfl⟩ := checkBranch_of_accepts hf
    obtain ⟨a, s₂, hac, rfl⟩ := checkBranches_of_accepts ha
    obtain ⟨o, s₃, hoc, rfl⟩ := checkAll_of_accepts ho
    refine ⟨.conditional f a o ⟨.none, span⟩, s₃, ?_, rfl⟩
    simp only [check, EStateM.bind_eq_ok_iff, EStateM.pure_eq_ok_iff]
    exact ⟨f, s₁, hfc, a, s₂, hac, o, s₃, hoc, rfl, rfl⟩
  | .loop condition body span, scope, _, .loop hc hb => by
    obtain ⟨c, hcc, hct⟩ := Expr.check_of_hasType hc
    obtain ⟨b, s₁, hbc, rfl⟩ := checkAll_of_accepts hb
    refine ⟨.loop c b ⟨.none, span⟩, s₁, ?_, rfl⟩
    simp only [check, EStateM.bind_eq_ok_iff, Checker.condition_eq_ok_iff,
      EStateM.pure_eq_ok_iff]
    exact ⟨c, scope, ⟨hcc, hct, rfl⟩, b, s₁, hbc, rfl, rfl⟩
  | .pass span, scope, _, .pass => ⟨.pass ⟨.none, span⟩, scope, rfl, rfl⟩

theorem checkAll_of_accepts {R : Ty} : ∀ {body : List (Stmt Span)} {scope : Scope} {H : Context},
    AcceptsAll functions.get? R scope.get? body H →
      ∃ ts scope', checkAll functions R body scope = .ok ts scope' ∧ scope'.get? = H
  | [], scope, _, .nil => ⟨[], scope, rfl, rfl⟩
  | s :: rest, scope, _, .cons hs hr => by
    obtain ⟨t, s₁, htc, rfl⟩ := check_of_accepts hs
    obtain ⟨ts, s₂, htsc, rfl⟩ := checkAll_of_accepts hr
    refine ⟨t :: ts, s₂, ?_, rfl⟩
    simp only [checkAll, EStateM.bind_eq_ok_iff, EStateM.pure_eq_ok_iff]
    exact ⟨t, s₁, htc, ts, s₂, htsc, rfl, rfl⟩

theorem checkBranch_of_accepts {R : Ty} : ∀ {b : Branch Span} {scope : Scope} {H : Context},
    AcceptsBranch functions.get? R scope.get? b H →
      ∃ t scope', checkBranch functions R b scope = .ok t scope' ∧ scope'.get? = H
  | ⟨kind, condition, body, span⟩, scope, _, .mk hc hb => by
    obtain ⟨c, hcc, hct⟩ := Expr.check_of_hasType hc
    obtain ⟨ts, s₁, htsc, rfl⟩ := checkAll_of_accepts hb
    refine ⟨⟨kind, c, ts, span⟩, s₁, ?_, rfl⟩
    simp only [checkBranch, EStateM.bind_eq_ok_iff, Checker.condition_eq_ok_iff,
      EStateM.pure_eq_ok_iff]
    exact ⟨c, scope, ⟨hcc, hct, rfl⟩, ts, s₁, htsc, rfl, rfl⟩

theorem checkBranches_of_accepts {R : Ty} :
    ∀ {bs : List (Branch Span)} {scope : Scope} {H : Context},
    AcceptsBranches functions.get? R scope.get? bs H →
      ∃ ts scope', checkBranches functions R bs scope = .ok ts scope' ∧ scope'.get? = H
  | [], scope, _, .nil => ⟨[], scope, rfl, rfl⟩
  | b :: rest, scope, _, .cons hb hr => by
    obtain ⟨t, s₁, htc, rfl⟩ := checkBranch_of_accepts hb
    obtain ⟨ts, s₂, htsc, rfl⟩ := checkBranches_of_accepts hr
    refine ⟨t :: ts, s₂, ?_, rfl⟩
    simp only [checkBranches, EStateM.bind_eq_ok_iff, EStateM.pure_eq_ok_iff]
    exact ⟨t, s₁, htc, ts, s₂, htsc, rfl, rfl⟩
end

/-- The checker accepts exactly the well-typed statements, and the scope that it leaves knows what
the rules say. -/
theorem exists_check_eq_ok_iff {R : Ty} {s : Stmt Span} {H : Context} :
    (∃ t scope', s.check functions R scope = .ok t scope' ∧ scope'.get? = H) ↔
      Accepts functions.get? R scope.get? s H := by
  constructor
  · rintro ⟨t, scope', h, rfl⟩
    exact (accepts_of_check h).1
  · exact check_of_accepts

end Stmt
end Offside
