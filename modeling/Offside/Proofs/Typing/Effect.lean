import Offside.Proofs.Program.Mentions
import Offside.Proofs.Typing.Errors
import Offside.Proofs.Typing.Occurrences

/-! What a statement does to the scope. Whether it is accepted or refused, what is bound stays bound
to the same type, and only variables that the statement binds are new; if it is accepted, all of
them are bound. -/
namespace Offside
open Typing

namespace Scope

/-- A scope that has become another one by binding some of the variables that are mentioned as
bound. -/
def GrowsBy (mentions : List Mention) (s t : Scope) : Prop :=
  ∀ name, t.get? name = s.get? name ∨ s.get? name = none ∧ .bound name ∈ mentions

namespace GrowsBy

variable {ms ns : List Mention} {s t u : Scope}

theorem refl (ms : List Mention) (s : Scope) : GrowsBy ms s s := fun _ => .inl rfl

theorem trans (hst : GrowsBy ms s t) (htu : GrowsBy ms t u) : GrowsBy ms s u := by
  intro name
  obtain hu | ⟨hnone, hbound⟩ := htu name
  · rw [hu]
    exact hst name
  · obtain ht | hs := hst name
    · exact .inr ⟨ht ▸ hnone, hbound⟩
    · exact .inr hs

theorem mono (h : GrowsBy ms s t) (hms : ms ⊆ ns) : GrowsBy ns s t := by
  intro name
  obtain hsame | ⟨hnone, hbound⟩ := h name
  · exact .inl hsame
  · exact .inr ⟨hnone, hms hbound⟩

theorem insert {name : String} (hnone : s.get? name = none) (hbound : .bound name ∈ ms)
    (type : Ty) : GrowsBy ms s (s.insert name type) := by
  intro other
  rw [Bindings.get?_insert]
  by_cases ho : other = name
  · subst ho
    exact .inr ⟨hnone, hbound⟩
  · exact .inl (if_neg ho)

/-- What is bound stays bound to the same type. -/
theorem keeps (h : GrowsBy ms s t) : Context.Extends s.get? t.get? := by
  intro name type hs
  obtain hsame | ⟨hnone, -⟩ := h name
  · rw [hsame, hs]
  · rw [hnone] at hs
    cases hs

/-- What is new is mentioned as bound. -/
theorem bound_mem (h : GrowsBy ms s t) {name : String} (hs : s.get? name = none)
    (ht : t.get? name ≠ none) : .bound name ∈ ms := by
  obtain hsame | ⟨-, hbound⟩ := h name
  · rw [hsame] at ht
    exact absurd hs ht
  · exact hbound

theorem get?_eq (h : GrowsBy ms s t) {name : String} (hname : .bound name ∉ ms) :
    t.get? name = s.get? name := by
  obtain hsame | ⟨-, hbound⟩ := h name
  · exact hsame
  · exact absurd hbound hname

end GrowsBy
end Scope

namespace Checker

/-- The scope that a checker leaves, be it with a value or with an error. -/
def scopeAfter (s : Scope) (c : Checker α) : Scope :=
  match c s with
  | .ok _ t => t
  | .error _ t => t

theorem scopeAfter_of_ok {c : Checker α} {a : α} {s t : Scope} (h : c s = .ok a t) :
    scopeAfter s c = t := by
  rw [scopeAfter, h]

theorem scopeAfter_of_error {c : Checker α} {e : Error} {s t : Scope} (h : c s = .error e t) :
    scopeAfter s c = t := by
  rw [scopeAfter, h]

/-- A checker that binds nothing but variables that are mentioned as bound. -/
def BindsOnly (mentions : List Mention) (c : Checker α) : Prop :=
  ∀ s, Scope.GrowsBy mentions s (scopeAfter s c)

namespace BindsOnly

variable {ms ns : List Mention} {c : Checker α}

theorem mono (h : BindsOnly ms c) (hms : ms ⊆ ns) : BindsOnly ns c := fun s => (h s).mono hms

protected theorem pure (ms : List Mention) (a : α) : BindsOnly ms (pure a) := .refl ms

theorem bind {f : α → Checker β} (hc : BindsOnly ms c) (hf : ∀ a, BindsOnly ms (f a)) :
    BindsOnly ms (c >>= f) := by
  intro s
  have hs := hc s
  cases h : c s with
  | error e t =>
    rw [scopeAfter_of_error h] at hs
    rwa [scopeAfter_of_error (EStateM.bind_apply_of_error h)]
  | ok a t =>
    rw [scopeAfter_of_ok h] at hs
    have ha := hf a t
    rw [scopeAfter, EStateM.bind_apply_of_ok h]
    exact hs.trans ha

theorem reading (ms : List Mention) (f : Scope → Except Error α) :
    BindsOnly ms (Checker.reading f) := by
  intro s
  have hsame : scopeAfter s (Checker.reading f) = s := by
    unfold scopeAfter Checker.reading
    cases f s <;> rfl
  rw [hsame]
  exact .refl ms s

theorem requireType (ms : List Mention) (e : Expr Typed) (type : Ty) (cause : Cause) :
    BindsOnly ms (Checker.requireType e type cause) := by
  intro s
  have hsame : scopeAfter s (Checker.requireType e type cause) = s := by
    unfold scopeAfter Checker.requireType
    by_cases h : e.type = type
    · rw [if_pos h]
    · rw [if_neg h]
  rw [hsame]
  exact .refl ms s

theorem condition (ms : List Mention) (functions : Functions) (construct : String)
    (e : Expr Span) : BindsOnly ms (Checker.condition functions construct e) :=
  (reading ms _).bind fun _ => (requireType ms _ _ _).bind fun _ => .pure ms _

theorem declare {name : String} (hbound : .bound name ∈ ms) (type : Ty) (p : Position) :
    BindsOnly ms (Checker.declare name type p) := by
  intro s
  unfold scopeAfter Checker.declare
  cases hs : s.get? name with
  | none => exact .insert hs hbound type
  | some bound =>
    by_cases htype : bound = type
    · simp only [if_pos htype]
      exact .refl ms s
    · simp only [if_neg htype]
      exact .refl ms s

end BindsOnly
end Checker

namespace Stmt

variable {functions : Functions}

mutual
/-- A statement binds nothing but what it mentions as bound, however far it is checked. -/
theorem check_bindsOnly (R : Ty) : ∀ s : Stmt Span,
    Checker.BindsOnly s.mentions (s.check functions R)
  | .assign name value span =>
    (Checker.BindsOnly.reading _ _).bind fun _ =>
      (Checker.BindsOnly.declare List.mem_cons_self _ _).bind fun _ => .pure _ _
  | .declare name type value span =>
    (Checker.BindsOnly.reading _ _).bind fun _ =>
      (Checker.BindsOnly.requireType _ _ _ _).bind fun _ =>
        (Checker.BindsOnly.declare List.mem_cons_self _ _).bind fun _ => .pure _ _
  | .expression value span => (Checker.BindsOnly.reading _ _).bind fun _ => .pure _ _
  | .function name parameters returns body span => Scope.GrowsBy.refl _
  | .return value span =>
    (Checker.BindsOnly.reading _ _).bind fun _ =>
      (Checker.BindsOnly.requireType _ _ _ _).bind fun _ => .pure _ _
  | .conditional first alternatives otherwise span => by
    have hfirst := checkBranch_bindsOnly R first
    have halternatives := checkBranches_bindsOnly R alternatives
    have hotherwise := checkAll_bindsOnly R otherwise
    refine (hfirst.mono (List.subset_append_left _ _)).bind fun _ => ?_
    refine (halternatives.mono ?_).bind fun _ => (hotherwise.mono ?_).bind fun _ => .pure _ _
    · exact List.Subset.trans (List.subset_append_left _ _) (List.subset_append_right _ _)
    · exact List.Subset.trans (List.subset_append_right _ _) (List.subset_append_right _ _)
  | .loop condition body span => by
    have hbody := checkAll_bindsOnly R body
    refine (Checker.BindsOnly.condition _ functions "while" condition).bind fun _ => ?_
    exact (hbody.mono (List.subset_append_right _ _)).bind fun _ => .pure _ _
  | .pass span => .pure _ _

theorem checkAll_bindsOnly (R : Ty) : ∀ body : List (Stmt Span),
    Checker.BindsOnly (mentionsAll body) (checkAll functions R body)
  | [] => .pure _ _
  | s :: rest => by
    have hs := check_bindsOnly R s
    have hrest := checkAll_bindsOnly R rest
    refine (hs.mono (List.subset_append_left _ _)).bind fun _ => ?_
    exact (hrest.mono (List.subset_append_right _ _)).bind fun _ => .pure _ _

theorem checkBranch_bindsOnly (R : Ty) : ∀ b : Branch Span,
    Checker.BindsOnly (mentionsOfBranch b) (checkBranch functions R b)
  | ⟨kind, condition, body, span⟩ => by
    have hbody := checkAll_bindsOnly R body
    refine (Checker.BindsOnly.condition _ functions kind.keyword condition).bind fun _ => ?_
    exact (hbody.mono (List.subset_append_right _ _)).bind fun _ => .pure _ _

theorem checkBranches_bindsOnly (R : Ty) : ∀ bs : List (Branch Span),
    Checker.BindsOnly (mentionsOfBranches bs) (checkBranches functions R bs)
  | [] => .pure _ _
  | b :: rest => by
    have hb := checkBranch_bindsOnly R b
    have hrest := checkBranches_bindsOnly R rest
    refine (hb.mono (List.subset_append_left _ _)).bind fun _ => ?_
    exact (hrest.mono (List.subset_append_right _ _)).bind fun _ => .pure _ _
end

end Stmt

/-- Whether some type is bound to a variable. -/
def Typing.Binds (occurrences : List Occurrence) (name : String) : Prop :=
  ∃ type, (name, type) ∈ occurrences

theorem Typing.binds_append {xs ys : List Occurrence} {name : String} :
    Binds (xs ++ ys) name ↔ Binds xs name ∨ Binds ys name := by
  simp only [Binds, List.mem_append, exists_or]

namespace Stmt

variable {functions : Functions}

mutual
/-- An accepted statement binds exactly what it mentions as bound. -/
theorem bound_mem_iff_of_check {R : Ty} {x : String} :
    ∀ {s : Stmt Span} {t : Stmt Typed} {scope scope' : Scope},
    s.check functions R scope = .ok t scope' → (.bound x ∈ s.mentions ↔ Binds t.bindings x)
  | .assign name value span, t, scope, scope', h => by
    simp only [check, EStateM.bind_eq_ok_iff, EStateM.pure_eq_ok_iff] at h
    obtain ⟨v, _, -, _, _, -, rfl, rfl⟩ := h
    simp [mentions, bindings, Binds, Expr.bound_notMem_mentions]
  | .declare name type value span, t, scope, scope', h => by
    simp only [check, EStateM.bind_eq_ok_iff, EStateM.pure_eq_ok_iff] at h
    obtain ⟨v, _, -, _, _, -, _, _, -, rfl, rfl⟩ := h
    simp [mentions, bindings, Binds, Expr.bound_notMem_mentions]
  | .expression value span, t, scope, scope', h => by
    simp only [check, EStateM.bind_eq_ok_iff, EStateM.pure_eq_ok_iff] at h
    obtain ⟨v, _, -, rfl, rfl⟩ := h
    simp [mentions, bindings, Binds, Expr.bound_notMem_mentions]
  | .function name parameters returns body span, t, scope, scope', h => by cases h
  | .return value span, t, scope, scope', h => by
    simp only [check, EStateM.bind_eq_ok_iff, EStateM.pure_eq_ok_iff] at h
    obtain ⟨v, _, -, _, _, -, rfl, rfl⟩ := h
    simp [mentions, bindings, Binds, Expr.bound_notMem_mentions]
  | .conditional first alternatives otherwise span, t, scope, scope', h => by
    simp only [check, EStateM.bind_eq_ok_iff, EStateM.pure_eq_ok_iff] at h
    obtain ⟨f, _, hf, as, _, has, o, _, ho, rfl, rfl⟩ := h
    simp only [mentions, bindings, List.mem_append, binds_append, bound_mem_iff_of_checkBranch hf,
      bound_mem_iff_of_checkBranches has, bound_mem_iff_of_checkAll ho, or_assoc]
  | .loop condition body span, t, scope, scope', h => by
    simp only [check, EStateM.bind_eq_ok_iff, EStateM.pure_eq_ok_iff] at h
    obtain ⟨c, _, -, b, _, hb, rfl, rfl⟩ := h
    simp only [mentions, bindings, List.mem_append, Expr.bound_notMem_mentions, false_or,
      bound_mem_iff_of_checkAll hb]
  | .pass span, t, scope, scope', h => by
    simp only [check, EStateM.pure_eq_ok_iff] at h
    obtain ⟨rfl, rfl⟩ := h
    simp [mentions, bindings, Binds]

theorem bound_mem_iff_of_checkAll {R : Ty} {x : String} :
    ∀ {body : List (Stmt Span)} {ts : List (Stmt Typed)} {scope scope' : Scope},
    checkAll functions R body scope = .ok ts scope' →
      (.bound x ∈ mentionsAll body ↔ Binds (bindingsAll ts) x)
  | [], ts, scope, scope', h => by
    simp only [checkAll, EStateM.pure_eq_ok_iff] at h
    obtain ⟨rfl, rfl⟩ := h
    simp [mentionsAll, bindingsAll, Binds]
  | s :: rest, ts, scope, scope', h => by
    simp only [checkAll, EStateM.bind_eq_ok_iff, EStateM.pure_eq_ok_iff] at h
    obtain ⟨t, _, ht, us, _, hus, rfl, rfl⟩ := h
    simp only [mentionsAll, bindingsAll, List.mem_append, binds_append, bound_mem_iff_of_check ht,
      bound_mem_iff_of_checkAll hus]

theorem bound_mem_iff_of_checkBranch {R : Ty} {x : String} :
    ∀ {b : Branch Span} {t : Branch Typed} {scope scope' : Scope},
    checkBranch functions R b scope = .ok t scope' →
      (.bound x ∈ mentionsOfBranch b ↔ Binds (bindingsOfBranch t) x)
  | ⟨kind, condition, body, span⟩, t, scope, scope', h => by
    simp only [checkBranch, EStateM.bind_eq_ok_iff, EStateM.pure_eq_ok_iff] at h
    obtain ⟨c, _, -, us, _, hus, rfl, rfl⟩ := h
    simp only [mentionsOfBranch, bindingsOfBranch, List.mem_append, Expr.bound_notMem_mentions,
      false_or, bound_mem_iff_of_checkAll hus]

theorem bound_mem_iff_of_checkBranches {R : Ty} {x : String} :
    ∀ {bs : List (Branch Span)} {ts : List (Branch Typed)} {scope scope' : Scope},
    checkBranches functions R bs scope = .ok ts scope' →
      (.bound x ∈ mentionsOfBranches bs ↔ Binds (bindingsOfBranches ts) x)
  | [], ts, scope, scope', h => by
    simp only [checkBranches, EStateM.pure_eq_ok_iff] at h
    obtain ⟨rfl, rfl⟩ := h
    simp [mentionsOfBranches, bindingsOfBranches, Binds]
  | b :: rest, ts, scope, scope', h => by
    simp only [checkBranches, EStateM.bind_eq_ok_iff, EStateM.pure_eq_ok_iff] at h
    obtain ⟨t, _, ht, us, _, hus, rfl, rfl⟩ := h
    simp only [mentionsOfBranches, bindingsOfBranches, List.mem_append, binds_append,
      bound_mem_iff_of_checkBranch ht, bound_mem_iff_of_checkBranches hus]
end

end Stmt

namespace Typing

/-- The scope around a statement changes by exactly the variables that the statement binds. What is
bound before keeps its type in any case. If the statement is accepted, a variable is new exactly if
the statement binds it at some depth, and every variable that it binds has the type that each of
these places notes; if it is refused, what is new is among them. -/
theorem scope_changed_by_bindings (functions : Functions) (R : Ty) (scope : Scope)
    (s : Stmt Span) :
    (∀ t scope', s.check functions R scope = .ok t scope' →
      Context.Extends scope.get? scope'.get? ∧
      (∀ x, scope.get? x = none → (scope'.get? x ≠ none ↔ .bound x ∈ s.mentions)) ∧
      (∀ x, .bound x ∈ s.mentions ↔ Binds t.bindings x) ∧ Knows scope'.get? t.bindings) ∧
    ∀ e scope', s.check functions R scope = .error e scope' →
      Context.Extends scope.get? scope'.get? ∧
      ∀ x, scope.get? x = none → scope'.get? x ≠ none → .bound x ∈ s.mentions := by
  have hbinds : Checker.BindsOnly s.mentions (s.check functions R) := Stmt.check_bindsOnly R s
  have hgrows := hbinds scope
  constructor
  · intro t scope' h
    rw [Checker.scopeAfter_of_ok h] at hgrows
    have hbindings : ∀ x, .bound x ∈ s.mentions ↔ Binds t.bindings x :=
      fun x => Stmt.bound_mem_iff_of_check h
    have hknows := Stmt.knows_of_check h
    refine ⟨hgrows.keeps, ?_, hbindings, hknows⟩
    intro x hx
    refine ⟨hgrows.bound_mem hx, ?_⟩
    intro hbound
    obtain ⟨type, htype⟩ := (hbindings x).1 hbound
    rw [hknows _ htype]
    exact Option.some_ne_none type
  · intro e scope' h
    rw [Checker.scopeAfter_of_error h] at hgrows
    exact ⟨hgrows.keeps, fun x => hgrows.bound_mem⟩

/-- The loop is refused at its second statement, after the first has bound a variable. -/
theorem scope_changed_by_bindings_branches :
    let span : Span := ⟨⟨0, "shell"⟩, ⟨0, "shell"⟩⟩
    let functions : Functions := .empty
    let scope : Scope := Bindings.insert .empty "g" .int
    let condition : Expr Span := .boolean true span
    let accepted : Stmt Span := .conditional
      ⟨.first, condition, [.assign "x" (.ident "g" span) span], span⟩
      [⟨.alternative, condition, [.declare "y" .bool condition span], span⟩]
      [.loop condition [.assign "x" (.number 2 span) span] span] span
    let refused : Stmt Span :=
      .loop condition [.assign "x" condition span, .assign "g" condition span] span
    (∃ t scope', accepted.check functions .none scope = .ok t scope' ∧
      Context.Extends scope.get? scope'.get? ∧
      (∀ x, scope.get? x = none → (scope'.get? x ≠ none ↔ .bound x ∈ accepted.mentions)) ∧
      (∀ x, .bound x ∈ accepted.mentions ↔ Binds t.bindings x) ∧
      Knows scope'.get? t.bindings) ∧
    ∃ e scope', refused.check functions .none scope = .error e scope' ∧
      Context.Extends scope.get? scope'.get? ∧
      ∀ x, scope.get? x = none → scope'.get? x ≠ none → .bound x ∈ refused.mentions := by
  intro span functions scope condition accepted refused
  constructor
  · obtain ⟨t, ht⟩ : ∃ t, Checker.resultIn scope (accepted.check functions .none) = .ok t :=
      Except.exists_eq_ok (by decide +kernel)
    obtain ⟨scope', h⟩ := Checker.resultIn_eq_ok_iff.1 ht
    exact ⟨t, scope', h, (scope_changed_by_bindings functions .none scope accepted).1 t scope' h⟩
  · obtain ⟨e, he⟩ : ∃ e, Checker.resultIn scope (refused.check functions .none) = .error e :=
      Except.exists_eq_error (by decide +kernel)
    obtain ⟨scope', h⟩ := Checker.resultIn_eq_error_iff.1 he
    exact ⟨e, scope', h, (scope_changed_by_bindings functions .none scope refused).2 e scope' h⟩

end Typing
end Offside
