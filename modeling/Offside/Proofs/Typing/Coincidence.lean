import Offside.Proofs.Typing.Effect

/-! What a statement is checked to depends only on the names that it mentions: the signatures of the
functions that it calls, and the types of the variables that it reads and binds. Two runs of the
checker from scopes that agree on these names go the same way, also to the same error. -/
namespace Offside

variable {functions functions' : Functions} {Q : Scope → Scope → Prop} {ms ns : List Mention}
  {scope scope' : Scope}

/-- The variables that are read or bound. -/
def Mention.variableNames (ms : List Mention) : List String := ms.filterMap asVariable

theorem Mention.mem_variableNames {x : String} :
    x ∈ variableNames ms ↔ .read x ∈ ms ∨ .bound x ∈ ms := by
  rw [variableNames, List.mem_filterMap]
  constructor
  · rintro ⟨m, hm, hx⟩
    cases m with
    | read y =>
      cases hx
      exact .inl hm
    | bound y =>
      cases hx
      exact .inr hm
    | called f => cases hx
  · rintro (hm | hm)
    · exact ⟨_, hm, rfl⟩
    · exact ⟨_, hm, rfl⟩

/-- Functions, and scopes that are related, that cannot be told apart by what is mentioned. Scopes
stay related when a variable is bound in both. -/
structure Agreement (ms : List Mention) (functions functions' : Functions)
    (Q : Scope → Scope → Prop) : Prop where
  called : ∀ f, .called f ∈ ms → functions.get? f = functions'.get? f
  known : ∀ x ∈ Mention.variableNames ms, ∀ s s', Q s s' → s.get? x = s'.get? x
  insert : ∀ x, .bound x ∈ ms → ∀ s s' type, Q s s' → Q (s.insert x type) (s'.insert x type)

namespace Agreement

theorem mono (h : Agreement ns functions functions' Q) (hms : ms ⊆ ns) :
    Agreement ms functions functions' Q := by
  constructor
  · exact fun f hf => h.called f (hms hf)
  · exact fun x hx => h.known x (List.filterMap_subset Mention.asVariable hms hx)
  · exact fun x hx => h.insert x (hms hx)

theorem read (h : Agreement ms functions functions' Q) {x : String} (hx : .read x ∈ ms)
    (hs : Q scope scope') : scope.get? x = scope'.get? x :=
  h.known x (Mention.mem_variableNames.2 (.inl hx)) scope scope' hs

theorem bound (h : Agreement ms functions functions' Q) {x : String} (hx : .bound x ∈ ms)
    (hs : Q scope scope') : scope.get? x = scope'.get? x :=
  h.known x (Mention.mem_variableNames.2 (.inr hx)) scope scope' hs

theorem tail {m : Mention} (h : Agreement (m :: ms) functions functions' Q) :
    Agreement ms functions functions' Q := h.mono (List.subset_cons_self m ms)

theorem left (h : Agreement (ms ++ ns) functions functions' Q) :
    Agreement ms functions functions' Q := h.mono (List.subset_append_left ms ns)

theorem right (h : Agreement (ms ++ ns) functions functions' Q) :
    Agreement ns functions functions' Q := h.mono (List.subset_append_right ms ns)

/-- Functions of the same signatures, in one scope. -/
theorem of_get?_eq (h : functions.get? = functions'.get?) (ms : List Mention) :
    Agreement ms functions functions' Eq := by
  constructor
  · intro f _
    rw [h]
  · rintro x - s _ rfl
    rfl
  · rintro x - s _ type rfl
    rfl

end Agreement

/-- Scopes in which some variables have the same types. -/
def Scope.AgreeOn (names : List String) (s s' : Scope) : Prop :=
  ∀ x ∈ names, s.get? x = s'.get? x

theorem Scope.AgreeOn.insert {names : List String} {s s' : Scope} (h : AgreeOn names s s')
    (x : String) (type : Ty) : AgreeOn names (s.insert x type) (s'.insert x type) := by
  intro y hy
  rw [Bindings.get?_insert, Bindings.get?_insert, h y hy]

/-- Functions and scopes that agree on the names that are mentioned. -/
theorem Agreement.of_agreeOn (h : ∀ f, .called f ∈ ms → functions.get? f = functions'.get? f) :
    Agreement ms functions functions' (Scope.AgreeOn (Mention.variableNames ms)) := by
  constructor
  · exact h
  · intro x hx s s' hs
    exact hs x hx
  · intro x _ s s' type hs
    exact hs.insert x type

/-- Calls of functions with the same signature are judged alike. -/
theorem Functions.callType_eq {function : String}
    (h : functions.get? function = functions'.get? function) :
    functions.callType function = functions'.callType function := by
  funext arguments p
  rw [callType, callType, h]

namespace Expr

theorem variableType_eq {name : String} (h : scope.get? name = scope'.get? name) :
    variableType scope name = variableType scope' name := by
  funext p
  rw [variableType, variableType, h]

mutual
theorem check_eq_of_agreement (hs : Q scope scope') : ∀ e : Expr Span,
    Agreement e.mentions functions functions' Q →
      e.check functions scope = e.check functions' scope'
  | .number _ _, _ | .boolean _ _, _ | .noneLiteral _, _ => rfl
  | .ident name span, h => by
    have hx := h.read List.mem_cons_self hs
    rw [check, check, variableType_eq hx]
  | .binary op lhs rhs span, h => by
    rw [check, check, check_eq_of_agreement hs lhs h.left, check_eq_of_agreement hs rhs h.right]
  | .call function arguments span, h => by
    have hf := h.called function List.mem_cons_self
    rw [check, check, checkAll_eq_of_agreement hs arguments h.tail, Functions.callType_eq hf]

theorem checkAll_eq_of_agreement (hs : Q scope scope') : ∀ es : List (Expr Span),
    Agreement (mentionsAll es) functions functions' Q →
      checkAll functions scope es = checkAll functions' scope' es
  | [], _ => rfl
  | e :: rest, h => by
    rw [checkAll, checkAll, check_eq_of_agreement hs e h.left,
      checkAll_eq_of_agreement hs rest h.right]
end

end Expr

namespace Checker

/-- Results that are the same up to the scopes, which are related. -/
inductive SameResult (Q : Scope → Scope → Prop) :
    EStateM.Result Error Scope α → EStateM.Result Error Scope α → Prop
  | ok {a s s'} (h : Q s s') : SameResult Q (.ok a s) (.ok a s')
  | error {e s s'} (h : Q s s') : SameResult Q (.error e s) (.error e s')

/-- Checkers that go the same way from related scopes. -/
def Coincide (Q : Scope → Scope → Prop) (c c' : Checker α) : Prop :=
  ∀ s s', Q s s' → SameResult Q (c s) (c' s')

namespace Coincide

protected theorem pure (a : α) : Coincide Q (pure a) (pure a) := fun _ _ => .ok

theorem bind {c c' : Checker α} {f f' : α → Checker β} (hc : Coincide Q c c')
    (hf : ∀ a, Coincide Q (f a) (f' a)) : Coincide Q (c >>= f) (c' >>= f') := by
  intro s s' hs
  have hfirst := hc s s' hs
  change SameResult Q (EStateM.bind c f s) (EStateM.bind c' f' s')
  unfold EStateM.bind
  generalize c s = r, c' s' = r' at hfirst ⊢
  cases hfirst with
  | ok ht => exact hf _ _ _ ht
  | error ht => exact .error ht

theorem value {e : Expr Span} (h : Agreement e.mentions functions functions' Q) :
    Coincide Q (Checker.value functions e) (Checker.value functions' e) := by
  intro s s' hs
  have he := Expr.check_eq_of_agreement hs e h
  simp only [Checker.value, reading, he]
  cases e.check functions' s' with
  | ok t => exact .ok hs
  | error err => exact .error hs

theorem requireType (e : Expr Typed) (type : Ty) (cause : Cause) :
    Coincide Q (Checker.requireType e type cause) (Checker.requireType e type cause) := by
  intro s s' hs
  unfold Checker.requireType
  split
  · exact .ok hs
  · exact .error hs

theorem condition {e : Expr Span} (h : Agreement e.mentions functions functions' Q)
    (construct : String) : Coincide Q (Checker.condition functions construct e)
      (Checker.condition functions' construct e) :=
  (value h).bind fun _ => (requireType _ _ _).bind fun _ => .pure _

theorem declare {name : String} (h : Agreement ms functions functions' Q)
    (hname : .bound name ∈ ms) (type : Ty) (p : Position) :
    Coincide Q (Checker.declare name type p) (Checker.declare name type p) := by
  intro s s' hs
  unfold Checker.declare
  rw [← h.bound hname hs]
  cases s.get? name with
  | none => exact .ok (h.insert name hname s s' type hs)
  | some bound =>
    by_cases htype : bound = type
    · simp only [if_pos htype]
      exact .ok hs
    · simp only [if_neg htype]
      exact .error hs

theorem resultIn_eq {c c' : Checker α} (h : Coincide Q c c') (hs : Q scope scope') :
    resultIn scope c = resultIn scope' c' := by
  have hresult := h scope scope' hs
  unfold resultIn
  generalize c scope = r, c' scope' = r' at hresult ⊢
  cases hresult <;> rfl

theorem scopeAfter {c c' : Checker α} (h : Coincide Q c c') (hs : Q scope scope') :
    Q (scopeAfter scope c) (scopeAfter scope' c') := by
  have hresult := h scope scope' hs
  unfold Checker.scopeAfter
  generalize c scope = r, c' scope' = r' at hresult ⊢
  cases hresult with
  | ok ht => exact ht
  | error ht => exact ht

/-- Checkers that leave the same scope are the same. -/
theorem eq {c c' : Checker α} (h : Coincide Eq c c') : c = c' := by
  funext s
  have hs := h s s rfl
  generalize c s = r, c' s = r' at hs ⊢
  cases hs with
  | ok ht => rw [ht]
  | error ht => rw [ht]

end Coincide
end Checker

namespace Stmt
open Checker

mutual
/-- A statement is checked alike with functions and in scopes that it cannot tell apart. -/
theorem check_coincides (R : Ty) : ∀ s : Stmt Span, Agreement s.mentions functions functions' Q →
    Coincide Q (s.check functions R) (s.check functions' R)
  | .assign .., h =>
    (Coincide.value h.tail).bind fun _ =>
      (Coincide.declare h List.mem_cons_self _ _).bind fun _ => .pure _
  | .declare .., h =>
    (Coincide.value h.tail).bind fun _ => (Coincide.requireType _ _ _).bind fun _ =>
      (Coincide.declare h List.mem_cons_self _ _).bind fun _ => .pure _
  | .expression .., h => (Coincide.value h).bind fun _ => .pure _
  | .function .., _ => fun _ _ => .error
  | .return .., h =>
    (Coincide.value h).bind fun _ => (Coincide.requireType _ _ _).bind fun _ => .pure _
  | .conditional first alternatives otherwise _, h =>
    (checkBranch_coincides R first h.left).bind fun _ =>
      (checkBranches_coincides R alternatives h.right.left).bind fun _ =>
        (checkAll_coincides R otherwise h.right.right).bind fun _ => .pure _
  | .loop _ body _, h =>
    (Coincide.condition h.left "while").bind fun _ =>
      (checkAll_coincides R body h.right).bind fun _ => .pure _
  | .pass _, _ => .pure _

theorem checkAll_coincides (R : Ty) : ∀ body : List (Stmt Span),
    Agreement (mentionsAll body) functions functions' Q →
      Coincide Q (checkAll functions R body) (checkAll functions' R body)
  | [], _ => .pure _
  | s :: rest, h =>
    (check_coincides R s h.left).bind fun _ =>
      (checkAll_coincides R rest h.right).bind fun _ => .pure _

theorem checkBranch_coincides (R : Ty) : ∀ b : Branch Span,
    Agreement (mentionsOfBranch b) functions functions' Q →
      Coincide Q (checkBranch functions R b) (checkBranch functions' R b)
  | ⟨kind, _, body, _⟩, h =>
    (Coincide.condition h.left kind.keyword).bind fun _ =>
      (checkAll_coincides R body h.right).bind fun _ => .pure _

theorem checkBranches_coincides (R : Ty) : ∀ bs : List (Branch Span),
    Agreement (mentionsOfBranches bs) functions functions' Q →
      Coincide Q (checkBranches functions R bs) (checkBranches functions' R bs)
  | [], _ => .pure _
  | b :: rest, h =>
    (checkBranch_coincides R b h.left).bind fun _ =>
      (checkBranches_coincides R rest h.right).bind fun _ => .pure _
end

/-- The variables that a statement reads or binds, at every depth. -/
def variableNames (s : Stmt α) : List String := Mention.variableNames s.mentions

/-- The check of a statement depends only on the names that the statement mentions. With functions
of the same signatures for the names that it calls, and in scopes that agree on the variables that
it reads or binds, it is given the same types or refused with the same error; the scopes agree on
these variables afterwards, and no other variable has changed. -/
theorem check_depends_on_mentions {R : Ty} {s : Stmt Span}
    (hfunctions : ∀ f, .called f ∈ s.mentions → functions.get? f = functions'.get? f)
    (hscope : ∀ x ∈ s.variableNames, scope.get? x = scope'.get? x) :
    resultIn scope (s.check functions R) = resultIn scope' (s.check functions' R) ∧
    (∀ x ∈ s.variableNames, (scopeAfter scope (s.check functions R)).get? x =
      (scopeAfter scope' (s.check functions' R)).get? x) ∧
    ∀ x ∉ s.variableNames, (scopeAfter scope (s.check functions R)).get? x = scope.get? x ∧
      (scopeAfter scope' (s.check functions' R)).get? x = scope'.get? x := by
  have hcoincide := check_coincides R s (Agreement.of_agreeOn hfunctions)
  refine ⟨hcoincide.resultIn_eq hscope, hcoincide.scopeAfter hscope, ?_⟩
  intro x hx
  have hbound : .bound x ∉ s.mentions := fun h => hx (Mention.mem_variableNames.2 (.inr h))
  exact ⟨(check_bindsOnly R s scope).get?_eq hbound, (check_bindsOnly R s scope').get?_eq hbound⟩

/-- Another function and another variable change nothing about a loop that binds one variable and
is then refused. -/
theorem check_depends_on_mentions_loop :
    let span : Span := ⟨⟨0, "shell"⟩, ⟨0, "shell"⟩⟩
    let functions : Functions := Bindings.insert .empty "f" ⟨[.int], .bool⟩
    let functions' : Functions := functions.insert "g" ⟨[], .none⟩
    let scope : Scope := Bindings.insert .empty "n" .int
    let scope' : Scope := Bindings.insert scope "z" .bool
    let s : Stmt Span := .loop (.call "f" [.ident "n" span] span)
      [.assign "x" (.ident "n" span) span, .assign "n" (.boolean true span) span] span
    functions.get? "g" ≠ functions'.get? "g" ∧ scope.get? "z" ≠ scope'.get? "z" ∧
    (∀ f, .called f ∈ s.mentions → functions.get? f = functions'.get? f) ∧
    (∀ x ∈ s.variableNames, scope.get? x = scope'.get? x) ∧
    resultIn scope (s.check functions .none) = resultIn scope' (s.check functions' .none) ∧
    (∀ x ∈ s.variableNames, (scopeAfter scope (s.check functions .none)).get? x =
      (scopeAfter scope' (s.check functions' .none)).get? x) ∧
    ∀ x ∉ s.variableNames, (scopeAfter scope (s.check functions .none)).get? x = scope.get? x ∧
      (scopeAfter scope' (s.check functions' .none)).get? x = scope'.get? x := by
  intro span functions functions' scope scope' s
  have hmentions : s.mentions = [.called "f", .read "n", .bound "x", .read "n", .bound "n"] := rfl
  have hfunctions : ∀ f, .called f ∈ s.mentions → functions.get? f = functions'.get? f := by
    intro f hf
    rw [hmentions] at hf
    obtain rfl : f = "f" := by simpa using hf
    rfl
  have hscope : ∀ x ∈ s.variableNames, scope.get? x = scope'.get? x := by decide
  exact ⟨by decide, by decide, hfunctions, hscope, check_depends_on_mentions hfunctions hscope⟩

end Stmt
end Offside
