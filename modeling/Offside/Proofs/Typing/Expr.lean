import Offside.Proofs.Program.Parts
import Offside.Proofs.Success
import Offside.Proofs.Typing.Rules

/-! The checker of expressions decides the rules, and notes at every node the type that the node has
by the rules. -/
namespace Offside
open Typing

variable {functions : Functions} {scope : Scope}

theorem Operator.resultType_eq_ok_iff {op : Operator} {left right type : Ty} {p : Position} :
    op.resultType left right p = .ok type ↔ Result op.operatorClass left right type := by
  have h : op.operatorClass.result? left right = some type ↔
      Result op.operatorClass left right type := by
    generalize op.operatorClass = c
    constructor
    · intro h
      cases c <;> cases left <;> cases right <;> cases h <;> constructor
    · intro h
      cases h <;> rfl
  rw [← h, resultType]
  split <;> simp_all

theorem Expr.variableType_eq_ok_iff {name : String} {type : Ty} {p : Position} :
    variableType scope name p = .ok type ↔ scope.get? name = some type := by
  unfold variableType
  split <;> simp_all

namespace Functions

theorem requireCount_eq_ok_iff {function : String} {n : Nat} {arguments : List (Expr Typed)}
    {p : Position} {u : Unit} :
    requireCount function n arguments p = .ok u ↔ arguments.length = n := by
  unfold requireCount
  split <;> simp_all

theorem matchArguments_eq_ok_iff {function : String} {arguments : List (Expr Typed)} {u : Unit} :
    ∀ {index : Nat} {types : List Ty}, arguments.length = types.length →
      (matchArguments function index arguments types = .ok u ↔
        arguments.map Expr.type = types) := by
  induction arguments with
  | nil =>
    intro index types h
    cases types with
    | nil => simp [matchArguments]
    | cons => simp at h
  | cons a rest ih =>
    intro index types h
    cases types with
    | nil => simp at h
    | cons type types =>
      rw [matchArguments]
      by_cases ha : a.type = type
      · rw [if_pos ha, ih (by simpa using h)]
        simp [ha]
      · rw [if_neg ha]
        simp [ha]

/-- A call has a type if it shows one value or its arguments have the types of the parameters. -/
theorem callType_eq_ok_iff {function : String} {arguments : List (Expr Typed)} {p : Position}
    {type : Ty} :
    functions.callType function arguments p = .ok type ↔
      (function = showFunction ∧ arguments.length = 1 ∧ type = .none) ∨
      (function ≠ showFunction ∧ ∃ signature, functions.get? function = some signature ∧
        arguments.map Expr.type = signature.parameters ∧ type = signature.returns) := by
  unfold callType
  split
  · rename_i hn
    simp only [Except.bind_eq_ok_iff, requireCount_eq_ok_iff, Except.pure_eq_ok_iff, hn, true_and,
      ne_eq, not_true_eq_false, false_and, or_false]
    constructor
    · rintro ⟨_, hlen, rfl⟩
      exact ⟨hlen, rfl⟩
    · rintro ⟨hlen, rfl⟩
      exact ⟨(), hlen, rfl⟩
  · rename_i hn
    split
    · rename_i hf
      simp [hn, hf]
    · rename_i signature hf
      simp only [Except.bind_eq_ok_iff, requireCount_eq_ok_iff, Except.pure_eq_ok_iff, hn, hf,
        false_and, false_or, ne_eq, not_false_eq_true, true_and, Option.some.injEq]
      constructor
      · rintro ⟨_, hlen, _, hm, rfl⟩
        exact ⟨signature, rfl, (matchArguments_eq_ok_iff hlen).1 hm, rfl⟩
      · rintro ⟨_, rfl, hm, rfl⟩
        have hlen : arguments.length = signature.parameters.length := by simp [← hm]
        exact ⟨(), hlen, (), (matchArguments_eq_ok_iff hlen).2 hm, rfl⟩

end Functions

namespace Typing

/-- The types that some expressions note are theirs by the rules. -/
def Annotated (F : Signatures) (G : Context) (ts : List (Expr Typed)) : Prop :=
  ∀ x ∈ ts, HasType F G (x.map Typed.span) x.type

namespace Annotated

variable {F : Signatures} {G H : Context} {ts us : List (Expr Typed)}

theorem hasType {t : Expr Typed} (h : Annotated F G t.parts) :
    HasType F G (t.map Typed.span) t.type := h t t.mem_parts_self

theorem singleton {t : Expr Typed} (h : HasType F G (t.map Typed.span) t.type) :
    Annotated F G [t] := by
  intro x hx
  rw [List.mem_singleton] at hx
  exact hx ▸ h

theorem append (ht : Annotated F G ts) (hu : Annotated F G us) : Annotated F G (ts ++ us) :=
  fun x hx => (List.mem_append.1 hx).elim (ht x) (hu x)

theorem mono (hG : G.Extends H) (h : Annotated F G ts) : Annotated F H ts :=
  fun x hx => (h x hx).mono hG

/-- A type that is noted by the rules is the only one that the rules give. -/
theorem iff_forall_unique : Annotated F G ts ↔
    ∀ x ∈ ts, ∀ type, HasType F G (x.map Typed.span) type ↔ type = x.type := by
  constructor
  · intro h x hx type
    constructor
    · exact fun ht => ht.unique (h x hx)
    · rintro rfl
      exact h x hx
  · exact fun h x hx => (h x hx x.type).2 rfl

end Annotated
end Typing

namespace Expr

theorem haveTypes_of_annotated {F : Signatures} {G : Context} {ts : List (Expr Typed)}
    (h : ∀ t ∈ ts, HasType F G (t.map Typed.span) t.type) :
    HaveTypes F G (mapAll Typed.span ts) (ts.map type) := by
  induction ts with
  | nil => exact .nil
  | cons t rest ih =>
    refine .cons (h t List.mem_cons_self) (ih fun u hu => ?_)
    exact h u (List.mem_cons_of_mem t hu)

mutual
/-- What the checker gives is the expression with its types. -/
theorem annotated_of_check : ∀ {e : Expr Span} {t : Expr Typed},
    e.check functions scope = .ok t →
      t.map Typed.span = e ∧ Annotated functions.get? scope.get? t.parts
  | .number _ _, t, h => by
    cases h
    exact ⟨rfl, .singleton .number⟩
  | .boolean _ _, t, h => by
    cases h
    exact ⟨rfl, .singleton .boolean⟩
  | .noneLiteral _, t, h => by
    cases h
    exact ⟨rfl, .singleton .noneLiteral⟩
  | .ident name span, t, h => by
    simp only [check, Except.bind_eq_ok_iff, variableType_eq_ok_iff, Except.pure_eq_ok_iff] at h
    obtain ⟨type, hx, rfl⟩ := h
    exact ⟨rfl, .singleton (.ident hx)⟩
  | .binary op lhs rhs span, t, h => by
    simp only [check, Except.bind_eq_ok_iff, Operator.resultType_eq_ok_iff,
      Except.pure_eq_ok_iff] at h
    obtain ⟨l, hl, r, hr, type, ht, rfl⟩ := h
    obtain ⟨rfl, hal⟩ := annotated_of_check hl
    obtain ⟨rfl, har⟩ := annotated_of_check hr
    refine ⟨rfl, ?_⟩
    intro x hx
    rcases List.mem_cons.1 hx with rfl | hx
    · exact .binary hal.hasType har.hasType ht
    · exact hal.append har x hx
  | .call function arguments span, t, h => by
    simp only [check, Except.bind_eq_ok_iff, Functions.callType_eq_ok_iff,
      Except.pure_eq_ok_iff] at h
    obtain ⟨ts, hts, type, ht, rfl⟩ := h
    obtain ⟨rfl, ha⟩ := annotated_of_checkAll hts
    refine ⟨rfl, ?_⟩
    intro x hx
    rcases List.mem_cons.1 hx with rfl | hx
    · have hroot : ∀ t ∈ ts, HasType functions.get? scope.get? (t.map Typed.span) t.type :=
        fun t ht => (ha t ht).hasType
      rcases ht with ⟨rfl, hlen, rfl⟩ | ⟨hn, signature, hf, hm, rfl⟩
      · obtain ⟨a, rfl⟩ := List.length_eq_one_iff.1 hlen
        exact .shown (hroot a List.mem_cons_self)
      · exact .call hn hf (hm ▸ haveTypes_of_annotated hroot)
    · obtain ⟨t, ht, hx⟩ := mem_partsAll.1 hx
      exact ha t ht x hx

theorem annotated_of_checkAll : ∀ {es : List (Expr Span)} {ts : List (Expr Typed)},
    checkAll functions scope es = .ok ts →
      mapAll Typed.span ts = es ∧ ∀ t ∈ ts, Annotated functions.get? scope.get? t.parts
  | [], ts, h => by
    cases h
    exact ⟨rfl, by simp⟩
  | e :: rest, ts, h => by
    simp only [checkAll, Except.bind_eq_ok_iff, Except.pure_eq_ok_iff] at h
    obtain ⟨t, ht, ts, hts, rfl⟩ := h
    obtain ⟨rfl, ha⟩ := annotated_of_check ht
    obtain ⟨rfl, has⟩ := annotated_of_checkAll hts
    refine ⟨rfl, ?_⟩
    intro u hu
    rcases List.mem_cons.1 hu with rfl | hu
    · exact ha
    · exact has u hu
end

mutual
/-- The checker accepts every expression that has a type, and notes this type. -/
theorem check_of_hasType : ∀ {e : Expr Span} {type : Ty},
    HasType functions.get? scope.get? e type → ∃ t, e.check functions scope = .ok t ∧ t.type = type
  | _, _, .number => ⟨_, rfl, rfl⟩
  | _, _, .boolean => ⟨_, rfl, rfl⟩
  | _, _, .noneLiteral => ⟨_, rfl, rfl⟩
  | .ident name span, type, .ident hx => by
    refine ⟨.ident name ⟨type, span⟩, ?_, rfl⟩
    simp only [check, variableType_eq_ok_iff.2 hx]
    rfl
  | .binary op lhs rhs span, type, .binary hl hr ht => by
    obtain ⟨l, hlc, rfl⟩ := check_of_hasType hl
    obtain ⟨r, hrc, rfl⟩ := check_of_hasType hr
    refine ⟨.binary op l r ⟨type, span⟩, ?_, rfl⟩
    simp only [check, Except.bind_eq_ok_iff, Operator.resultType_eq_ok_iff, Except.pure_eq_ok_iff]
    exact ⟨l, hlc, r, hrc, type, ht, rfl⟩
  | .call _ [argument] span, _, .shown ha => by
    obtain ⟨a, hac, rfl⟩ := check_of_hasType ha
    refine ⟨.call showFunction [a] ⟨.none, span⟩, ?_, rfl⟩
    simp only [check, checkAll, Except.bind_eq_ok_iff, Functions.callType_eq_ok_iff,
      Except.pure_eq_ok_iff]
    exact ⟨[a], ⟨a, hac, [], rfl, rfl⟩, .none, .inl ⟨trivial, rfl, rfl⟩, rfl⟩
  | .call function arguments span, _, @HasType.call _ _ _ _ _ signature hn hf ha => by
    obtain ⟨ts, hts, hm⟩ := checkAll_of_haveTypes ha
    refine ⟨.call function ts ⟨signature.returns, span⟩, ?_, rfl⟩
    simp only [check, Except.bind_eq_ok_iff, Functions.callType_eq_ok_iff, Except.pure_eq_ok_iff]
    exact ⟨ts, hts, signature.returns, .inr ⟨hn, signature, hf, hm, rfl⟩, rfl⟩

theorem checkAll_of_haveTypes : ∀ {es : List (Expr Span)} {types : List Ty},
    HaveTypes functions.get? scope.get? es types →
      ∃ ts, checkAll functions scope es = .ok ts ∧ ts.map type = types
  | _, _, .nil => ⟨[], rfl, rfl⟩
  | _, _, .cons he hrest => by
    obtain ⟨t, ht, rfl⟩ := check_of_hasType he
    obtain ⟨ts, hts, rfl⟩ := checkAll_of_haveTypes hrest
    refine ⟨t :: ts, ?_, rfl⟩
    simp only [checkAll, Except.bind_eq_ok_iff, Except.pure_eq_ok_iff]
    exact ⟨t, ht, ts, hts, rfl⟩
end

theorem types_eq_of_annotated {F : Signatures} {G : Context} {ts : List (Expr Typed)}
    {types : List Ty} (ha : ∀ t ∈ ts, Annotated F G t.parts)
    (h : HaveTypes F G (mapAll Typed.span ts) types) : ts.map type = types := by
  induction ts generalizing types with
  | nil => cases h; rfl
  | cons t rest ih =>
    cases h with
    | cons ht hr =>
      rw [List.map_cons, (ha t List.mem_cons_self).hasType.unique ht,
        ih (fun u hu => ha u (List.mem_cons_of_mem t hu)) hr]

mutual
/-- An expression with types that are right by the rules is what the checker gives. -/
theorem check_of_annotated : ∀ {t : Expr Typed},
    Annotated functions.get? scope.get? t.parts → (t.map Typed.span).check functions scope = .ok t
  | .number value ⟨type, span⟩, ha => by
    cases show HasType _ _ (.number value span) type from ha.hasType
    rfl
  | .boolean value ⟨type, span⟩, ha => by
    cases show HasType _ _ (.boolean value span) type from ha.hasType
    rfl
  | .noneLiteral ⟨type, span⟩, ha => by
    cases show HasType _ _ (.noneLiteral span) type from ha.hasType
    rfl
  | .ident name ⟨type, span⟩, ha => by
    cases show HasType _ _ (.ident name span) type from ha.hasType with
    | ident hx =>
      simp only [map, check, variableType_eq_ok_iff.2 hx]
      rfl
  | .binary op lhs rhs ⟨type, span⟩, ha => by
    have hal : Annotated functions.get? scope.get? lhs.parts := fun x hx =>
      ha x (List.mem_cons_of_mem _ (List.mem_append_left _ hx))
    have har : Annotated functions.get? scope.get? rhs.parts := fun x hx =>
      ha x (List.mem_cons_of_mem _ (List.mem_append_right _ hx))
    cases show HasType _ _ (.binary op (lhs.map Typed.span) (rhs.map Typed.span) span) type
      from ha.hasType with
    | binary hl hr ht =>
      cases hl.unique hal.hasType
      cases hr.unique har.hasType
      simp only [map, check, Except.bind_eq_ok_iff, Operator.resultType_eq_ok_iff,
        Except.pure_eq_ok_iff]
      exact ⟨lhs, check_of_annotated hal, rhs, check_of_annotated har, type, ht, rfl⟩
  | .call function arguments ⟨type, span⟩, ha => by
    have has : ∀ t ∈ arguments, Annotated functions.get? scope.get? t.parts := fun t ht x hx =>
      ha x (List.mem_cons_of_mem _ (mem_partsAll.2 ⟨t, ht, hx⟩))
    simp only [map, check, Except.bind_eq_ok_iff, Functions.callType_eq_ok_iff,
      Except.pure_eq_ok_iff]
    refine ⟨arguments, checkAll_of_annotated has, type, ?_, rfl⟩
    have hroot : HasType _ _ (.call function (mapAll Typed.span arguments) span) type := ha.hasType
    generalize hm : mapAll Typed.span arguments = erased at hroot
    cases hroot with
    | shown =>
      have hlen := congrArg List.length hm
      rw [mapAll_eq_map, List.length_map] at hlen
      exact .inl ⟨rfl, hlen, rfl⟩
    | call hn hf hargs =>
      exact .inr ⟨hn, _, hf, types_eq_of_annotated has (hm ▸ hargs), rfl⟩

theorem checkAll_of_annotated : ∀ {ts : List (Expr Typed)},
    (∀ t ∈ ts, Annotated functions.get? scope.get? t.parts) →
      checkAll functions scope (mapAll Typed.span ts) = .ok ts
  | [], _ => rfl
  | t :: rest, ha => by
    simp only [mapAll, checkAll, Except.bind_eq_ok_iff, Except.pure_eq_ok_iff]
    refine ⟨t, check_of_annotated (ha t List.mem_cons_self), rest, ?_, rfl⟩
    exact checkAll_of_annotated fun u hu => ha u (List.mem_cons_of_mem t hu)
end

/-- The checker gives exactly the expression with the types that the rules give to its nodes. -/
theorem check_eq_ok_iff {e : Expr Span} {t : Expr Typed} : e.check functions scope = .ok t ↔
    t.map Typed.span = e ∧ Annotated functions.get? scope.get? t.parts := by
  constructor
  · exact annotated_of_check
  · rintro ⟨rfl, ha⟩
    exact check_of_annotated ha

/-- The checker accepts exactly the expressions that have a type. -/
theorem exists_check_eq_ok_iff {e : Expr Span} : (∃ t, e.check functions scope = .ok t) ↔
    ∃ type, HasType functions.get? scope.get? e type := by
  constructor
  · rintro ⟨t, ht⟩
    obtain ⟨rfl, ha⟩ := annotated_of_check ht
    exact ⟨t.type, ha.hasType⟩
  · rintro ⟨type, h⟩
    obtain ⟨t, ht, -⟩ := check_of_hasType h
    exact ⟨t, ht⟩

end Expr
end Offside
