import Offside.Proofs.Grammar.Expression
import Offside.Proofs.Recognizer.Reading

/-! The recognizer of expressions reads exactly the expressions of the grammar of levels. After an
operator of some power has been read, the next one binds no tighter, since the right operand would
have taken it; so the operators that one expression meets come at looser and looser levels. -/
namespace Offside
open Recognizer

namespace Recognizer

variable {n : Nat}

theorem agree_separator : AgreeBelow n separator separator := by
  refine .bind (fun s _ => .kind s) fun k => ?_
  split
  · exact .bind (fun s _ => .leaf s _) fun _ s _ => .pure s _
  · exact fun s _ => .pure s _
  · exact fun s _ => .unexpected s

theorem agree_items {item item' : Recognizer (List Node)} (h : AgreeBelow n item item') :
    AgreeBelow n (items item) (items item') := by
  refine .bind (.repeatWhile (.bind h fun nodes => ?_)) fun nodes => ?_
  · exact .bind agree_separator fun _ s _ => .pure s _
  · exact .bind (fun s _ => .leaf s _) fun _ s _ => .pure s _

variable {s t : Stream}

theorem separator_eq_ok_iff {nodes : List Node} : separator s = .ok nodes t ↔
    (s.kind = .comma ∧ nodes = [.leaf .comma s.current.span] ∧ t = s.advance) ∨
      (s.kind = .closeParen ∧ nodes = [] ∧ t = s) := by
  have hcomma : (do return [← leaf .comma] : Recognizer (List Node)) s =
    .ok [.leaf .comma s.current.span] s.advance := rfl
  unfold separator
  rw [kind_bind_apply]
  cases h : s.kind <;> simp only [hcomma, EStateM.pure_eq_ok_iff, EStateM.Result.ok.injEq,
    unexpected_ne_ok, reduceCtorEq, false_and, true_and, or_false, false_or, @eq_comm _ t,
    @eq_comm _ nodes]

/-- A list up to its closing parenthesis is that alone, or an item, maybe a comma, and the rest. -/
theorem items_eq {item : Recognizer (List Node)}
    (hitem : ∀ s nodes t, item s = .ok nodes t → t.length < s.length) :
    items item s = if s.kind = .closeParen then
        .ok [.leaf .closeParen s.current.span] s.advance
      else (do
        let first ← item
        let comma ← separator
        return first ++ comma ++ (← items item)) s := by
  have hstep : ∀ s nodes t, (do
      let nodes ← item
      return nodes ++ (← separator)) s = .ok nodes t → t.length < s.length := by
    intro s nodes t h
    simp only [EStateM.bind_eq_ok_iff, EStateM.pure_eq_ok_iff] at h
    obtain ⟨first, s₁, hf, comma, _, hc, rfl, rfl⟩ := h
    have hw := within_of_agree (fun _ => agree_separator) hc
    exact Nat.lt_of_le_of_lt hw.length_le (hitem _ _ _ hf)
  have hitems : items item = (repeatWhile (· ≠ .closeParen) (do
      let nodes ← item
      return nodes ++ (← separator)) >>= fun nodes => do
        return nodes ++ [← leaf .closeParen]) := rfl
  rw [hitems]
  conv => lhs; rw [repeatWhile_eq hstep]
  split
  · rename_i hk
    simp only [bind_assoc]
    rw [kind_bind_apply, hk]
    rfl
  · rename_i hk
    simp only [bind_assoc]
    rw [kind_bind_apply, if_pos (by simpa using hk)]
    simp only [bind_assoc, pure_bind, List.append_assoc]

theorem items_eq_ok_iff {item : Recognizer (List Node)} {nodes : List Node}
    (hitem : ∀ s nodes t, item s = .ok nodes t → t.length < s.length) :
    items item s = .ok nodes t ↔
      (s.kind = .closeParen ∧ nodes = [.leaf .closeParen s.current.span] ∧ t = s.advance) ∨
      (s.kind ≠ .closeParen ∧ ∃ first s₁ comma s₂ more, item s = .ok first s₁ ∧
        separator s₁ = .ok comma s₂ ∧ items item s₂ = .ok more t ∧
          nodes = first ++ comma ++ more) := by
  rw [items_eq hitem]
  by_cases hk : s.kind = .closeParen
  · simp [hk, eq_comm]
  · simp only [hk, if_false, EStateM.bind_eq_ok_iff, EStateM.pure_eq_ok_iff, false_and, false_or,
      ne_eq, not_false_eq_true, true_and]
    constructor
    · rintro ⟨first, s₁, hf, comma, s₂, hc, more, _, hm, rfl, rfl⟩
      exact ⟨first, s₁, comma, s₂, more, hf, hc, hm, rfl⟩
    · rintro ⟨first, s₁, comma, s₂, more, hf, hc, hm, rfl⟩
      exact ⟨first, s₁, hf, comma, s₂, hc, more, t, hm, rfl, rfl⟩

end Recognizer

namespace Grammar

variable {g : Grammar} {n : Nat} {f f' : Power → Recognizer Node}

theorem agree_continuation (h : ∀ p, AgreeBelow n (f p) (f' p)) (p : Power) (rule : OperatorRule)
    (left : Node) :
    AgreeBelow n (continuation f p rule left) (continuation f' p rule left) := by
  cases rule with
  | binary =>
    refine .bind (fun s _ => .leaf s _) fun _ => .bind (h p) fun _ s _ => .pure s _
  | call =>
    refine .bind (fun s _ => .leaf s _) fun _ => .bind (agree_items ?_) fun _ s _ => .pure s _
    exact .bind (h .loosest) fun _ s _ => .pure s _

theorem agree_extension (h : ∀ p, AgreeBelow n (f p) (f' p)) (p : Power) (left : Node) :
    AgreeBelow n (g.extension f p left) (g.extension f' p left) := by
  refine .bind (fun s _ => .kind s) fun k => ?_
  split
  · exact fun s _ => .pure s _
  · refine .ite (.bind (agree_continuation h _ _ left) fun _ s _ => .pure s _) ?_
    exact fun s _ => .pure s _

/-- The rule of expressions reads a token before it calls itself. -/
theorem agree_expressionRule (h : ∀ p, AgreeBelow n (f p) (f' p)) (p : Power) :
    AgreeBelow (n + 1) (g.expressionRule f p) (g.expressionRule f' p) := by
  have hrest : ∀ left, AgreeBelow n (extend (g.extension f p) left)
      (extend (g.extension f' p) left) := .extend (agree_extension h p)
  intro s hs
  replace hs : s.length ≤ n := Nat.le_of_lt_succ hs
  refine (AgreeAt.atEnd s).bind fun e t ht => ?_
  cases ht
  split
  · exact .unexpected s
  rename_i hend
  replace hend : s.atEnd = false := by simpa using hend
  refine (AgreeAt.kind s).bind fun k t ht => ?_
  cases ht
  split
  · exact .unexpected s
  rename_i rule _
  cases rule with
  | primary =>
    simp only [operand, primary, bind_assoc]
    refine (AgreeAt.kind s).bind fun k t ht => ?_
    cases ht
    split
    · exact .leaf_bind hend hs hrest
    · exact ⟨rfl, .refl s⟩
  | signed =>
    simp only [operand, signed, bind_assoc, pure_bind]
    exact .leaf_bind hend hs fun op => .bind (h _) fun a => hrest _
  | grouping =>
    simp only [operand, grouping, bind_assoc, pure_bind]
    refine .leaf_bind hend hs fun opening => .bind (h _) fun a => ?_
    exact .bind (fun s _ => .expectLeaf s _ _) fun closing => hrest _

theorem expression_eq (g : Grammar) (p : Power) :
    g.expression p = g.expressionRule g.expression p :=
  nest_eq (fun _ _ _ h p => agree_expressionRule h p) p

theorem agree_expression (g : Grammar) (n : Nat) (p : Power) :
    AgreeBelow n (g.expression p) (g.expression p) :=
  nest_agree (fun _ _ _ h p => agree_expressionRule h p) n p

section Success

variable {p : Power} {s t : Stream} {a left : Node}

theorem expression_within (h : g.expression p s = .ok a t) : t.Within s :=
  within_of_agree (fun n => agree_expression g n p) h

/-- The part of an expression after its first operand. -/
def continued (g : Grammar) (p : Power) (left : Node) : Recognizer Node :=
  extend (g.extension g.expression p) left

theorem expression_eq_ok_iff : g.expression p s = .ok a t ↔
    s.atEnd = false ∧ ∃ rule, g.operand? s.kind = some rule ∧ ∃ left s₁,
      operand g.expression rule s = .ok left s₁ ∧ g.continued p left s₁ = .ok a t := by
  rw [expression_eq, expressionRule, atEnd_bind_apply]
  cases hend : s.atEnd with
  | true => simp [unexpected_ne_ok]
  | false =>
    simp only [Bool.false_eq_true, if_false, true_and, kind_bind_apply]
    cases hrule : g.operand? s.kind with
    | none => simp [unexpected_ne_ok]
    | some rule => simp [EStateM.bind_eq_ok_iff, continued]

/-- An expression is an operand and what it goes on with. -/
theorem expression_apply (hg : g.operand? .eof = none) (p : Power) (s : Stream) :
    g.expression p s = match g.operand? s.kind with
      | none => unexpected s
      | some rule => (operand g.expression rule >>= g.continued p) s := by
  rw [expression_eq, expressionRule, atEnd_bind_apply]
  cases hend : s.atEnd with
  | true =>
    rw [Stream.kind_eq_eof_of_atEnd hend, hg]
    rfl
  | false =>
    rw [if_neg Bool.false_ne_true, kind_bind_apply]
    cases g.operand? s.kind <;> rfl

theorem primary_eq_ok_iff : primary s = .ok a t ↔ ∃ label, primaryLabel? s.kind = some label ∧
    a = .leaf label s.current.span ∧ t = s.advance := by
  unfold primary
  rw [kind_bind_apply]
  cases primaryLabel? s.kind with
  | none => simp [unexpected_ne_ok]
  | some label => simp [leaf_eq_ok_iff]

theorem signed_eq_ok_iff {inner : Recognizer Node} :
    signed inner s = .ok a t ↔ ∃ b, inner s.advance = .ok b t ∧
      a = .branch .unaryExpression [.leaf .operator s.current.span, b] := by
  rw [signed, leaf_bind_apply, EStateM.bind_pure_eq_ok_iff]

theorem grouping_eq_ok_iff {inner : Recognizer Node} : grouping inner s = .ok a t ↔ ∃ b s₁,
    inner s.advance = .ok b s₁ ∧ s₁.kind = .closeParen ∧ t = s₁.advance ∧
      a = .branch .parenthesizedExpression
        [.leaf .openParen s.current.span, b, .leaf .closeParen s₁.current.span] := by
  rw [grouping, leaf_bind_apply, EStateM.bind_eq_ok_iff]
  simp only [expectLeaf_bind_eq_ok_iff, EStateM.pure_eq_ok_iff]
  constructor
  · rintro ⟨b, s₁, hb, hk, rfl, rfl⟩
    exact ⟨b, s₁, hb, hk, rfl, rfl⟩
  · rintro ⟨b, s₁, hb, hk, rfl, rfl⟩
    exact ⟨b, s₁, hb, hk, rfl, rfl⟩

theorem binary_eq_ok_iff {inner : Recognizer Node} : binary inner left s = .ok a t ↔ ∃ b,
    inner s.advance = .ok b t ∧
      a = .branch .binaryExpression [left, .leaf .operator s.current.span, b] := by
  rw [binary, leaf_bind_apply, EStateM.bind_pure_eq_ok_iff]

theorem call_eq_ok_iff {inner : Recognizer Node} : call inner left s = .ok a t ↔ ∃ nodes,
    items (do return [← inner]) s.advance = .ok nodes t ∧ a = .branch .callExpression
      [left, .branch .argList (.leaf .openParen s.current.span :: nodes)] := by
  rw [call, leaf_bind_apply, EStateM.bind_pure_eq_ok_iff]

theorem length_lt_of_operand {rule : OperandRule} (hs : s.atEnd = false)
    (h : operand g.expression rule s = .ok a t) : t.length < s.length := by
  have hlt := Stream.length_advance_lt hs
  cases rule with
  | primary =>
    obtain ⟨label, -, -, rfl⟩ := primary_eq_ok_iff.1 h
    exact hlt
  | signed =>
    obtain ⟨b, hb, -⟩ := signed_eq_ok_iff.1 h
    exact Nat.lt_of_le_of_lt (expression_within hb).length_le hlt
  | grouping =>
    obtain ⟨b, s₁, hb, -, rfl, -⟩ := grouping_eq_ok_iff.1 h
    have hw := s₁.advance_within.trans (expression_within hb)
    exact Nat.lt_of_le_of_lt hw.length_le hlt

/-- An expression has at least one token. -/
theorem length_lt_of_expression (h : g.expression p s = .ok a t) : t.length < s.length := by
  obtain ⟨hs, rule, -, left, s₁, ho, hc⟩ := expression_eq_ok_iff.1 h
  have hw := within_of_agree
    (fun n => AgreeBelow.extend (agree_extension (agree_expression g n) p) left) hc
  exact Nat.lt_of_le_of_lt hw.length_le (length_lt_of_operand hs ho)

theorem argument_eq_ok_iff {nodes : List Node} :
    (do return [← g.expression .loosest] : Recognizer (List Node)) s = .ok nodes t ↔
      ∃ a, g.expression .loosest s = .ok a t ∧ nodes = [a] := by
  exact EStateM.bind_pure_eq_ok_iff

theorem length_lt_of_argument (s : Stream) (nodes : List Node) (t : Stream)
    (h : (do return [← g.expression .loosest] : Recognizer (List Node)) s = .ok nodes t) :
    t.length < s.length := by
  obtain ⟨a, ha, -⟩ := argument_eq_ok_iff.1 h
  exact length_lt_of_expression ha

/-- The arguments of a call are none, or one with the rest after it. -/
theorem arguments_eq_ok_iff {nodes : List Node} :
    items (do return [← g.expression .loosest]) s = .ok nodes t ↔
      (s.kind = .closeParen ∧ nodes = [.leaf .closeParen s.current.span] ∧ t = s.advance) ∨
      (s.kind ≠ .closeParen ∧ ∃ a s₁ comma s₂ more, g.expression .loosest s = .ok a s₁ ∧
        separator s₁ = .ok comma s₂ ∧
          items (do return [← g.expression .loosest]) s₂ = .ok more t ∧
            nodes = a :: comma ++ more) := by
  rw [items_eq_ok_iff length_lt_of_argument]
  simp only [argument_eq_ok_iff]
  refine or_congr_right (and_congr_right fun _ => ⟨?_, ?_⟩)
  · rintro ⟨_, s₁, comma, s₂, more, ⟨a, ha, rfl⟩, hc, hm, rfl⟩
    exact ⟨a, s₁, comma, s₂, more, ha, hc, hm, rfl⟩
  · rintro ⟨a, s₁, comma, s₂, more, ha, hc, hm, rfl⟩
    exact ⟨[a], s₁, comma, s₂, more, ⟨a, ha, rfl⟩, hc, hm, rfl⟩

end Success

/-- Whether an expression goes on with a token of this kind where operators bind tighter than a
power. -/
def Continues (g : Grammar) (p : Power) (k : TokenKind) : Prop :=
  ∃ q rule, g.operator? k = some (q, rule) ∧ p < q

theorem extension_eq_ok_iff {p : Power} {s t : Stream} {left : Node} {longer : Option Node} :
    g.extension g.expression p left s = .ok longer t ↔
      (∃ q rule a, g.operator? s.kind = some (q, rule) ∧ p < q ∧
        continuation g.expression q rule left s = .ok a t ∧ longer = some a) ∨
      (¬ g.Continues p s.kind ∧ longer = none ∧ t = s) := by
  unfold extension
  rw [kind_bind_apply]
  cases h : g.operator? s.kind with
  | none => simp [h, Continues, @eq_comm _ t, @eq_comm _ longer]
  | some entry =>
    obtain ⟨q, rule⟩ := entry
    by_cases hp : p < q
    · simp only [hp, if_true, EStateM.bind_eq_ok_iff, EStateM.pure_eq_ok_iff]
      constructor
      · rintro ⟨a, _, ha, rfl, rfl⟩
        exact .inl ⟨q, rule, a, rfl, hp, ha, rfl⟩
      · rintro (⟨_, _, a, ⟨⟩, _, ha, rfl⟩ | ⟨hc, -⟩)
        · exact ⟨a, t, ha, rfl, rfl⟩
        · exact absurd ⟨q, rule, h, hp⟩ hc
    · simp [h, hp, Continues, @eq_comm _ t, @eq_comm _ longer]

/-- A longer expression takes up at least the operator. -/
theorem length_lt_of_extension {p : Power} (node : Node) (s : Stream) (longer : Node) (t : Stream)
    (h : standard.extension standard.expression p node s = .ok (some longer) t) :
    t.length < s.length := by
  obtain ⟨q, rule, a, hop, -, ha, -⟩ | ⟨-, h, -⟩ := extension_eq_ok_iff.1 h
  · have hk : s.kind ≠ .eof := by
      intro hk
      rw [hk] at hop
      cases hop
    have hlt := Stream.length_advance_lt (Stream.atEnd_eq_false_of_kind hk)
    cases rule with
    | binary =>
      obtain ⟨b, hb, -⟩ := binary_eq_ok_iff.1 ha
      exact Nat.lt_of_le_of_lt (expression_within hb).length_le hlt
    | call =>
      obtain ⟨nodes, hn, -⟩ := call_eq_ok_iff.1 ha
      have hw := within_of_agree (fun n => agree_items (.bind (agree_expression _ n _)
        fun _ s _ => .pure s _)) hn
      exact Nat.lt_of_le_of_lt hw.length_le hlt
  · cases h

/-- After an operand comes an operator that binds tightly enough, with what belongs to it, or
nothing more. -/
theorem continued_apply (p : Power) (left : Node) (s : Stream) : standard.continued p left s =
    match standard.operator? s.kind with
    | none => .ok left s
    | some (q, rule) =>
      if p < q then
        (continuation standard.expression q rule left >>= standard.continued p) s
      else .ok left s := by
  rw [continued, extend_eq length_lt_of_extension]
  rw [extension, bind_assoc, kind_bind_apply]
  cases standard.operator? s.kind with
  | none => rfl
  | some entry =>
    obtain ⟨q, rule⟩ := entry
    by_cases hp : p < q
    · simp only [hp, if_true, bind_assoc, pure_bind]
      rfl
    · simp only [hp, if_false]
      rfl

/-- After an operand an expression goes on with an operator that binds tightly enough, or ends. -/
theorem continued_eq_ok_iff {p : Power} {s t : Stream} {a left : Node} :
    standard.continued p left s = .ok a t ↔
      (∃ q rule longer s₁, standard.operator? s.kind = some (q, rule) ∧ p < q ∧
        continuation standard.expression q rule left s = .ok longer s₁ ∧
          standard.continued p longer s₁ = .ok a t) ∨
      (¬ standard.Continues p s.kind ∧ a = left ∧ t = s) := by
  rw [continued, extend_eq length_lt_of_extension]
  simp only [EStateM.bind_eq_ok_iff, extension_eq_ok_iff]
  constructor
  · rintro ⟨_, s₁, ⟨q, rule, longer, hop, hp, hl, rfl⟩ | ⟨hc, rfl, rfl⟩, h⟩
    · exact .inl ⟨q, rule, longer, s₁, hop, hp, hl, h⟩
    · obtain ⟨rfl, rfl⟩ := EStateM.pure_eq_ok_iff.1 h
      exact .inr ⟨hc, rfl, rfl⟩
  · rintro (⟨q, rule, longer, s₁, hop, hp, hl, h⟩ | ⟨hc, rfl, rfl⟩)
    · exact ⟨some longer, s₁, .inl ⟨q, rule, longer, hop, hp, hl, rfl⟩, h⟩
    · exact ⟨none, t, .inr ⟨hc, rfl, rfl⟩, rfl⟩

end Grammar
end Offside
