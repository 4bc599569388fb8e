import Offside.Proofs.Grammar.Statement
import Offside.Proofs.Program.OfTree
import Offside.Proofs.Scan.Tokens

/-! What the trees of the grammar stand for, as far as their labels and their tokens decide it. -/
namespace Offside

namespace Operator

/-- The kind of the token that an operator is written as. -/
def kind : Operator → TokenKind
  | plus => .plus
  | minus => .dash
  | times => .star
  | quotient => .slashSlash
  | remainder => .percent
  | greater => .greater
  | less => .less
  | lessEquals => .lessEquals
  | greaterEquals => .greaterEquals
  | equals => .equals
  | and => .kwAnd
  | or => .kwOr
  | is => .kwIs

/-- No other kind is written as an operator. -/
theorem kind_eq_of_text? {op : Operator} {k : TokenKind} (h : k.text? = some op.symbol) :
    k = op.kind := by
  have hall : ∀ op ∈ Operator.all, ∀ k ∈ TokenKind.all, k.text? = some op.symbol → k = op.kind := by
    decide
  exact hall op op.mem_all k k.mem_all h

end Operator

namespace Level

variable {l : Level} {u : List Token} {a : Node}

theorem AtomLabel.isExpression {k : TokenKind} {label : Label} (h : AtomLabel k label) :
    label.isExpression := by
  cases h <;> rfl

theorem AtomLabel.kind_of_number {k : TokenKind} (h : AtomLabel k .number) : k = .number := by
  cases h
  rfl

theorem AtomLabel.kind_of_variableName {k : TokenKind} (h : AtomLabel k .variableName) :
    k = .identifier := by
  cases h
  rfl

theorem Derives.isExpression : ∀ {l : Level} {u : List Token} {a : Node},
    Derives l u a → a.label.isExpression = true
  | _, _, _, .atom h => h.isExpression
  | _, _, _, .tighter _ ha => ha.isExpression
  | _, _, _, .operation .. | _, _, _, .signed .. | _, _, _, .call .. | _, _, _, .grouping .. => rfl

theorem Derives.label_ne_closeParen (h : Derives l u a) : a.label ≠ .closeParen := by
  intro hlabel
  have he := h.isExpression
  rw [hlabel] at he
  cases he

/-- An expression that has the label of a name or literal is one. -/
theorem Derives.eq_leaf : ∀ {l : Level} {u : List Token} {a : Node}, Derives l u a →
    a.label = .number ∨ a.label = .variableName →
      ∃ tok, u = [tok] ∧ AtomLabel tok.kind a.label ∧ a = .leaf a.label tok.span
  | _, _, _, .tighter _ ha, hlabel => ha.eq_leaf hlabel
  | _, _, _, .atom h, _ => ⟨_, rfl, h, rfl⟩
  | _, _, _, .operation .., hlabel | _, _, _, .signed .., hlabel | _, _, _, .call .., hlabel
  | _, _, _, .grouping .., hlabel => by simp at hlabel

theorem Derives.eq_number (h : Derives l u a) (hlabel : a.label = .number) :
    ∃ tok, u = [tok] ∧ tok.kind = .number ∧ a = .leaf .number tok.span := by
  obtain ⟨tok, rfl, hatom, heq⟩ := h.eq_leaf (.inl hlabel)
  rw [hlabel] at hatom heq
  exact ⟨tok, rfl, hatom.kind_of_number, heq⟩

theorem Derives.eq_variableName (h : Derives l u a) (hlabel : a.label = .variableName) :
    ∃ tok, u = [tok] ∧ tok.kind = .identifier ∧ a = .leaf .variableName tok.span := by
  obtain ⟨tok, rfl, hatom, heq⟩ := h.eq_leaf (.inr hlabel)
  rw [hlabel] at hatom heq
  exact ⟨tok, rfl, hatom.kind_of_variableName, heq⟩

end Level

namespace Script

variable {source : List Char} {next : TokenKind} {u : List Token} {a : Node} {nodes : List Node}
  {sts : List (Stmt Span)}

theorem Statement.label_ne_colon (h : Statement next u a) : a.label ≠ .colon := by
  cases h <;> simp

theorem Body.label_eq_body (h : Body next u a) : a.label = .body := by
  cases h <;> rfl

/-- A body has a statement, since an indentation is followed by one. -/
theorem Body.ne_nil (h : Body next u a) (hu : TokensOf source next u)
    (hsts : a.toBody source = .ok sts) : sts ≠ [] := by
  cases h with
  | line hcolon ha =>
    obtain ⟨st, more, -, -, rfl⟩ :=
      (Node.statementsOf_cons_eq_ok_iff ha.label_ne_colon).1 (Node.toBody_eq_ok_iff.1 hsts)
    exact List.cons_ne_nil _ _
  | @block _ u v nodes colon newline indent hcolon hnewline hindent hlines hend =>
    have hcontent : (firstKind (u ++ v) next).isContent = true :=
      hu.tail.tail.indentsLead.1 hindent
    cases hlines with
    | nil =>
      cases hend with
      | dedent hk =>
        rw [List.nil_append, firstKind_cons, hk] at hcontent
        cases hcontent
      | input hk =>
        rw [List.nil_append, firstKind_nil, hk] at hcontent
        cases hcontent
    | blank hk =>
      rw [List.cons_append, firstKind_cons, hk] at hcontent
      cases hcontent
    | statement ha =>
      obtain ⟨st, more, -, -, rfl⟩ :=
        (Node.statementsOf_cons_eq_ok_iff ha.label_ne_colon).1 (Node.toBody_eq_ok_iff.1 hsts)
      exact List.cons_ne_nil _ _

end Script
end Offside
