import Offside.Proofs.Grammar.Bodies
import Offside.Proofs.Program.OfGrammar

/-! The expressions inside a tree of the grammar. Wherever a part of a tree has the label of an
expression, it is one, and its tokens are among those of the tree. -/
namespace Offside

/-- All parts of a tree with the label of an expression are expressions, of tokens with some
property. -/
def Node.ExpressionsOf (P : Token → Prop) (n : Node) : Prop :=
  ∀ b : Node, b.PartOf n → b.label.isExpression = true →
    ∃ l : Level, ∃ u, l.Derives u b ∧ ∀ tok ∈ u, P tok

namespace Node.ExpressionsOf

variable {P : Token → Prop} {u : List Token} {l : Level} {label : Label} {nodes : List Node}
  {a : Node} {tok : Token}

theorem derived (ha : l.Derives u a) (hu : ∀ tok ∈ u, P tok)
    (h : ∀ c ∈ a.children, c.ExpressionsOf P) : a.ExpressionsOf P := by
  intro b hb hlabel
  cases hb with
  | self => exact ⟨l, u, ha, hu⟩
  | child hc hb => exact h _ hc b hb hlabel

theorem branch (hlabel : label.isExpression = false) (h : ∀ c ∈ nodes, c.ExpressionsOf P) :
    (branch label nodes).ExpressionsOf P := by
  intro b hb hexpression
  cases hb with
  | self =>
    rw [label_branch, hlabel] at hexpression
    cases hexpression
  | child hc hb => exact h _ hc b hb hexpression

theorem leaf {span : Span} (hlabel : label.isExpression = false) :
    (leaf label span).ExpressionsOf P := by
  intro b hb hexpression
  cases hb with
  | self =>
    rw [label_leaf, hlabel] at hexpression
    cases hexpression
  | child hc _ => cases hc

theorem atom (htok : P tok) (h : Level.AtomLabel tok.kind label) :
    (Node.leaf label tok.span).ExpressionsOf P :=
  derived (.atom h) (List.forall_mem_singleton.2 htok) (List.forall_mem_nil _)

/-- A name that a statement gives is read like one that stands for a value. -/
theorem name (htok : P tok) (hkind : tok.kind = .identifier) :
    (Node.leaf .variableName tok.span).ExpressionsOf P := atom htok (hkind ▸ .identifier)

end Node.ExpressionsOf

open Node (ExpressionsOf)

namespace Level

variable {P : Token → Prop}

mutual
theorem Derives.expressionsOf : ∀ {l : Level} {u : List Token} {a : Node}, l.Derives u a →
    (∀ tok ∈ u, P tok) → a.ExpressionsOf P
  | _, _, _, .tighter _ ha, hu => ha.expressionsOf hu
  | _, _, _, .operation htighter hop hleft hright, hu => by
    obtain ⟨hu₁, hu₂⟩ := List.forall_mem_append.1 hu
    refine .derived (.operation htighter hop hleft hright) hu ?_
    simp only [Node.children_branch, List.forall_mem_cons]
    exact ⟨hleft.expressionsOf hu₁, .leaf rfl, hright.expressionsOf (List.forall_mem_cons.1 hu₂).2,
      List.forall_mem_nil _⟩
  | _, _, _, .signed hop ha, hu => by
    refine .derived (.signed hop ha) hu ?_
    simp only [Node.children_branch, List.forall_mem_cons]
    exact ⟨.leaf rfl, ha.expressionsOf (List.forall_mem_cons.1 hu).2, List.forall_mem_nil _⟩
  | _, _, _, .call hf hopen hargs, hu => by
    obtain ⟨hu₁, hu₂⟩ := List.forall_mem_append.1 hu
    refine .derived (.call hf hopen hargs) hu ?_
    simp only [Node.children_branch, List.forall_mem_cons]
    refine ⟨hf.expressionsOf hu₁, .branch rfl ?_, List.forall_mem_nil _⟩
    exact List.forall_mem_cons.2 ⟨.leaf rfl, hargs.expressionsOf (List.forall_mem_cons.1 hu₂).2⟩
  | _, _, _, .atom h, hu => .atom (List.forall_mem_singleton.1 hu) h
  | _, _, _, .grouping hopen ha hclose, hu => by
    obtain ⟨hu₁, -⟩ := List.forall_mem_append.1 (List.forall_mem_cons.1 hu).2
    refine .derived (.grouping hopen ha hclose) hu ?_
    simp only [Node.children_branch, List.forall_mem_cons]
    exact ⟨.leaf rfl, ha.expressionsOf hu₁, .leaf rfl, List.forall_mem_nil _⟩

theorem Arguments.expressionsOf : ∀ {v : List Token} {nodes : List Node}, Arguments v nodes →
    (∀ tok ∈ v, P tok) → ∀ c ∈ nodes, c.ExpressionsOf P
  | _, _, .close _, _ => List.forall_mem_singleton.2 (.leaf rfl)
  | _, _, .last ha _, hv => by
    obtain ⟨hv₁, -⟩ := List.forall_mem_append.1 hv
    exact List.forall_mem_cons.2
      ⟨ha.expressionsOf hv₁, List.forall_mem_singleton.2 (.leaf rfl)⟩
  | _, _, .more ha _ hmore, hv => by
    obtain ⟨hv₁, hv₂⟩ := List.forall_mem_append.1 hv
    simp only [List.forall_mem_cons]
    exact ⟨ha.expressionsOf hv₁, .leaf rfl, hmore.expressionsOf (List.forall_mem_cons.1 hv₂).2⟩
end

theorem AtomLabel.label_ne_unary {k : TokenKind} {label : Label} (h : AtomLabel k label) :
    label ≠ .unaryExpression := by
  cases h <;> decide

/-- What has the label of a sign with its operand is a sign and an operand. -/
theorem Derives.eq_unary : ∀ {l : Level} {u : List Token} {a : Node}, l.Derives u a →
    a.label = .unaryExpression → ∃ op v b, u = op :: v ∧ op.kind ∈ [TokenKind.plus, .dash] ∧
      sign.Derives v b ∧ a = .branch .unaryExpression [.leaf .operator op.span, b]
  | _, _, _, .tighter _ ha, hlabel => ha.eq_unary hlabel
  | _, _, _, .signed hop ha, _ => ⟨_, _, _, rfl, hop, ha, rfl⟩
  | _, _, _, .atom hatom, hlabel => absurd hlabel hatom.label_ne_unary
  | _, _, _, .operation .., hlabel | _, _, _, .call .., hlabel | _, _, _, .grouping .., hlabel => by
    cases hlabel

end Level

namespace Script

variable {P : Token → Prop} {k : TokenKind} {label : Label} {u : List Token} {nodes : List Node}

theorem OptionalType.expressionsOf (hlabel : label.isExpression = false)
    (h : OptionalType k label u nodes) (hu : ∀ tok ∈ u, P tok) :
    ∀ c ∈ nodes, c.ExpressionsOf P := by
  cases h with
  | absent => exact List.forall_mem_nil _
  | present _ ha =>
    refine List.forall_mem_singleton.2 (.branch rfl ?_)
    simp only [List.forall_mem_cons]
    exact ⟨.leaf hlabel, ha.expressionsOf (List.forall_mem_cons.1 hu).2, List.forall_mem_nil _⟩

theorem Assigned.expressionsOf (h : Assigned u nodes) (hu : ∀ tok ∈ u, P tok) :
    ∀ c ∈ nodes, c.ExpressionsOf P := by
  cases h with
  | type hmark ha => exact (OptionalType.present hmark ha).expressionsOf rfl hu
  | value htype _ hb =>
    obtain ⟨hu₁, hu₂⟩ := List.forall_mem_append.1 hu
    simp only [List.forall_mem_append, List.forall_mem_cons]
    exact ⟨htype.expressionsOf rfl hu₁, .leaf rfl, hb.expressionsOf (List.forall_mem_cons.1 hu₂).2,
      List.forall_mem_nil _⟩

theorem Parameter.expressionsOf (h : Parameter u nodes) (hu : ∀ tok ∈ u, P tok) :
    ∀ c ∈ nodes, c.ExpressionsOf P := by
  obtain ⟨hname, htype⟩ := h
  obtain ⟨hfirst, hrest⟩ := List.forall_mem_cons.1 hu
  exact List.forall_mem_cons.2 ⟨.name hfirst hname, htype.expressionsOf rfl hrest⟩

theorem Parameters.expressionsOf (h : Parameters u nodes) (hu : ∀ tok ∈ u, P tok) :
    ∀ c ∈ nodes, c.ExpressionsOf P := by
  induction h with
  | close _ => exact List.forall_mem_singleton.2 (.leaf rfl)
  | last hparameter _ =>
    obtain ⟨hu₁, -⟩ := List.forall_mem_append.1 hu
    exact List.forall_mem_append.2
      ⟨hparameter.expressionsOf hu₁, List.forall_mem_singleton.2 (.leaf rfl)⟩
  | more hparameter _ _ ih =>
    obtain ⟨hu₁, hu₂⟩ := List.forall_mem_append.1 hu
    simp only [List.forall_mem_append, List.forall_mem_cons]
    exact ⟨hparameter.expressionsOf hu₁, .leaf rfl, ih (List.forall_mem_cons.1 hu₂).2⟩

mutual
theorem Statement.expressionsOf : ∀ {next : TokenKind} {u : List Token} {a : Node},
    Statement next u a → (∀ tok ∈ u, P tok) → a.ExpressionsOf P
  | _, _, _, .function _ hname _ hparameters htype hbody, hu => by
    simp only [List.forall_mem_append, List.forall_mem_cons] at hu
    obtain ⟨-, hu₁, -, hu₂, hu₃, hu₄⟩ := hu
    refine .branch rfl ?_
    simp only [List.cons_append, List.forall_mem_append, List.forall_mem_cons]
    refine ⟨.leaf rfl, .name hu₁ hname, .branch rfl ?_, htype.expressionsOf rfl hu₃,
      hbody.expressionsOf hu₄, List.forall_mem_nil _⟩
    exact List.forall_mem_cons.2 ⟨.leaf rfl, hparameters.expressionsOf hu₂⟩
  | _, _, _, .returnNone _ _, _ => .branch rfl (List.forall_mem_singleton.2 (.leaf rfl))
  | _, _, _, .returnValue _ ha _, hu => by
    simp only [List.forall_mem_append, List.forall_mem_cons] at hu
    refine .branch rfl (List.forall_mem_cons.2 ⟨.leaf rfl, ?_⟩)
    exact List.forall_mem_singleton.2 (ha.expressionsOf hu.2.1)
  | _, _, _, .loop _ ha hbody, hu => by
    simp only [List.forall_mem_append, List.forall_mem_cons] at hu
    refine .branch rfl ?_
    simp only [List.forall_mem_cons]
    exact ⟨.leaf rfl, ha.expressionsOf hu.2.1, hbody.expressionsOf hu.2.2, List.forall_mem_nil _⟩
  | _, _, _, .conditional _ ha hbody hfurther, hu => by
    simp only [List.forall_mem_append, List.forall_mem_cons] at hu
    obtain ⟨-, hu₁, hu₂, hu₃⟩ := hu
    refine .branch rfl ?_
    simp only [List.forall_mem_cons]
    exact ⟨.leaf rfl, ha.expressionsOf hu₁, hbody.expressionsOf hu₂, hfurther.expressionsOf hu₃⟩
  | _, _, _, .pass _ _, _ => .branch rfl (List.forall_mem_singleton.2 (.leaf rfl))
  | _, _, _, .assignment hname hassigned _, hu => by
    simp only [List.forall_mem_append, List.forall_mem_cons] at hu
    refine .branch rfl (List.forall_mem_cons.2 ⟨.name hu.1 hname, ?_⟩)
    exact hassigned.expressionsOf hu.2.1
  | _, _, _, .expression ha _, hu =>
    .branch rfl (List.forall_mem_singleton.2 (ha.expressionsOf (List.forall_mem_append.1 hu).1))

theorem Body.expressionsOf : ∀ {next : TokenKind} {u : List Token} {a : Node},
    Body next u a → (∀ tok ∈ u, P tok) → a.ExpressionsOf P
  | _, _, _, .line _ ha, hu => by
    refine .branch rfl (List.forall_mem_cons.2 ⟨.leaf rfl, ?_⟩)
    exact List.forall_mem_singleton.2 (ha.expressionsOf (List.forall_mem_cons.1 hu).2)
  | _, _, _, .block _ _ _ hlines _, hu => by
    simp only [List.forall_mem_append, List.forall_mem_cons] at hu
    obtain ⟨-, -, -, hu₁, -⟩ := hu
    exact .branch rfl (List.forall_mem_cons.2 ⟨.leaf rfl, hlines.expressionsOf hu₁⟩)

theorem Lines.expressionsOf : ∀ {next : TokenKind} {u : List Token} {nodes : List Node},
    Lines next u nodes → (∀ tok ∈ u, P tok) → ∀ c ∈ nodes, c.ExpressionsOf P
  | _, _, _, .nil, _ => List.forall_mem_nil _
  | _, _, _, .blank _ hlines, hu => hlines.expressionsOf (List.forall_mem_cons.1 hu).2
  | _, _, _, .statement ha hlines, hu => by
    obtain ⟨hu₁, hu₂⟩ := List.forall_mem_append.1 hu
    exact List.forall_mem_cons.2 ⟨ha.expressionsOf hu₁, hlines.expressionsOf hu₂⟩

theorem Further.expressionsOf : ∀ {next : TokenKind} {u : List Token} {nodes : List Node},
    Further next u nodes → (∀ tok ∈ u, P tok) → ∀ c ∈ nodes, c.ExpressionsOf P
  | _, _, _, .none _ _, _ => List.forall_mem_nil _
  | _, _, _, .alternative _ ha hbody hfurther, hu => by
    simp only [List.forall_mem_append, List.forall_mem_cons] at hu
    obtain ⟨-, hu₁, hu₂, hu₃⟩ := hu
    simp only [List.forall_mem_cons]
    exact ⟨.leaf rfl, ha.expressionsOf hu₁, hbody.expressionsOf hu₂, hfurther.expressionsOf hu₃⟩
  | _, _, _, .otherwise _ hbody, hu => by
    refine List.forall_mem_cons.2 ⟨.leaf rfl, List.forall_mem_singleton.2 ?_⟩
    exact hbody.expressionsOf (List.forall_mem_cons.1 hu).2
end

end Script
end Offside
