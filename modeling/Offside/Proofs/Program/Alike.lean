import Mathlib.Data.List.Forall2
import Offside.Proofs.Alike
import Offside.Proofs.Grammar.Content
import Offside.Proofs.Program.OfGrammar
import Offside.Proofs.Program.Relocation

/-! Two sources whose tokens are alike are read alike. Where the tokens agree in their kinds and
texts, and in their places as far as these matter, one grammar derives trees of one shape from both;
the trees stand for programs that agree too, or fail for causes of the same name. -/
namespace Offside

/-- A source, and what its positions are taken for when it is compared with another. -/
structure View where
  source : List Char
  place : Position → Position

variable {v w : View}

/-- Spans that are taken for the same one. -/
def Span.Alike (v w : View) (s t : Span) : Prop := s.map v.place = t.map w.place

theorem Span.Alike.start {s t : Span} (h : s.Alike v w t) : v.place s.start = w.place t.start :=
  congrArg Span.start h

theorem Span.Alike.stop {s t : Span} (h : s.Alike v w t) : v.place s.stop = w.place t.stop :=
  congrArg Span.stop h

theorem Span.Alike.mk {p q r s : Position} (hstart : v.place p = w.place r)
    (hstop : v.place q = w.place s) : Span.Alike v w ⟨p, q⟩ ⟨r, s⟩ := by
  unfold Span.Alike Span.map
  rw [hstart, hstop]

/-- Tokens of one kind. Those of the content have the same text and place. -/
structure Token.Alike (v w : View) (tok tok' : Token) : Prop where
  kind : tok'.kind = tok.kind
  text : tok.kind.isContent = true → tok'.span.text w.source = tok.span.text v.source
  span : tok.kind.isContent = true → tok.span.Alike v w tok'.span

/-- Errors of one name and place. -/
structure Error.Alike (v w : View) (e e' : Error) : Prop where
  name : e'.cause.name = e.cause.name
  position : v.place e.position = w.place e'.position

/-- Nodes of one label and place, with the same text if they are names or numbers. -/
structure Node.Alike (v w : View) (a b : Node) : Prop where
  label : b.label = a.label
  span : a.span.Alike v w b.span
  text : a.label = .variableName ∨ a.label = .number → b.text w.source = a.text v.source

/-- Expressions that differ in their places only, which are taken for the same. -/
def Expr.Alike (v w : View) (e e' : Expr Span) : Prop :=
  e.map (Span.map v.place) = e'.map (Span.map w.place)

def Expr.AllAlike (v w : View) (es es' : List (Expr Span)) : Prop :=
  Expr.mapAll (Span.map v.place) es = Expr.mapAll (Span.map w.place) es'

/-- Statements that differ in their places only, which are taken for the same. -/
def Stmt.Alike (v w : View) (st st' : Stmt Span) : Prop :=
  st.relocate (Span.map v.place) (Span.map v.place) =
    st'.relocate (Span.map w.place) (Span.map w.place)

/-- Programs that differ in their places only, which are taken for the same. -/
def Program.Alike (v w : View) (p p' : Program Span) : Prop := p.move v.place = p'.move w.place

/-- Tokens that are alike one by one. -/
abbrev TokensAlike (v w : View) : List Token → List Token → Prop := List.Forall₂ (Token.Alike v w)

/-- Nodes that are alike one by one. -/
abbrev NodesAlike (v w : View) : List Node → List Node → Prop := List.Forall₂ (Node.Alike v w)

/-- What is related to a list that is not empty has a first element too. -/
theorem exists_cons_of_forall₂ {R : α → β → Prop} {x : α} {xs : List α} {zs : List β}
    (h : List.Forall₂ R (x :: xs) zs) : ∃ z us, zs = z :: us ∧ R x z ∧ List.Forall₂ R xs us := by
  cases h with
  | cons hx hxs => exact ⟨_, _, rfl, hx, hxs⟩

theorem exists_singleton_of_forall₂ {R : α → β → Prop} {x : α} {zs : List β}
    (h : List.Forall₂ R [x] zs) : ∃ z, zs = [z] ∧ R x z := by
  obtain ⟨z, us, rfl, hx, hnil⟩ := exists_cons_of_forall₂ h
  cases hnil
  exact ⟨z, rfl, hx⟩

/-- Relations hold of a list in two parts if they do of the parts. -/
theorem exists_append_of_forall₂ {R : α → β → Prop} {xs ys : List α} {zs : List β}
    (h : List.Forall₂ R (xs ++ ys) zs) :
    ∃ us vs, zs = us ++ vs ∧ List.Forall₂ R xs us ∧ List.Forall₂ R ys vs := by
  induction xs generalizing zs with
  | nil => exact ⟨[], zs, rfl, .nil, h⟩
  | cons x xs ih =>
    obtain ⟨z, zs, rfl, hx, hrest⟩ := exists_cons_of_forall₂ h
    obtain ⟨us, vs, rfl, hxs, hys⟩ := ih hrest
    exact ⟨z :: us, vs, rfl, .cons hx hxs, hys⟩

theorem firstKind_of_alike {u u' : List Token} (h : TokensAlike v w u u') (next : TokenKind) :
    firstKind u' next = firstKind u next := by
  cases h with
  | nil => rfl
  | cons h => exact h.kind

namespace Node

variable {a b : Node} {nodes nodes' : List Node} {tok tok' : Token} {l : Label}

theorem Alike.leaf (h : tok.Alike v w tok') {k : TokenKind} (hk : tok.kind = k)
    (hcontent : k.isContent = true) (label : Label) :
    (leaf label tok.span).Alike v w (.leaf label tok'.span) := by
  subst hk
  exact ⟨rfl, h.span hcontent, fun _ => h.text hcontent⟩

theorem stop_getLast_alike (h : NodesAlike v w nodes nodes') (hn : nodes ≠ [])
    (hn' : nodes' ≠ []) :
    v.place (nodes.getLast hn).span.stop = w.place (nodes'.getLast hn').span.stop := by
  induction h with
  | nil => exact absurd rfl hn
  | @cons a b nodes nodes' hab hrest ih =>
    cases hrest with
    | nil => exact hab.span.stop
    | cons hcd hrest => exact ih (List.cons_ne_nil _ _) (List.cons_ne_nil _ _)

/-- The spans of nodes that are alike are, unless there are none. -/
theorem spanOf_alike (hab : a.Alike v w b) (h : NodesAlike v w nodes nodes') :
    (spanOf (a :: nodes)).Alike v w (spanOf (b :: nodes')) :=
  .mk hab.span.start (stop_getLast_alike (.cons hab h) _ _)

theorem Alike.branch (hab : a.Alike v w b) (h : NodesAlike v w nodes nodes')
    (hlabel : l ≠ .variableName) (hlabel' : l ≠ .number) :
    (branch l (a :: nodes)).Alike v w (.branch l (b :: nodes')) :=
  ⟨rfl, spanOf_alike hab h, fun hl => absurd hl (not_or.2 ⟨hlabel, hlabel'⟩)⟩

end Node

section Expressions

variable {a b : Node} {tok tok' : Token}

/-- What is read as an expression twice. -/
abbrev ExprReadAlike (v w : View) : Except Error (Expr Span) → Except Error (Expr Span) → Prop :=
  Except.Alike (Expr.Alike v w) (Error.Alike v w)

theorem numberOf_alike {text : String} {s t : Span} (h : s.Alike v w t) :
    ExprReadAlike v w (Node.numberOf text s) (Node.numberOf text t) := by
  unfold Node.numberOf
  split
  · exact .ok (congrArg (Expr.number _) h)
  · exact .error ⟨rfl, h.start⟩

theorem toOperator_alike (h : tok.Alike v w tok') (hcontent : tok.kind.isContent = true) :
    Except.Alike Eq (Error.Alike v w) ((Node.leaf .operator tok.span).toOperator v.source)
      ((Node.leaf .operator tok'.span).toOperator w.source) := by
  unfold Node.toOperator
  rw [Node.text_leaf, Node.text_leaf, h.text hcontent]
  split
  · exact .ok rfl
  · exact .error ⟨rfl, (h.span hcontent).start⟩

theorem requireAs_alike (h : a.Alike v w b) (label : Label) (expected : String) :
    Except.Alike (fun _ _ => a.label = label) (Error.Alike v w) (a.requireAs label expected)
      (b.requireAs label expected) := by
  unfold Node.requireAs
  rw [h.label]
  split
  · exact .ok ‹_›
  · exact .error ⟨rfl, h.span.start⟩

theorem toExpr_unary_alike (hop : tok.Alike v w tok') (hcontent : tok.kind.isContent = true)
    (h : a.Alike v w b) :
    ExprReadAlike v w ((Node.branch .unaryExpression [.leaf .operator tok.span, a]).toExpr v.source)
      ((Node.branch .unaryExpression [.leaf .operator tok'.span, b]).toExpr w.source) := by
  have hspan := Node.spanOf_alike (Node.Alike.leaf hop rfl hcontent .operator) (.cons h .nil)
  have htext : (Node.leaf .operator tok'.span).text w.source =
      (Node.leaf .operator tok.span).text v.source := hop.text hcontent
  rw [Node.toExpr_unary, Node.toExpr_unary, Node.signedOf, Node.signedOf, htext]
  by_cases hsign : (Node.leaf .operator tok.span).text v.source ≠ "+" ∧
      (Node.leaf .operator tok.span).text v.source ≠ "-"
  · rw [if_pos hsign, if_pos hsign]
    exact .error ⟨rfl, (hop.span hcontent).start⟩
  rw [if_neg hsign, if_neg hsign]
  by_cases hnumber : a.label = .number
  · simp only [h.label, hnumber, ne_eq, not_true_eq_false, if_false, h.text (.inr hnumber)]
    exact numberOf_alike hspan
  · simp only [h.label, hnumber, ne_eq, not_false_eq_true, if_true]
    exact .error ⟨rfl, h.span.start⟩

theorem toExpr_leaf_alike {label : Label} (hatom : Level.AtomLabel tok.kind label)
    (h : tok.Alike v w tok') (hcontent : tok.kind.isContent = true) :
    ExprReadAlike v w ((Node.leaf label tok.span).toExpr v.source)
      ((Node.leaf label tok'.span).toExpr w.source) := by
  have htext := h.text hcontent
  have hspan : tok.span.map v.place = tok'.span.map w.place := h.span hcontent
  have hnumber : ExprReadAlike v w ((Node.leaf .number tok.span).toExpr v.source)
      ((Node.leaf .number tok'.span).toExpr w.source) := by
    change ExprReadAlike v w (Node.numberOf _ _) (Node.numberOf _ _)
    rw [htext]
    exact numberOf_alike hspan
  generalize tok.kind = k at hatom
  cases hatom with
  | number => exact hnumber
  | identifier | true | false =>
    refine .ok ?_
    simp only [Expr.Alike, Expr.map, htext, hspan]
  | none => exact .ok (congrArg Expr.noneLiteral hspan)

mutual
/-- Tokens that are alike are expressions that are. -/
theorem exprs_alike : ∀ {l : Level} {u u' : List Token} {a : Node}, l.Derives u a →
    TokensAlike v w u u' → ∃ b, l.Derives u' b ∧ a.Alike v w b ∧
      ExprReadAlike v w (a.toExpr v.source) (b.toExpr w.source)
  | _, _, _, _, .tighter hm ha, hall => by
    obtain ⟨b, hb, hab, hread⟩ := exprs_alike ha hall
    exact ⟨b, .tighter hm hb, hab, hread⟩
  | _, _, _, _, .operation hm hop hleft hright, hall => by
    obtain ⟨u', rest, rfl, hu, hrest⟩ := exists_append_of_forall₂ hall
    obtain ⟨op', v', rfl, hop', hv⟩ := exists_cons_of_forall₂ hrest
    obtain ⟨b, hb, hab, hread⟩ := exprs_alike hleft hu
    obtain ⟨c, hc, hac, hread'⟩ := exprs_alike hright hv
    have hcontent := Level.isContent_of_mem_kinds (Level.mem_kinds_of_mem_operators hop)
    have hnodes := List.Forall₂.cons (Node.Alike.leaf hop' rfl hcontent .operator) (.cons hac .nil)
    have hspan := Node.spanOf_alike hab hnodes
    refine ⟨_, .operation hm (hop'.kind ▸ hop) hb hc, .branch hab hnodes nofun nofun, ?_⟩
    rw [Node.toExpr_binary, Node.toExpr_binary]
    refine (toOperator_alike hop' hcontent).bind ?_
    rintro op _ rfl
    refine hread.bind fun x x' hx => hread'.bind fun y y' hy => .pure ?_
    unfold Expr.Alike at hx hy ⊢
    simp only [Expr.map, hx, hy]
    exact congrArg (Expr.binary _ _ _) hspan
  | _, _, _, _, .signed hop ha, hall => by
    obtain ⟨op', u', rfl, hop', hu⟩ := exists_cons_of_forall₂ hall
    obtain ⟨b, hb, hab, -⟩ := exprs_alike ha hu
    have hsigns : ∀ k ∈ [TokenKind.plus, .dash], k.isContent = true := by decide
    have hcontent := hsigns _ hop
    exact ⟨_, .signed (hop'.kind ▸ hop) hb,
      .branch (.leaf hop' rfl hcontent _) (.cons hab .nil) nofun nofun,
      toExpr_unary_alike hop' hcontent hab⟩
  | _, _, _, _, .call hf hopen hargs, hall => by
    obtain ⟨u', rest, rfl, hu, hrest⟩ := exists_append_of_forall₂ hall
    obtain ⟨open', v', rfl, hopen', hv⟩ := exists_cons_of_forall₂ hrest
    obtain ⟨b, hb, hab, -⟩ := exprs_alike hf hu
    obtain ⟨nodes', hargs', hnodes, hread⟩ := arguments_alike hargs hv
    have hlist := Node.Alike.branch (l := .argList)
      (Node.Alike.leaf hopen' hopen rfl .openParen) hnodes nofun nofun
    have hspan := Node.spanOf_alike hab (.cons hlist .nil)
    refine ⟨_, .call hb (hopen'.kind.trans hopen) hargs',
      .branch hab (.cons hlist .nil) nofun nofun, ?_⟩
    rw [Node.toExpr_call, Node.toExpr_call]
    refine (requireAs_alike hab _ _).bind fun _ _ hname => ?_
    refine (hread _ _ _).bind fun es es' hes => .pure ?_
    unfold Expr.Alike
    unfold Expr.AllAlike at hes
    simp only [Expr.map, hes, hab.text (.inl hname)]
    exact congrArg (Expr.call _ _) hspan
  | _, _, _, _, .atom hatom, hall => by
    obtain ⟨tok', rfl, htok⟩ := exists_singleton_of_forall₂ hall
    have hcontent := Level.isContent_of_mem_kinds hatom.kind_mem_kinds
    exact ⟨_, .atom (htok.kind ▸ hatom), .leaf htok rfl hcontent _,
      toExpr_leaf_alike hatom htok hcontent⟩
  | _, _, _, _, .grouping hopen ha hclose, hall => by
    obtain ⟨open', rest, rfl, hopen', hrest⟩ := exists_cons_of_forall₂ hall
    obtain ⟨u', rest, rfl, hu, hrest⟩ := exists_append_of_forall₂ hrest
    obtain ⟨close', rfl, hclose'⟩ := exists_singleton_of_forall₂ hrest
    obtain ⟨b, hb, hab, hread⟩ := exprs_alike ha hu
    exact ⟨_, .grouping (hopen'.kind.trans hopen) hb (hclose'.kind.trans hclose),
      .branch (.leaf hopen' hopen rfl _) (.cons hab (.cons (.leaf hclose' hclose rfl _) .nil))
        nofun nofun, hread⟩

theorem arguments_alike : ∀ {u u' : List Token} {nodes : List Node}, Level.Arguments u nodes →
    TokensAlike v w u u' → ∃ nodes', Level.Arguments u' nodes' ∧ NodesAlike v w nodes nodes' ∧
      ∀ last last' expected, Except.Alike (Expr.AllAlike v w) (Error.Alike v w)
        (Node.argumentsAfter v.source last expected nodes)
        (Node.argumentsAfter w.source last' expected nodes')
  | _, _, _, .close hclose, hall => by
    obtain ⟨close', rfl, hclose'⟩ := exists_singleton_of_forall₂ hall
    refine ⟨_, .close (hclose'.kind.trans hclose), .cons (.leaf hclose' hclose rfl _) .nil, ?_⟩
    intro last last' expected
    rw [Node.argumentsAfter_close, Node.argumentsAfter_close]
    exact .ok rfl
  | _, _, _, .last ha hclose, hall => by
    obtain ⟨u', rest, rfl, hu, hrest⟩ := exists_append_of_forall₂ hall
    obtain ⟨close', rfl, hclose'⟩ := exists_singleton_of_forall₂ hrest
    obtain ⟨b, hb, hab, hread⟩ := exprs_alike ha hu
    refine ⟨_, .last hb (hclose'.kind.trans hclose),
      .cons hab (.cons (.leaf hclose' hclose rfl _) .nil), ?_⟩
    intro last last' expected
    rw [Node.argumentsAfter_last ha.label_ne_closeParen,
      Node.argumentsAfter_last hb.label_ne_closeParen]
    refine hread.bind fun x x' hx => .pure ?_
    exact congrArg (· :: []) hx
  | _, _, _, .more ha hcomma hmore, hall => by
    obtain ⟨u', rest, rfl, hu, hrest⟩ := exists_append_of_forall₂ hall
    obtain ⟨comma', v', rfl, hcomma', hv⟩ := exists_cons_of_forall₂ hrest
    obtain ⟨b, hb, hab, hread⟩ := exprs_alike ha hu
    obtain ⟨nodes', hmore', hnodes, hreads⟩ := arguments_alike hmore hv
    refine ⟨_, .more hb (hcomma'.kind.trans hcomma) hmore',
      .cons hab (.cons (.leaf hcomma' hcomma rfl _) hnodes), ?_⟩
    intro last last' expected
    rw [Node.argumentsAfter_more ha.label_ne_closeParen,
      Node.argumentsAfter_more hb.label_ne_closeParen]
    refine hread.bind fun x x' hx => (hreads _ _ _).bind fun xs xs' hxs => .pure ?_
    exact congrArg₂ List.cons hx hxs
end

end Expressions
end Offside
