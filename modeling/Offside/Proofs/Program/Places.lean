import Offside.Proofs.Grammar.Bodies
import Offside.Proofs.Program.Notes
import Offside.Proofs.Program.OfGrammar

/-! Where the parts of a program stand. What the parts of a tree stand for is noted with the spans
of these parts. -/
namespace Offside

/-- A span is that of some part of a tree. -/
def Node.HasSpan (n : Node) (s : Span) : Prop := ∃ b : Node, b.PartOf n ∧ b.span = s

namespace Node.HasSpan

variable {n c : Node} {s : Span} {label : Label} {nodes : List Node}

theorem self (n : Node) : n.HasSpan n.span := ⟨n, .self, rfl⟩

theorem branch (hc : c ∈ nodes) (h : c.HasSpan s) : (branch label nodes).HasSpan s := by
  obtain ⟨b, hb, hspan⟩ := h
  exact ⟨b, .child hc hb, hspan⟩

end Node.HasSpan

/-- Spans that are each that of a part of some trees. -/
def SpansOf (nodes : List Node) (spans : List Span) : Prop :=
  ∀ s ∈ spans, ∃ c ∈ nodes, c.HasSpan s

namespace SpansOf

variable {nodes more : List Node} {xs ys : List Span} {n c : Node} {label : Label}

theorem nil : SpansOf nodes [] := List.forall_mem_nil _

theorem mono (h : SpansOf nodes xs) (hnodes : ∀ c ∈ nodes, c ∈ more) : SpansOf more xs := by
  intro s hs
  obtain ⟨c, hc, hspan⟩ := h s hs
  exact ⟨c, hnodes c hc, hspan⟩

theorem append (hx : SpansOf nodes xs) (hy : SpansOf nodes ys) : SpansOf nodes (xs ++ ys) :=
  List.forall_mem_append.2 ⟨hx, hy⟩

/-- The spans of the parts of one tree among some. -/
theorem of_mem (h : SpansOf [n] xs) (hn : n ∈ nodes) : SpansOf nodes xs :=
  h.mono fun _ hc => List.mem_singleton.1 hc ▸ hn

/-- A branch adds its own span to those of its parts. -/
theorem branch (h : SpansOf nodes xs) :
    SpansOf [.branch label nodes] (Node.spanOf nodes :: xs) := by
  refine List.forall_mem_cons.2 ⟨⟨_, List.mem_cons_self, .self _⟩, fun s hs => ?_⟩
  obtain ⟨c, hc, hspan⟩ := h s hs
  exact ⟨_, List.mem_cons_self, hspan.branch hc⟩

/-- A branch that stands for the same as one of its parts. -/
theorem inner (h : SpansOf nodes xs) : SpansOf [.branch label nodes] xs :=
  fun s hs => h.branch s (List.mem_cons_of_mem _ hs)

end SpansOf

section Expressions

variable {source : List Char}

theorem notes_of_numberOf {text : String} {span : Span} {e : Expr Span}
    (h : Node.numberOf text span = .ok e) : e.notes = [span] := by
  obtain ⟨value, -, rfl⟩ := Node.numberOf_eq_ok_iff.1 h
  rfl

theorem notes_of_atom {k : TokenKind} {label : Label} {span : Span} {e : Expr Span}
    (hatom : Level.AtomLabel k label) (h : (Node.leaf label span).toExpr source = .ok e) :
    e.notes = [span] := by
  cases hatom with
  | number => exact notes_of_numberOf h
  | identifier | true | false | none =>
    cases h
    rfl

mutual
/-- The notes in an expression that is read are the spans of the parts of its tree. -/
theorem spansOf_of_derives : ∀ {l : Level} {u : List Token} {a : Node} {e : Expr Span},
    l.Derives u a → a.toExpr source = .ok e → SpansOf [a] e.notes
  | _, _, _, _, .tighter _ ha, h => spansOf_of_derives ha h
  | _, _, _, _, .operation _ _ hleft hright, h => by
    obtain ⟨op, x, y, -, hx, hy, rfl⟩ := Node.toExpr_binary_eq_ok_iff.1 h
    refine SpansOf.branch (.append ?_ ?_)
    · exact (spansOf_of_derives hleft hx).of_mem (by simp)
    · exact (spansOf_of_derives hright hy).of_mem (by simp)
  | _, _, _, _, .signed .., h => by
    obtain ⟨-, -, hnumber⟩ := Node.toExpr_unary_eq_ok_iff.1 h
    rw [notes_of_numberOf hnumber]
    exact SpansOf.nil.branch
  | _, _, _, _, .call _ _ hargs, h => by
    obtain ⟨-, es, hes, rfl⟩ := Node.toExpr_call_eq_ok_iff.1 h
    refine SpansOf.branch (.of_mem (.inner ?_) (List.mem_cons_of_mem _ List.mem_cons_self))
    exact (spansOf_of_arguments hargs hes).mono fun _ => List.mem_cons_of_mem _
  | _, _, _, _, .atom hatom, h => by
    rw [notes_of_atom hatom h]
    exact List.forall_mem_singleton.2 ⟨_, List.mem_cons_self, .self _⟩
  | _, _, _, _, .grouping _ ha _, h => ((spansOf_of_derives ha h).of_mem (by simp)).inner

theorem spansOf_of_arguments : ∀ {v : List Token} {nodes : List Node} {es : List (Expr Span)}
    {last : Node} {expected : String}, Level.Arguments v nodes →
      Node.argumentsAfter source last expected nodes = .ok es → SpansOf nodes (Expr.notesAll es)
  | _, _, _, _, _, .close _, h => by
    obtain rfl := Node.argumentsAfter_close_eq_ok_iff.1 h
    exact .nil
  | _, _, _, _, _, .last ha _, h => by
    obtain ⟨x, hx, rfl⟩ := (Node.argumentsAfter_last_eq_ok_iff ha.label_ne_closeParen).1 h
    exact ((spansOf_of_derives ha hx).of_mem List.mem_cons_self).append .nil
  | _, _, _, _, _, .more ha _ hmore, h => by
    obtain ⟨x, more, hx, hm, rfl⟩ :=
      (Node.argumentsAfter_more_eq_ok_iff ha.label_ne_closeParen).1 h
    refine .append ((spansOf_of_derives ha hx).of_mem List.mem_cons_self) ?_
    refine (spansOf_of_arguments hmore hm).mono fun c hc => ?_
    exact List.mem_cons_of_mem _ (List.mem_cons_of_mem _ hc)
end

end Expressions

section Statements

variable {source : List Char} {u : List Token} {a : Node} {nodes : List Node}

theorem spansOf_of_assigned {name : Token} {st : Stmt Span} (h : Script.Assigned u nodes)
    (hst : (Node.branch .assignStatement (.leaf .variableName name.span :: nodes)).toStmt source =
      .ok st) :
    SpansOf [.branch .assignStatement (.leaf .variableName name.span :: nodes)] st.notes := by
  cases h with
  | type => exact absurd hst Node.toStmt_untold_ne_ok
  | value htype _ hb =>
    cases htype with
    | absent =>
      obtain ⟨e, he, rfl⟩ := Node.toStmt_assign_eq_ok_iff.1 hst
      exact .branch ((spansOf_of_derives hb he).of_mem (by simp))
    | present =>
      obtain ⟨type, e, -, he, rfl⟩ := Node.toStmt_declare_eq_ok_iff.1 hst
      exact .branch ((spansOf_of_derives hb he).of_mem (by simp))

mutual
/-- The notes in a statement that is read are the spans of the parts of its tree. -/
theorem spansOf_of_statement : ∀ {next : TokenKind} {u : List Token} {a : Node} {st : Stmt Span},
    Script.Statement next u a → TokensOf source next u → a.toStmt source = .ok st →
      SpansOf [a] st.notes
  | _, _, _, _, .function _ _ _ _ htypes hbody, hu, h => by
    obtain ⟨-, hurest⟩ := hu.tail.tail.tail.append
    obtain ⟨-, hub⟩ := hurest.append
    cases htypes with
    | absent =>
      obtain ⟨-, parameters, body, -, hb, rfl⟩ :=
        (Node.toStmt_function_eq_ok_iff hbody.label_eq_body).1 h
      exact .branch ((spansOf_of_body hbody hub hb).of_mem (by simp))
    | present =>
      obtain ⟨-, parameters, type, body, -, -, hb, rfl⟩ :=
        Node.toStmt_typedFunction_eq_ok_iff.1 h
      exact .branch ((spansOf_of_body hbody hub hb).of_mem (by simp))
  | _, _, _, _, .returnNone .., _, h => by
    obtain ⟨-, rfl⟩ := Node.toStmt_returnNone_eq_ok_iff.1 h
    refine .branch (List.forall_mem_singleton.2 ?_)
    exact ⟨_, List.mem_cons_self, .self _⟩
  | _, _, _, _, .returnValue _ ha _, _, h => by
    obtain ⟨-, e, he, rfl⟩ := Node.toStmt_returnValue_eq_ok_iff.1 h
    exact .branch ((spansOf_of_derives ha he).of_mem (by simp))
  | _, _, _, _, .loop _ ha hbody, hu, h => by
    obtain ⟨-, e, body, he, hb, rfl⟩ := (Node.toStmt_loop_eq_ok_iff ha.isExpression).1 h
    obtain ⟨-, hub⟩ := hu.tail.append
    refine .branch (.append ?_ ?_)
    · exact (spansOf_of_derives ha he).of_mem (by simp)
    · exact (spansOf_of_body hbody hub hb).of_mem (by simp)
  | _, _, _, _, .conditional _ ha hbody hfurther, hu, h => by
    obtain ⟨-, e, body, further, he, hb, hf, rfl⟩ :=
      (Node.toStmt_conditional_eq_ok_iff ha.isExpression).1 h
    obtain ⟨-, hurest⟩ := hu.tail.append
    obtain ⟨hub, huf⟩ := hurest.append
    refine .branch (.append (.append ?_ ?_) ?_)
    · exact (spansOf_of_derives ha he).of_mem (by simp)
    · exact (spansOf_of_body hbody hub hb).of_mem (by simp)
    · exact (spansOf_of_further hfurther huf hf).mono fun c hc => by simp [hc]
  | _, _, _, _, .pass .., _, h => by
    cases h
    exact SpansOf.nil.branch
  | _, _, _, _, .assignment _ hassigned _, _, h => spansOf_of_assigned hassigned h
  | _, _, _, _, .expression ha _, _, h => by
    obtain ⟨e, he, rfl⟩ := Node.toStmt_expression_eq_ok_iff.1 h
    exact .branch (spansOf_of_derives ha he)

theorem spansOf_of_body : ∀ {next : TokenKind} {u : List Token} {a : Node}
    {sts : List (Stmt Span)}, Script.Body next u a → TokensOf source next u →
      a.toBody source = .ok sts → SpansOf [a] (Stmt.notesAll sts)
  | _, _, _, _, .line _ ha, hu, h => by
    obtain ⟨st, more, hst, hm, rfl⟩ :=
      (Node.statementsOf_cons_eq_ok_iff ha.label_ne_colon).1 (Node.toBody_eq_ok_iff.1 h)
    cases hm
    have hfirst := spansOf_of_statement ha hu.tail hst
    exact .inner ((hfirst.of_mem (by simp)).append .nil)
  | _, _, _, _, .block _ _ _ hlines _, hu, h => by
    have hlines := spansOf_of_lines hlines hu.tail.tail.tail.append.1 (Node.toBody_eq_ok_iff.1 h)
    exact .inner (hlines.mono fun _ => List.mem_cons_of_mem _)

theorem spansOf_of_lines : ∀ {next : TokenKind} {u : List Token} {nodes : List Node}
    {sts : List (Stmt Span)}, Script.Lines next u nodes → TokensOf source next u →
      Node.statementsOf source nodes = .ok sts → SpansOf nodes (Stmt.notesAll sts)
  | _, _, _, _, .nil, _, h => by
    cases h
    exact .nil
  | _, _, _, _, .blank _ hlines, hu, h => spansOf_of_lines hlines hu.tail h
  | _, _, _, _, .statement ha hlines, hu, h => by
    obtain ⟨st, more, hst, hm, rfl⟩ := (Node.statementsOf_cons_eq_ok_iff ha.label_ne_colon).1 h
    obtain ⟨hua, hurest⟩ := hu.append
    refine .append ((spansOf_of_statement ha hua hst).of_mem List.mem_cons_self) ?_
    exact (spansOf_of_lines hlines hurest hm).mono fun _ => List.mem_cons_of_mem _

theorem spansOf_of_further : ∀ {next : TokenKind} {u : List Token} {nodes : List Node}
    {further : List (Branch Span) × List (Stmt Span)}, Script.Further next u nodes →
      TokensOf source next u → Node.branchesAfter source nodes = .ok further →
      SpansOf nodes (Stmt.notesOfBranches further.1 ++ Stmt.notesAll further.2)
  | _, _, _, _, .none .., _, h => by
    cases h
    exact .nil
  | _, _, _, _, .alternative hkeyword ha hbody hfurther, hu, h => by
    obtain ⟨-, hurest⟩ := hu.tail.append
    obtain ⟨hub, huf⟩ := hurest.append
    obtain ⟨e, body, more, he, hb, hm, rfl⟩ := (Node.branchesAfter_elif_eq_ok_iff
      (hu.head.text_eq hkeyword rfl) ha.isExpression).1 h
    have hmore := spansOf_of_further hfurther huf hm
    rw [Stmt.notesOfBranches, List.append_assoc]
    refine .append (.append ?_ ?_) ?_
    · exact (spansOf_of_derives ha he).of_mem (by simp)
    · exact (spansOf_of_body hbody hub hb).of_mem (by simp)
    · exact hmore.mono fun c hc => by simp [hc]
  | _, _, _, _, .otherwise hkeyword hbody, hu, h => by
    obtain ⟨body, hb, rfl⟩ :=
      (Node.branchesAfter_else_eq_ok_iff (hu.head.text_eq hkeyword rfl)).1 h
    exact .append .nil ((spansOf_of_body hbody hu.tail hb).of_mem (by simp))
end

end Statements
end Offside
