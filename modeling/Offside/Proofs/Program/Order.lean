import Offside.Proofs.FrontEnd
import Offside.Proofs.Program.Phrase

/-! A program is laid out like its source. What a tree stands for has the place of the tree, in
parentheses that of the tree inside; a branch has that of its keyword, condition and body. -/
namespace Offside

section Expressions

variable {file : String} {source : List Char} {label : Label} {span : Span}

theorem Span.toList_text {v : List Char}
    (h : Text.slice? source span.start.offset.toNat span.stop.offset.toNat = some v) :
    (span.text source).toList = v := by
  rw [Span.text, h, Option.getD_some, String.toList_ofList]

theorem spelled_ident (hn : (Node.leaf label span).Placed file source) :
    (Phrase.expression (.ident (span.text source) span)).Spelled source := by
  obtain ⟨hstart, hstop⟩ := hn.stretches _ .self
  have hlt := (hn.nested _ .self).start_lt_stop
  obtain ⟨v, -, hv, -⟩ := hstart.isCut.exists_slice? hstop hstop (Nat.le_of_lt hlt) (Nat.le_refl _)
  have htext := Span.toList_text hv
  exact hv.trans (congrArg some htext.symm)

theorem spelled_call {a : Node} {nodes : List Node} {arguments : List (Expr Span)}
    (hn : (Node.branch label (a :: nodes)).Placed file source) :
    (Phrase.expression (.call (a.text source) arguments (Node.spanOf (a :: nodes)))).Spelled
      source := by
  have ha := hn.child List.mem_cons_self
  obtain ⟨hstart, hstop⟩ := ha.stretches a .self
  obtain ⟨-, hend⟩ := hn.stretches _ .self
  have hlt := (ha.nested a .self).start_lt_stop
  obtain ⟨-, -, hrest⟩ := (hn.nested _ .self).parts
  obtain ⟨v, w, hv, hw⟩ := hstart.isCut.exists_slice? hstop hend (Nat.le_of_lt hlt) hrest.le
  refine ⟨w, ?_⟩
  rw [Node.text, Span.toList_text hv]
  exact hw

theorem laidOut_of_numberOf {n : Node} {text : String} {e : Expr Span}
    (hn : n.Placed file source) (h : Node.numberOf text n.span = .ok e) :
    LaidOut file source [n] [.expression e] := by
  obtain ⟨value, -, rfl⟩ := Node.numberOf_eq_ok_iff.1 h
  exact .phrase hn rfl .nil trivial

theorem laidOut_of_atom {k : TokenKind} {e : Expr Span} (hatom : Level.AtomLabel k label)
    (hn : (Node.leaf label span).Placed file source)
    (h : (Node.leaf label span).toExpr source = .ok e) :
    LaidOut file source [.leaf label span] [.expression e] := by
  cases hatom with
  | number => exact laidOut_of_numberOf hn h
  | identifier =>
    cases h
    exact .phrase hn rfl .nil (spelled_ident hn)
  | true | false | none =>
    cases h
    exact .phrase hn rfl .nil trivial

mutual
/-- An expression stands where its tree does, or within it. -/
theorem laidOut_of_derives : ∀ {l : Level} {u : List Token} {a : Node} {e : Expr Span},
    l.Derives u a → a.Placed file source → a.toExpr source = .ok e →
      LaidOut file source [a] [.expression e]
  | _, _, _, _, .tighter _ ha, hn, h => laidOut_of_derives ha hn h
  | _, _, _, _, .operation _ _ hleft hright, hn, h => by
    obtain ⟨op, x, y, -, hx, hy, rfl⟩ := Node.toExpr_binary_eq_ok_iff.1 h
    have hl := laidOut_of_derives hleft (hn.child (by simp)) hx
    have hr := laidOut_of_derives hright (hn.child (by simp)) hy
    exact .phrase hn rfl (hl.cons hr.skip) trivial
  | _, _, _, _, .signed .., hn, h => by
    obtain ⟨-, -, hnumber⟩ := Node.toExpr_unary_eq_ok_iff.1 h
    exact laidOut_of_numberOf hn hnumber
  | _, _, _, _, .call _ _ hargs, hn, h => by
    obtain ⟨-, es, hes, rfl⟩ := Node.toExpr_call_eq_ok_iff.1 h
    have hlist := hn.child (List.mem_cons_of_mem _ List.mem_cons_self)
    have harguments := laidOut_of_arguments hargs
      (fun c hc => hlist.child (List.mem_cons_of_mem _ hc)) hes
    exact .phrase hn rfl (.skip (.inner hlist.nested harguments.skip)) (spelled_call hn)
  | _, _, _, _, .atom hatom, hn, h => laidOut_of_atom hatom hn h
  | _, _, _, _, .grouping _ ha _, hn, h => by
    have hinner := laidOut_of_derives ha (hn.child (by simp)) h
    exact .inner hn.nested (.skip (hinner.cons .nil))

theorem laidOut_of_arguments : ∀ {v : List Token} {nodes : List Node} {es : List (Expr Span)}
    {last : Node} {expected : String}, Level.Arguments v nodes →
      (∀ c ∈ nodes, c.Placed file source) →
      Node.argumentsAfter source last expected nodes = .ok es →
      LaidOut file source nodes (es.map .expression)
  | _, _, _, _, _, .close _, _, h => by
    obtain rfl := Node.argumentsAfter_close_eq_ok_iff.1 h
    exact .nil
  | _, _, _, _, _, .last ha _, hn, h => by
    obtain ⟨x, hx, rfl⟩ := (Node.argumentsAfter_last_eq_ok_iff ha.label_ne_closeParen).1 h
    exact (laidOut_of_derives ha (hn _ List.mem_cons_self) hx).cons .nil
  | _, _, _, _, _, .more ha _ hmore, hn, h => by
    obtain ⟨x, more, hx, hm, rfl⟩ :=
      (Node.argumentsAfter_more_eq_ok_iff ha.label_ne_closeParen).1 h
    obtain ⟨hna, hnrest⟩ := List.forall_mem_cons.1 hn
    have harguments := laidOut_of_arguments hmore (List.forall_mem_cons.1 hnrest).2 hm
    exact (laidOut_of_derives ha hna hx).cons harguments.skip
end

end Expressions

section Statements

variable {file : String} {source : List Char}

theorem laidOut_of_assigned {u : List Token} {nodes : List Node} {name : Token} {st : Stmt Span}
    (h : Script.Assigned u nodes)
    (hn : (Node.branch .assignStatement (.leaf .variableName name.span :: nodes)).Placed file
      source)
    (hst : (Node.branch .assignStatement (.leaf .variableName name.span :: nodes)).toStmt source =
      .ok st) :
    LaidOut file source [.branch .assignStatement (.leaf .variableName name.span :: nodes)]
      [.statement st] := by
  cases h with
  | type => exact absurd hst Node.toStmt_untold_ne_ok
  | value htype _ hb =>
    cases htype with
    | absent =>
      obtain ⟨e, he, rfl⟩ := Node.toStmt_assign_eq_ok_iff.1 hst
      have hvalue := laidOut_of_derives hb (hn.child (by simp)) he
      exact .phrase hn rfl hvalue.skip.skip trivial
    | present =>
      obtain ⟨type, e, -, he, rfl⟩ := Node.toStmt_declare_eq_ok_iff.1 hst
      have hvalue := laidOut_of_derives hb (hn.child (by simp)) he
      exact .phrase hn rfl hvalue.skip.skip.skip trivial

mutual
/-- A statement stands where its tree does. -/
theorem laidOut_of_statement : ∀ {next : TokenKind} {u : List Token} {a : Node} {st : Stmt Span},
    Script.Statement next u a → TokensOf source next u → a.Placed file source →
      a.toStmt source = .ok st → LaidOut file source [a] [.statement st]
  | _, _, _, _, .function _ _ _ _ htypes hbody, hu, hn, h => by
    obtain ⟨-, hurest⟩ := hu.tail.tail.tail.append
    obtain ⟨-, hub⟩ := hurest.append
    cases htypes with
    | absent =>
      obtain ⟨-, parameters, body, -, hb, rfl⟩ :=
        (Node.toStmt_function_eq_ok_iff hbody.label_eq_body).1 h
      have hlaid := laidOut_of_body hbody hub (hn.child (by simp)) hb
      exact .phrase hn rfl hlaid.skip.skip.skip trivial
    | present =>
      obtain ⟨-, parameters, type, body, -, -, hb, rfl⟩ :=
        Node.toStmt_typedFunction_eq_ok_iff.1 h
      have hlaid := laidOut_of_body hbody hub (hn.child (by simp)) hb
      exact .phrase hn rfl hlaid.skip.skip.skip.skip trivial
  | _, _, _, _, .returnNone .., _, hn, h => by
    -- The absent value stands on the keyword, like the statement.
    obtain ⟨-, rfl⟩ := Node.toStmt_returnNone_eq_ok_iff.1 h
    have hkeyword := hn.child List.mem_cons_self
    exact .phrase hn rfl (.phrase hkeyword rfl .nil trivial) trivial
  | _, _, _, _, .returnValue _ ha _, _, hn, h => by
    obtain ⟨-, e, he, rfl⟩ := Node.toStmt_returnValue_eq_ok_iff.1 h
    have hvalue := laidOut_of_derives ha (hn.child (by simp)) he
    exact .phrase hn rfl hvalue.skip trivial
  | _, _, _, _, .loop _ ha hbody, hu, hn, h => by
    obtain ⟨-, e, body, he, hb, rfl⟩ := (Node.toStmt_loop_eq_ok_iff ha.isExpression).1 h
    obtain ⟨-, hub⟩ := hu.tail.append
    have hcondition := laidOut_of_derives ha (hn.child (by simp)) he
    have hlaid := laidOut_of_body hbody hub (hn.child (by simp)) hb
    exact .phrase hn rfl (hcondition.cons hlaid).skip trivial
  | _, _, _, _, .conditional _ ha hbody hfurther, hu, hn, h => by
    obtain ⟨-, e, body, further, he, hb, hf, rfl⟩ :=
      (Node.toStmt_conditional_eq_ok_iff ha.isExpression).1 h
    obtain ⟨-, hurest⟩ := hu.tail.append
    obtain ⟨hub, huf⟩ := hurest.append
    have hcondition := laidOut_of_derives ha (hn.child (by simp)) he
    have hlaid := laidOut_of_body hbody hub (hn.child (by simp)) hb
    obtain ⟨k, hfirst, hrest⟩ := (hn.nested _ .self).parts.of_append (u := [_, _, _])
    have hbranch := LaidOut.branch .first (hn.child (by simp)) (hn.child (by simp)) hfirst
      hcondition hlaid
    have hmore := laidOut_of_further hfurther huf (fun c hc => hn.child (by simp [hc])) hrest hf
    exact .phrase hn rfl (hbranch.append hmore) trivial
  | _, _, _, _, .pass .., _, hn, h => by
    cases h
    exact .phrase hn rfl .nil trivial
  | _, _, _, _, .assignment _ hassigned _, _, hn, h => laidOut_of_assigned hassigned hn h
  | _, _, _, _, .expression ha _, _, hn, h => by
    obtain ⟨e, he, rfl⟩ := Node.toStmt_expression_eq_ok_iff.1 h
    exact .phrase hn rfl (laidOut_of_derives ha (hn.child List.mem_cons_self) he) trivial

theorem laidOut_of_body : ∀ {next : TokenKind} {u : List Token} {a : Node}
    {sts : List (Stmt Span)}, Script.Body next u a → TokensOf source next u →
      a.Placed file source → a.toBody source = .ok sts →
      LaidOut file source [a] (sts.map .statement)
  | _, _, _, _, .line _ ha, hu, hn, h => by
    obtain ⟨st, more, hst, hm, rfl⟩ :=
      (Node.statementsOf_cons_eq_ok_iff ha.label_ne_colon).1 (Node.toBody_eq_ok_iff.1 h)
    cases hm
    exact .inner hn.nested (laidOut_of_statement ha hu.tail (hn.child (by simp)) hst).skip
  | _, _, _, _, .block _ _ _ hlines _, hu, hn, h => by
    have hlaid := laidOut_of_lines hlines hu.tail.tail.tail.append.1
      (fun c hc => hn.child (List.mem_cons_of_mem _ hc)) (Node.toBody_eq_ok_iff.1 h)
    exact .inner hn.nested hlaid.skip

theorem laidOut_of_lines : ∀ {next : TokenKind} {u : List Token} {nodes : List Node}
    {sts : List (Stmt Span)}, Script.Lines next u nodes → TokensOf source next u →
      (∀ c ∈ nodes, c.Placed file source) → Node.statementsOf source nodes = .ok sts →
      LaidOut file source nodes (sts.map .statement)
  | _, _, _, _, .nil, _, _, h => by
    cases h
    exact .nil
  | _, _, _, _, .blank _ hlines, hu, hn, h => laidOut_of_lines hlines hu.tail hn h
  | _, _, _, _, .statement ha hlines, hu, hn, h => by
    obtain ⟨st, more, hst, hm, rfl⟩ := (Node.statementsOf_cons_eq_ok_iff ha.label_ne_colon).1 h
    obtain ⟨hua, hurest⟩ := hu.append
    obtain ⟨hna, hnrest⟩ := List.forall_mem_cons.1 hn
    exact (laidOut_of_statement ha hua hna hst).cons (laidOut_of_lines hlines hurest hnrest hm)

theorem laidOut_of_further : ∀ {next : TokenKind} {u : List Token} {nodes : List Node}
    {further : List (Branch Span) × List (Stmt Span)} {i j : Nat}, Script.Further next u nodes →
      TokensOf source next u → (∀ c ∈ nodes, c.Placed file source) →
      SpansBetween i j (nodes.map Node.span) → Node.branchesAfter source nodes = .ok further →
      LaidOut file source nodes (further.1.map .branch ++ further.2.map .statement)
  | _, _, _, _, _, _, .none .., _, _, _, h => by
    cases h
    exact .nil
  | _, _, _, _, _, _, .alternative hkeyword ha hbody hfurther, hu, hn, hbetween, h => by
    obtain ⟨-, hurest⟩ := hu.tail.append
    obtain ⟨hub, huf⟩ := hurest.append
    obtain ⟨e, body, more, he, hb, hm, rfl⟩ := (Node.branchesAfter_elif_eq_ok_iff
      (hu.head.text_eq hkeyword rfl) ha.isExpression).1 h
    obtain ⟨hnkeyword, hna, hnb, hnrest⟩ : _ ∧ _ ∧ _ ∧ _ := by simpa using hn
    have hcondition := laidOut_of_derives ha hna he
    have hlaid := laidOut_of_body hbody hub hnb hb
    obtain ⟨k, hfirst, hrest⟩ := hbetween.of_append (u := [_, _, _])
    have hbranch := LaidOut.branch .alternative hnkeyword hnb hfirst hcondition hlaid
    exact hbranch.append (laidOut_of_further hfurther huf hnrest hrest hm)
  | _, _, _, _, _, _, .otherwise hkeyword hbody, hu, hn, _, h => by
    obtain ⟨body, hb, rfl⟩ :=
      (Node.branchesAfter_else_eq_ok_iff (hu.head.text_eq hkeyword rfl)).1 h
    exact (laidOut_of_body hbody hu.tail (hn _ (by simp)) hb).skip
end

end Statements

variable {file : String} {source : List Char} {p : Program Span}

/-- The lines of a source stand in it one after the other. -/
theorem placed_of_lines {front : List Token} {q : Position} {nodes : List Node}
    (hsize : Text.byteSize source < UInt32.size)
    (htokens : tokenize file source = .ok (front ++ [.endAt q]))
    (hfront : TokensOf source .eof front) (hlines : Script.Lines .eof front nodes) :
    SpansBetween 0 (Text.byteSize source) (nodes.map Node.span) ∧
      ∀ c ∈ nodes, c.Placed file source := by
  obtain ⟨k, hbetween, hend⟩ := (tokensBetween_of_tokenize hsize htokens).of_append
  have hstretches := hlines.forest.stretches (isStretch_of_tokenize hsize htokens)
  obtain ⟨hspans, hnested⟩ := hlines.forest.nested
    (fun tok htok => (hfront.written tok htok).start_lt_stop) hbetween
  exact ⟨hspans.widen (Nat.le_refl 0) hend.le, fun c hc => ⟨hstretches c hc, hnested c hc⟩⟩

/-- The spans of a program are nested and ordered like the program. Every statement, branch and
expression of it, at any depth, stands on a stretch of the source with what it is made of inside,
in order and apart from each other; and so do the statements at the top level. -/
theorem programOf_in_order (hsize : Text.byteSize source < UInt32.size)
    (h : programOf file source = .ok p) :
    (∀ s ∈ p, ∀ x : Phrase, x.PartOf (.statement s) → x.Placed file source) ∧
      p.Pairwise fun s t => s.note.stop.offset.toNat ≤ t.note.start.offset.toNat := by
  obtain ⟨front, q, nodes, htokens, hfront, hlines, hstatements⟩ := lines_of_programOf hsize h
  obtain ⟨hspans, hplaced⟩ := placed_of_lines hsize htokens hfront hlines
  have hlaid := laidOut_of_lines hlines hfront hplaced hstatements
  constructor
  · intro s hs
    exact hlaid.placed _ (List.mem_map_of_mem hs)
  · have hbetween := hlaid.within _ _ hspans
    exact List.pairwise_map.1 (List.pairwise_map.1 hbetween.pairwise)

/-- Branches in a function, a return without a value, parentheses around an operand and an argument,
and a comment whose characters are of several bytes. -/
theorem programOf_in_order_branches :
    let source := ("# é€\ndef f(a: int) -> int:\n  if a < 1:\n    return\n" ++
      "  elif (a) == 2: pass\n  else:\n    x: int = -3 * (a + 1)\n" ++
      "  while g(a, (x)): x = x\nf(2)\n").toList
    Text.byteSize source < UInt32.size ∧
    ∃ p, programOf "shell" source = .ok p ∧ p.length = 2 ∧
      (∀ s ∈ p, ∀ x : Phrase, x.PartOf (.statement s) → x.Placed "shell" source) ∧
      p.Pairwise fun s t => s.note.stop.offset.toNat ≤ t.note.start.offset.toNat := by
  intro source
  have hsize : Text.byteSize source < UInt32.size := by decide +kernel
  obtain ⟨p, hp, hlength⟩ : ∃ p, programOf "shell" source = .ok p ∧ decide (p.length = 2) = true :=
    Except.exists_eq_ok_of (by decide +kernel)
  exact ⟨hsize, p, hp, of_decide_eq_true hlength, programOf_in_order hsize hp⟩

end Offside
