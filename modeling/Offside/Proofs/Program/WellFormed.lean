import Offside.Proofs.FrontEnd

/-! Programs that can be written. Their names are names of the language, what is declared has a type
that can be written, and no body is empty but that for no condition. Every program that is read is
one of them. -/
namespace Offside

variable {α : Type}

/-- Whether a type can be that of a parameter or a declaration. -/
def Ty.isDeclarable (type : Ty) : Bool := type = int || type = bool

def Parameter.wellFormed (p : Parameter) : Bool := TokenKind.isName p.name && p.type.isDeclarable

mutual
/-- Whether all names in an expression are names. -/
def Expr.wellFormed : Expr α → Bool
  | .number _ _ | .boolean _ _ | .noneLiteral _ => true
  | .ident name _ => TokenKind.isName name
  | .binary _ lhs rhs _ => Expr.wellFormed lhs && Expr.wellFormed rhs
  | .call function arguments _ => TokenKind.isName function && Expr.allWellFormed arguments

def Expr.allWellFormed : List (Expr α) → Bool
  | [] => true
  | e :: rest => Expr.wellFormed e && Expr.allWellFormed rest
end

mutual
/-- Whether a statement can be written. -/
def Stmt.wellFormed : Stmt α → Bool
  | .assign name value _ => TokenKind.isName name && value.wellFormed
  | .declare name type value _ => TokenKind.isName name && type.isDeclarable && value.wellFormed
  | .expression value _ | .return value _ => value.wellFormed
  | .function name parameters _ body _ =>
    TokenKind.isName name && parameters.all Parameter.wellFormed && !body.isEmpty &&
      Stmt.allWellFormed body
  | .conditional first alternatives otherwise _ =>
    Stmt.branchWellFormed .first first && Stmt.branchesWellFormed alternatives &&
      Stmt.allWellFormed otherwise
  | .loop condition body _ => condition.wellFormed && !body.isEmpty && Stmt.allWellFormed body
  | .pass _ => true

def Stmt.allWellFormed : List (Stmt α) → Bool
  | [] => true
  | st :: rest => Stmt.wellFormed st && Stmt.allWellFormed rest

/-- Whether a branch is of the given kind and can be written. -/
def Stmt.branchWellFormed (kind : BranchKind) : Branch α → Bool
  | ⟨k, condition, body, _⟩ =>
    k = kind && condition.wellFormed && !body.isEmpty && Stmt.allWellFormed body

/-- Whether all branches come after others and can be written. -/
def Stmt.branchesWellFormed : List (Branch α) → Bool
  | [] => true
  | b :: rest => Stmt.branchWellFormed .alternative b && Stmt.branchesWellFormed rest
end

section Expressions

variable {source : List Char} {tok : Token}

theorem Token.Written.isName (h : tok.Written source) (hk : tok.kind = .identifier) :
    TokenKind.isName tok.value = true := by
  have hspelled := h.spelled
  rwa [hk] at hspelled

theorem wellFormed_of_numberOf {text : String} {span : Span} {e : Expr Span}
    (he : Node.numberOf text span = .ok e) : e.wellFormed = true := by
  obtain ⟨value, -, rfl⟩ := Node.numberOf_eq_ok_iff.1 he
  rfl

theorem wellFormed_of_atom {label : Label} {e : Expr Span} (h : tok.Written source)
    (hatom : Level.AtomLabel tok.kind label)
    (he : (Node.leaf label tok.span).toExpr source = .ok e) : e.wellFormed = true := by
  obtain ⟨k, hk⟩ : ∃ k, tok.kind = k := ⟨_, rfl⟩
  rw [hk] at hatom
  cases hatom with
  | number => exact wellFormed_of_numberOf he
  | identifier =>
    cases he
    rw [h.text]
    exact h.isName hk
  | true | false | none =>
    cases he
    rfl

mutual
/-- The names in an expression that is read are names. -/
theorem wellFormed_of_derives : ∀ {l : Level} {u : List Token} {a : Node} {e : Expr Span},
    l.Derives u a → (∀ tok ∈ u, tok.Written source) → a.toExpr source = .ok e →
      e.wellFormed = true
  | _, _, _, _, .tighter _ ha, hu, he => wellFormed_of_derives ha hu he
  | _, _, _, _, .operation _ hop hleft hright, hu, he => by
    obtain ⟨huleft, hu⟩ := List.forall_mem_append.1 hu
    obtain ⟨-, huright⟩ := List.forall_mem_cons.1 hu
    obtain ⟨op, x, y, -, hx, hy, rfl⟩ := Node.toExpr_binary_eq_ok_iff.1 he
    have hleft := wellFormed_of_derives hleft huleft hx
    have hright := wellFormed_of_derives hright huright hy
    simp only [Expr.wellFormed, hleft, hright, Bool.and_self]
  | _, _, _, _, .signed .., _, he => by
    obtain ⟨-, -, hnumber⟩ := Node.toExpr_unary_eq_ok_iff.1 he
    exact wellFormed_of_numberOf hnumber
  | _, _, _, _, .call hf hopen hargs, hu, he => by
    obtain ⟨huf, hu⟩ := List.forall_mem_append.1 hu
    obtain ⟨-, huargs⟩ := List.forall_mem_cons.1 hu
    obtain ⟨hlabel, es, hes, rfl⟩ := Node.toExpr_call_eq_ok_iff.1 he
    obtain ⟨name, rfl, hkind, rfl⟩ := hf.eq_variableName hlabel
    have hwritten := huf name (List.mem_singleton_self _)
    have hname := hwritten.isName hkind
    have hall := allWellFormed_of_arguments hargs huargs hes
    simp only [Expr.wellFormed, Node.text_leaf, hwritten.text, hname, hall, Bool.and_self]
  | _, _, _, _, .atom h, hu, he => wellFormed_of_atom (hu _ (List.mem_singleton_self _)) h he
  | _, _, _, _, .grouping _ ha _, hu, he => by
    obtain ⟨-, hu⟩ := List.forall_mem_cons.1 hu
    exact wellFormed_of_derives ha (List.forall_mem_append.1 hu).1 he

theorem allWellFormed_of_arguments : ∀ {v : List Token} {nodes : List Node}
    {es : List (Expr Span)} {last : Node} {expected : String}, Level.Arguments v nodes →
      (∀ tok ∈ v, tok.Written source) →
      Node.argumentsAfter source last expected nodes = .ok es → Expr.allWellFormed es = true
  | _, _, _, _, _, .close _, _, hes => by
    obtain rfl := Node.argumentsAfter_close_eq_ok_iff.1 hes
    rfl
  | _, _, _, _, _, .last ha _, hv, hes => by
    obtain ⟨hu, -⟩ := List.forall_mem_append.1 hv
    obtain ⟨x, hx, rfl⟩ := (Node.argumentsAfter_last_eq_ok_iff ha.label_ne_closeParen).1 hes
    have hfirst := wellFormed_of_derives ha hu hx
    simp only [Expr.allWellFormed, hfirst, Bool.and_self]
  | _, _, _, _, _, .more ha _ hmore, hv, hes => by
    obtain ⟨hu, hv⟩ := List.forall_mem_append.1 hv
    obtain ⟨-, hv⟩ := List.forall_mem_cons.1 hv
    obtain ⟨x, more, hx, hm, rfl⟩ :=
      (Node.argumentsAfter_more_eq_ok_iff ha.label_ne_closeParen).1 hes
    have hfirst := wellFormed_of_derives ha hu hx
    have hrest := allWellFormed_of_arguments hmore hv hm
    simp only [Expr.allWellFormed, hfirst, hrest, Bool.and_self]
end

end Expressions

section Statements

variable {source : List Char} {u : List Token} {a : Node}

theorem Ty.isDeclarable_of_ofAnnotation? {s : String} {type : Ty}
    (h : Ty.ofAnnotation? s = some type) : type.isDeclarable = true := by
  have hmem := List.mem_of_find?_eq_some h
  simp only [List.mem_cons, List.not_mem_nil, or_false] at hmem
  obtain rfl | rfl := hmem <;> rfl

theorem isDeclarable_of_toTy {m : Node} {type : Ty}
    (h : (Node.branch .typeDef [m, a]).toTy source = .ok type) : type.isDeclarable = true :=
  Ty.isDeclarable_of_ofAnnotation? (Node.toTy_eq_ok_iff.1 h).2

theorem wellFormed_parameters {last : Node} {expected : String} {nodes : List Node}
    {parameters : List Parameter} (h : Script.Parameters u nodes)
    (hu : ∀ tok ∈ u, tok.Written source)
    (hp : Node.parametersAfter source last expected nodes = .ok parameters) :
    parameters.all Parameter.wellFormed = true := by
  induction h generalizing last expected parameters with
  | close =>
    obtain rfl := Node.parametersAfter_close_eq_ok_iff.1 hp
    rfl
  | last hparameter =>
    obtain ⟨hkind, htype⟩ := hparameter
    cases htype with
    | absent => exact absurd hp (Node.parametersAfter_untyped_ne_ok nofun)
    | present =>
      obtain ⟨hu, -⟩ := List.forall_mem_append.1 hu
      obtain ⟨hwritten, -⟩ := List.forall_mem_cons.1 hu
      obtain ⟨type, htype, rfl⟩ := Node.parametersAfter_last_eq_ok_iff.1 hp
      have hname := hwritten.isName hkind
      have hdeclarable := isDeclarable_of_toTy htype
      simp only [List.all_cons, Parameter.wellFormed, hwritten.text, hname, hdeclarable,
        List.all_nil, Bool.and_self]
  | more hparameter _ _ ih =>
    obtain ⟨hkind, htype⟩ := hparameter
    cases htype with
    | absent => exact absurd hp (Node.parametersAfter_untyped_ne_ok nofun)
    | present =>
      obtain ⟨hu, hv⟩ := List.forall_mem_append.1 hu
      obtain ⟨-, hv⟩ := List.forall_mem_cons.1 hv
      obtain ⟨hwritten, -⟩ := List.forall_mem_cons.1 hu
      obtain ⟨type, more, htype, hm, rfl⟩ := Node.parametersAfter_more_eq_ok_iff.1 hp
      have hname := hwritten.isName hkind
      have hdeclarable := isDeclarable_of_toTy htype
      have hrest := ih hv hm
      simp only [List.all_cons, Parameter.wellFormed, hwritten.text, hname, hdeclarable, hrest,
        Bool.and_self]

theorem wellFormed_of_assigned {name : Token} {nodes : List Node} {st : Stmt Span}
    (hkind : name.kind = .identifier) (h : Script.Assigned u nodes) (hwritten : name.Written source)
    (hu : ∀ tok ∈ u, tok.Written source)
    (hst : (Node.branch .assignStatement (.leaf .variableName name.span :: nodes)).toStmt source =
      .ok st) : st.wellFormed = true := by
  have hname := hwritten.isName hkind
  cases h with
  | type => exact absurd hst Node.toStmt_untold_ne_ok
  | value htype _ hb =>
    obtain ⟨-, hv⟩ := List.forall_mem_append.1 hu
    obtain ⟨-, hv⟩ := List.forall_mem_cons.1 hv
    cases htype with
    | absent =>
      obtain ⟨e, he, rfl⟩ := Node.toStmt_assign_eq_ok_iff.1 hst
      have hvalue := wellFormed_of_derives hb hv he
      simp only [Stmt.wellFormed, hwritten.text, hname, hvalue, Bool.and_self]
    | present =>
      obtain ⟨type, e, htype, he, rfl⟩ := Node.toStmt_declare_eq_ok_iff.1 hst
      have hvalue := wellFormed_of_derives hb hv he
      have hdeclarable := isDeclarable_of_toTy htype
      simp only [Stmt.wellFormed, hwritten.text, hname, hdeclarable, hvalue, Bool.and_self]

theorem not_isEmpty_of_body {next : TokenKind} {sts : List (Stmt Span)}
    (h : Script.Body next u a) (hu : TokensOf source next u) (hsts : a.toBody source = .ok sts) :
    (!sts.isEmpty) = true := by
  have hne := h.ne_nil hu hsts
  simpa using hne

mutual
/-- A statement that is read can be written. -/
theorem wellFormed_of_statement : ∀ {next : TokenKind} {u : List Token} {a : Node}
    {st : Stmt Span}, Script.Statement next u a → TokensOf source next u →
      a.toStmt source = .ok st → st.wellFormed = true
  | _, _, _, _, .function _ hkind _ hparameters htypes hbody, hu, hst => by
    obtain ⟨hup, hurest⟩ := hu.tail.tail.tail.append
    obtain ⟨-, hub⟩ := hurest.append
    have hwritten := hu.tail.head
    have hname := hwritten.isName hkind
    cases htypes with
    | absent =>
      obtain ⟨-, parameters, body, hp, hb, rfl⟩ :=
        (Node.toStmt_function_eq_ok_iff hbody.label_eq_body).1 hst
      have hparameters := wellFormed_parameters hparameters hup.written hp
      have hne := not_isEmpty_of_body hbody hub hb
      have hbody := allWellFormed_of_body hbody hub hb
      simp only [Stmt.wellFormed, hwritten.text, hname, hparameters, hne, hbody, Bool.and_self]
    | present =>
      obtain ⟨-, parameters, type, body, hp, -, hb, rfl⟩ :=
        Node.toStmt_typedFunction_eq_ok_iff.1 hst
      have hparameters := wellFormed_parameters hparameters hup.written hp
      have hne := not_isEmpty_of_body hbody hub hb
      have hbody := allWellFormed_of_body hbody hub hb
      simp only [Stmt.wellFormed, hwritten.text, hname, hparameters, hne, hbody, Bool.and_self]
  | _, _, _, _, .returnNone .., _, hst => by
    obtain ⟨-, rfl⟩ := Node.toStmt_returnNone_eq_ok_iff.1 hst
    rfl
  | _, _, _, _, .returnValue _ ha _, hu, hst => by
    obtain ⟨-, e, he, rfl⟩ := Node.toStmt_returnValue_eq_ok_iff.1 hst
    exact wellFormed_of_derives ha hu.tail.append.1.written he
  | _, _, _, _, .loop _ ha hbody, hu, hst => by
    obtain ⟨-, e, body, he, hb, rfl⟩ := (Node.toStmt_loop_eq_ok_iff ha.isExpression).1 hst
    obtain ⟨hua, hub⟩ := hu.tail.append
    have hcondition := wellFormed_of_derives ha hua.written he
    have hne := not_isEmpty_of_body hbody hub hb
    have hbody := allWellFormed_of_body hbody hub hb
    simp only [Stmt.wellFormed, hcondition, hne, hbody, Bool.and_self]
  | _, _, _, _, .conditional _ ha hbody hfurther, hu, hst => by
    obtain ⟨-, e, body, further, he, hb, hf, rfl⟩ :=
      (Node.toStmt_conditional_eq_ok_iff ha.isExpression).1 hst
    obtain ⟨hua, hurest⟩ := hu.tail.append
    obtain ⟨hub, huf⟩ := hurest.append
    have hcondition := wellFormed_of_derives ha hua.written he
    have hne := not_isEmpty_of_body hbody hub hb
    have hbody := allWellFormed_of_body hbody hub hb
    obtain ⟨halternatives, hotherwise⟩ := wellFormed_of_further hfurther huf hf
    simp only [Stmt.wellFormed, Stmt.branchWellFormed, decide_true, hcondition, hne, hbody,
      halternatives, hotherwise, Bool.and_self]
  | _, _, _, _, .pass .., _, hst => by
    cases hst
    rfl
  | _, _, _, _, .assignment hkind h _, hu, hst =>
    wellFormed_of_assigned hkind h hu.head hu.tail.append.1.written hst
  | _, _, _, _, .expression ha _, hu, hst => by
    obtain ⟨e, he, rfl⟩ := Node.toStmt_expression_eq_ok_iff.1 hst
    exact wellFormed_of_derives ha hu.append.1.written he

theorem allWellFormed_of_body : ∀ {next : TokenKind} {u : List Token} {a : Node}
    {sts : List (Stmt Span)}, Script.Body next u a → TokensOf source next u →
      a.toBody source = .ok sts → Stmt.allWellFormed sts = true
  | _, _, _, _, .line _ ha, hu, hsts => by
    obtain ⟨st, more, hst, hm, rfl⟩ :=
      (Node.statementsOf_cons_eq_ok_iff ha.label_ne_colon).1 (Node.toBody_eq_ok_iff.1 hsts)
    cases hm
    have hfirst := wellFormed_of_statement ha hu.tail hst
    simp only [Stmt.allWellFormed, hfirst, Bool.and_self]
  | _, _, _, _, .block _ _ _ hlines _, hu, hsts =>
    allWellFormed_of_lines hlines hu.tail.tail.tail.append.1 (Node.toBody_eq_ok_iff.1 hsts)

theorem allWellFormed_of_lines : ∀ {next : TokenKind} {u : List Token} {nodes : List Node}
    {sts : List (Stmt Span)}, Script.Lines next u nodes → TokensOf source next u →
      Node.statementsOf source nodes = .ok sts → Stmt.allWellFormed sts = true
  | _, _, _, _, .nil, _, hsts => by
    cases hsts
    rfl
  | _, _, _, _, .blank _ hlines, hu, hsts => allWellFormed_of_lines hlines hu.tail hsts
  | _, _, _, _, .statement ha hlines, hu, hsts => by
    obtain ⟨st, more, hst, hm, rfl⟩ := (Node.statementsOf_cons_eq_ok_iff ha.label_ne_colon).1 hsts
    obtain ⟨hua, hurest⟩ := hu.append
    have hfirst := wellFormed_of_statement ha hua hst
    have hmore := allWellFormed_of_lines hlines hurest hm
    simp only [Stmt.allWellFormed, hfirst, hmore, Bool.and_self]

theorem wellFormed_of_further : ∀ {next : TokenKind} {u : List Token} {nodes : List Node}
    {further : List (Branch Span) × List (Stmt Span)}, Script.Further next u nodes →
      TokensOf source next u → Node.branchesAfter source nodes = .ok further →
      Stmt.branchesWellFormed further.1 = true ∧ Stmt.allWellFormed further.2 = true
  | _, _, _, _, .none .., _, hf => by
    cases hf
    exact ⟨rfl, rfl⟩
  | _, _, _, _, .alternative hkeyword ha hbody hfurther, hu, hf => by
    obtain ⟨e, body, more, he, hb, hm, rfl⟩ := (Node.branchesAfter_elif_eq_ok_iff
      (hu.head.text_eq hkeyword rfl) ha.isExpression).1 hf
    obtain ⟨hua, hurest⟩ := hu.tail.append
    obtain ⟨hub, huf⟩ := hurest.append
    have hcondition := wellFormed_of_derives ha hua.written he
    have hne := not_isEmpty_of_body hbody hub hb
    have hbody := allWellFormed_of_body hbody hub hb
    obtain ⟨halternatives, hotherwise⟩ := wellFormed_of_further hfurther huf hm
    refine ⟨?_, hotherwise⟩
    simp only [Stmt.branchesWellFormed, Stmt.branchWellFormed, decide_true, hcondition, hne, hbody,
      halternatives, Bool.and_self]
  | _, _, _, _, .otherwise hkeyword hbody, hu, hf => by
    obtain ⟨body, hb, rfl⟩ :=
      (Node.branchesAfter_else_eq_ok_iff (hu.head.text_eq hkeyword rfl)).1 hf
    exact ⟨rfl, allWellFormed_of_body hbody hu.tail hb⟩
end

end Statements

/-- Every program that is read can be written. -/
theorem allWellFormed_of_programOf {file : String} {source : List Char} {p : Program Span}
    (hsize : Text.byteSize source < UInt32.size) (h : programOf file source = .ok p) :
    Stmt.allWellFormed p = true := by
  obtain ⟨front, q, nodes, -, hfront, hlines, hp⟩ := lines_of_programOf hsize h
  exact allWellFormed_of_lines hlines hfront hp

end Offside
