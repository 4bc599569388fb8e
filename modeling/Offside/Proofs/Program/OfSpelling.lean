import Offside.Proofs.Program.Canonical

/-! Tokens that are spelled like the canonical text of a program are its lines: the grammar has a
tree for them, and the tree stands for that program. -/
namespace Offside

variable {α : Type} {source : List Char} {u v : List Token} {next : TokenKind}

/-- The tokens are written in the source with these kinds and texts. -/
structure SpelledAs (source : List Char) (u : List Token) (ss : List Spelling) : Prop where
  spelling : u.map Token.spelling = ss
  written : ∀ tok ∈ u, tok.Written source

namespace SpelledAs

variable {k : TokenKind} {s : String} {ss ts : List Spelling}

theorem nil (h : SpelledAs source u []) : u = [] := List.map_eq_nil_iff.1 h.spelling

theorem cons (h : SpelledAs source u ((k, s) :: ss)) :
    ∃ tok v, u = tok :: v ∧ tok.kind = k ∧ tok.span.text source = s ∧ SpelledAs source v ss := by
  obtain ⟨hspelling, hwritten⟩ := h
  obtain ⟨tok, v, rfl, hkind, htext, hv⟩ := map_spelling_eq_cons_iff.1 hspelling
  obtain ⟨htok, hwritten⟩ := List.forall_mem_cons.1 hwritten
  exact ⟨tok, v, rfl, hkind, htok.text.trans htext, hv, hwritten⟩

theorem append (h : SpelledAs source u (ss ++ ts)) :
    ∃ v w, u = v ++ w ∧ SpelledAs source v ss ∧ SpelledAs source w ts := by
  obtain ⟨hspelling, hwritten⟩ := h
  obtain ⟨v, w, rfl, hv, hw⟩ := List.map_eq_append_iff.1 hspelling
  obtain ⟨hvwritten, hwwritten⟩ := List.forall_mem_append.1 hwritten
  exact ⟨v, w, rfl, ⟨hv, hvwritten⟩, hw, hwwritten⟩

theorem singleton (h : SpelledAs source u [(k, s)]) :
    ∃ tok, u = [tok] ∧ tok.kind = k ∧ tok.span.text source = s := by
  obtain ⟨tok, v, rfl, hkind, htext, hv⟩ := h.cons
  obtain rfl := hv.nil
  exact ⟨tok, rfl, hkind, htext⟩

end SpelledAs

section Expressions

theorem integer?_repr (n : Nat) : Text.integer? n.repr.toList = some (.ofNat n) := by
  rw [Text.integer?_of_isDigits (TokenKind.isDigits_repr n), Nat.repr, String.toList_ofList,
    Text.natural?_toDigits]
  rfl

theorem integer?_minus_repr (n : Nat) :
    Text.integer? ("-" ++ (n + 1).repr).toList = some (.negSucc n) := by
  have hminus : Text.integer? ('-' :: (n + 1).repr.toList) =
      (Text.natural? (n + 1).repr.toList).map fun n => -Int.ofNat n := rfl
  rw [String.toList_append]
  refine hminus.trans ?_
  rw [Nat.repr, String.toList_ofList, Text.natural?_toDigits]
  rfl

/-- The level of an operator. -/
def Operator.level : Operator → Level
  | or => .disjunction
  | and => .conjunction
  | greater | less | lessEquals | greaterEquals | equals | is => .relation
  | plus | minus => .sum
  | times | quotient | remainder => .product

theorem Operator.kind_mem_operators (op : Operator) : op.kind ∈ op.level.operators := by
  cases op <;> decide

/-- Some tokens are a tree that stands for this expression. -/
def Expr.IsReadFrom (source : List Char) (u : List Token) (e : Expr α) : Prop :=
  ∃ a e', Level.sign.Derives u a ∧ a.toExpr source = .ok e' ∧ e'.bare = e.bare

theorem Level.Derives.of_atomLabel {tok : Token} {k : TokenKind} {label : Label} (hk : tok.kind = k)
    (h : Level.AtomLabel k label) : Level.sign.Derives [tok] (.leaf label tok.span) :=
  (Level.Derives.atom (hk ▸ h)).loosen (by decide)

theorem isReadFrom_of_number {value : Int64} {note : α}
    (hu : SpelledAs source u (integerSpellings value.toInt)) :
    Expr.IsReadFrom source u (.number value note) := by
  cases hvalue : value.toInt with
  | ofNat n =>
    rw [hvalue] at hu
    obtain ⟨digits, rfl, hkind, htext⟩ := hu.singleton
    refine ⟨_, .number value digits.span, .of_atomLabel hkind .number,
      Node.numberOf_eq_ok_iff.2 ⟨value, ?_, rfl⟩, rfl⟩
    rw [htext, Text.int64?_eq_some_iff, hvalue]
    exact integer?_repr n
  | negSucc n =>
    rw [hvalue] at hu
    obtain ⟨sign, v, rfl, hsign, hminus, hv⟩ := hu.cons
    obtain ⟨digits, rfl, hkind, htext⟩ := hv.singleton
    refine ⟨_, .number value _, .signed (by rw [hsign]; decide) (.of_atomLabel hkind .number),
      Node.toExpr_unary_eq_ok_iff.2 ⟨.inr hminus, rfl, Node.numberOf_eq_ok_iff.2 ⟨value, ?_, rfl⟩⟩,
      rfl⟩
    rw [hminus, Node.text_leaf, htext, Text.int64?_eq_some_iff, hvalue]
    exact integer?_minus_repr n

theorem isReadFrom_of_leaf {k : TokenKind} {s : String} {label : Label} {e : Expr α}
    (hu : SpelledAs source u [(k, s)]) (hlabel : Level.AtomLabel k label)
    (he : ∀ span : Span, span.text source = s →
      ∃ e', (Node.leaf label span).toExpr source = .ok e' ∧ e'.bare = e.bare) :
    e.IsReadFrom source u := by
  obtain ⟨tok, rfl, hkind, htext⟩ := hu.singleton
  obtain ⟨e', he', hbare⟩ := he tok.span htext
  exact ⟨_, e', .of_atomLabel hkind hlabel, he', hbare⟩

/-- Two expressions and an operator in parentheses are an operation. -/
theorem isReadFrom_of_binary {op : Operator} {lhs rhs : Expr α} {note : α}
    {left right : List Token} {opening mark closing : Token} (hopening : opening.kind = .openParen)
    (hmark : mark.kind = op.kind) (hsymbol : mark.span.text source = op.symbol)
    (hclosing : closing.kind = .closeParen) (hlhs : lhs.IsReadFrom source left)
    (hrhs : rhs.IsReadFrom source right) :
    (Expr.binary op lhs rhs note).IsReadFrom source
      (opening :: (left ++ mark :: (right ++ [closing]))) := by
  obtain ⟨a, x, ha, hx, hxbare⟩ := hlhs
  obtain ⟨b, y, hb, hy, hybare⟩ := hrhs
  have hop : mark.kind ∈ op.level.operators := hmark ▸ op.kind_mem_operators
  have hrank := Level.rank_le_of_mem_operators hop
  obtain ⟨m, hm⟩ := Level.exists_tighter (l := op.level) (Nat.lt_of_le_of_lt hrank (by decide))
  have hmrank : m.rank ≤ Level.sign.rank := by
    rw [Level.rank_tighter hm]
    exact Nat.succ_le_succ hrank
  have hoperation := Level.Derives.operation hm hop
    (ha.loosen (Nat.le_trans hrank (by decide))) (hb.loosen hmrank)
  have hgroup := Level.Derives.grouping hopening (hoperation.loosen (Nat.zero_le _)) hclosing
  have hmeaning : (Node.branch .binaryExpression [a, .leaf .operator mark.span, b]).toExpr source =
      .ok (.binary op x y (Node.spanOf [a, .leaf .operator mark.span, b])) := by
    refine Node.toExpr_binary_eq_ok_iff.2 ⟨op, x, y, ?_, hx, hy, rfl⟩
    rw [hsymbol]
    exact op.ofSymbol?_symbol
  rw [List.append_assoc, List.cons_append] at hgroup
  refine ⟨_, _, hgroup.loosen (by decide), hmeaning, ?_⟩
  simp only [Expr.bare] at hxbare hybare
  simp only [Expr.bare, Expr.map, hxbare, hybare]

mutual
/-- Tokens that are spelled like an expression are that expression. -/
theorem isReadFrom_of_spellings : ∀ {e : Expr α} {u : List Token},
    SpelledAs source u e.spellings → e.IsReadFrom source u
  | .number value _, _, hu => isReadFrom_of_number hu
  | .boolean true _, _, hu => isReadFrom_of_leaf hu .true fun span hspan =>
    ⟨.boolean true span, by rw [Node.leaf, Node.toExpr, hspan]; rfl, rfl⟩
  | .boolean false _, _, hu => isReadFrom_of_leaf hu .false fun span hspan =>
    ⟨.boolean false span, by rw [Node.leaf, Node.toExpr, hspan]; rfl, rfl⟩
  | .noneLiteral _, _, hu => isReadFrom_of_leaf hu .none fun span _ =>
    ⟨.noneLiteral span, rfl, rfl⟩
  | .ident name _, _, hu => isReadFrom_of_leaf hu .identifier fun span hspan =>
    ⟨.ident name span, by rw [Node.leaf, Node.toExpr, hspan], rfl⟩
  | .binary op lhs rhs _, _, hu => by
    obtain ⟨opening, v, rfl, hopening, -, hv⟩ := hu.cons
    obtain ⟨left, v, rfl, hleft, hv⟩ := hv.append
    obtain ⟨mark, v, rfl, hmark, hsymbol, hv⟩ := hv.cons
    obtain ⟨right, v, rfl, hright, hv⟩ := hv.append
    obtain ⟨closing, rfl, hclosing, -⟩ := hv.singleton
    exact isReadFrom_of_binary hopening hmark hsymbol hclosing (isReadFrom_of_spellings hleft)
      (isReadFrom_of_spellings hright)
  | .call function arguments _, _, hu => by
    obtain ⟨name, v, rfl, hname, htext, hv⟩ := hu.cons
    obtain ⟨opening, v, rfl, hopening, -, hv⟩ := hv.cons
    obtain ⟨nodes, es, harguments, hes, hbare⟩ := arguments_of_spellings hv
    have hcallee : Level.invocation.Derives [name] (.leaf .variableName name.span) :=
      (Level.Derives.atom (hname ▸ .identifier)).loosen (by decide)
    have hcall := Level.Derives.call hcallee hopening harguments
    refine ⟨_, _, hcall.loosen (by decide),
      Node.toExpr_call_eq_ok_iff.2 ⟨rfl, es, hes _ _, rfl⟩, ?_⟩
    simp only [Expr.bare, Expr.map, Node.text_leaf, htext, hbare]

theorem arguments_of_spellings : ∀ {es : List (Expr α)} {v : List Token},
    SpelledAs source v (Expr.argumentsSpellings es) →
      ∃ nodes es', Level.Arguments v nodes ∧
        (∀ last expected, Node.argumentsAfter source last expected nodes = .ok es') ∧
        Expr.mapAll (fun _ => ()) es' = Expr.mapAll (fun _ => ()) es
  | [], _, hv => by
    obtain ⟨closing, rfl, hclosing, -⟩ := hv.singleton
    exact ⟨_, [], .close hclosing, fun _ _ => Node.argumentsAfter_close_eq_ok_iff.2 rfl, rfl⟩
  | [e], _, hv => by
    obtain ⟨first, v, rfl, hfirst, hv⟩ := hv.append
    obtain ⟨closing, rfl, hclosing, -⟩ := hv.singleton
    obtain ⟨a, x, ha, hx, hbare⟩ := isReadFrom_of_spellings hfirst
    refine ⟨_, [x], .last (ha.loosen (Nat.zero_le _)) hclosing, fun _ _ =>
      (Node.argumentsAfter_last_eq_ok_iff ha.label_ne_closeParen).2 ⟨x, hx, rfl⟩, ?_⟩
    simp only [Expr.bare] at hbare
    simp only [Expr.mapAll, hbare]
  | e :: next :: rest, _, hv => by
    obtain ⟨first, v, rfl, hfirst, hv⟩ := hv.append
    obtain ⟨comma, v, rfl, hcomma, -, hv⟩ := hv.cons
    obtain ⟨a, x, ha, hx, hbare⟩ := isReadFrom_of_spellings hfirst
    obtain ⟨nodes, es, harguments, hes, hmore⟩ := arguments_of_spellings hv
    refine ⟨_, x :: es, .more (ha.loosen (Nat.zero_le _)) hcomma harguments, fun _ _ =>
      (Node.argumentsAfter_more_eq_ok_iff ha.label_ne_closeParen).2 ⟨x, es, hx, hes _ _, rfl⟩, ?_⟩
    simp only [Expr.bare] at hbare
    simp only [Expr.mapAll, hbare, hmore]
end

end Expressions

section Statements

/-- Some tokens before this kind are a tree that stands for this statement. -/
def Stmt.IsReadFrom (source : List Char) (next : TokenKind) (u : List Token) (st : Stmt α) : Prop :=
  ∃ a st', Script.Statement next u a ∧ a.toStmt source = .ok st' ∧ st'.bare = st.bare

/-- Some tokens before this kind are lines that stand for these statements. -/
def Stmt.AreReadFrom (source : List Char) (next : TokenKind) (u : List Token)
    (sts : List (Stmt α)) : Prop :=
  ∃ nodes sts', Script.Lines next u nodes ∧ Node.statementsOf source nodes = .ok sts' ∧
    Stmt.allBare sts' = Stmt.allBare sts

theorem lineEnd_of_spellings (hv : SpelledAs source v [(.newline, "")]) :
    Script.LineEnd next v := by
  obtain ⟨newline, rfl, hnewline, -⟩ := hv.singleton
  exact .newline hnewline

/-- The value at the end of a line. -/
theorem value_of_spellings {value : Expr α}
    (hu : SpelledAs source u (value.spellings ++ [(.newline, "")])) :
    ∃ v w a e', u = v ++ w ∧ Level.disjunction.Derives v a ∧ Script.LineEnd next w ∧
      a.toExpr source = .ok e' ∧ e'.bare = value.bare := by
  obtain ⟨v, w, rfl, hv, hw⟩ := hu.append
  obtain ⟨a, e', ha, he', hbare⟩ := isReadFrom_of_spellings hv
  exact ⟨v, w, a, e', rfl, ha.loosen (Nat.zero_le _), lineEnd_of_spellings hw, he', hbare⟩

theorem Ty.ofAnnotation?_name {type : Ty} (h : type.isDeclarable = true) :
    Ty.ofAnnotation? type.name = some type := by
  cases type with
  | int | bool => decide
  | none => exact absurd h (by decide)

/-- The type after its mark. -/
theorem type_of_spelling (label : Label) {k : TokenKind} {mark name : Token} {type : Ty}
    (hmark : mark.kind = k) (hname : name.kind = .identifier)
    (htext : name.span.text source = type.name) (htype : type.isDeclarable = true) :
    ∃ a, Script.OptionalType k label [mark, name] [.branch .typeDef [.leaf label mark.span, a]] ∧
      (Node.branch .typeDef [.leaf label mark.span, a]).toTy source = .ok type := by
  have hderives := Level.Derives.of_atomLabel hname .identifier
  refine ⟨_, .present hmark (hderives.loosen (Nat.zero_le _)),
    Node.toTy_eq_ok_iff.2 ⟨rfl, ?_⟩⟩
  rw [Node.text_leaf, htext]
  exact Ty.ofAnnotation?_name htype

/-- The result type of a function, or nothing. -/
theorem result_of_spellings {type : Ty} (hv : SpelledAs source v type.resultSpellings) :
    (type = .none ∧ v = []) ∨
      ∃ mark a, Script.OptionalType .arrow .arrow v [.branch .typeDef [.leaf .arrow mark, a]] ∧
        (Node.branch .typeDef [.leaf .arrow mark, a]).toTy source = .ok type := by
  by_cases htype : type.isDeclarable = true
  · have hspellings : type.resultSpellings = [(.arrow, "->"), (.identifier, type.name)] := by
      cases type with
      | int | bool => rfl
      | none => exact absurd htype (by decide)
    rw [hspellings] at hv
    obtain ⟨mark, v, rfl, hmark, -, hv⟩ := hv.cons
    obtain ⟨name, rfl, hname, htext⟩ := hv.singleton
    obtain ⟨a, hoptional, hmeaning⟩ := type_of_spelling .arrow hmark hname htext htype
    exact .inr ⟨mark.span, a, hoptional, hmeaning⟩
  · cases type with
    | int | bool => exact absurd (by decide) htype
    | none => exact .inl ⟨rfl, hv.nil⟩

theorem parameter_of_spellings {p : Parameter} (hv : SpelledAs source v p.typedSpellings)
    (h : p.wellFormed = true) :
    ∃ name m a, Script.Parameter v [.leaf .variableName name, .branch .typeDef [m, a]] ∧
      name.text source = p.name ∧ (Node.branch .typeDef [m, a]).toTy source = .ok p.type := by
  simp only [Parameter.wellFormed, Bool.and_eq_true] at h
  obtain ⟨name, v, rfl, hname, htext, hv⟩ := hv.cons
  obtain ⟨mark, v, rfl, hmark, -, hv⟩ := hv.cons
  obtain ⟨type, rfl, hkind, htype⟩ := hv.singleton
  obtain ⟨a, hoptional, hmeaning⟩ := type_of_spelling .colon hmark hkind htype h.2
  exact ⟨name.span, _, a, .mk hname hoptional, htext, hmeaning⟩

theorem parameters_of_spellings : ∀ {parameters : List Parameter} {v : List Token},
    SpelledAs source v (Parameter.listSpellings parameters) →
      parameters.all Parameter.wellFormed = true →
      ∃ nodes, Script.Parameters v nodes ∧
        ∀ last expected, Node.parametersAfter source last expected nodes = .ok parameters
  | [], _, hv, _ => by
    obtain ⟨closing, rfl, hclosing, -⟩ := hv.singleton
    exact ⟨_, .close hclosing, fun _ _ => Node.parametersAfter_close_eq_ok_iff.2 rfl⟩
  | [p], _, hv, h => by
    simp only [List.all_cons, Bool.and_eq_true] at h
    obtain ⟨first, v, rfl, hfirst, hv⟩ := hv.append
    obtain ⟨closing, rfl, hclosing, -⟩ := hv.singleton
    obtain ⟨name, m, a, hparameter, hname, htype⟩ := parameter_of_spellings hfirst h.1
    refine ⟨_, .last hparameter hclosing, fun _ _ =>
      Node.parametersAfter_last_eq_ok_iff.2 ⟨p.type, htype, ?_⟩⟩
    rw [hname]
  | p :: next :: rest, _, hv, h => by
    rw [List.all_cons, Bool.and_eq_true] at h
    obtain ⟨first, v, rfl, hfirst, hv⟩ := hv.append
    obtain ⟨comma, v, rfl, hcomma, -, hv⟩ := hv.cons
    obtain ⟨name, m, a, hparameter, hname, htype⟩ := parameter_of_spellings hfirst h.1
    obtain ⟨nodes, hparameters, hmore⟩ := parameters_of_spellings hv h.2
    refine ⟨_, .more hparameter hcomma hparameters, fun _ _ =>
      Node.parametersAfter_more_eq_ok_iff.2 ⟨p.type, next :: rest, htype, hmore _ _, ?_⟩⟩
    rw [hname]

/-- The lines of a block are a body, whatever follows. -/
theorem body_of_spellings (body : List (Stmt α))
    (hv : SpelledAs source v (blockSpellings (Stmt.allSpellings body)))
    (hinner : ∀ {w}, SpelledAs source w (Stmt.allSpellings body) →
      Stmt.AreReadFrom source .dedent w body) :
    ∃ a sts', (∀ next, Script.Body next v a) ∧ a.toBody source = .ok sts' ∧
      Stmt.allBare sts' = Stmt.allBare body := by
  obtain ⟨colon, v, rfl, hcolon, -, hv⟩ := hv.cons
  obtain ⟨newline, v, rfl, hnewline, -, hv⟩ := hv.cons
  obtain ⟨indent, v, rfl, hindent, -, hv⟩ := hv.cons
  obtain ⟨w, v, rfl, hw, hv⟩ := hv.append
  obtain ⟨dedent, rfl, hdedent, -⟩ := hv.singleton
  obtain ⟨nodes, sts', hlines, hsts, hbare⟩ := hinner hw
  refine ⟨_, sts', fun next => .block hcolon hnewline hindent ?_ (.dedent hdedent),
    Node.toBody_eq_ok_iff.2 hsts, hbare⟩
  rw [firstKind_cons, hdedent]
  exact hlines

theorem Expr.spellings_eq_cons (e : Expr α) :
    ∃ k s ss, e.spellings = (k, s) :: ss ∧ k ≠ .kwElif ∧ k ≠ .kwElse := by
  cases e with
  | number value =>
    unfold Expr.spellings
    cases value.toInt with
    | ofNat n => exact ⟨.number, n.repr, [], rfl, by decide⟩
    | negSucc n => exact ⟨.dash, "-", [(.number, (n + 1).repr)], rfl, by decide⟩
  | boolean value =>
    cases value with
    | true => exact ⟨.kwTrue, "True", [], rfl, by decide⟩
    | false => exact ⟨.kwFalse, "False", [], rfl, by decide⟩
  | noneLiteral => exact ⟨.kwNone, "None", [], rfl, by decide⟩
  | ident name => exact ⟨.identifier, name, [], rfl, by decide⟩
  | binary => exact ⟨.openParen, "(", _, rfl, by decide⟩
  | call function => exact ⟨.identifier, function, _, rfl, by decide⟩

/-- No statement starts like a further branch of a conditional. -/
theorem Stmt.spellings_eq_cons {st : Stmt α} (h : st.wellFormed = true) :
    ∃ k s ss, st.spellings = (k, s) :: ss ∧ k ≠ .kwElif ∧ k ≠ .kwElse := by
  cases st with
  | assign name => exact ⟨.identifier, name, _, rfl, by decide⟩
  | declare name => exact ⟨.identifier, name, _, rfl, by decide⟩
  | expression value =>
    obtain ⟨k, s, ss, hvalue, hk⟩ := value.spellings_eq_cons
    rw [Stmt.spellings, hvalue]
    exact ⟨k, s, _, rfl, hk⟩
  | function => exact ⟨.kwDef, "def", _, rfl, by decide⟩
  | «return» => exact ⟨.kwReturn, "return", _, rfl, by decide⟩
  | conditional first =>
    obtain ⟨kind, condition, body, span⟩ := first
    simp only [Stmt.wellFormed, Stmt.branchWellFormed, Bool.and_eq_true, decide_eq_true_eq] at h
    obtain ⟨⟨⟨⟨⟨rfl, -⟩, -⟩, -⟩, -⟩, -⟩ := h
    exact ⟨.kwIf, "if", _, rfl, by decide⟩
  | loop => exact ⟨.kwWhile, "while", _, rfl, by decide⟩
  | pass => exact ⟨.kwPass, "pass", _, rfl, by decide⟩

theorem firstKind_of_spellings {sts : List (Stmt α)} (h : Stmt.allWellFormed sts = true)
    (hv : SpelledAs source v (Stmt.allSpellings sts)) (helif : next ≠ .kwElif)
    (helse : next ≠ .kwElse) : firstKind v next ≠ .kwElif ∧ firstKind v next ≠ .kwElse := by
  cases sts with
  | nil =>
    obtain rfl := hv.nil
    exact ⟨helif, helse⟩
  | cons st rest =>
    simp only [Stmt.allWellFormed, Bool.and_eq_true] at h
    obtain ⟨k, s, ss, hst, hk⟩ := Stmt.spellings_eq_cons h.1
    rw [Stmt.allSpellings, hst] at hv
    obtain ⟨tok, w, rfl, rfl, -, -⟩ := hv.cons
    exact hk

/-- The part of a conditional for no condition, or nothing. -/
theorem otherwise_of_spellings (body : List (Stmt α))
    (hv : SpelledAs source v (if body.isEmpty then []
      else (.kwElse, "else") :: blockSpellings (Stmt.allSpellings body)))
    (helif : next ≠ .kwElif) (helse : next ≠ .kwElse)
    (hinner : ∀ {w}, SpelledAs source w (Stmt.allSpellings body) →
      Stmt.AreReadFrom source .dedent w body) :
    ∃ nodes sts', Script.Further next v nodes ∧
      Node.branchesAfter source nodes = .ok ([], sts') ∧
      Stmt.allBare sts' = Stmt.allBare body := by
  cases body with
  | nil =>
    obtain rfl := hv.nil
    exact ⟨[], [], .none helif helse, rfl, rfl⟩
  | cons st rest =>
    obtain ⟨keyword, v, rfl, hkeyword, htext, hv⟩ := hv.cons
    obtain ⟨a, sts', hbody, hsts, hbare⟩ := body_of_spellings _ hv hinner
    exact ⟨_, sts', .otherwise hkeyword (hbody next),
      (Node.branchesAfter_else_eq_ok_iff htext).2 ⟨sts', hsts, rfl⟩, hbare⟩

theorem isReadFrom_of_assign {name : String} {value : Expr α} {note : α}
    (hu : SpelledAs source u (Stmt.assign name value note).spellings) :
    (Stmt.assign name value note).IsReadFrom source next u := by
  obtain ⟨target, u, rfl, htarget, htext, hu⟩ := hu.cons
  obtain ⟨mark, u, rfl, hmark, -, hu⟩ := hu.cons
  obtain ⟨v, w, a, e, rfl, ha, hend, he, hbare⟩ := value_of_spellings hu
  refine ⟨_, _, .assignment htarget (.value .absent hmark ha) hend,
    Node.toStmt_assign_eq_ok_iff.2 ⟨e, he, rfl⟩, ?_⟩
  simp only [Stmt.bare, hbare, htext]

theorem isReadFrom_of_declare {name : String} {type : Ty} {value : Expr α} {note : α}
    (htype : type.isDeclarable = true)
    (hu : SpelledAs source u (Stmt.declare name type value note).spellings) :
    (Stmt.declare name type value note).IsReadFrom source next u := by
  obtain ⟨target, u, rfl, htarget, htext, hu⟩ := hu.cons
  obtain ⟨colon, u, rfl, hcolon, -, hu⟩ := hu.cons
  obtain ⟨named, u, rfl, hnamed, hname, hu⟩ := hu.cons
  obtain ⟨mark, u, rfl, hmark, -, hu⟩ := hu.cons
  obtain ⟨v, w, a, e, rfl, ha, hend, he, hbare⟩ := value_of_spellings hu
  obtain ⟨b, hoptional, hmeaning⟩ := type_of_spelling .colon hcolon hnamed hname htype
  refine ⟨_, _, .assignment htarget (.value hoptional hmark ha) hend,
    Node.toStmt_declare_eq_ok_iff.2 ⟨type, e, hmeaning, he, rfl⟩, ?_⟩
  simp only [Stmt.bare, hbare, htext]

theorem isReadFrom_of_function {name : String} {parameters : List Parameter} {returns : Ty}
    {body : List (Stmt α)} {note : α} (hparameters : parameters.all Parameter.wellFormed = true)
    (hu : SpelledAs source u (Stmt.function name parameters returns body note).spellings)
    (hinner : ∀ {w}, SpelledAs source w (Stmt.allSpellings body) →
      Stmt.AreReadFrom source .dedent w body) :
    (Stmt.function name parameters returns body note).IsReadFrom source next u := by
  obtain ⟨keyword, u, rfl, hkeyword, hdef, hu⟩ := hu.cons
  obtain ⟨target, u, rfl, htarget, htext, hu⟩ := hu.cons
  obtain ⟨opening, u, rfl, hopening, -, hu⟩ := hu.cons
  obtain ⟨v, u, rfl, hv, hu⟩ := hu.append
  obtain ⟨result, w, rfl, hresult, hw⟩ := hu.append
  obtain ⟨nodes, hlist, hread⟩ := parameters_of_spellings hv hparameters
  obtain ⟨b, sts, hbody, hsts, hall⟩ := body_of_spellings body hw hinner
  have hparameters' := Node.toParameters_eq_ok_iff.2 (hread (.leaf .openParen opening.span) "`)`")
  obtain ⟨rfl, rfl⟩ | ⟨mark, a, hoptional, htype⟩ := result_of_spellings hresult
  · refine ⟨_, _, .function hkeyword htarget hopening hlist .absent (hbody next),
      (Node.toStmt_function_eq_ok_iff (hbody next).label_eq_body).2
        ⟨hdef, parameters, sts, hparameters', hsts, rfl⟩, ?_⟩
    simp only [Stmt.bare, htext, hall]
  · refine ⟨_, _, .function hkeyword htarget hopening hlist hoptional (hbody next),
      Node.toStmt_typedFunction_eq_ok_iff.2
        ⟨hdef, parameters, returns, sts, hparameters', htype, hsts, rfl⟩, ?_⟩
    simp only [Stmt.bare, htext, hall]

/-- A condition and the body for it. -/
theorem branch_of_spellings {condition : Expr α} {body : List (Stmt α)} {k : TokenKind}
    {keyword : String}
    (hv : SpelledAs source v ((k, keyword) ::
      (condition.spellings ++ blockSpellings (Stmt.allSpellings body))))
    (hinner : ∀ {w}, SpelledAs source w (Stmt.allSpellings body) →
      Stmt.AreReadFrom source .dedent w body) :
    ∃ mark c w a e node sts, v = mark :: (c ++ w) ∧ mark.kind = k ∧
      mark.span.text source = keyword ∧ Level.disjunction.Derives c a ∧
      a.toExpr source = .ok e ∧ e.bare = condition.bare ∧ (∀ next, Script.Body next w node) ∧
      node.toBody source = .ok sts ∧ Stmt.allBare sts = Stmt.allBare body := by
  obtain ⟨mark, v, rfl, hmark, htext, hv⟩ := hv.cons
  obtain ⟨c, w, rfl, hc, hw⟩ := hv.append
  obtain ⟨a, e, ha, he, hbare⟩ := isReadFrom_of_spellings hc
  obtain ⟨node, sts, hbody, hsts, hall⟩ := body_of_spellings body hw hinner
  exact ⟨mark, c, w, a, e, node, sts, rfl, hmark, htext, ha.loosen (Nat.zero_le _), he, hbare,
    hbody, hsts, hall⟩

mutual
/-- Tokens that are spelled like a statement are that statement. -/
theorem isReadFrom_of_statement : ∀ {st : Stmt α} {u : List Token} {next : TokenKind},
    st.wellFormed = true → SpelledAs source u st.spellings → next ≠ .kwElif → next ≠ .kwElse →
      st.IsReadFrom source next u
  | .assign .., _, _, _, hu, _, _ => isReadFrom_of_assign hu
  | .declare .., _, _, h, hu, _, _ => by
    simp only [Stmt.wellFormed, Bool.and_eq_true] at h
    exact isReadFrom_of_declare h.1.2 hu
  | .expression value _, _, _, _, hu, _, _ => by
    obtain ⟨v, w, a, e, rfl, ha, hend, he, hbare⟩ := value_of_spellings hu
    refine ⟨_, _, .expression ha hend, Node.toStmt_expression_eq_ok_iff.2 ⟨e, he, rfl⟩, ?_⟩
    simp only [Stmt.bare, hbare]
  | .function .., _, _, h, hu, _, _ => by
    simp only [Stmt.wellFormed, Bool.and_eq_true] at h
    obtain ⟨⟨⟨-, hparameters⟩, -⟩, hwell⟩ := h
    exact isReadFrom_of_function hparameters hu fun hw =>
      areReadFrom_of_statements _ hwell hw (by decide) (by decide)
  | .return value _, _, _, _, hu, _, _ => by
    obtain ⟨keyword, u, rfl, hkeyword, htext, hu⟩ := hu.cons
    obtain ⟨v, w, a, e, rfl, ha, hend, he, hbare⟩ := value_of_spellings hu
    refine ⟨_, _, .returnValue hkeyword ha hend,
      Node.toStmt_returnValue_eq_ok_iff.2 ⟨htext, e, he, rfl⟩, ?_⟩
    simp only [Stmt.bare, hbare]
  | .conditional ⟨_, condition, body, _⟩ alternatives otherwise _, _, _, h, hu, helif, helse => by
    simp only [Stmt.wellFormed, Stmt.branchWellFormed, Bool.and_eq_true, decide_eq_true_eq] at h
    obtain ⟨⟨⟨⟨⟨rfl, -⟩, -⟩, hwell⟩, halternatives⟩, hotherwise⟩ := h
    obtain ⟨v, u, rfl, hv, hu⟩ := hu.append
    obtain ⟨w, x, rfl, hw, hx⟩ := hu.append
    obtain ⟨last, sts, hlast, hsts, hall⟩ := otherwise_of_spellings otherwise hx helif helse
      fun hy => areReadFrom_of_statements _ hotherwise hy (by decide) (by decide)
    obtain ⟨nodes, bs, hfurther, hbranches, hbares⟩ :=
      branches_of_spellings halternatives hw hlast hsts
    obtain ⟨keyword, c, y, a, e, node, inner, rfl, hkeyword, htext, ha, he, hbare, hbody, hinner,
      hinnerBare⟩ := branch_of_spellings hv fun hy =>
        areReadFrom_of_statements _ hwell hy (by decide) (by decide)
    rw [List.cons_append, List.append_assoc]
    refine ⟨_, _, .conditional hkeyword ha (hbody _) hfurther,
      (Node.toStmt_conditional_eq_ok_iff ha.isExpression).2
        ⟨htext, e, inner, (bs, sts), he, hinner, hbranches, rfl⟩, ?_⟩
    simp only [Stmt.bare, Stmt.branchBare, hbare, hinnerBare, hbares, hall]
  | .loop condition body _, _, next, h, hu, _, _ => by
    simp only [Stmt.wellFormed, Bool.and_eq_true] at h
    obtain ⟨keyword, c, y, a, e, node, inner, rfl, hkeyword, htext, ha, he, hbare, hbody, hinner,
      hinnerBare⟩ := branch_of_spellings hu fun hy =>
        areReadFrom_of_statements _ h.2 hy (by decide) (by decide)
    refine ⟨_, _, .loop hkeyword ha (hbody next),
      (Node.toStmt_loop_eq_ok_iff ha.isExpression).2 ⟨htext, e, inner, he, hinner, rfl⟩, ?_⟩
    simp only [Stmt.bare, hbare, hinnerBare]
  | .pass _, _, _, _, hu, _, _ => by
    obtain ⟨keyword, u, rfl, hkeyword, -, hu⟩ := hu.cons
    exact ⟨_, .pass _, .pass hkeyword (lineEnd_of_spellings hu), rfl, rfl⟩

theorem areReadFrom_of_statements : ∀ {sts : List (Stmt α)} {u : List Token} (next : TokenKind),
    Stmt.allWellFormed sts = true → SpelledAs source u (Stmt.allSpellings sts) →
      next ≠ .kwElif → next ≠ .kwElse → Stmt.AreReadFrom source next u sts
  | [], _, _, _, hu, _, _ => by
    obtain rfl := hu.nil
    exact ⟨[], [], .nil, rfl, rfl⟩
  | st :: rest, _, next, h, hu, helif, helse => by
    simp only [Stmt.allWellFormed, Bool.and_eq_true] at h
    obtain ⟨v, w, rfl, hv, hw⟩ := hu.append
    obtain ⟨nodes, sts, hlines, hsts, hall⟩ := areReadFrom_of_statements next h.2 hw helif helse
    obtain ⟨helif', helse'⟩ := firstKind_of_spellings h.2 hw helif helse
    obtain ⟨a, st', ha, hst, hbare⟩ := isReadFrom_of_statement h.1 hv helif' helse'
    refine ⟨_, st' :: sts, .statement ha hlines,
      (Node.statementsOf_cons_eq_ok_iff ha.label_ne_colon).2 ⟨st', sts, hst, hsts, rfl⟩, ?_⟩
    simp only [Stmt.allBare, hbare, hall]

/-- Further branches before the part for no condition. -/
theorem branches_of_spellings : ∀ {branches : List (Branch α)} {v w : List Token}
    {next : TokenKind} {last : List Node} {sts : List (Stmt Span)},
    Stmt.branchesWellFormed branches = true →
      SpelledAs source v (Stmt.branchesSpellings branches) → Script.Further next w last →
      Node.branchesAfter source last = .ok ([], sts) →
      ∃ nodes bs, Script.Further next (v ++ w) nodes ∧
        Node.branchesAfter source nodes = .ok (bs, sts) ∧
        Stmt.branchesBare bs = Stmt.branchesBare branches
  | [], _, _, _, last, _, _, hv, hlast, hsts => by
    obtain rfl := hv.nil
    exact ⟨last, [], hlast, hsts, rfl⟩
  | ⟨_, condition, body, _⟩ :: rest, _, _, _, _, sts, h, hv, hlast, hsts => by
    simp only [Stmt.branchesWellFormed, Stmt.branchWellFormed, Bool.and_eq_true,
      decide_eq_true_eq] at h
    obtain ⟨⟨⟨⟨rfl, -⟩, -⟩, hwell⟩, hrest⟩ := h
    obtain ⟨v, x, rfl, hv, hx⟩ := hv.append
    obtain ⟨nodes, bs, hfurther, hbranches, hbares⟩ := branches_of_spellings hrest hx hlast hsts
    obtain ⟨keyword, c, y, a, e, node, inner, rfl, hkeyword, htext, ha, he, hbare, hbody, hinner,
      hinnerBare⟩ := branch_of_spellings hv fun hy =>
        areReadFrom_of_statements _ hwell hy (by decide) (by decide)
    rw [List.append_assoc, List.cons_append, List.append_assoc]
    refine ⟨_, _ :: bs, .alternative hkeyword ha (hbody _) hfurther,
      (Node.branchesAfter_elif_eq_ok_iff htext ha.isExpression).2
        ⟨e, inner, (bs, sts), he, hinner, hbranches, rfl⟩, ?_⟩
    simp only [Stmt.branchesBare, Stmt.branchBare, hbare, hinnerBare, hbares]
end

end Statements

end Offside
