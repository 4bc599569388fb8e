import Offside.Proofs.FrontEnd

/-! Nothing is lost, made up or moved on the way from a text to its statements. Layout, parentheses
and the signs between the parts of a statement apart, the tokens of a text are those that its
statements are written with, in the same order. -/
namespace Offside

/-- Whether a kind only sets the parts of a program apart. -/
def TokenKind.isPunctuation : TokenKind → Bool
  | newline | indent | dedent | eof | openParen | closeParen | comma | colon | assignment | arrow =>
    true
  | _ => false

/-- The kinds and texts of the tokens that are no punctuation. -/
def significant (tokens : List Token) : List Spelling :=
  (tokens.filter (!·.kind.isPunctuation)).map Token.spelling

@[simp] theorem significant_nil : significant [] = [] := rfl

@[simp] theorem significant_append (u v : List Token) :
    significant (u ++ v) = significant u ++ significant v := by
  simp [significant]

variable {tok : Token} {u : List Token} {k : TokenKind}

theorem significant_drop (hk : tok.kind = k) (h : k.isPunctuation = true) :
    significant (tok :: u) = significant u := by
  simp [significant, hk, h]

theorem significant_keep (hk : tok.kind = k) (h : k.isPunctuation = false) :
    significant (tok :: u) = (k, tok.value) :: significant u := by
  simp [significant, hk, h, Token.spelling]

/-- A token of a kind with one fixed text keeps this text. -/
theorem significant_fixed {source : List Char} {t : String} (h : tok.Written source)
    (hk : tok.kind = k) (ht : k.text? = some t) (hp : k.isPunctuation = false) :
    significant (tok :: u) = (k, t) :: significant u := by
  rw [significant_keep hk hp, h.value_eq (hk ▸ ht)]

/-- The digits of a number, and maybe a sign before them. -/
inductive WritesNumber (value : Int64) : List Spelling → Prop
  | unsigned {digits n} : Text.natural? digits.toList = some n → value.toInt = n →
      WritesNumber value [(.number, digits)]
  | plus {digits n} : Text.natural? digits.toList = some n → value.toInt = n →
      WritesNumber value [(.plus, "+"), (.number, digits)]
  | minus {digits n} : Text.natural? digits.toList = some n → value.toInt = -n →
      WritesNumber value [(.dash, "-"), (.number, digits)]

mutual
/-- The tokens that an expression is written with, parentheses and commas apart. -/
inductive Expr.Flattens : Expr Span → List Spelling → Prop
  | number {value note ts} : WritesNumber value ts → Flattens (.number value note) ts
  | literalTrue {note} : Flattens (.boolean true note) [(.kwTrue, "True")]
  | literalFalse {note} : Flattens (.boolean false note) [(.kwFalse, "False")]
  | noneLiteral {note} : Flattens (.noneLiteral note) [(.kwNone, "None")]
  | ident {name note} : Flattens (.ident name note) [(.identifier, name)]
  | binary {op lhs rhs note ts us} : Flattens lhs ts → Flattens rhs us →
      Flattens (.binary op lhs rhs note) (ts ++ (op.kind, op.symbol) :: us)
  | call {function arguments note ts} : FlattenAll arguments ts →
      Flattens (.call function arguments note) ((.identifier, function) :: ts)

inductive Expr.FlattenAll : List (Expr Span) → List Spelling → Prop
  | nil : FlattenAll [] []
  | cons {e es ts us} : Flattens e ts → FlattenAll es us → FlattenAll (e :: es) (ts ++ us)
end

/-- The name of a parameter and that of its type. -/
def Parameter.spellings (p : Parameter) : List Spelling :=
  [(.identifier, p.name), (.identifier, p.type.name)]

/-- The name of a type that can be written. -/
def Ty.spellings : Ty → List Spelling
  | none => []
  | type => [(.identifier, type.name)]

mutual
/-- The tokens that a statement is written with, punctuation apart. A `return` without a value gives
the absent one, which has the span of the statement. -/
inductive Stmt.Flattens : Stmt Span → List Spelling → Prop
  | assign {name value note ts} : value.Flattens ts →
      Flattens (.assign name value note) ((.identifier, name) :: ts)
  | declare {name type value note ts} : value.Flattens ts →
      Flattens (.declare name type value note)
        ((.identifier, name) :: (.identifier, type.name) :: ts)
  | expression {value note ts} : value.Flattens ts → Flattens (.expression value note) ts
  | function {name parameters returns body note ts} : FlattenAll body ts →
      Flattens (.function name parameters returns body note) ((.kwDef, "def") ::
        (.identifier, name) :: (parameters.flatMap Parameter.spellings ++
          (returns.spellings ++ ts)))
  | returnNone {note} : Flattens (.return (.noneLiteral note) note) [(.kwReturn, "return")]
  | returnValue {value note ts} : value ≠ .noneLiteral note → value.Flattens ts →
      Flattens (.return value note) ((.kwReturn, "return") :: ts)
  | conditional {kind condition body span alternatives otherwise note ts us vs ws} :
      condition.Flattens ts → FlattenAll body us → FlattenBranches alternatives vs →
      FlattenElse otherwise ws →
      Flattens (.conditional ⟨kind, condition, body, span⟩ alternatives otherwise note)
        ((.kwIf, "if") :: (ts ++ (us ++ (vs ++ ws))))
  | loop {condition body note ts us} : condition.Flattens ts → FlattenAll body us →
      Flattens (.loop condition body note) ((.kwWhile, "while") :: (ts ++ us))
  | pass {note} : Flattens (.pass note) [(.kwPass, "pass")]

inductive Stmt.FlattenAll : List (Stmt Span) → List Spelling → Prop
  | nil : FlattenAll [] []
  | cons {st sts ts us} : Flattens st ts → FlattenAll sts us → FlattenAll (st :: sts) (ts ++ us)

inductive Stmt.FlattenBranches : List (Branch Span) → List Spelling → Prop
  | nil : FlattenBranches [] []
  | cons {kind condition body span rest ts us vs} : condition.Flattens ts → FlattenAll body us →
      FlattenBranches rest vs → FlattenBranches (⟨kind, condition, body, span⟩ :: rest)
        ((.kwElif, "elif") :: (ts ++ (us ++ vs)))

inductive Stmt.FlattenElse : List (Stmt Span) → List Spelling → Prop
  | nil : FlattenElse [] []
  | cons {body ts} : body ≠ [] → FlattenAll body ts → FlattenElse body ((.kwElse, "else") :: ts)
end

section Numbers

variable {text : String} {value : Int64}

theorem writesNumber_unsigned {digits : String} (hdigits : TokenKind.isDigits digits = true)
    (h : Text.int64? digits.toList = some value) : WritesNumber value [(.number, digits)] := by
  rw [Text.int64?_eq_some_iff, Text.integer?_of_isDigits hdigits] at h
  obtain ⟨n, hn, hvalue⟩ := Option.map_eq_some_iff.1 h
  exact .unsigned hn hvalue.symm

theorem writesNumber_plus {digits : String}
    (h : Text.int64? ("+" ++ digits).toList = some value) :
    WritesNumber value [(.plus, "+"), (.number, digits)] := by
  rw [Text.int64?_eq_some_iff, String.toList_append] at h
  obtain ⟨n, hn, hvalue⟩ := Option.map_eq_some_iff.1 h
  exact .plus hn hvalue.symm

theorem writesNumber_minus {digits : String}
    (h : Text.int64? ("-" ++ digits).toList = some value) :
    WritesNumber value [(.dash, "-"), (.number, digits)] := by
  rw [Text.int64?_eq_some_iff, String.toList_append] at h
  obtain ⟨n, hn, hvalue⟩ := Option.map_eq_some_iff.1 h
  exact .minus hn hvalue.symm

end Numbers

section Expressions

variable {source : List Char} {tok : Token}

/-- A name or literal is written with its token. -/
theorem flattens_of_atom {label : Label} {e : Expr Span} (h : tok.Written source)
    (hatom : Level.AtomLabel tok.kind label)
    (he : (Node.leaf label tok.span).toExpr source = .ok e) : e.Flattens (significant [tok]) := by
  have hkind : ∃ k, tok.kind = k := ⟨_, rfl⟩
  obtain ⟨k, hk⟩ := hkind
  rw [hk] at hatom
  cases hatom with
  | number =>
    rw [significant_keep hk rfl]
    have hdigits : TokenKind.isDigits tok.value = true := by
      have hspelled := h.spelled
      rwa [hk] at hspelled
    obtain ⟨value, hvalue, rfl⟩ := Node.numberOf_eq_ok_iff.1 he
    rw [h.text] at hvalue
    exact .number (writesNumber_unsigned hdigits hvalue)
  | identifier =>
    rw [significant_keep hk rfl]
    cases he
    rw [h.text]
    exact .ident
  | true =>
    rw [significant_fixed h hk rfl rfl]
    cases he
    rw [h.text_eq hk rfl]
    exact .literalTrue
  | false =>
    rw [significant_fixed h hk rfl rfl]
    cases he
    rw [h.text_eq hk rfl]
    exact .literalFalse
  | none =>
    rw [significant_fixed h hk rfl rfl]
    cases he
    exact .noneLiteral

theorem significant_operator {l : Level} (h : tok.Written source) (hop : tok.kind ∈ l.operators)
    {op : Operator} (hsymbol : Operator.ofSymbol? (tok.span.text source) = some op)
    (u : List Token) : significant (tok :: u) = (op.kind, op.symbol) :: significant u := by
  have hpunctuation : tok.kind.isPunctuation = false := by
    have hall : ∀ k ∈ l.operators, k.isPunctuation = false := by cases l <;> decide
    exact hall _ hop
  have htext : ∃ t, tok.kind.text? = some t := by
    have hall : ∀ k ∈ l.operators, k.text?.isSome = true := by cases l <;> decide
    exact Option.isSome_iff_exists.1 (hall _ hop)
  obtain ⟨t, ht⟩ := htext
  have hvalue : tok.value = op.symbol := by
    have hfind := List.find?_some hsymbol
    rw [h.text] at hfind
    exact (of_decide_eq_true hfind).symm
  have hkind : tok.kind = op.kind := by
    rw [h.value_eq ht] at hvalue
    rw [hvalue] at ht
    exact Operator.kind_eq_of_text? ht
  rw [significant_keep hkind (hkind ▸ hpunctuation), hvalue]

/-- A sign belongs to the digits after it. -/
theorem flattens_of_signed {u : List Token} {a : Node} {e : Expr Span} (h : tok.Written source)
    (hu : ∀ tok ∈ u, tok.Written source) (hop : tok.kind ∈ [TokenKind.plus, .dash])
    (ha : Level.sign.Derives u a) (he : (Node.branch .unaryExpression
      [.leaf .operator tok.span, a]).toExpr source = .ok e) :
    e.Flattens (significant (tok :: u)) := by
  obtain ⟨-, hlabel, hnumber⟩ := Node.toExpr_unary_eq_ok_iff.1 he
  obtain ⟨digits, rfl, hdigits, rfl⟩ := ha.eq_number hlabel
  obtain ⟨value, hvalue, rfl⟩ := Node.numberOf_eq_ok_iff.1 hnumber
  rw [Node.text_leaf, h.text, (hu digits (List.mem_singleton_self _)).text] at hvalue
  have hrest : significant [digits] = [(.number, digits.value)] := significant_keep hdigits rfl
  simp only [List.mem_cons, List.not_mem_nil, or_false] at hop
  obtain hplus | hdash := hop
  · have hsign : tok.value = "+" := h.value_eq (by rw [hplus]; rfl)
    rw [hsign] at hvalue
    rw [significant_fixed h hplus rfl rfl, hrest]
    exact .number (writesNumber_plus hvalue)
  · have hsign : tok.value = "-" := h.value_eq (by rw [hdash]; rfl)
    rw [hsign] at hvalue
    rw [significant_fixed h hdash rfl rfl, hrest]
    exact .number (writesNumber_minus hvalue)

mutual
/-- The tokens of an expression are those that its meaning is written with. -/
theorem flattens_of_derives : ∀ {l : Level} {u : List Token} {a : Node} {e : Expr Span},
    l.Derives u a → (∀ tok ∈ u, tok.Written source) → a.toExpr source = .ok e →
      e.Flattens (significant u)
  | _, _, _, _, .tighter _ ha, hu, he => flattens_of_derives ha hu he
  | _, _, _, _, .operation _ hop hleft hright, hu, he => by
    obtain ⟨huleft, hu⟩ := List.forall_mem_append.1 hu
    obtain ⟨htok, huright⟩ := List.forall_mem_cons.1 hu
    obtain ⟨op, x, y, hsymbol, hx, hy, rfl⟩ := Node.toExpr_binary_eq_ok_iff.1 he
    rw [significant_append, significant_operator htok hop hsymbol]
    exact .binary (flattens_of_derives hleft huleft hx) (flattens_of_derives hright huright hy)
  | _, _, _, _, .signed hop ha, hu, he => by
    obtain ⟨htok, hu⟩ := List.forall_mem_cons.1 hu
    exact flattens_of_signed htok hu hop ha he
  | _, _, _, _, .call hf hopen hargs, hu, he => by
    obtain ⟨huf, hu⟩ := List.forall_mem_append.1 hu
    obtain ⟨-, huargs⟩ := List.forall_mem_cons.1 hu
    obtain ⟨hlabel, es, hes, rfl⟩ := Node.toExpr_call_eq_ok_iff.1 he
    obtain ⟨name, rfl, hname, rfl⟩ := hf.eq_variableName hlabel
    have hargs := flattenAll_of_arguments hargs huargs hes
    rw [significant_append, significant_drop hopen rfl, significant_keep hname rfl, Node.text_leaf,
      (huf name (List.mem_singleton_self _)).text]
    exact .call hargs
  | _, _, _, _, .atom h, hu, he =>
    flattens_of_atom (hu _ (List.mem_singleton_self _)) h he
  | _, _, _, _, .grouping hopen ha hclose, hu, he => by
    obtain ⟨-, hu⟩ := List.forall_mem_cons.1 hu
    obtain ⟨hu, -⟩ := List.forall_mem_append.1 hu
    have hinner := flattens_of_derives ha hu he
    rw [significant_drop hopen rfl, significant_append,
      significant_drop hclose rfl, significant_nil, List.append_nil]
    exact hinner

theorem flattenAll_of_arguments : ∀ {v : List Token} {nodes : List Node} {es : List (Expr Span)}
    {last : Node} {expected : String}, Level.Arguments v nodes →
      (∀ tok ∈ v, tok.Written source) →
      Node.argumentsAfter source last expected nodes = .ok es →
        Expr.FlattenAll es (significant v)
  | _, _, _, _, _, .close hclose, hv, hes => by
    obtain rfl := Node.argumentsAfter_close_eq_ok_iff.1 hes
    rw [significant_drop hclose rfl]
    exact .nil
  | _, _, _, _, _, .last ha hclose, hv, hes => by
    obtain ⟨hu, -⟩ := List.forall_mem_append.1 hv
    obtain ⟨x, hx, rfl⟩ := (Node.argumentsAfter_last_eq_ok_iff ha.label_ne_closeParen).1 hes
    rw [significant_append, significant_drop hclose rfl]
    exact .cons (flattens_of_derives ha hu hx) .nil
  | _, _, _, _, _, .more ha hcomma hmore, hv, hes => by
    obtain ⟨hu, hv⟩ := List.forall_mem_append.1 hv
    obtain ⟨-, hv⟩ := List.forall_mem_cons.1 hv
    obtain ⟨x, more, hx, hm, rfl⟩ :=
      (Node.argumentsAfter_more_eq_ok_iff ha.label_ne_closeParen).1 hes
    rw [significant_append, significant_drop hcomma rfl]
    exact .cons (flattens_of_derives ha hu hx) (flattenAll_of_arguments hmore hv hm)
end

end Expressions

section Types

variable {source : List Char} {u : List Token} {a : Node} {mark : Token}

theorem Ty.name_of_ofAnnotation? {s : String} {type : Ty} (h : Ty.ofAnnotation? s = some type) :
    type.name = s := by
  simpa using List.find?_some h

theorem Ty.spellings_of_ofAnnotation? {s : String} {type : Ty}
    (h : Ty.ofAnnotation? s = some type) : type.spellings = [(.identifier, s)] := by
  have hmem := List.mem_of_find?_eq_some h
  rw [← Ty.name_of_ofAnnotation? h]
  simp only [List.mem_cons, List.not_mem_nil, or_false] at hmem
  obtain rfl | rfl := hmem <;> rfl

/-- A type is written with its name. -/
theorem significant_type {m : Node} {type : Ty} (hmark : mark.kind.isPunctuation = true)
    (ha : Level.disjunction.Derives u a) (hu : ∀ tok ∈ u, tok.Written source)
    (h : (Node.branch .typeDef [m, a]).toTy source = .ok type) :
    significant (mark :: u) = type.spellings ∧ type.spellings = [(.identifier, type.name)] := by
  obtain ⟨hlabel, htype⟩ := Node.toTy_eq_ok_iff.1 h
  obtain ⟨name, rfl, hname, rfl⟩ := ha.eq_variableName hlabel
  rw [Node.text_leaf, (hu name (List.mem_singleton_self _)).text] at htype
  have hspellings := Ty.spellings_of_ofAnnotation? htype
  rw [significant_drop rfl hmark, significant_keep hname rfl, hspellings,
    Ty.name_of_ofAnnotation? htype]
  exact ⟨rfl, rfl⟩

theorem significant_parameters {last : Node} {expected : String} {nodes : List Node}
    {parameters : List Parameter} (h : Script.Parameters u nodes)
    (hu : ∀ tok ∈ u, tok.Written source)
    (hp : Node.parametersAfter source last expected nodes = .ok parameters) :
    significant u = parameters.flatMap Parameter.spellings := by
  induction h generalizing last expected parameters with
  | close hclose =>
    obtain rfl := Node.parametersAfter_close_eq_ok_iff.1 hp
    exact significant_drop hclose rfl
  | last hparameter hclose =>
    obtain ⟨hname, htype⟩ := hparameter
    cases htype with
    | absent => exact absurd hp (Node.parametersAfter_untyped_ne_ok nofun)
    | present hmark ha =>
      obtain ⟨hu, -⟩ := List.forall_mem_append.1 hu
      obtain ⟨hwritten, hu⟩ := List.forall_mem_cons.1 hu
      obtain ⟨-, hu⟩ := List.forall_mem_cons.1 hu
      obtain ⟨type, htype, rfl⟩ := Node.parametersAfter_last_eq_ok_iff.1 hp
      obtain ⟨htokens, hspellings⟩ := significant_type (by rw [hmark]; rfl) ha hu htype
      rw [List.cons_append, significant_keep hname rfl, significant_append, htokens, hspellings,
        significant_drop hclose rfl, hwritten.text]
      rfl
  | more hparameter hcomma hmore ih =>
    obtain ⟨hname, htype⟩ := hparameter
    cases htype with
    | absent => exact absurd hp (Node.parametersAfter_untyped_ne_ok nofun)
    | present hmark ha =>
      obtain ⟨hu, hv⟩ := List.forall_mem_append.1 hu
      obtain ⟨-, hv⟩ := List.forall_mem_cons.1 hv
      obtain ⟨hwritten, hu⟩ := List.forall_mem_cons.1 hu
      obtain ⟨-, hu⟩ := List.forall_mem_cons.1 hu
      obtain ⟨type, more, htype, hm, rfl⟩ := Node.parametersAfter_more_eq_ok_iff.1 hp
      obtain ⟨htokens, hspellings⟩ := significant_type (by rw [hmark]; rfl) ha hu htype
      rw [List.cons_append, significant_keep hname rfl, significant_append, htokens, hspellings,
        significant_drop hcomma rfl, hwritten.text, ih hv hm]
      rfl

end Types

section Statements

variable {source : List Char} {u v w : List Token} {next : TokenKind} {a : Node}

theorem span_of_atom {k : TokenKind} {label : Label} {span span' : Span}
    (h : Level.AtomLabel k label)
    (he : (Node.leaf label span).toExpr source = .ok (.noneLiteral span')) : span' = span := by
  cases h with
  | number =>
    obtain ⟨_, -, h⟩ := Node.numberOf_eq_ok_iff.1 he
    cases h
  | none =>
    cases he
    rfl
  | _ => cases he

/-- The absent value is one of the tokens of what stands for it. -/
theorem span_of_noneLiteral : ∀ {l : Level} {u : List Token} {a : Node} {span : Span},
    l.Derives u a → a.toExpr source = .ok (.noneLiteral span) → ∃ tok ∈ u, span = tok.span
  | _, _, _, _, .tighter _ ha, he => span_of_noneLiteral ha he
  | _, _, _, _, .operation .., he => by
    obtain ⟨_, _, _, -, -, -, h⟩ := Node.toExpr_binary_eq_ok_iff.1 he
    cases h
  | _, _, _, _, .signed .., he => by
    obtain ⟨-, -, he⟩ := Node.toExpr_unary_eq_ok_iff.1 he
    obtain ⟨_, -, h⟩ := Node.numberOf_eq_ok_iff.1 he
    cases h
  | _, _, _, _, .call .., he => by
    obtain ⟨-, _, -, h⟩ := Node.toExpr_call_eq_ok_iff.1 he
    cases h
  | _, _, _, _, .atom h, he => ⟨_, List.mem_singleton_self _, span_of_atom h he⟩
  | _, _, _, _, .grouping _ ha _, he => by
    obtain ⟨tok, htok, rfl⟩ := span_of_noneLiteral ha he
    exact ⟨tok, List.mem_cons_of_mem _ (List.mem_append_left _ htok), rfl⟩

theorem significant_lineEnd (h : Script.LineEnd next v) : significant v = [] := by
  cases h with
  | newline hk => exact significant_drop hk rfl
  | before => rfl

theorem significant_blockEnd (h : Script.BlockEnd next v) : significant v = [] := by
  cases h with
  | dedent hk => exact significant_drop hk rfl
  | input => rfl

/-- A value that is written has not the span of the whole statement. -/
theorem value_ne_noneLiteral {keyword : Token} {value : Expr Span}
    (hu : TokensOf source next (keyword :: (u ++ v))) (hkeyword : keyword.kind = .kwReturn)
    (ha : Level.disjunction.Derives u a) (hvalue : a.toExpr source = .ok value) :
    value ≠ .noneLiteral (Node.spanOf [.leaf .keyword keyword.span, a]) := by
  rintro rfl
  obtain ⟨tok, htok, hspan⟩ := span_of_noneLiteral ha hvalue
  have hlt := hu.start_lt (by rw [hkeyword]; rfl) (List.mem_append_left v htok)
  replace hspan := congrArg Span.start hspan
  have hstart : keyword.span.start = tok.span.start := hspan
  rw [hstart] at hlt
  exact Nat.lt_irrefl _ hlt

theorem flattens_of_assigned {name : Token} {nodes : List Node} {st : Stmt Span}
    (hname : name.kind = .identifier) (h : Script.Assigned u nodes) (hwritten : name.Written source)
    (hu : ∀ tok ∈ u, tok.Written source)
    (hst : (Node.branch .assignStatement (.leaf .variableName name.span :: nodes)).toStmt source =
      .ok st) : st.Flattens (significant (name :: u)) := by
  rw [significant_keep hname rfl]
  cases h with
  | type => exact absurd hst Node.toStmt_untold_ne_ok
  | value htype hmark hb =>
    obtain ⟨hu, hv⟩ := List.forall_mem_append.1 hu
    obtain ⟨-, hv⟩ := List.forall_mem_cons.1 hv
    rw [significant_append, significant_drop hmark rfl, ← hwritten.text]
    cases htype with
    | absent =>
      obtain ⟨e, he, rfl⟩ := Node.toStmt_assign_eq_ok_iff.1 hst
      exact .assign (flattens_of_derives hb hv he)
    | present hcolon ha =>
      obtain ⟨-, hu⟩ := List.forall_mem_cons.1 hu
      obtain ⟨type, e, htype, he, rfl⟩ := Node.toStmt_declare_eq_ok_iff.1 hst
      obtain ⟨htokens, hspellings⟩ := significant_type (by rw [hcolon]; rfl) ha hu htype
      rw [htokens, hspellings]
      exact .declare (flattens_of_derives hb hv he)

mutual
/-- The tokens of a statement are those that its meaning is written with. -/
theorem flattens_of_statement : ∀ {next : TokenKind} {u : List Token} {a : Node} {st : Stmt Span},
    Script.Statement next u a → TokensOf source next u → a.toStmt source = .ok st →
      st.Flattens (significant u)
  | _, _, _, _, .function hkeyword hname hopening hparameters htypes hbody, hu, hst => by
    obtain ⟨hup, hurest⟩ := hu.tail.tail.tail.append
    obtain ⟨hut, hub⟩ := hurest.append
    rw [significant_fixed hu.head hkeyword rfl rfl, significant_keep hname rfl,
      significant_drop hopening rfl, significant_append, significant_append, ← hu.tail.head.text]
    cases htypes with
    | absent =>
      obtain ⟨-, parameters, body, hp, hb, rfl⟩ :=
        (Node.toStmt_function_eq_ok_iff hbody.label_eq_body).1 hst
      rw [significant_parameters hparameters hup.written hp]
      exact .function (flattenAll_of_body hbody hub hb)
    | present hmark ha =>
      obtain ⟨-, parameters, type, body, hp, htype, hb, rfl⟩ :=
        Node.toStmt_typedFunction_eq_ok_iff.1 hst
      have htokens := (significant_type (by rw [hmark]; rfl) ha hut.tail.written htype).1
      rw [significant_parameters hparameters hup.written hp, htokens]
      exact .function (flattenAll_of_body hbody hub hb)
  | _, _, _, _, .returnNone hkeyword hend, hu, hst => by
    obtain ⟨-, rfl⟩ := Node.toStmt_returnNone_eq_ok_iff.1 hst
    rw [significant_fixed hu.head hkeyword rfl rfl, significant_lineEnd hend]
    exact .returnNone
  | _, _, _, _, .returnValue hkeyword ha hend, hu, hst => by
    obtain ⟨-, e, he, rfl⟩ := Node.toStmt_returnValue_eq_ok_iff.1 hst
    have hne := value_ne_noneLiteral hu hkeyword ha he
    rw [significant_fixed hu.head hkeyword rfl rfl, significant_append, significant_lineEnd hend,
      List.append_nil]
    exact .returnValue hne (flattens_of_derives ha hu.tail.append.1.written he)
  | _, _, _, _, .loop hkeyword ha hbody, hu, hst => by
    obtain ⟨-, e, body, he, hb, rfl⟩ := (Node.toStmt_loop_eq_ok_iff ha.isExpression).1 hst
    obtain ⟨hua, hub⟩ := hu.tail.append
    rw [significant_fixed hu.head hkeyword rfl rfl, significant_append]
    exact .loop (flattens_of_derives ha hua.written he) (flattenAll_of_body hbody hub hb)
  | _, _, _, _, .conditional hkeyword ha hbody hfurther, hu, hst => by
    obtain ⟨-, e, body, further, he, hb, hf, rfl⟩ :=
      (Node.toStmt_conditional_eq_ok_iff ha.isExpression).1 hst
    obtain ⟨hua, hurest⟩ := hu.tail.append
    obtain ⟨hub, huf⟩ := hurest.append
    obtain ⟨vs, ws, hvs, hws, hsplit⟩ := flattens_of_further hfurther huf hf
    rw [significant_fixed hu.head hkeyword rfl rfl, significant_append, significant_append, hsplit]
    exact .conditional (flattens_of_derives ha hua.written he) (flattenAll_of_body hbody hub hb)
      hvs hws
  | _, _, _, _, .pass hkeyword hend, hu, hst => by
    cases hst
    rw [significant_fixed hu.head hkeyword rfl rfl, significant_lineEnd hend]
    exact .pass
  | _, _, _, _, .assignment hname h hend, hu, hst => by
    rw [← List.cons_append, significant_append, significant_lineEnd hend, List.append_nil]
    exact flattens_of_assigned hname h hu.head hu.tail.append.1.written hst
  | _, _, _, _, .expression ha hend, hu, hst => by
    obtain ⟨e, he, rfl⟩ := Node.toStmt_expression_eq_ok_iff.1 hst
    rw [significant_append, significant_lineEnd hend, List.append_nil]
    exact .expression (flattens_of_derives ha hu.append.1.written he)

theorem flattenAll_of_body : ∀ {next : TokenKind} {u : List Token} {a : Node}
    {sts : List (Stmt Span)}, Script.Body next u a → TokensOf source next u →
      a.toBody source = .ok sts → Stmt.FlattenAll sts (significant u)
  | _, _, _, _, .line hcolon ha, hu, hsts => by
    obtain ⟨st, more, hst, hm, rfl⟩ :=
      (Node.statementsOf_cons_eq_ok_iff ha.label_ne_colon).1 (Node.toBody_eq_ok_iff.1 hsts)
    cases hm
    rw [significant_drop hcolon rfl, ← List.append_nil (significant _)]
    exact .cons (flattens_of_statement ha hu.tail hst) .nil
  | _, _, _, _, .block hcolon hnewline hindent hlines hend, hu, hsts => by
    rw [significant_drop hcolon rfl, significant_drop hnewline rfl, significant_drop hindent rfl,
      significant_append, significant_blockEnd hend, List.append_nil]
    exact flattenAll_of_lines hlines hu.tail.tail.tail.append.1 (Node.toBody_eq_ok_iff.1 hsts)

theorem flattenAll_of_lines : ∀ {next : TokenKind} {u : List Token} {nodes : List Node}
    {sts : List (Stmt Span)}, Script.Lines next u nodes → TokensOf source next u →
      Node.statementsOf source nodes = .ok sts → Stmt.FlattenAll sts (significant u)
  | _, _, _, _, .nil, _, hsts => by
    cases hsts
    exact .nil
  | _, _, _, _, .blank hnewline hlines, hu, hsts => by
    rw [significant_drop hnewline rfl]
    exact flattenAll_of_lines hlines hu.tail hsts
  | _, _, _, _, .statement ha hlines, hu, hsts => by
    obtain ⟨st, more, hst, hm, rfl⟩ := (Node.statementsOf_cons_eq_ok_iff ha.label_ne_colon).1 hsts
    obtain ⟨hua, hurest⟩ := hu.append
    rw [significant_append]
    exact .cons (flattens_of_statement ha hua hst) (flattenAll_of_lines hlines hurest hm)

theorem flattens_of_further : ∀ {next : TokenKind} {u : List Token} {nodes : List Node}
    {further : List (Branch Span) × List (Stmt Span)}, Script.Further next u nodes →
      TokensOf source next u → Node.branchesAfter source nodes = .ok further →
      ∃ vs ws, Stmt.FlattenBranches further.1 vs ∧ Stmt.FlattenElse further.2 ws ∧
        significant u = vs ++ ws
  | _, _, _, _, .none .., _, hf => by
    cases hf
    exact ⟨[], [], .nil, .nil, rfl⟩
  | _, _, _, _, .alternative hkeyword ha hbody hfurther, hu, hf => by
    obtain ⟨e, body, more, he, hb, hm, rfl⟩ := (Node.branchesAfter_elif_eq_ok_iff
      (hu.head.text_eq hkeyword rfl) ha.isExpression).1 hf
    obtain ⟨hua, hurest⟩ := hu.tail.append
    obtain ⟨hub, huf⟩ := hurest.append
    obtain ⟨vs, ws, hvs, hws, hsplit⟩ := flattens_of_further hfurther huf hm
    refine ⟨_, ws, .cons (flattens_of_derives ha hua.written he)
      (flattenAll_of_body hbody hub hb) hvs, hws, ?_⟩
    rw [significant_fixed hu.head hkeyword rfl rfl, significant_append, significant_append, hsplit]
    simp only [List.cons_append, List.append_assoc]
  | _, _, _, _, .otherwise hkeyword hbody, hu, hf => by
    obtain ⟨body, hb, rfl⟩ :=
      (Node.branchesAfter_else_eq_ok_iff (hu.head.text_eq hkeyword rfl)).1 hf
    rw [significant_fixed hu.head hkeyword rfl rfl]
    exact ⟨[], _, .nil, .cons (hbody.ne_nil hu.tail hb) (flattenAll_of_body hbody hu.tail hb), rfl⟩
end

end Statements

/-- Punctuation apart, the tokens of a source are those that its program is written with. -/
theorem programOf_flattens {file : String} {source : List Char} {p : Program Span}
    (hsize : Text.byteSize source < UInt32.size) (h : programOf file source = .ok p) :
    ∃ tokens, tokenize file source = .ok tokens ∧ Stmt.FlattenAll p (significant tokens) := by
  obtain ⟨front, q, nodes, htokens, hfront, hlines, hp⟩ := lines_of_programOf hsize h
  refine ⟨front ++ [.endAt q], htokens, ?_⟩
  have hend : significant [.endAt q] = [] := rfl
  rw [significant_append, hend, List.append_nil]
  exact flattenAll_of_lines hlines hfront hp

theorem programOf_flattens_negative : ∃ p tokens,
    programOf "shell" "x = -1".toList = .ok p ∧
      tokenize "shell" "x = -1".toList = .ok tokens ∧
        Stmt.FlattenAll p (significant tokens) := by
  have hread : (programOf "shell" "x = -1".toList).toOption.isSome = true := by
    decide +kernel
  cases h : programOf "shell" "x = -1".toList with
  | error e =>
    rw [h] at hread
    cases hread
  | ok p =>
    obtain ⟨tokens, htokens, hflat⟩ := programOf_flattens (by decide) h
    exact ⟨p, tokens, rfl, htokens, hflat⟩

end Offside
