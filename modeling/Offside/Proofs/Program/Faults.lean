import Offside.Proofs.Grammar.Bodies
import Offside.Proofs.Program.OfGrammar

/-! What keeps a tree of the grammar from standing for a program. Its shape never does: all that can
be wrong is a missing type or value, a type or operator that the language does not have, a sign
before something else than a number, a number that is too large, and a call of something else than a
name. -/
namespace Offside

/-- In a list of parts some name is followed by something else than a type. -/
inductive LacksType (source : List Char) (nodes : List Node) : Error → Prop
  | mk {name next : Node} : [name, next] <:+: nodes → name.label = .variableName →
      next.label ≠ .typeDef →
      LacksType source nodes ⟨.untypedName (name.text source), name.span.start⟩

/-- What can be wrong with a node whose parts are those of the grammar. -/
inductive Fault (source : List Char) : Node → Error → Prop
  | untypedParameter {span nodes e} : LacksType source nodes e →
      Fault source ⟨.paramList, span, nodes⟩ e
  | missingValue {span} {name type : Node} : type.label = .typeDef →
      Fault source ⟨.assignStatement, span, [name, type]⟩
        ⟨.missingValue (name.text source), type.span.stop⟩
  | unknownType {span} {mark type : Node} :
      ¬ (type.label = .variableName ∧ (type.text source = "int" ∨ type.text source = "bool")) →
      Fault source ⟨.typeDef, span, [mark, type]⟩
        ⟨.unknownType (type.text source), type.span.start⟩
  | unknownOperator {span} {lhs op rhs : Node} :
      op.text source = "!=" ∨ op.text source = "/" →
      Fault source ⟨.binaryExpression, span, [lhs, op, rhs]⟩
        ⟨.unknownOperator (op.text source), op.span.start⟩
  | signWithoutNumber {span} {sign operand : Node} : operand.label ≠ .number →
      Fault source ⟨.unaryExpression, span, [sign, operand]⟩
        ⟨.signWithoutNumber (operand.text source), operand.span.start⟩
  | signedOutOfRange {span} {sign number : Node} : number.label = .number →
      Text.int64? (sign.text source ++ number.text source).toList = none →
      Fault source ⟨.unaryExpression, span, [sign, number]⟩
        ⟨.numberOutOfRange (sign.text source ++ number.text source), span.start⟩
  | numberOutOfRange {span : Span} : Text.int64? (span.text source).toList = none →
      Fault source ⟨.number, span, []⟩ ⟨.numberOutOfRange (span.text source), span.start⟩
  | namelessCall {span} {callee list : Node} : callee.label ≠ .variableName →
      Fault source ⟨.callExpression, span, [callee, list]⟩
        ⟨.unexpectedNode "function name" callee.label.name, callee.span.start⟩

/-- An error is that of some part of a tree. -/
def Node.Faulty (source : List Char) (n : Node) (e : Error) : Prop :=
  ∃ part, part.PartOf n ∧ Fault source part e

variable {source : List Char} {e : Error}

namespace Node.Faulty

variable {n c : Node} {label : Label} {nodes : List Node}

theorem self (h : Fault source n e) : n.Faulty source e := ⟨n, .self, h⟩

theorem child (hc : c ∈ n.children) (h : c.Faulty source e) : n.Faulty source e := by
  obtain ⟨part, hpart, hfault⟩ := h
  exact ⟨part, .child hc hpart, hfault⟩

theorem branch (hc : c ∈ nodes) (h : c.Faulty source e) : (branch label nodes).Faulty source e :=
  child hc h

end Node.Faulty

section Expressions

variable {tok op : Token} {span : Span} {l : Level} {a b : Node}

theorem Node.numberOf_eq_error_iff {text : String} : Node.numberOf text span = .error e ↔
    Text.int64? text.toList = none ∧ e = ⟨.numberOutOfRange text, span.start⟩ := by
  unfold Node.numberOf
  cases Text.int64? text.toList with
  | none => simp [eq_comm]
  | some value => simp

/-- The operators without a meaning. -/
theorem Level.unknown_of_mem_operators {k : TokenKind} {s : String} (hk : k ∈ l.operators)
    (hs : k.text? = some s) (hnone : Operator.ofSymbol? s = none) : s = "!=" ∨ s = "/" := by
  have hall : ∀ k ∈ l.operators, ∀ s ∈ k.text?, Operator.ofSymbol? s = none →
      s = "!=" ∨ s = "/" := by
    cases l <;> decide
  exact hall k hk s hs hnone

theorem Level.exists_text?_of_mem_operators {k : TokenKind} (hk : k ∈ l.operators) :
    ∃ s, k.text? = some s := by
  have hall : ∀ k ∈ l.operators, k.text?.isSome = true := by cases l <;> decide
  exact Option.isSome_iff_exists.1 (hall k hk)

theorem fault_of_toOperator (hop : op.Written source) (hk : op.kind ∈ l.operators)
    (h : (Node.leaf .operator op.span).toOperator source = .error e) :
    Fault source (.branch .binaryExpression [a, .leaf .operator op.span, b]) e := by
  obtain ⟨s, hs⟩ := Level.exists_text?_of_mem_operators hk
  have htext : (Node.leaf .operator op.span).text source = s := hop.text_eq rfl hs
  unfold Node.toOperator at h
  split at h
  · cases h
  · rename_i hnone
    cases h
    rw [htext] at hnone
    exact .unknownOperator (htext ▸ Level.unknown_of_mem_operators hk hs hnone)

theorem fault_of_signed (hop : op.Written source) (hk : op.kind ∈ [TokenKind.plus, .dash])
    (h : (Node.branch .unaryExpression [.leaf .operator op.span, a]).toExpr source = .error e) :
    Fault source (.branch .unaryExpression [.leaf .operator op.span, a]) e := by
  have hsign : ¬ ((Node.leaf .operator op.span).text source ≠ "+" ∧
      (Node.leaf .operator op.span).text source ≠ "-") := by
    rintro ⟨hplus, hminus⟩
    simp only [List.mem_cons, List.not_mem_nil, or_false] at hk
    obtain hk | hk := hk
    · exact hplus (hop.text_eq hk rfl)
    · exact hminus (hop.text_eq hk rfl)
  rw [Node.toExpr_unary, Node.signedOf, if_neg hsign] at h
  by_cases hnumber : a.label = .number
  · simp only [hnumber, ne_eq, not_true_eq_false, if_false] at h
    obtain ⟨hrange, rfl⟩ := Node.numberOf_eq_error_iff.1 h
    exact .signedOutOfRange hnumber hrange
  · simp only [ne_eq, hnumber, not_false_eq_true, if_true] at h
    cases h
    exact .signWithoutNumber hnumber

theorem faulty_of_atom {k : TokenKind} {label : Label} (hatom : Level.AtomLabel k label)
    (h : (Node.leaf label span).toExpr source = .error e) :
    (Node.leaf label span).Faulty source e := by
  cases hatom with
  | number =>
    obtain ⟨hrange, rfl⟩ := Node.numberOf_eq_error_iff.1 h
    exact .self (.numberOutOfRange hrange)
  | identifier | true | false | none => cases h

theorem fault_of_requireAs {span : Span} {callee list : Node}
    (h : callee.requireAs .variableName "function name" = .error e) :
    Fault source ⟨.callExpression, span, [callee, list]⟩ e := by
  unfold Node.requireAs at h
  split at h
  · cases h
  · rename_i hlabel
    cases h
    exact .namelessCall hlabel

mutual
/-- An expression without a meaning has a part that is at fault. -/
theorem faulty_of_derives : ∀ {l : Level} {u : List Token} {a : Node}, l.Derives u a →
    (∀ tok ∈ u, tok.Written source) → a.toExpr source = .error e → a.Faulty source e
  | _, _, _, .tighter _ ha, hu, h => faulty_of_derives ha hu h
  | _, _, _, .operation _ hop hleft hright, hu, h => by
    obtain ⟨huleft, hu⟩ := List.forall_mem_append.1 hu
    obtain ⟨hwritten, huright⟩ := List.forall_mem_cons.1 hu
    rw [Node.toExpr_binary] at h
    obtain hunknown | ⟨_, -, h⟩ := Except.bind_eq_error_iff.1 h
    · exact .self (fault_of_toOperator hwritten hop hunknown)
    obtain hx | ⟨_, -, h⟩ := Except.bind_eq_error_iff.1 h
    · exact .branch (by simp) (faulty_of_derives hleft huleft hx)
    · exact .branch (by simp)
        (faulty_of_derives hright huright (Except.of_bind_pure_eq_error h))
  | _, _, _, .signed hop _, hu, h =>
    .self (fault_of_signed (List.forall_mem_cons.1 hu).1 hop h)
  | _, _, _, .call hf _ hargs, hu, h => by
    obtain ⟨-, hu⟩ := List.forall_mem_append.1 hu
    obtain ⟨-, huargs⟩ := List.forall_mem_cons.1 hu
    rw [Node.toExpr_call] at h
    obtain hcallee | ⟨_, -, h⟩ := Except.bind_eq_error_iff.1 h
    · exact .self (fault_of_requireAs hcallee)
    · obtain ⟨c, hc, hfaulty⟩ :=
        faulty_of_arguments hargs huargs (Except.of_bind_pure_eq_error h)
      exact .branch (List.mem_cons_of_mem _ List.mem_cons_self)
        (.branch (List.mem_cons_of_mem _ hc) hfaulty)
  | _, _, _, .atom hatom, _, h => faulty_of_atom hatom h
  | _, _, _, .grouping _ ha _, hu, h => by
    obtain ⟨-, hu⟩ := List.forall_mem_cons.1 hu
    exact .branch (by simp) (faulty_of_derives ha (List.forall_mem_append.1 hu).1 h)

theorem faulty_of_arguments : ∀ {v : List Token} {nodes : List Node} {last : Node}
    {expected : String}, Level.Arguments v nodes → (∀ tok ∈ v, tok.Written source) →
      Node.argumentsAfter source last expected nodes = .error e → ∃ c ∈ nodes, c.Faulty source e
  | _, _, _, _, .close _, _, h => by
    rw [Node.argumentsAfter_close] at h
    cases h
  | _, _, _, _, .last ha _, hv, h => by
    obtain ⟨hu, -⟩ := List.forall_mem_append.1 hv
    rw [Node.argumentsAfter_last ha.label_ne_closeParen] at h
    have hfaulty := faulty_of_derives ha hu (Except.of_bind_pure_eq_error h)
    exact ⟨_, List.mem_cons_self, hfaulty⟩
  | _, _, _, _, .more ha _ hmore, hv, h => by
    obtain ⟨hu, hv⟩ := List.forall_mem_append.1 hv
    obtain ⟨-, hv⟩ := List.forall_mem_cons.1 hv
    rw [Node.argumentsAfter_more ha.label_ne_closeParen] at h
    obtain hx | ⟨_, -, h⟩ := Except.bind_eq_error_iff.1 h
    · exact ⟨_, List.mem_cons_self, faulty_of_derives ha hu hx⟩
    · obtain ⟨c, hc, hfaulty⟩ := faulty_of_arguments hmore hv (Except.of_bind_pure_eq_error h)
      exact ⟨c, by simp [hc], hfaulty⟩
end

end Expressions

section Statements

variable {u : List Token} {a m : Node} {nodes : List Node}

theorem faulty_of_toTy (h : (Node.branch .typeDef [m, a]).toTy source = .error e) :
    (Node.branch .typeDef [m, a]).Faulty source e := by
  rw [Node.toTy_branch, Node.typeOfName] at h
  split at h
  · cases h
  · rename_i hno
    cases h
    refine .self (.unknownType ?_)
    rintro ⟨hlabel, hint | hbool⟩
    · exact hno .int hlabel (by rw [hint]; rfl)
    · exact hno .bool hlabel (by rw [hbool]; rfl)

theorem LacksType.append (h : LacksType source nodes e) (before : List Node) :
    LacksType source (before ++ nodes) e := by
  obtain ⟨hpair, hname, hnext⟩ := h
  have hwhole := (List.suffix_append before nodes).isInfix
  exact ⟨hpair.trans hwhole, hname, hnext⟩

/-- Parameters without a meaning lack a type, or have one that is unknown. -/
theorem faulty_of_parameters {last : Node} {expected : String} (hp : Script.Parameters u nodes)
    (h : Node.parametersAfter source last expected nodes = .error e) :
    LacksType source nodes e ∨ ∃ c ∈ nodes, c.Faulty source e := by
  induction hp generalizing last expected with
  | close =>
    rw [Node.parametersAfter_close] at h
    cases h
  | last hparameter =>
    obtain ⟨-, htype⟩ := hparameter
    cases htype with
    | absent =>
      rw [List.singleton_append, Node.parametersAfter_untyped] at h
      · cases h
        exact .inl ⟨⟨[], [], rfl⟩, rfl, nofun⟩
      · exact nofun
    | present =>
      have htype := faulty_of_toTy (Except.of_bind_pure_eq_error h)
      exact .inr ⟨_, by simp, htype⟩
  | more hparameter _ _ ih =>
    obtain ⟨-, htype⟩ := hparameter
    cases htype with
    | absent =>
      rw [List.singleton_append, Node.parametersAfter_untyped] at h
      · cases h
        exact .inl ⟨⟨[], _, rfl⟩, rfl, nofun⟩
      · exact nofun
    | present =>
      obtain htype | ⟨_, -, hmore⟩ := Except.bind_eq_error_iff.1 h
      · exact .inr ⟨_, by simp, faulty_of_toTy htype⟩
      · obtain hlacks | ⟨c, hc, hfaulty⟩ := ih (Except.of_bind_pure_eq_error hmore)
        · exact .inl (hlacks.append [_, _, _])
        · exact .inr ⟨c, by simp [hc], hfaulty⟩

theorem faulty_of_assigned {name : Token} (hassigned : Script.Assigned u nodes)
    (hu : ∀ tok ∈ u, tok.Written source)
    (h : (Node.branch .assignStatement (.leaf .variableName name.span :: nodes)).toStmt source =
      .error e) :
    (Node.branch .assignStatement (.leaf .variableName name.span :: nodes)).Faulty source e := by
  cases hassigned with
  | type =>
    rw [Node.toStmt_untold] at h
    obtain htype | ⟨_, -, h⟩ := Except.bind_eq_error_iff.1 h
    · exact .branch (by simp) (faulty_of_toTy htype)
    · cases h
      exact .self (.missingValue rfl)
  | value htype _ hb =>
    obtain ⟨-, hv⟩ := List.forall_mem_append.1 hu
    obtain ⟨-, hv⟩ := List.forall_mem_cons.1 hv
    cases htype with
    | absent =>
      rw [List.nil_append, Node.toStmt_assign] at h
      have hvalue := faulty_of_derives hb hv (Except.of_bind_pure_eq_error h)
      exact .branch (by simp) hvalue
    | present =>
      rw [List.singleton_append, Node.toStmt_declare] at h
      obtain htype | ⟨_, -, h⟩ := Except.bind_eq_error_iff.1 h
      · exact .branch (by simp) (faulty_of_toTy htype)
      · have hvalue := faulty_of_derives hb hv (Except.of_bind_pure_eq_error h)
        exact .branch (by simp) hvalue

/-- A list of parameters without a meaning is at fault itself or has a part that is. -/
theorem faulty_of_parameterList {opening : Token} (hp : Script.Parameters u nodes)
    (h : (Node.branch .paramList (.leaf .openParen opening.span :: nodes)).toParameters source =
      .error e) :
    (Node.branch .paramList (.leaf .openParen opening.span :: nodes)).Faulty source e := by
  rw [Node.toParameters_branch] at h
  obtain hlacks | ⟨c, hc, hfaulty⟩ := faulty_of_parameters hp h
  · exact .self (.untypedParameter (hlacks.append [_]))
  · exact .branch (List.mem_cons_of_mem _ hc) hfaulty

mutual
/-- A statement without a meaning has a part that is at fault. -/
theorem faulty_of_statement : ∀ {next : TokenKind} {u : List Token} {a : Node},
    Script.Statement next u a → TokensOf source next u → a.toStmt source = .error e →
      a.Faulty source e
  | _, _, _, .function hkeyword _ _ hparameters htypes hbody, hu, h => by
    obtain ⟨-, hurest⟩ := hu.tail.tail.tail.append
    obtain ⟨-, hub⟩ := hurest.append
    have hdef := hu.head.text_eq hkeyword rfl
    cases htypes with
    | absent =>
      have h := (Node.toStmt_function hbody.label_eq_body).symm.trans h
      replace h := Node.of_requireText_bind_eq_error hdef h
      obtain hlist | ⟨_, -, h⟩ := Except.bind_eq_error_iff.1 h
      · exact .branch (by simp) (faulty_of_parameterList hparameters hlist)
      · have hbody := faulty_of_body hbody hub (Except.of_bind_pure_eq_error h)
        exact .branch (by simp) hbody
    | present =>
      replace h := Node.of_requireText_bind_eq_error hdef (Node.toStmt_typedFunction.symm.trans h)
      obtain hlist | ⟨_, -, h⟩ := Except.bind_eq_error_iff.1 h
      · exact .branch (by simp) (faulty_of_parameterList hparameters hlist)
      obtain htype | ⟨_, -, h⟩ := Except.bind_eq_error_iff.1 h
      · exact .branch (by simp) (faulty_of_toTy htype)
      · have hbody := faulty_of_body hbody hub (Except.of_bind_pure_eq_error h)
        exact .branch (by simp) hbody
  | _, _, _, .returnNone hkeyword _, hu, h => by
    rw [Node.toStmt_returnNone] at h
    cases Node.of_requireText_bind_eq_error (hu.head.text_eq hkeyword rfl) h
  | _, _, _, .returnValue hkeyword ha _, hu, h => by
    obtain ⟨hua, -⟩ := hu.tail.append
    rw [Node.toStmt_returnValue] at h
    replace h := Node.of_requireText_bind_eq_error (hu.head.text_eq hkeyword rfl) h
    exact .branch (by simp) (faulty_of_derives ha hua.written (Except.of_bind_pure_eq_error h))
  | _, _, _, .loop hkeyword ha hbody, hu, h => by
    obtain ⟨hua, hub⟩ := hu.tail.append
    rw [Node.toStmt_loop ha.isExpression] at h
    replace h := Node.of_requireText_bind_eq_error (hu.head.text_eq hkeyword rfl) h
    obtain hcondition | ⟨_, -, h⟩ := Except.bind_eq_error_iff.1 h
    · exact .branch (by simp) (faulty_of_derives ha hua.written hcondition)
    · exact .branch (by simp) (faulty_of_body hbody hub (Except.of_bind_pure_eq_error h))
  | _, _, _, .conditional hkeyword ha hbody hfurther, hu, h => by
    obtain ⟨hua, hurest⟩ := hu.tail.append
    obtain ⟨hub, huf⟩ := hurest.append
    rw [Node.toStmt_conditional ha.isExpression] at h
    replace h := Node.of_requireText_bind_eq_error (hu.head.text_eq hkeyword rfl) h
    obtain hcondition | ⟨_, -, h⟩ := Except.bind_eq_error_iff.1 h
    · exact .branch (by simp) (faulty_of_derives ha hua.written hcondition)
    obtain hbodyError | ⟨_, -, h⟩ := Except.bind_eq_error_iff.1 h
    · exact .branch (by simp) (faulty_of_body hbody hub hbodyError)
    · obtain ⟨c, hc, hfaulty⟩ := faulty_of_further hfurther huf (Except.of_bind_pure_eq_error h)
      exact .branch (by simp [hc]) hfaulty
  | _, _, _, .pass .., _, h => by cases h
  | _, _, _, .assignment _ hassigned _, hu, h =>
    faulty_of_assigned hassigned hu.tail.append.1.written h
  | _, _, _, .expression ha _, hu, h => by
    rw [Node.toStmt_expression] at h
    have hvalue := faulty_of_derives ha hu.append.1.written (Except.of_bind_pure_eq_error h)
    exact .branch (by simp) hvalue

theorem faulty_of_body : ∀ {next : TokenKind} {u : List Token} {a : Node},
    Script.Body next u a → TokensOf source next u → a.toBody source = .error e →
      a.Faulty source e
  | _, _, _, .line _ ha, hu, h => by
    rw [Node.toBody_branch, Node.statementsOf_cons ha.label_ne_colon] at h
    obtain hfirst | ⟨_, -, h⟩ := Except.bind_eq_error_iff.1 h
    · exact .branch (by simp) (faulty_of_statement ha hu.tail hfirst)
    · cases h
  | _, _, _, .block _ _ _ hlines _, hu, h => by
    rw [Node.toBody_branch] at h
    obtain ⟨c, hc, hfaulty⟩ := faulty_of_lines hlines hu.tail.tail.tail.append.1 h
    exact .branch (List.mem_cons_of_mem _ hc) hfaulty

theorem faulty_of_lines : ∀ {next : TokenKind} {u : List Token} {nodes : List Node},
    Script.Lines next u nodes → TokensOf source next u →
      Node.statementsOf source nodes = .error e → ∃ c ∈ nodes, c.Faulty source e
  | _, _, _, .nil, _, h => by cases h
  | _, _, _, .blank _ hlines, hu, h => faulty_of_lines hlines hu.tail h
  | _, _, _, .statement ha hlines, hu, h => by
    obtain ⟨hua, hurest⟩ := hu.append
    rw [Node.statementsOf_cons ha.label_ne_colon] at h
    obtain hfirst | ⟨_, -, h⟩ := Except.bind_eq_error_iff.1 h
    · exact ⟨_, List.mem_cons_self, faulty_of_statement ha hua hfirst⟩
    · obtain ⟨c, hc, hfaulty⟩ := faulty_of_lines hlines hurest (Except.of_bind_pure_eq_error h)
      exact ⟨c, List.mem_cons_of_mem _ hc, hfaulty⟩

theorem faulty_of_further : ∀ {next : TokenKind} {u : List Token} {nodes : List Node},
    Script.Further next u nodes → TokensOf source next u →
      Node.branchesAfter source nodes = .error e → ∃ c ∈ nodes, c.Faulty source e
  | _, _, _, .none .., _, h => by cases h
  | _, _, _, .alternative hkeyword ha hbody hfurther, hu, h => by
    obtain ⟨hua, hurest⟩ := hu.tail.append
    obtain ⟨hub, huf⟩ := hurest.append
    rw [Node.branchesAfter_elif (hu.head.text_eq hkeyword rfl) ha.isExpression] at h
    obtain hcondition | ⟨_, -, h⟩ := Except.bind_eq_error_iff.1 h
    · exact ⟨_, by simp, faulty_of_derives ha hua.written hcondition⟩
    obtain hbodyError | ⟨_, -, h⟩ := Except.bind_eq_error_iff.1 h
    · exact ⟨_, by simp, faulty_of_body hbody hub hbodyError⟩
    · obtain ⟨c, hc, hfaulty⟩ := faulty_of_further hfurther huf (Except.of_bind_pure_eq_error h)
      exact ⟨c, by simp [hc], hfaulty⟩
  | _, _, _, .otherwise hkeyword hbody, hu, h => by
    rw [Node.branchesAfter_else (hu.head.text_eq hkeyword rfl)] at h
    exact ⟨_, by simp, faulty_of_body hbody hu.tail (Except.of_bind_pure_eq_error h)⟩
end

end Statements
end Offside
