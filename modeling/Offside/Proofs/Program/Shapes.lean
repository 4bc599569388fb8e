import Offside.Proofs.Program.OfTree

/-! The shapes of nodes that have a meaning, whatever tree they stand in. A rule looks at the first
parts of a node and at none after those that it needs. -/
namespace Offside.Node

variable {source : List Char} {span : Span} {nodes : List Node} {n last : Node} {expected : String}

section Expressions

variable {e : Expr Span} {es : List (Expr Span)}

theorem shape_of_call (h : toExpr source ⟨.callExpression, span, nodes⟩ = .ok e) :
    ∃ callee list more es, nodes = callee :: list :: more ∧ callee.label = .variableName ∧
      list.toArguments source = .ok es ∧ e = .call (callee.text source) es span := by
  match nodes, h with
  | [], h => cases h
  | [callee], h =>
    obtain ⟨_, -, h⟩ := Except.bind_eq_ok_iff.1 h
    cases h
  | callee :: list :: more, h =>
    obtain ⟨_, hcallee, h⟩ := Except.bind_eq_ok_iff.1 h
    obtain ⟨es, hes, h⟩ := Except.bind_eq_ok_iff.1 h
    cases h
    exact ⟨callee, list, more, es, rfl, requireAs_eq_ok_iff.1 hcallee, hes, rfl⟩

theorem shape_of_unary (h : toExpr source ⟨.unaryExpression, span, nodes⟩ = .ok e) :
    ∃ sign number more value, nodes = sign :: number :: more ∧ number.label = .number ∧
      e = .number value span := by
  match nodes, h with
  | [], h => cases h
  | [sign], h =>
    change signedOf source span [sign] = .ok e at h
    rw [signedOf] at h
    split at h <;> cases h
  | sign :: number :: more, h =>
    change signedOf source span (sign :: number :: more) = .ok e at h
    rw [signedOf] at h
    split at h
    · cases h
    · split at h
      · cases h
      · rename_i hnumber
        obtain ⟨value, -, rfl⟩ := numberOf_eq_ok_iff.1 h
        exact ⟨sign, number, more, value, rfl, Decidable.not_not.1 hnumber, rfl⟩

theorem shape_of_binary (h : toExpr source ⟨.binaryExpression, span, nodes⟩ = .ok e) :
    ∃ lhs symbol rhs more op x y, nodes = lhs :: symbol :: rhs :: more ∧
      lhs.toExpr source = .ok x ∧ rhs.toExpr source = .ok y ∧ e = .binary op x y span := by
  match nodes, h with
  | [], h | [_], h | [_, _], h => cases h
  | lhs :: symbol :: rhs :: more, h =>
    obtain ⟨op, -, h⟩ := Except.bind_eq_ok_iff.1 h
    obtain ⟨x, hx, h⟩ := Except.bind_eq_ok_iff.1 h
    obtain ⟨y, hy, h⟩ := Except.bind_eq_ok_iff.1 h
    cases h
    exact ⟨lhs, symbol, rhs, more, op, x, y, rfl, hx, hy, rfl⟩

theorem shape_of_parenthesized
    (h : toExpr source ⟨.parenthesizedExpression, span, nodes⟩ = .ok e) :
    ∃ opening inner more, nodes = opening :: inner :: more ∧ inner.toExpr source = .ok e := by
  match nodes, h with
  | [], h | [_], h => cases h
  | opening :: inner :: more, h => exact ⟨opening, inner, more, rfl, h⟩

theorem shape_of_arguments (h : n.toArguments source = .ok es) : n.label = .argList ∧
    ∃ opening rest, n.children = opening :: rest ∧
      argumentsAfter source opening "`)`" rest = .ok es := by
  obtain ⟨label, span, children⟩ := n
  cases children with
  | nil =>
    obtain ⟨_, -, h⟩ := Except.bind_eq_ok_iff.1 h
    cases h
  | cons opening rest =>
    obtain ⟨_, hlabel, h⟩ := Except.bind_eq_ok_iff.1 h
    obtain ⟨_, -, h⟩ := Except.bind_eq_ok_iff.1 h
    exact ⟨requireAs_eq_ok_iff.1 hlabel, opening, rest, rfl, h⟩

theorem shape_of_argumentsAfter (h : argumentsAfter source last expected nodes = .ok es) :
    (∃ close more, nodes = close :: more ∧ close.label = .closeParen ∧ es = []) ∨
    ∃ argument next rest value more, nodes = argument :: next :: rest ∧
      argument.label ≠ .closeParen ∧ argument.toExpr source = .ok value ∧ es = value :: more ∧
      ((next.label = .closeParen ∧ more = []) ∨
        (next.label = .comma ∧ argumentsAfter source next "argument" rest = .ok more)) := by
  match nodes, h with
  | [], h => cases h
  | [argument], h =>
    rw [argumentsAfter] at h
    split at h
    · rename_i hclose
      cases h
      exact .inl ⟨argument, [], rfl, hclose, rfl⟩
    · obtain ⟨_, -, h⟩ := Except.bind_eq_ok_iff.1 h
      cases h
  | argument :: next :: rest, h =>
    rw [argumentsAfter] at h
    split at h
    · rename_i hclose
      cases h
      exact .inl ⟨argument, _, rfl, hclose, rfl⟩
    · rename_i hargument
      obtain ⟨value, hvalue, h⟩ := Except.bind_eq_ok_iff.1 h
      refine .inr ⟨argument, next, rest, value, ?_⟩
      simp only at h
      split at h
      · rename_i hnext
        obtain ⟨more, hmore, h⟩ := Except.bind_eq_ok_iff.1 h
        cases h
        exact ⟨more, rfl, hargument, hvalue, rfl, .inr ⟨hnext, hmore⟩⟩
      · rename_i hnext
        cases h
        exact ⟨[], rfl, hargument, hvalue, rfl, .inl ⟨hnext, rfl⟩⟩
      · cases h

end Expressions

section Statements

variable {st : Stmt Span} {sts : List (Stmt Span)} {parameters : List Parameter} {e : Expr Span}

theorem toExpr_of_toCondition {construct : String} (h : n.toCondition source construct = .ok e) :
    n.label.isExpression = true ∧ n.toExpr source = .ok e := by
  unfold toCondition at h
  split at h
  · rename_i hlabel
    exact ⟨hlabel, h⟩
  · cases h

theorem shape_of_return (h : toStmt source ⟨.returnStatement, span, nodes⟩ = .ok st) :
    (∃ keyword, nodes = [keyword] ∧ st = .return (.noneLiteral keyword.span) span) ∨
    ∃ keyword value more e, nodes = keyword :: value :: more ∧ value.toExpr source = .ok e ∧
      st = .return e span := by
  match nodes, h with
  | [], h => cases h
  | [keyword], h =>
    obtain ⟨_, -, h⟩ := Except.bind_eq_ok_iff.1 h
    cases h
    exact .inl ⟨keyword, rfl, rfl⟩
  | keyword :: value :: more, h =>
    obtain ⟨_, -, h⟩ := Except.bind_eq_ok_iff.1 h
    obtain ⟨e, he, h⟩ := Except.bind_eq_ok_iff.1 h
    cases h
    exact .inr ⟨keyword, value, more, e, rfl, he, rfl⟩

theorem shape_of_assign (h : toStmt source ⟨.assignStatement, span, nodes⟩ = .ok st) :
    ∃ name, name.label = .variableName ∧
      ((∃ mark value more e, nodes = name :: mark :: value :: more ∧ mark.label = .assignOp ∧
          value.toExpr source = .ok e ∧ st = .assign (name.text source) e span) ∨
        ∃ typeNode mark value more type e, nodes = name :: typeNode :: mark :: value :: more ∧
          typeNode.label = .typeDef ∧ value.toExpr source = .ok e ∧
            st = .declare (name.text source) type e span) := by
  match nodes, h with
  | [], h => cases h
  | [_], h =>
    obtain ⟨_, -, h⟩ := Except.bind_eq_ok_iff.1 h
    cases h
  | name :: next :: rest, h =>
    obtain ⟨_, hname, h⟩ := Except.bind_eq_ok_iff.1 h
    refine ⟨name, requireAs_eq_ok_iff.1 hname, ?_⟩
    simp only at h
    split at h
    · rename_i hmark
      obtain ⟨e, he, h⟩ := Except.bind_eq_ok_iff.1 h
      cases h
      match rest, he with
      | [], he => cases he
      | value :: more, he => exact .inl ⟨next, value, more, e, rfl, hmark, he, rfl⟩
    · rename_i htype
      obtain ⟨type, -, h⟩ := Except.bind_eq_ok_iff.1 h
      match rest, h with
      | [], h => cases h
      | [_], h =>
        obtain ⟨_, -, h⟩ := Except.bind_eq_ok_iff.1 h
        cases h
      | mark :: value :: more, h =>
        obtain ⟨_, -, h⟩ := Except.bind_eq_ok_iff.1 h
        obtain ⟨e, he, h⟩ := Except.bind_eq_ok_iff.1 h
        cases h
        exact .inr ⟨next, mark, value, more, type, e, rfl, htype, he, rfl⟩
    · cases h

theorem shape_of_expressionStatement
    (h : toStmt source ⟨.expressionStatement, span, nodes⟩ = .ok st) :
    ∃ value more e, nodes = value :: more ∧ value.toExpr source = .ok e ∧
      st = .expression e span := by
  match nodes, h with
  | [], h => cases h
  | value :: more, h =>
    obtain ⟨e, he, h⟩ := Except.bind_eq_ok_iff.1 h
    cases h
    exact ⟨value, more, e, rfl, he, rfl⟩

theorem shape_of_function (h : toStmt source ⟨.functionDefinition, span, nodes⟩ = .ok st) :
    ∃ keyword name list parameters returns body more sts, name.label = .variableName ∧
      list.toParameters source = .ok parameters ∧ body.toBody source = .ok sts ∧
      st = .function (name.text source) parameters returns sts span ∧
      ((nodes = keyword :: name :: list :: body :: more ∧ body.label ≠ .typeDef) ∨
        ∃ typeNode, nodes = keyword :: name :: list :: typeNode :: body :: more ∧
          typeNode.label = .typeDef) := by
  match nodes, h with
  | [], h => cases h
  | [_], h =>
    obtain ⟨_, -, h⟩ := Except.bind_eq_ok_iff.1 h
    cases h
  | [_, _], h =>
    obtain ⟨_, -, h⟩ := Except.bind_eq_ok_iff.1 h
    obtain ⟨_, -, h⟩ := Except.bind_eq_ok_iff.1 h
    cases h
  | [_, _, _], h =>
    obtain ⟨_, -, h⟩ := Except.bind_eq_ok_iff.1 h
    obtain ⟨_, -, h⟩ := Except.bind_eq_ok_iff.1 h
    obtain ⟨_, -, h⟩ := Except.bind_eq_ok_iff.1 h
    cases h
  | keyword :: name :: list :: next :: rest, h =>
    rw [toStmt] at h
    obtain ⟨_, -, h⟩ := Except.bind_eq_ok_iff.1 h
    obtain ⟨_, hname, h⟩ := Except.bind_eq_ok_iff.1 h
    obtain ⟨parameters, hparameters, h⟩ := Except.bind_eq_ok_iff.1 h
    simp only at h
    split at h
    · rename_i htype
      obtain ⟨returns, -, h⟩ := Except.bind_eq_ok_iff.1 h
      match rest, h with
      | [], h => cases h
      | body :: more, h =>
        obtain ⟨sts, hbody, h⟩ := Except.bind_eq_ok_iff.1 h
        cases h
        exact ⟨keyword, name, list, parameters, returns, body, more, sts,
          requireAs_eq_ok_iff.1 hname, hparameters, hbody, rfl, .inr ⟨next, rfl, htype⟩⟩
    · rename_i htype
      obtain ⟨sts, hbody, h⟩ := Except.bind_eq_ok_iff.1 h
      cases h
      exact ⟨keyword, name, list, parameters, .none, next, rest, sts,
        requireAs_eq_ok_iff.1 hname, hparameters, hbody, rfl, .inl ⟨rfl, htype⟩⟩

theorem shape_of_while (h : toStmt source ⟨.whileStatement, span, nodes⟩ = .ok st) :
    ∃ keyword condition body more e sts, nodes = keyword :: condition :: body :: more ∧
      condition.toExpr source = .ok e ∧ body.toBody source = .ok sts ∧ st = .loop e sts span := by
  match nodes, h with
  | [], h => cases h
  | [_], h =>
    obtain ⟨_, -, h⟩ := Except.bind_eq_ok_iff.1 h
    cases h
  | [_, _], h =>
    obtain ⟨_, -, h⟩ := Except.bind_eq_ok_iff.1 h
    obtain ⟨_, -, h⟩ := Except.bind_eq_ok_iff.1 h
    cases h
  | keyword :: condition :: body :: more, h =>
    obtain ⟨_, -, h⟩ := Except.bind_eq_ok_iff.1 h
    obtain ⟨e, he, h⟩ := Except.bind_eq_ok_iff.1 h
    obtain ⟨sts, hbody, h⟩ := Except.bind_eq_ok_iff.1 h
    cases h
    exact ⟨keyword, condition, body, more, e, sts, rfl, (toExpr_of_toCondition he).2, hbody, rfl⟩

theorem shape_of_if (h : toStmt source ⟨.ifStatement, span, nodes⟩ = .ok st) :
    ∃ keyword condition body rest e sts alternatives otherwise,
      nodes = keyword :: condition :: body :: rest ∧ condition.label.isExpression = true ∧
      condition.toExpr source = .ok e ∧ body.toBody source = .ok sts ∧
      branchesAfter source rest = .ok (alternatives, otherwise) ∧
      st = .conditional ⟨.first, e, sts, ⟨keyword.span.start, body.span.stop⟩⟩ alternatives
        otherwise span := by
  match nodes, h with
  | [], h => cases h
  | [_], h =>
    obtain ⟨_, -, h⟩ := Except.bind_eq_ok_iff.1 h
    cases h
  | [_, _], h =>
    obtain ⟨_, -, h⟩ := Except.bind_eq_ok_iff.1 h
    obtain ⟨_, -, h⟩ := Except.bind_eq_ok_iff.1 h
    cases h
  | keyword :: condition :: body :: rest, h =>
    obtain ⟨_, -, h⟩ := Except.bind_eq_ok_iff.1 h
    obtain ⟨e, he, h⟩ := Except.bind_eq_ok_iff.1 h
    obtain ⟨sts, hbody, h⟩ := Except.bind_eq_ok_iff.1 h
    obtain ⟨⟨alternatives, otherwise⟩, hrest, h⟩ := Except.bind_eq_ok_iff.1 h
    cases h
    obtain ⟨hlabel, he⟩ := toExpr_of_toCondition he
    exact ⟨keyword, condition, body, rest, e, sts, alternatives, otherwise, rfl, hlabel, he, hbody,
      hrest, rfl⟩

theorem shape_of_body (h : n.toBody source = .ok sts) :
    n.label = .body ∧ statementsOf source n.children = .ok sts := by
  obtain ⟨label, span, children⟩ := n
  obtain ⟨_, hlabel, h⟩ := Except.bind_eq_ok_iff.1 h
  exact ⟨requireAs_eq_ok_iff.1 hlabel, h⟩

/-- The further branches are none, one and those after it, or the last one. -/
theorem shape_of_branchesAfter {alternatives : List (Branch Span)} {otherwise : List (Stmt Span)}
    (h : branchesAfter source nodes = .ok (alternatives, otherwise)) :
    (nodes = [] ∧ alternatives = [] ∧ otherwise = []) ∨
    (∃ keyword condition body rest e sts more,
      nodes = keyword :: condition :: body :: rest ∧ condition.label.isExpression = true ∧
      condition.toExpr source = .ok e ∧ body.toBody source = .ok sts ∧
      branchesAfter source rest = .ok (more, otherwise) ∧
      alternatives = ⟨.alternative, e, sts, ⟨keyword.span.start, body.span.stop⟩⟩ :: more) ∨
    ∃ keyword body, nodes = [keyword, body] ∧ body.toBody source = .ok otherwise ∧
      alternatives = [] := by
  match nodes, h with
  | [], h =>
    cases h
    exact .inl ⟨rfl, rfl, rfl⟩
  | keyword :: rest, h =>
    rw [branchesAfter.eq_def] at h
    simp only at h
    split at h
    · match rest, h with
      | [], h => cases h
      | [_], h =>
        obtain ⟨_, -, h⟩ := Except.bind_eq_ok_iff.1 h
        cases h
      | condition :: body :: rest, h =>
        obtain ⟨e, he, h⟩ := Except.bind_eq_ok_iff.1 h
        obtain ⟨sts, hbody, h⟩ := Except.bind_eq_ok_iff.1 h
        obtain ⟨⟨more, last⟩, hrest, h⟩ := Except.bind_eq_ok_iff.1 h
        cases h
        obtain ⟨hlabel, he⟩ := toExpr_of_toCondition he
        exact .inr (.inl ⟨keyword, condition, body, rest, e, sts, more, rfl, hlabel, he, hbody,
          hrest, rfl⟩)
    · split at h
      · match rest, h with
        | [], h => cases h
        | [body], h =>
          obtain ⟨sts, hbody, h⟩ := Except.bind_eq_ok_iff.1 h
          cases h
          exact .inr (.inr ⟨keyword, body, rfl, hbody, rfl⟩)
        | body :: _ :: _, h =>
          obtain ⟨_, -, h⟩ := Except.bind_eq_ok_iff.1 h
          cases h
      · cases h

theorem shape_of_parameters (h : n.toParameters source = .ok parameters) : n.label = .paramList ∧
    ∃ opening rest, n.children = opening :: rest ∧
      parametersAfter source opening "`)`" rest = .ok parameters := by
  obtain ⟨label, span, children⟩ := n
  cases children with
  | nil =>
    obtain ⟨_, -, h⟩ := Except.bind_eq_ok_iff.1 h
    cases h
  | cons opening rest =>
    obtain ⟨_, hlabel, h⟩ := Except.bind_eq_ok_iff.1 h
    obtain ⟨_, -, h⟩ := Except.bind_eq_ok_iff.1 h
    exact ⟨requireAs_eq_ok_iff.1 hlabel, opening, rest, rfl, h⟩

theorem shape_of_parametersAfter
    (h : parametersAfter source last expected nodes = .ok parameters) :
    (∃ close more, nodes = close :: more ∧ close.label = .closeParen ∧ parameters = []) ∨
    ∃ name typeNode next rest type more, nodes = name :: typeNode :: next :: rest ∧
      name.label = .variableName ∧ typeNode.label = .typeDef ∧
      parameters = ⟨name.text source, type⟩ :: more ∧
      ((next.label = .closeParen ∧ more = []) ∨ (next.label = .comma ∧
        parametersAfter source next "parameter" rest = .ok more)) := by
  cases nodes with
  | nil => cases h
  | cons name rest =>
    rw [parametersAfter.eq_def] at h
    simp only at h
    split at h
    · rename_i hclose
      cases h
      exact .inl ⟨name, rest, rfl, hclose, rfl⟩
    · rename_i hname
      cases rest with
      | nil => cases h
      | cons typeNode rest =>
        simp only at h
        split at h
        · cases h
        · rename_i htype
          obtain ⟨type, -, h⟩ := Except.bind_eq_ok_iff.1 h
          cases rest with
          | nil => cases h
          | cons next rest =>
            refine .inr ⟨name, typeNode, next, rest, type, ?_⟩
            simp only at h
            split at h
            · rename_i hnext
              obtain ⟨more, hmore, h⟩ := Except.bind_eq_ok_iff.1 h
              cases h
              exact ⟨more, rfl, hname, Decidable.not_not.1 htype, rfl, .inr ⟨hnext, hmore⟩⟩
            · rename_i hnext
              cases h
              exact ⟨[], rfl, hname, Decidable.not_not.1 htype, rfl, .inl ⟨hnext, rfl⟩⟩
            · cases h
    · cases h

end Statements

end Offside.Node
