import Offside.Proofs.Success
import Offside.Program.OfTree.Stmt

/-! What the nodes that the grammar has stand for: when the meaning of a node exists, and which of
its parts it is made of. -/
namespace Offside.Node

variable {source : List Char} {span : Span}

@[simp] theorem text_leaf (label : Label) : (leaf label span).text source = span.text source := rfl

@[simp] theorem label_leaf (label : Label) : (leaf label span).label = label := rfl

@[simp] theorem label_branch (label : Label) (children : List Node) :
    (branch label children).label = label := rfl

section Expressions

variable {e : Expr Span} {es : List (Expr Span)} {a b : Node} {nodes : List Node}

theorem numberOf_eq_ok_iff {text : String} : numberOf text span = .ok e ↔
    ∃ value, Text.int64? text.toList = some value ∧ e = .number value span := by
  unfold numberOf
  cases Text.int64? text.toList with
  | none => simp
  | some value => simp [eq_comm]

theorem toExpr_unary : toExpr source (branch .unaryExpression nodes) =
    signedOf source (spanOf nodes) nodes := rfl

/-- A sign and a number are read together. -/
theorem toExpr_unary_number (hsign : span.text source = "+" ∨ span.text source = "-")
    (ha : a.label = .number) :
    toExpr source (branch .unaryExpression [leaf .operator span, a]) =
      numberOf (span.text source ++ a.text source) (spanOf [leaf .operator span, a]) := by
  have hs : ¬ (span.text source ≠ "+" ∧ span.text source ≠ "-") := fun h => hsign.elim h.1 h.2
  rw [toExpr_unary, signedOf, text_leaf, if_neg hs, if_neg (not_not_intro ha)]

theorem toExpr_unary_eq_ok_iff :
    toExpr source (branch .unaryExpression [leaf .operator span, a]) = .ok e ↔
      (span.text source = "+" ∨ span.text source = "-") ∧ a.label = .number ∧
        numberOf (span.text source ++ a.text source) (spanOf [leaf .operator span, a]) = .ok e := by
  by_cases hsign : span.text source = "+" ∨ span.text source = "-"
  · by_cases hlabel : a.label = .number
    · rw [toExpr_unary_number hsign hlabel]
      simp [hsign, hlabel]
    · have hs : ¬ (span.text source ≠ "+" ∧ span.text source ≠ "-") := fun h => hsign.elim h.1 h.2
      simp [toExpr_unary, signedOf, hs, hlabel]
  · have hs : span.text source ≠ "+" ∧ span.text source ≠ "-" := not_or.1 hsign
    simp [toExpr_unary, signedOf, hs]

theorem toExpr_binary :
    toExpr source (branch .binaryExpression [a, leaf .operator span, b]) = (do
      let op ← (leaf .operator span).toOperator source
      let x ← toExpr source a
      let y ← toExpr source b
      return .binary op x y (spanOf [a, leaf .operator span, b])) := rfl

theorem toExpr_binary_eq_ok_iff :
    toExpr source (branch .binaryExpression [a, leaf .operator span, b]) = .ok e ↔
      ∃ op x y, Operator.ofSymbol? (span.text source) = some op ∧ toExpr source a = .ok x ∧
        toExpr source b = .ok y ∧ e = .binary op x y (spanOf [a, leaf .operator span, b]) := by
  have hop : ∀ op, toOperator source (leaf .operator span) = .ok op ↔
      Operator.ofSymbol? (span.text source) = some op := by
    intro op
    unfold toOperator
    rw [text_leaf]
    cases Operator.ofSymbol? (span.text source) <;> simp
  rw [toExpr_binary]
  simp only [Except.bind_eq_ok_iff, hop, Except.pure_eq_ok_iff]
  constructor
  · rintro ⟨op, hop, x, hx, y, hy, rfl⟩
    exact ⟨op, x, y, hop, hx, hy, rfl⟩
  · rintro ⟨op, x, y, hop, hx, hy, rfl⟩
    exact ⟨op, hop, x, hx, y, hy, rfl⟩

theorem requireAs_eq_ok_iff {label : Label} {expected : String} {u : Unit} :
    requireAs a label expected = .ok u ↔ a.label = label := by
  unfold requireAs unexpected
  split <;> simp [*]

theorem toExpr_call :
    toExpr source (branch .callExpression [a, branch .argList (leaf .openParen span :: nodes)]) =
      (do
        a.requireAs .variableName "function name"
        let es ← argumentsAfter source (leaf .openParen span) "`)`" nodes
        return .call (a.text source) es
          (spanOf [a, branch .argList (leaf .openParen span :: nodes)])) := rfl

theorem toExpr_call_eq_ok_iff :
    toExpr source (branch .callExpression [a, branch .argList (leaf .openParen span :: nodes)]) =
        .ok e ↔ a.label = .variableName ∧ ∃ es,
      argumentsAfter source (leaf .openParen span) "`)`" nodes = .ok es ∧
        e = .call (a.text source) es
          (spanOf [a, branch .argList (leaf .openParen span :: nodes)]) := by
  rw [toExpr_call]
  simp only [Except.bind_eq_ok_iff, requireAs_eq_ok_iff, Except.pure_eq_ok_iff]
  constructor
  · rintro ⟨_, hlabel, es, hes, rfl⟩
    exact ⟨hlabel, es, hes, rfl⟩
  · rintro ⟨hlabel, es, hes, rfl⟩
    exact ⟨(), hlabel, es, hes, rfl⟩

variable {last : Node} {expected : String}

theorem argumentsAfter_close :
    argumentsAfter source last expected (leaf .closeParen span :: nodes) = .ok [] := by
  rw [argumentsAfter, if_pos (label_leaf _)]

theorem argumentsAfter_close_eq_ok_iff :
    argumentsAfter source last expected (leaf .closeParen span :: nodes) = .ok es ↔ es = [] := by
  rw [argumentsAfter_close]
  simp [eq_comm]

theorem argumentsAfter_last (ha : a.label ≠ .closeParen) :
    argumentsAfter source last expected (a :: leaf .closeParen span :: nodes) = (do
      let x ← toExpr source a
      return [x]) := if_neg ha

theorem argumentsAfter_last_eq_ok_iff (ha : a.label ≠ .closeParen) :
    argumentsAfter source last expected (a :: leaf .closeParen span :: nodes) = .ok es ↔
      ∃ x, toExpr source a = .ok x ∧ es = [x] := by
  rw [argumentsAfter_last ha]
  simp only [Except.bind_eq_ok_iff, Except.pure_eq_ok_iff, @eq_comm _ es]

theorem argumentsAfter_more (ha : a.label ≠ .closeParen) :
    argumentsAfter source last expected (a :: leaf .comma span :: nodes) = (do
      let x ← toExpr source a
      let more ← argumentsAfter source (leaf .comma span) "argument" nodes
      return x :: more) := if_neg ha

theorem argumentsAfter_more_eq_ok_iff (ha : a.label ≠ .closeParen) :
    argumentsAfter source last expected (a :: leaf .comma span :: nodes) = .ok es ↔
      ∃ x more, toExpr source a = .ok x ∧
        argumentsAfter source (leaf .comma span) "argument" nodes = .ok more ∧ es = x :: more := by
  rw [argumentsAfter_more ha]
  simp only [Except.bind_eq_ok_iff, Except.pure_eq_ok_iff]
  constructor
  · rintro ⟨x, hx, more, hm, rfl⟩
    exact ⟨x, more, hx, hm, rfl⟩
  · rintro ⟨x, more, hx, hm, rfl⟩
    exact ⟨x, hx, more, hm, rfl⟩

end Expressions

section Statements

variable {st : Stmt Span} {sts : List (Stmt Span)} {type : Ty} {parameters : List Parameter}
  {a b : Node} {nodes : List Node} {mark : Node}

theorem toTy_branch : toTy source (branch .typeDef [mark, a]) = a.typeOfName source := rfl

theorem toTy_eq_ok_iff : toTy source (branch .typeDef [mark, a]) = .ok type ↔
    a.label = .variableName ∧ Ty.ofAnnotation? (a.text source) = some type := by
  rw [toTy_branch, typeOfName]
  split
  · rename_i hlabel htype
    simp [hlabel, htype]
  · rename_i hno
    constructor
    · exact nofun
    · rintro ⟨hlabel, htype⟩
      exact absurd htype (hno _ hlabel)

variable {last : Node} {expected : String}

theorem parametersAfter_close :
    parametersAfter source last expected (leaf .closeParen span :: nodes) = .ok [] := rfl

theorem parametersAfter_close_eq_ok_iff :
    parametersAfter source last expected (leaf .closeParen span :: nodes) = .ok parameters ↔
      parameters = [] := by
  simp [parametersAfter_close, eq_comm]

theorem parametersAfter_last {name close : Span} :
    parametersAfter source last expected
        (leaf .variableName name :: branch .typeDef [mark, a] :: leaf .closeParen close :: nodes) =
      (do
        let type ← toTy source (branch .typeDef [mark, a])
        return [⟨name.text source, type⟩]) := rfl

theorem parametersAfter_last_eq_ok_iff {name close : Span} :
    parametersAfter source last expected
        (leaf .variableName name :: branch .typeDef [mark, a] :: leaf .closeParen close :: nodes) =
        .ok parameters ↔
      ∃ type, toTy source (branch .typeDef [mark, a]) = .ok type ∧
        parameters = [⟨name.text source, type⟩] := by
  rw [parametersAfter_last]
  simp only [Except.bind_eq_ok_iff, Except.pure_eq_ok_iff, @eq_comm _ parameters]

theorem parametersAfter_more {name comma : Span} :
    parametersAfter source last expected
        (leaf .variableName name :: branch .typeDef [mark, a] :: leaf .comma comma :: nodes) =
      (do
        let type ← toTy source (branch .typeDef [mark, a])
        let more ← parametersAfter source (leaf .comma comma) "parameter" nodes
        return ⟨name.text source, type⟩ :: more) := rfl

theorem parametersAfter_more_eq_ok_iff {name comma : Span} :
    parametersAfter source last expected
        (leaf .variableName name :: branch .typeDef [mark, a] :: leaf .comma comma :: nodes) =
        .ok parameters ↔
      ∃ type more, toTy source (branch .typeDef [mark, a]) = .ok type ∧
        parametersAfter source (leaf .comma comma) "parameter" nodes = .ok more ∧
        parameters = ⟨name.text source, type⟩ :: more := by
  rw [parametersAfter_more]
  simp only [Except.bind_eq_ok_iff, Except.pure_eq_ok_iff]
  constructor
  · rintro ⟨type, ht, more, hm, rfl⟩
    exact ⟨type, more, ht, hm, rfl⟩
  · rintro ⟨type, more, ht, hm, rfl⟩
    exact ⟨type, ht, more, hm, rfl⟩

theorem parametersAfter_untyped {name : Span} (hb : b.label ≠ .typeDef) :
    parametersAfter source last expected (leaf .variableName name :: b :: nodes) =
      lacksType source (leaf .variableName name) := by
  rw [parametersAfter]
  simp only [label_leaf, ne_eq, hb, not_false_eq_true, if_true]

/-- A parameter without a type has no meaning. -/
theorem parametersAfter_untyped_ne_ok {name : Span} (hb : b.label ≠ .typeDef) :
    parametersAfter source last expected (leaf .variableName name :: b :: nodes) ≠
      .ok parameters := by
  rw [parametersAfter_untyped hb]
  exact nofun

theorem toParameters_branch :
    toParameters source (branch .paramList (leaf .openParen span :: nodes)) =
      parametersAfter source (leaf .openParen span) "`)`" nodes := rfl

theorem toParameters_eq_ok_iff :
    toParameters source (branch .paramList (leaf .openParen span :: nodes)) = .ok parameters ↔
      parametersAfter source (leaf .openParen span) "`)`" nodes = .ok parameters := by
  rw [toParameters_branch]

theorem requireText_eq_ok_iff {text : String} {u : Unit} :
    requireText source a text = .ok u ↔ a.text source = text := by
  unfold requireText
  split <;> simp [*]

/-- A leaf with the right text is not refused for it. -/
theorem of_requireText_bind_eq_error {label : Label} {text : String} {f : Unit → Except Error α}
    {e : Error} (hspan : span.text source = text)
    (h : (requireText source (leaf label span) text >>= f) = .error e) : f () = .error e := by
  rw [requireText, text_leaf, if_pos hspan] at h
  exact h

theorem toCondition_eq_toExpr {construct : String} (ha : a.label.isExpression = true) :
    toCondition source construct a = toExpr source a := if_pos ha

theorem toStmt_expression : toStmt source (branch .expressionStatement [a]) = (do
    let value ← toExpr source a
    return .expression value (spanOf [a])) := rfl

theorem toStmt_expression_eq_ok_iff : toStmt source (branch .expressionStatement [a]) = .ok st ↔
    ∃ e, toExpr source a = .ok e ∧ st = .expression e (spanOf [a]) := by
  rw [toStmt_expression]
  simp only [Except.bind_eq_ok_iff, Except.pure_eq_ok_iff, @eq_comm _ st]

theorem toStmt_returnNone : toStmt source (branch .returnStatement [leaf .keyword span]) = (do
    requireText source (leaf .keyword span) "return"
    return .return (.noneLiteral span) span) := rfl

theorem toStmt_returnNone_eq_ok_iff :
    toStmt source (branch .returnStatement [leaf .keyword span]) = .ok st ↔
      span.text source = "return" ∧ st = .return (.noneLiteral span) span := by
  rw [toStmt_returnNone]
  simp only [Except.bind_eq_ok_iff, requireText_eq_ok_iff, Except.pure_eq_ok_iff, text_leaf,
    @eq_comm _ st]
  constructor
  · rintro ⟨_, ht, h⟩
    exact ⟨ht, h⟩
  · rintro ⟨ht, h⟩
    exact ⟨(), ht, h⟩

theorem toStmt_returnValue : toStmt source (branch .returnStatement [leaf .keyword span, a]) = (do
    requireText source (leaf .keyword span) "return"
    let value ← toExpr source a
    return .return value (spanOf [leaf .keyword span, a])) := rfl

theorem toStmt_returnValue_eq_ok_iff :
    toStmt source (branch .returnStatement [leaf .keyword span, a]) = .ok st ↔
      span.text source = "return" ∧ ∃ e, toExpr source a = .ok e ∧
        st = .return e (spanOf [leaf .keyword span, a]) := by
  rw [toStmt_returnValue]
  simp only [Except.bind_eq_ok_iff, requireText_eq_ok_iff, Except.pure_eq_ok_iff, text_leaf,
    @eq_comm _ st]
  constructor
  · rintro ⟨_, ht, h⟩
    exact ⟨ht, h⟩
  · rintro ⟨ht, h⟩
    exact ⟨(), ht, h⟩

theorem toStmt_assign {name : Span} :
    toStmt source (branch .assignStatement [leaf .variableName name, leaf .assignOp span, a]) = (do
      let value ← toExpr source a
      return .assign (name.text source) value
        (spanOf [leaf .variableName name, leaf .assignOp span, a])) := rfl

theorem toStmt_assign_eq_ok_iff {name : Span} :
    toStmt source (branch .assignStatement [leaf .variableName name, leaf .assignOp span, a]) =
        .ok st ↔ ∃ e, toExpr source a = .ok e ∧ st = .assign (name.text source) e
          (spanOf [leaf .variableName name, leaf .assignOp span, a]) := by
  rw [toStmt_assign]
  simp only [Except.bind_eq_ok_iff, Except.pure_eq_ok_iff, @eq_comm _ st]

theorem toStmt_declare {name : Span} :
    toStmt source (branch .assignStatement
      [leaf .variableName name, branch .typeDef [mark, b], leaf .assignOp span, a]) = (do
        let type ← toTy source (branch .typeDef [mark, b])
        let value ← toExpr source a
        return .declare (name.text source) type value (spanOf
          [leaf .variableName name, branch .typeDef [mark, b], leaf .assignOp span, a])) := rfl

theorem toStmt_declare_eq_ok_iff {name : Span} :
    toStmt source (branch .assignStatement
        [leaf .variableName name, branch .typeDef [mark, b], leaf .assignOp span, a]) = .ok st ↔
      ∃ type e, toTy source (branch .typeDef [mark, b]) = .ok type ∧ toExpr source a = .ok e ∧
        st = .declare (name.text source) type e (spanOf
          [leaf .variableName name, branch .typeDef [mark, b], leaf .assignOp span, a]) := by
  rw [toStmt_declare]
  simp only [Except.bind_eq_ok_iff, Except.pure_eq_ok_iff, @eq_comm _ st]
  constructor
  · rintro ⟨type, ht, e, he, h⟩
    exact ⟨type, e, ht, he, h⟩
  · rintro ⟨type, e, ht, he, h⟩
    exact ⟨type, ht, e, he, h⟩

theorem toStmt_untold {name : Span} :
    toStmt source (branch .assignStatement [leaf .variableName name, branch .typeDef [mark, b]]) =
      (do
        let _ ← toTy source (branch .typeDef [mark, b])
        .error ⟨.missingValue (name.text source), (branch .typeDef [mark, b]).span.stop⟩) := rfl

/-- A variable that gets a type but no value has no meaning. -/
theorem toStmt_untold_ne_ok {name : Span} :
    toStmt source (branch .assignStatement [leaf .variableName name, branch .typeDef [mark, b]]) ≠
      .ok st := by
  rw [toStmt_untold]
  intro h
  obtain ⟨type, -, h⟩ := Except.bind_eq_ok_iff.1 h
  cases h

theorem toBody_branch : toBody source (branch .body (leaf .colon span :: nodes)) =
    statementsOf source nodes := rfl

theorem toBody_eq_ok_iff : toBody source (branch .body (leaf .colon span :: nodes)) = .ok sts ↔
    statementsOf source nodes = .ok sts := by
  rw [toBody_branch]

theorem statementsOf_cons (ha : a.label ≠ .colon) : statementsOf source (a :: nodes) = (do
    let st ← toStmt source a
    let more ← statementsOf source nodes
    return st :: more) := if_neg ha

theorem statementsOf_cons_eq_ok_iff (ha : a.label ≠ .colon) :
    statementsOf source (a :: nodes) = .ok sts ↔ ∃ st more, toStmt source a = .ok st ∧
      statementsOf source nodes = .ok more ∧ sts = st :: more := by
  rw [statementsOf_cons ha]
  simp only [Except.bind_eq_ok_iff, Except.pure_eq_ok_iff]
  constructor
  · rintro ⟨st, hst, more, hm, rfl⟩
    exact ⟨st, more, hst, hm, rfl⟩
  · rintro ⟨st, more, hst, hm, rfl⟩
    exact ⟨st, hst, more, hm, rfl⟩

theorem toStmt_loop (ha : a.label.isExpression = true) :
    toStmt source (branch .whileStatement [leaf .keyword span, a, b]) = (do
      requireText source (leaf .keyword span) "while"
      let e ← toExpr source a
      let body ← toBody source b
      return .loop e body (spanOf [leaf .keyword span, a, b])) := by
  rw [← toCondition_eq_toExpr ha]
  rfl

theorem toStmt_loop_eq_ok_iff (ha : a.label.isExpression = true) :
    toStmt source (branch .whileStatement [leaf .keyword span, a, b]) = .ok st ↔
      span.text source = "while" ∧ ∃ e body, toExpr source a = .ok e ∧ toBody source b = .ok body ∧
        st = .loop e body (spanOf [leaf .keyword span, a, b]) := by
  rw [toStmt_loop ha]
  simp only [Except.bind_eq_ok_iff, requireText_eq_ok_iff, text_leaf, Except.pure_eq_ok_iff,
    @eq_comm _ st]
  constructor
  · rintro ⟨_, ht, e, he, body, hb, h⟩
    exact ⟨ht, e, body, he, hb, h⟩
  · rintro ⟨ht, e, body, he, hb, h⟩
    exact ⟨(), ht, e, he, body, hb, h⟩

theorem toStmt_conditional (ha : a.label.isExpression = true) :
    toStmt source (branch .ifStatement (leaf .keyword span :: a :: b :: nodes)) = (do
      requireText source (leaf .keyword span) "if"
      let e ← toExpr source a
      let body ← toBody source b
      let further ← branchesAfter source nodes
      return .conditional ⟨.first, e, body, ⟨span.start, b.span.stop⟩⟩ further.1 further.2
        (spanOf (leaf .keyword span :: a :: b :: nodes))) := by
  rw [← toCondition_eq_toExpr ha]
  rfl

theorem toStmt_conditional_eq_ok_iff (ha : a.label.isExpression = true) :
    toStmt source (branch .ifStatement (leaf .keyword span :: a :: b :: nodes)) = .ok st ↔
      span.text source = "if" ∧ ∃ e body further, toExpr source a = .ok e ∧
        toBody source b = .ok body ∧ branchesAfter source nodes = .ok further ∧
        st = .conditional ⟨.first, e, body, ⟨span.start, b.span.stop⟩⟩ further.1 further.2
          (spanOf (leaf .keyword span :: a :: b :: nodes)) := by
  rw [toStmt_conditional ha]
  simp only [Except.bind_eq_ok_iff, requireText_eq_ok_iff, text_leaf, Except.pure_eq_ok_iff,
    @eq_comm _ st]
  constructor
  · rintro ⟨_, ht, e, he, body, hb, further, hf, h⟩
    exact ⟨ht, e, body, further, he, hb, hf, h⟩
  · rintro ⟨ht, e, body, further, he, hb, hf, h⟩
    exact ⟨(), ht, e, he, body, hb, further, hf, h⟩

variable {further : List (Branch Span) × List (Stmt Span)}

theorem branchesAfter_elif (hspan : span.text source = "elif")
    (ha : a.label.isExpression = true) :
    branchesAfter source (leaf .keyword span :: a :: b :: nodes) = (do
      let e ← toExpr source a
      let body ← toBody source b
      let more ← branchesAfter source nodes
      return (⟨.alternative, e, body, ⟨span.start, b.span.stop⟩⟩ :: more.1, more.2)) := by
  rw [← toCondition_eq_toExpr ha]
  exact if_pos hspan

theorem branchesAfter_elif_eq_ok_iff (hspan : span.text source = "elif")
    (ha : a.label.isExpression = true) :
    branchesAfter source (leaf .keyword span :: a :: b :: nodes) = .ok further ↔
      ∃ e body more, toExpr source a = .ok e ∧ toBody source b = .ok body ∧
        branchesAfter source nodes = .ok more ∧
        further = (⟨.alternative, e, body, ⟨span.start, b.span.stop⟩⟩ :: more.1, more.2) := by
  rw [branchesAfter_elif hspan ha]
  simp only [Except.bind_eq_ok_iff, Except.pure_eq_ok_iff, @eq_comm _ further]
  constructor
  · rintro ⟨e, he, body, hb, more, hm, h⟩
    exact ⟨e, body, more, he, hb, hm, h⟩
  · rintro ⟨e, body, more, he, hb, hm, h⟩
    exact ⟨e, he, body, hb, more, hm, h⟩

theorem branchesAfter_else (hspan : span.text source = "else") :
    branchesAfter source [leaf .keyword span, b] = (do
      let body ← toBody source b
      return ([], body)) := by
  have hmeaning : branchesAfter source [leaf .keyword span, b] =
      if span.text source = "elif" then do
        let _ ← b.toCondition source BranchKind.alternative.keyword
        endsWith .ifStatement b "branch body"
      else if span.text source = "else" then do
        let body ← toBody source b
        return ([], body)
      else .error ⟨.unexpectedKeyword "elif` or `else" (span.text source), span.start⟩ := rfl
  rw [hmeaning, if_neg (by rw [hspan]; decide), if_pos hspan]

theorem branchesAfter_else_eq_ok_iff (hspan : span.text source = "else") :
    branchesAfter source [leaf .keyword span, b] = .ok further ↔
      ∃ body, toBody source b = .ok body ∧ further = ([], body) := by
  rw [branchesAfter_else hspan]
  simp only [Except.bind_eq_ok_iff, Except.pure_eq_ok_iff, @eq_comm _ further]

variable {name : Span} {list : Node}

theorem toStmt_function (hb : b.label = .body) :
    toStmt source (branch .functionDefinition
      [leaf .keyword span, leaf .variableName name, list, b]) = (do
        requireText source (leaf .keyword span) "def"
        let parameters ← list.toParameters source
        let body ← toBody source b
        return .function (name.text source) parameters .none body
          (spanOf [leaf .keyword span, leaf .variableName name, list, b])) := by
  have hmeaning : toStmt source (branch .functionDefinition
      [leaf .keyword span, leaf .variableName name, list, b]) = (do
        requireText source (leaf .keyword span) "def"
        let parameters ← list.toParameters source
        if b.label = .typeDef then
          let _ ← b.toTy source
          endsWith .functionDefinition b "function body"
        else
          let body ← toBody source b
          return .function (name.text source) parameters .none body
            (spanOf [leaf .keyword span, leaf .variableName name, list, b])) := rfl
  have hnot : ¬ b.label = .typeDef := by simp [hb]
  simp only [hmeaning, hnot, if_false]

theorem toStmt_function_eq_ok_iff (hb : b.label = .body) :
    toStmt source (branch .functionDefinition
        [leaf .keyword span, leaf .variableName name, list, b]) = .ok st ↔
      span.text source = "def" ∧ ∃ parameters body, toParameters source list = .ok parameters ∧
        toBody source b = .ok body ∧ st = .function (name.text source) parameters .none body
          (spanOf [leaf .keyword span, leaf .variableName name, list, b]) := by
  rw [toStmt_function hb]
  simp only [Except.bind_eq_ok_iff, requireText_eq_ok_iff, text_leaf, Except.pure_eq_ok_iff,
    @eq_comm _ st]
  constructor
  · rintro ⟨_, ht, parameters, hp, body, hb, h⟩
    exact ⟨ht, parameters, body, hp, hb, h⟩
  · rintro ⟨ht, parameters, body, hp, hb, h⟩
    exact ⟨(), ht, parameters, hp, body, hb, h⟩

theorem toStmt_typedFunction :
    toStmt source (branch .functionDefinition
      [leaf .keyword span, leaf .variableName name, list, branch .typeDef [mark, a], b]) = (do
        requireText source (leaf .keyword span) "def"
        let parameters ← list.toParameters source
        let type ← toTy source (branch .typeDef [mark, a])
        let body ← toBody source b
        return .function (name.text source) parameters type body (spanOf
          [leaf .keyword span, leaf .variableName name, list, branch .typeDef [mark, a], b])) := rfl

theorem toStmt_typedFunction_eq_ok_iff :
    toStmt source (branch .functionDefinition
        [leaf .keyword span, leaf .variableName name, list, branch .typeDef [mark, a], b]) =
        .ok st ↔
      span.text source = "def" ∧ ∃ parameters type body,
        toParameters source list = .ok parameters ∧
        toTy source (branch .typeDef [mark, a]) = .ok type ∧ toBody source b = .ok body ∧
        st = .function (name.text source) parameters type body (spanOf
          [leaf .keyword span, leaf .variableName name, list, branch .typeDef [mark, a], b]) := by
  rw [toStmt_typedFunction]
  simp only [Except.bind_eq_ok_iff, requireText_eq_ok_iff, text_leaf, Except.pure_eq_ok_iff,
    @eq_comm _ st]
  constructor
  · rintro ⟨_, ht, parameters, hp, type, hty, body, hb, h⟩
    exact ⟨ht, parameters, type, body, hp, hty, hb, h⟩
  · rintro ⟨ht, parameters, type, body, hp, hty, hb, h⟩
    exact ⟨(), ht, parameters, hp, type, hty, body, hb, h⟩

end Statements

end Offside.Node
