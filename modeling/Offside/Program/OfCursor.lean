import Offside.Program.OfTree.Stmt
import Offside.Tree.Cursor

/-! The rules for the parts of a tree as moves of a cursor. A rule takes the first child of its node
and goes on from sibling to sibling; where it looks into a part, it hands on the cursor on it. -/
namespace Offside.Cursor

/-- The nodes after a cursor's in the same node. -/
def later (c : Cursor) : List Node :=
  match c.parent? with
  | none => []
  | some parent => parent.node.children.drop (c.index + 1)

/-- Whether the node and those after it are parts of something of this size. -/
def Within (size : Nat) (c : Cursor) : Prop := sizeOf c.node < size ∧ sizeOf c.later < size

theorem within_of_first? {c d : Cursor} (h : c.first? = some d) : d.Within (sizeOf c.node) := by
  obtain ⟨n, hn, rfl⟩ := Option.map_eq_some_iff.1 h
  obtain ⟨source, ⟨label, span, children⟩, index, parent?⟩ := c
  obtain ⟨rest, rfl⟩ := List.head?_eq_some_iff.1 hn
  simp only [Within, later, Node.mk.sizeOf_spec, List.cons.sizeOf_spec, List.drop_succ_cons,
    List.drop_zero]
  omega

theorem within_of_next? {c d : Cursor} (h : c.next? = some d) : d.Within (sizeOf c.later) := by
  obtain ⟨parent, hparent, hsibling⟩ := Option.bind_eq_some_iff.1 h
  obtain ⟨n, hn, hd⟩ := Option.bind_eq_some_iff.1 hsibling
  cases hd
  have hlater : c.later = n :: parent.node.children.drop (c.index + 1 + 1) := by
    obtain ⟨hlt, rfl⟩ := List.getElem?_eq_some_iff.1 hn
    rw [later, hparent]
    exact List.drop_eq_getElem_cons hlt
  rw [hlater, Within, List.cons.sizeOf_spec]
  simp only [later]
  omega

/-- The cursor on the first child, where a rule needs one. -/
def expectFirst (c : Cursor) (expected : String) :
    Except Error {d : Cursor // d.Within (sizeOf c.node)} :=
  match h : c.first? with
  | some d => .ok ⟨d, within_of_first? h⟩
  | none => .error ⟨.unexpectedNode expected ("empty " ++ c.label.name), c.span.start⟩

/-- The cursor on the next sibling, which is among the nodes after. -/
def nextWithin? (c : Cursor) : Option {d : Cursor // d.Within (sizeOf c.later)} :=
  match h : c.next? with
  | some d => some ⟨d, within_of_next? h⟩
  | none => none

/-- The cursor on the next sibling, where a rule needs one. -/
def expectNext (c : Cursor) (expected : String) :
    Except Error {d : Cursor // d.Within (sizeOf c.later)} :=
  match c.nextWithin? with
  | some d => .ok d
  | none =>
    let around := c.parent?.elim "input" (·.label.name)
    .error ⟨.unexpectedNode expected ("end of " ++ around), c.span.stop⟩

/-- The number behind a sign. -/
def toSigned (c : Cursor) : Except Error (Expr Span) := do
  let ⟨sign, _⟩ ← c.expectFirst "unary operator"
  if sign.text ≠ "+" ∧ sign.text ≠ "-" then .error ⟨.unknownSign sign.text, sign.span.start⟩
  else
    let ⟨number, _⟩ ← sign.expectNext "number"
    if number.label ≠ .number then .error ⟨.signWithoutNumber number.text, number.span.start⟩
    else Node.numberOf (sign.text ++ number.text) c.span

mutual
/-- The expression that the node stands for. -/
def toExpr (c : Cursor) : Except Error (Expr Span) :=
  match c.label with
  | .noneLiteral => .ok (.noneLiteral c.span)
  | .boolean => .ok (.boolean (c.text = "True") c.span)
  | .number => Node.numberOf c.text c.span
  | .variableName => .ok (.ident c.text c.span)
  | .callExpression => do
    let ⟨callee, _⟩ ← c.expectFirst "function name"
    callee.node.requireAs .variableName "function name"
    let ⟨list, _⟩ ← callee.expectNext "argument list"
    return .call callee.text (← toArguments list) c.span
  | .unaryExpression => c.toSigned
  | .binaryExpression => do
    let ⟨lhs, _⟩ ← c.expectFirst "left operand"
    let ⟨op, _⟩ ← lhs.expectNext "operator"
    let ⟨rhs, _⟩ ← op.expectNext "right operand"
    return .binary (← op.node.toOperator op.source) (← toExpr lhs) (← toExpr rhs) c.span
  | .parenthesizedExpression => do
    let ⟨opening, _⟩ ← c.expectFirst "`(`"
    let ⟨inner, _⟩ ← opening.expectNext "expression"
    toExpr inner
  | _ => c.node.unexpected "expression"
termination_by sizeOf c.node
decreasing_by all_goals simp only [Within] at *; omega

/-- The arguments in a list of them. -/
def toArguments (c : Cursor) : Except Error (List (Expr Span)) := do
  c.node.require .argList
  let ⟨opening, _⟩ ← c.expectFirst "`(`"
  opening.node.require .openParen
  argumentsAfter opening "`)`"
termination_by sizeOf c.node
decreasing_by all_goals simp only [Within] at *; omega

/-- The arguments after a parenthesis or comma. -/
def argumentsAfter (last : Cursor) (expected : String) : Except Error (List (Expr Span)) := do
  let ⟨argument, _⟩ ← last.expectNext expected
  if argument.label = .closeParen then return []
  else
    let value ← toExpr argument
    let ⟨next, _⟩ ← argument.expectNext "`)`"
    match next.label with
    | .comma => return value :: (← argumentsAfter next "argument")
    | .closeParen => return [value]
    | _ => next.node.unexpected "`,` or `)`"
termination_by sizeOf last.later
decreasing_by all_goals simp only [Within] at *; omega
end

/-- The type after its mark. -/
def toTy (c : Cursor) : Except Error Ty := do
  c.node.require .typeDef
  let ⟨mark, _⟩ ← c.expectFirst "type annotation"
  let ⟨name, _⟩ ← mark.expectNext "type name"
  name.node.typeOfName name.source

/-- The parameters after a parenthesis or comma. -/
def parametersAfter (last : Cursor) (expected : String) : Except Error (List Parameter) := do
  let ⟨name, _⟩ ← last.expectNext expected
  match name.label with
  | .closeParen => return []
  | .variableName =>
    match name.nextWithin? with
    | none => name.node.lacksType name.source
    | some ⟨type, _⟩ =>
      if type.label ≠ .typeDef then name.node.lacksType name.source
      else
        let parameter : Parameter := ⟨name.text, ← type.toTy⟩
        let ⟨next, _⟩ ← type.expectNext "`)`"
        match next.label with
        | .comma => return parameter :: (← parametersAfter next "parameter")
        | .closeParen => return [parameter]
        | _ => next.node.unexpected "`,` or `)`"
  | _ => name.node.unexpected "parameter"
termination_by sizeOf last.later
decreasing_by all_goals simp only [Within] at *; omega

/-- The parameters in a list of them. -/
def toParameters (c : Cursor) : Except Error (List Parameter) := do
  c.node.require .paramList
  let ⟨opening, _⟩ ← c.expectFirst "`(`"
  opening.node.require .openParen
  parametersAfter opening "`)`"

/-- A condition of the named construct. -/
def toCondition (c : Cursor) (construct : String) : Except Error (Expr Span) :=
  if c.label.isExpression then c.toExpr
  else .error ⟨.conditionNotExpression construct c.label.name, c.span.start⟩

/-- A statement that gives back a value, or the absent one where none is written. -/
def toReturn (c : Cursor) : Except Error (Stmt Span) := do
  let ⟨keyword, _⟩ ← c.expectFirst "`return`"
  keyword.node.requireText keyword.source "return"
  match keyword.next? with
  | none => return .return (.noneLiteral keyword.span) c.span
  | some value => return .return (← value.toExpr) c.span

/-- A variable that gets a value, of a stated type or of the value's. -/
def toAssignment (c : Cursor) : Except Error (Stmt Span) := do
  let ⟨name, _⟩ ← c.expectFirst "variable name"
  name.node.require .variableName
  match name.next? with
  | none => name.node.lacksType name.source
  | some next =>
    match next.label with
    | .assignOp => do
      let ⟨value, _⟩ ← next.expectNext "assigned value"
      return .assign name.text (← value.toExpr) c.span
    | .typeDef => do
      let type ← next.toTy
      match next.next? with
      | none => .error ⟨.missingValue name.text, next.span.stop⟩
      | some mark => do
        mark.node.requireAs .assignOp "`=`"
        let ⟨value, _⟩ ← mark.expectNext "assigned value"
        return .declare name.text type (← value.toExpr) c.span
    | _ => name.node.lacksType name.source

theorem sizeOf_of_mem_onward {c d : Cursor} {size : Nat} (hc : c.Within size)
    (h : d ∈ c.onward) : sizeOf d.node < size := by
  fun_induction onward c with
  | case1 c hlast =>
    rw [List.mem_singleton.1 h]
    exact hc.1
  | case2 c e hnext ih =>
    obtain rfl | h := List.mem_cons.1 h
    · exact hc.1
    · have he := within_of_next? hnext
      exact ih ⟨Nat.lt_trans he.1 hc.2, Nat.lt_trans he.2 hc.2⟩ h

/-- The cursors on a node's children are on parts of it. -/
theorem sizeOf_of_mem_children {c d : Cursor} (h : d ∈ c.children) :
    sizeOf d.node < sizeOf c.node := by
  unfold children at h
  split at h
  · cases h
  · rename_i hfirst
    exact sizeOf_of_mem_onward (within_of_first? hfirst) h

mutual
/-- The statement that the node stands for. -/
def toStmt (c : Cursor) : Except Error (Stmt Span) :=
  match c.label with
  | .returnStatement => c.toReturn
  | .assignStatement => c.toAssignment
  | .expressionStatement => do
    let ⟨value, _⟩ ← c.expectFirst "expression"
    return .expression (← value.toExpr) c.span
  | .functionDefinition => do
    let ⟨keyword, _⟩ ← c.expectFirst "`def`"
    keyword.node.requireText keyword.source "def"
    let ⟨name, _⟩ ← keyword.expectNext "function name"
    name.node.require .variableName
    let ⟨list, _⟩ ← name.expectNext "parameter list"
    let parameters ← list.toParameters
    let ⟨next, _⟩ ← list.expectNext "function body"
    if next.label = .typeDef then
      let returns ← next.toTy
      let ⟨body, _⟩ ← next.expectNext "function body"
      return .function name.text parameters returns (← toBody body) c.span
    else return .function name.text parameters .none (← toBody next) c.span
  | .whileStatement => do
    let ⟨keyword, _⟩ ← c.expectFirst "`while`"
    keyword.node.requireText keyword.source "while"
    let ⟨condition, _⟩ ← keyword.expectNext "while condition"
    let value ← condition.toCondition "while"
    let ⟨body, _⟩ ← condition.expectNext "while body"
    return .loop value (← toBody body) c.span
  | .passStatement => .ok (.pass c.span)
  | .ifStatement => do
    let ⟨keyword, _⟩ ← c.expectFirst "`if`"
    keyword.node.requireText keyword.source "if"
    let ⟨condition, _⟩ ← keyword.expectNext "condition"
    let value ← condition.toCondition BranchKind.first.keyword
    let ⟨body, _⟩ ← condition.expectNext "branch body"
    let statements ← toBody body
    let (alternatives, otherwise) ← branchesAfter body
    return .conditional ⟨.first, value, statements, ⟨keyword.span.start, body.span.stop⟩⟩
      alternatives otherwise c.span
  | _ => c.node.unexpected "statement"
termination_by sizeOf c.node
decreasing_by all_goals simp only [Within] at *; omega

/-- The statements of a body, without its colon. -/
def toBody (c : Cursor) : Except Error (List (Stmt Span)) := do
  c.node.require .body
  (c.children.filter fun d => d.label ≠ .colon).attach.mapM fun ⟨d, _⟩ => toStmt d
termination_by sizeOf c.node
decreasing_by exact sizeOf_of_mem_children (List.mem_filter.1 ‹_›).1

/-- The further branches after a body, and the statements for no condition. -/
def branchesAfter (last : Cursor) : Except Error (List (Branch Span) × List (Stmt Span)) :=
  match last.nextWithin? with
  | none => .ok ([], [])
  | some ⟨keyword, _⟩ =>
    if keyword.text = "elif" then do
      let ⟨condition, _⟩ ← keyword.expectNext "condition"
      let value ← condition.toCondition BranchKind.alternative.keyword
      let ⟨body, _⟩ ← condition.expectNext "branch body"
      let statements ← toBody body
      let (alternatives, otherwise) ← branchesAfter body
      return (⟨.alternative, value, statements, ⟨keyword.span.start, body.span.stop⟩⟩ ::
        alternatives, otherwise)
    else if keyword.text = "else" then do
      let ⟨body, _⟩ ← keyword.expectNext "else body"
      let statements ← toBody body
      match body.next? with
      | none => return ([], statements)
      | some extra => extra.node.unexpected "end of if statement"
    else .error ⟨.unexpectedKeyword "elif` or `else" keyword.text, keyword.span.start⟩
termination_by sizeOf last.later
decreasing_by all_goals simp only [Within] at *; omega
end

/-- The statements of a program. -/
def toProgram (c : Cursor) : Except Error (Program Span) := do
  c.node.require .script
  c.children.mapM toStmt

end Offside.Cursor
