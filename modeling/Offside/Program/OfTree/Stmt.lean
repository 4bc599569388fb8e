import Offside.Program
import Offside.Program.OfTree.Expr
import Offside.Program.OfTree.Ty

/-! The statement that a node stands for. -/
namespace Offside.Node

/-- A condition of the named construct. -/
def toCondition (source : List Char) (construct : String) (n : Node) : Except Error (Expr Span) :=
  if n.label.isExpression then n.toExpr source
  else .error ⟨.conditionNotExpression construct n.label.name, n.span.start⟩

/-- A statement that gives back a value, or the absent one where none is written. -/
def returnOf (source : List Char) (span : Span) : List Node → Except Error (Stmt Span)
  | [] => isEmpty .returnStatement span "`return`"
  | keyword :: rest => do
    keyword.requireText source "return"
    match rest with
    | [] => return .return (.noneLiteral keyword.span) span
    | value :: _ => return .return (← value.toExpr source) span

/-- The value after an equals sign. -/
def valueAfter (source : List Char) (mark : Node) : List Node → Except Error (Expr Span)
  | [] => endsWith .assignStatement mark "assigned value"
  | value :: _ => value.toExpr source

/-- A variable that gets a value, of a stated type or of the value's. -/
def assignmentOf (source : List Char) (span : Span) : List Node → Except Error (Stmt Span)
  | [] => isEmpty .assignStatement span "variable name"
  | name :: rest => do
    name.require .variableName
    let next :: rest := rest | name.lacksType source
    match next.label with
    | .assignOp => return .assign (name.text source) (← valueAfter source next rest) span
    | .typeDef =>
      let type ← next.toTy source
      let mark :: rest := rest | .error ⟨.missingValue (name.text source), next.span.stop⟩
      mark.requireAs .assignOp "`=`"
      return .declare (name.text source) type (← valueAfter source mark rest) span
    | _ => name.lacksType source

mutual
/-- The statement that a node stands for. -/
def toStmt (source : List Char) : Node → Except Error (Stmt Span)
  | ⟨.returnStatement, span, children⟩ => returnOf source span children
  | ⟨.assignStatement, span, children⟩ => assignmentOf source span children
  | ⟨.expressionStatement, span, children⟩ => do
    let value :: _ := children | isEmpty .expressionStatement span "expression"
    return .expression (← value.toExpr source) span
  | ⟨.functionDefinition, span, children⟩ => do
    let keyword :: rest := children | isEmpty .functionDefinition span "`def`"
    keyword.requireText source "def"
    let name :: rest := rest | endsWith .functionDefinition keyword "function name"
    name.require .variableName
    let list :: rest := rest | endsWith .functionDefinition name "parameter list"
    let parameters ← list.toParameters source
    let next :: rest := rest | endsWith .functionDefinition list "function body"
    if next.label = .typeDef then
      let returns ← next.toTy source
      let body :: _ := rest | endsWith .functionDefinition next "function body"
      return .function (name.text source) parameters returns (← toBody source body) span
    else return .function (name.text source) parameters .none (← toBody source next) span
  | ⟨.whileStatement, span, children⟩ => do
    let keyword :: rest := children | isEmpty .whileStatement span "`while`"
    keyword.requireText source "while"
    let condition :: rest := rest | endsWith .whileStatement keyword "while condition"
    let value ← condition.toCondition source "while"
    let body :: _ := rest | endsWith .whileStatement condition "while body"
    return .loop value (← toBody source body) span
  | ⟨.passStatement, span, _⟩ => .ok (.pass span)
  | ⟨.ifStatement, span, children⟩ => do
    let keyword :: rest := children | isEmpty .ifStatement span "`if`"
    keyword.requireText source "if"
    let condition :: rest := rest | endsWith .ifStatement keyword "condition"
    let value ← condition.toCondition source BranchKind.first.keyword
    let body :: rest := rest | endsWith .ifStatement condition "branch body"
    let statements ← toBody source body
    let (alternatives, otherwise) ← branchesAfter source rest
    return .conditional ⟨.first, value, statements, ⟨keyword.span.start, body.span.stop⟩⟩
      alternatives otherwise span
  | n => n.unexpected "statement"

/-- The statements of a body. -/
def toBody (source : List Char) : Node → Except Error (List (Stmt Span))
  | ⟨label, span, children⟩ => do
    require ⟨label, span, children⟩ .body
    statementsOf source children

/-- The statements of a body after its colon. Further colons say nothing either. -/
def statementsOf (source : List Char) : List Node → Except Error (List (Stmt Span))
  | [] => .ok []
  | n :: rest =>
    if n.label = .colon then statementsOf source rest
    else do return (← toStmt source n) :: (← statementsOf source rest)

/-- The further branches of a conditional and the statements for no condition. -/
def branchesAfter (source : List Char) :
    List Node → Except Error (List (Branch Span) × List (Stmt Span))
  | [] => .ok ([], [])
  | keyword :: rest =>
    if keyword.text source = "elif" then do
      let condition :: rest := rest | endsWith .ifStatement keyword "condition"
      let value ← condition.toCondition source BranchKind.alternative.keyword
      let body :: rest := rest | endsWith .ifStatement condition "branch body"
      let statements ← toBody source body
      let (alternatives, otherwise) ← branchesAfter source rest
      return (⟨.alternative, value, statements, ⟨keyword.span.start, body.span.stop⟩⟩ ::
        alternatives, otherwise)
    else if keyword.text source = "else" then do
      let body :: rest := rest | endsWith .ifStatement keyword "else body"
      let statements ← toBody source body
      match rest with
      | [] => return ([], statements)
      | extra :: _ => extra.unexpected "end of if statement"
    else .error ⟨.unexpectedKeyword "elif` or `else" (keyword.text source), keyword.span.start⟩
end

/-- The statements of a program. -/
def toProgram (source : List Char) (n : Node) : Except Error (Program Span) := do
  n.require .script
  n.children.mapM (toStmt source)

end Offside.Node
