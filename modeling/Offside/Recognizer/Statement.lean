import Offside.Recognizer.Expression

/-! Statements and programs. A block is a statement on the line of its colon, or the statements of an
indented part; an `elif` or `else` belongs to the nearest statement that can take it. -/
namespace Offside
open Recognizer

namespace Grammar

/-- The mark that introduces a type, and the type, which may be any expression. -/
def typeDef (g : Grammar) (mark : Label) : Recognizer Node := do
  let mark ← leaf mark
  let type ← g.expression .loosest
  return .branch .typeDef [mark, type]

/-- A type after the mark of the given kind, or nothing. -/
def optionalType (g : Grammar) (k : TokenKind) (mark : Label) : Recognizer (List Node) := do
  if (← kind) = k then return [← g.typeDef mark] else return []

/-- The value after an equals sign, or nothing. -/
def optionalValue (g : Grammar) : Recognizer (List Node) := do
  if (← kind) = .assignment then
    let mark ← leaf .assignOp
    let value ← g.expression .loosest
    return [mark, value]
  else return []

/-- A name that gets a type, a value or both. -/
def assignment (g : Grammar) : Recognizer Node := do
  let name ← leaf .variableName
  let type ← g.optionalType .colon .colon
  let value ← g.optionalValue
  lineEnd
  return .branch .assignStatement (name :: type ++ value)

/-- An expression on a line of its own. -/
def expressionStatement (g : Grammar) : Recognizer Node := do
  let value ← g.expression .loosest
  lineEnd
  return .branch .expressionStatement [value]

/-- The keyword with or without a value. -/
def returnStatement (g : Grammar) : Recognizer Node := do
  let keyword ← leaf .keyword
  let value ← if (← kind).endsLine then pure [] else pure [← g.expression .loosest]
  lineEnd
  return .branch .returnStatement (keyword :: value)

def passStatement : Recognizer Node := do
  let keyword ← leaf .keyword
  lineEnd
  return .branch .passStatement [keyword]

/-- A parameter's name and maybe its type. -/
def parameter (g : Grammar) : Recognizer (List Node) := do
  let name ← expectLeaf .identifier .variableName
  return name :: (← g.optionalType .colon .colon)

def parameterList (g : Grammar) : Recognizer Node := do
  let opening ← expectLeaf .openParen .openParen
  let nodes ← items g.parameter
  return .branch .paramList (opening :: nodes)

/-- A statement of a block, or an empty line. -/
def blockLine (statement : Recognizer Node) : Recognizer (List Node) := do
  if (← kind) = .newline then
    discard advance
    return []
  else return [← statement]

/-- The kinds before which a block goes on. -/
def inBlock (k : TokenKind) : Bool := k ≠ .dedent && k ≠ .eof

/-- The statements of an indented block up to its end, which the end of the input may stand for. -/
def block (statement : Recognizer Node) : Recognizer (List Node) := do
  let nodes ← repeatWhile inBlock (blockLine statement)
  if (← kind) = .dedent then discard advance
  return nodes

/-- The body after a colon, where `statement` reads the statements in it. -/
def bodyRule (statement : Recognizer Node) : Recognizer Node := do
  let colon ← expectLeaf .colon .colon
  if (← kind) = .newline then
    discard advance
    discard (expect .indent)
    let nodes ← block statement
    return .branch .body (colon :: nodes)
  else
    let only ← statement
    return .branch .body [colon, only]

def functionDefinition (g : Grammar) (body : Recognizer Node) : Recognizer Node := do
  let keyword ← leaf .keyword
  let name ← expectLeaf .identifier .variableName
  let parameters ← g.parameterList
  let type ← g.optionalType .arrow .arrow
  let body ← body
  return .branch .functionDefinition (keyword :: name :: parameters :: type ++ [body])

/-- A keyword, a condition and the body for it. -/
def guarded (g : Grammar) (body : Recognizer Node) : Recognizer (List Node) := do
  let keyword ← leaf .keyword
  let condition ← g.expression .loosest
  let body ← body
  return [keyword, condition, body]

def whileStatement (g : Grammar) (body : Recognizer Node) : Recognizer Node := do
  return .branch .whileStatement (← g.guarded body)

/-- The part of a conditional for which no condition holds, or nothing. -/
def optionalElse (body : Recognizer Node) : Recognizer (List Node) := do
  if (← kind) = .kwElse then
    let keyword ← leaf .keyword
    let body ← body
    return [keyword, body]
  else return []

def ifStatement (g : Grammar) (body : Recognizer Node) : Recognizer Node := do
  let first ← g.guarded body
  let alternatives ← repeatWhile (· = .kwElif) (g.guarded body)
  let otherwise ← optionalElse body
  return .branch .ifStatement (first ++ alternatives ++ otherwise)

/-- The statement that a rule reads, where `statement` reads those in its bodies. -/
def statementBy (g : Grammar) (statement : Recognizer Node) : StatementRule → Recognizer Node
  | .function => g.functionDefinition (bodyRule statement)
  | .return => g.returnStatement
  | .loop => g.whileStatement (bodyRule statement)
  | .conditional => g.ifStatement (bodyRule statement)
  | .pass => passStatement
  | .assignment => g.assignment

/-- Whether a name before this kind is assigned to. -/
def startsAssignment (k : TokenKind) : Bool := k = .colon || k = .assignment

/-- A statement, where `statement` reads those in its bodies. -/
def statementRule (g : Grammar) (statement : Unit → Recognizer Node) (_ : Unit) :
    Recognizer Node := do
  let k ← kind
  match g.statement? k with
  | some rule => g.statementBy (statement ()) rule
  | none =>
    if k = .identifier && startsAssignment (← nextKind) then g.assignment
    else g.expressionStatement

def statement (g : Grammar) : Recognizer Node := nest g.statementRule ()

/-- The body after a colon. -/
def body (g : Grammar) : Recognizer Node := bodyRule g.statement

/-- The statements of a program up to the end of the input. -/
def script (g : Grammar) : Recognizer (List Node) := repeatWhile (· ≠ .eof) (blockLine g.statement)

end Grammar

/-- The tree of a program, or the first token that no program has there. -/
def recognize (file : String) (tokens : List Token) : Except Error Node :=
  match Grammar.standard.script (.ofTokens file tokens) with
  | .ok statements rest => .ok ⟨.script, ⟨⟨0, file⟩, rest.position⟩, statements⟩
  | .error e _ => .error e

end Offside
