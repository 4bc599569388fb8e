import Offside.Proofs.Grammar.Expression
import Offside.Proofs.Token

/-! The statements of the language as a grammar. A line may end without a token where a block or the
input ends, and an `elif` or `else` belongs to the nearest conditional; so what tokens are depends
on the kind of the token after them. -/
namespace Offside

namespace Script

/-- The end of a simple statement. -/
inductive LineEnd (next : TokenKind) : List Token → Prop
  | newline {tok : Token} : tok.kind = .newline → LineEnd next [tok]
  | before : next = .dedent ∨ next = .eof → LineEnd next []

/-- The end of an indented block, which the end of the input may stand for. -/
inductive BlockEnd (next : TokenKind) : List Token → Prop
  | dedent {tok : Token} : tok.kind = .dedent → BlockEnd next [tok]
  | input : next = .eof → BlockEnd next []

/-- A type after its mark, or nothing. -/
inductive OptionalType (k : TokenKind) (label : Label) : List Token → List Node → Prop
  | absent : OptionalType k label [] []
  | present {u a} {mark : Token} : mark.kind = k → Level.disjunction.Derives u a →
      OptionalType k label (mark :: u) [.branch .typeDef [.leaf label mark.span, a]]

/-- What stands after the name in an assignment: a type, a value or both. -/
inductive Assigned : List Token → List Node → Prop
  | type {u a} {mark : Token} : mark.kind = .colon → Level.disjunction.Derives u a →
      Assigned (mark :: u) [.branch .typeDef [.leaf .colon mark.span, a]]
  | value {u v types b} {mark : Token} : OptionalType .colon .colon u types →
      mark.kind = .assignment → Level.disjunction.Derives v b →
      Assigned (u ++ mark :: v) (types ++ [.leaf .assignOp mark.span, b])

inductive Parameter : List Token → List Node → Prop
  | mk {u types} {name : Token} : name.kind = .identifier → OptionalType .colon .colon u types →
      Parameter (name :: u) (.leaf .variableName name.span :: types)

/-- Parameters up to the closing parenthesis. A comma may stand after the last. -/
inductive Parameters : List Token → List Node → Prop
  | close {closing : Token} : closing.kind = .closeParen →
      Parameters [closing] [.leaf .closeParen closing.span]
  | last {u nodes} {closing : Token} : Parameter u nodes → closing.kind = .closeParen →
      Parameters (u ++ [closing]) (nodes ++ [.leaf .closeParen closing.span])
  | more {u v nodes more} {comma : Token} : Parameter u nodes → comma.kind = .comma →
      Parameters v more → Parameters (u ++ comma :: v) (nodes ++ .leaf .comma comma.span :: more)

mutual
/-- Tokens are a statement before a token of this kind, and this is its tree. -/
inductive Statement : TokenKind → List Token → Node → Prop
  | function {next u v w parameters types body} {keyword name opening : Token} :
      keyword.kind = .kwDef → name.kind = .identifier → opening.kind = .openParen →
      Parameters u parameters → OptionalType .arrow .arrow v types → Body next w body →
      Statement next (keyword :: name :: opening :: (u ++ (v ++ w))) (.branch .functionDefinition
        (.leaf .keyword keyword.span :: .leaf .variableName name.span ::
          .branch .paramList (.leaf .openParen opening.span :: parameters) :: types ++ [body]))
  | returnNone {next u} {keyword : Token} : keyword.kind = .kwReturn → LineEnd next u →
      Statement next (keyword :: u) (.branch .returnStatement [.leaf .keyword keyword.span])
  | returnValue {next u v a} {keyword : Token} : keyword.kind = .kwReturn →
      Level.disjunction.Derives u a → LineEnd next v →
      Statement next (keyword :: (u ++ v))
        (.branch .returnStatement [.leaf .keyword keyword.span, a])
  | loop {next u v a body} {keyword : Token} : keyword.kind = .kwWhile →
      Level.disjunction.Derives u a → Body next v body →
      Statement next (keyword :: (u ++ v))
        (.branch .whileStatement [.leaf .keyword keyword.span, a, body])
  | conditional {next u v w a body nodes} {keyword : Token} : keyword.kind = .kwIf →
      Level.disjunction.Derives u a → Body (firstKind w next) v body → Further next w nodes →
      Statement next (keyword :: (u ++ (v ++ w)))
        (.branch .ifStatement (.leaf .keyword keyword.span :: a :: body :: nodes))
  | pass {next u} {keyword : Token} : keyword.kind = .kwPass → LineEnd next u →
      Statement next (keyword :: u) (.branch .passStatement [.leaf .keyword keyword.span])
  | assignment {next u v nodes} {name : Token} : name.kind = .identifier → Assigned u nodes →
      LineEnd next v →
      Statement next (name :: (u ++ v))
        (.branch .assignStatement (.leaf .variableName name.span :: nodes))
  | expression {next u v a} : Level.disjunction.Derives u a → LineEnd next v →
      Statement next (u ++ v) (.branch .expressionStatement [a])

/-- A colon and a statement on its line, or the statements of an indented block. -/
inductive Body : TokenKind → List Token → Node → Prop
  | line {next u a} {colon : Token} : colon.kind = .colon → Statement next u a →
      Body next (colon :: u) (.branch .body [.leaf .colon colon.span, a])
  | block {next u v nodes} {colon newline indent : Token} : colon.kind = .colon →
      newline.kind = .newline → indent.kind = .indent → Lines (firstKind v next) u nodes →
      BlockEnd next v →
      Body next (colon :: newline :: indent :: (u ++ v))
        (.branch .body (.leaf .colon colon.span :: nodes))

/-- Statements and empty lines. -/
inductive Lines : TokenKind → List Token → List Node → Prop
  | nil {next} : Lines next [] []
  | blank {next u nodes} {newline : Token} : newline.kind = .newline → Lines next u nodes →
      Lines next (newline :: u) nodes
  | statement {next u v a nodes} : Statement (firstKind v next) u a → Lines next v nodes →
      Lines next (u ++ v) (a :: nodes)

/-- The parts of a conditional after the first. It ends where none can follow. -/
inductive Further : TokenKind → List Token → List Node → Prop
  | none {next} : next ≠ .kwElif → next ≠ .kwElse → Further next [] []
  | alternative {next u v w a body nodes} {keyword : Token} : keyword.kind = .kwElif →
      Level.disjunction.Derives u a → Body (firstKind w next) v body → Further next w nodes →
      Further next (keyword :: (u ++ (v ++ w)))
        (.leaf .keyword keyword.span :: a :: body :: nodes)
  | otherwise {next u body} {keyword : Token} : keyword.kind = .kwElse → Body next u body →
      Further next (keyword :: u) [.leaf .keyword keyword.span, body]
end

end Script
end Offside
