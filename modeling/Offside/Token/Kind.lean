/-! Kinds of tokens. A kind either has one fixed text (keywords, punctuation and operators), stands
for a class of texts (numbers and identifiers), or has no text (layout). -/
namespace Offside

inductive TokenKind where
  | eof
  | number | identifier
  | newline | indent | dedent
  | openParen | closeParen
  | assignment | equals | notEquals
  | less | lessEquals | greater | greaterEquals
  | colon | comma | arrow
  | plus | dash | star | slash | slashSlash | percent
  | kwDef | kwReturn | kwIf | kwElif | kwElse | kwWhile | kwPass
  | kwAnd | kwOr | kwIs | kwTrue | kwFalse | kwNone
deriving DecidableEq, Repr, Inhabited

namespace TokenKind

def all : List TokenKind :=
  [eof, number, identifier, newline, indent, dedent, openParen, closeParen, assignment, equals,
    notEquals, less, lessEquals, greater, greaterEquals, colon, comma, arrow, plus, dash, star,
    slash, slashSlash, percent, kwDef, kwReturn, kwIf, kwElif, kwElse, kwWhile, kwPass, kwAnd, kwOr,
    kwIs, kwTrue, kwFalse, kwNone]

theorem mem_all (k : TokenKind) : k ∈ all := by cases k <;> decide

/-- The name of a kind in a message. -/
def name : TokenKind → String
  | eof => "EOF"
  | number => "Number"
  | identifier => "Identifier"
  | newline => "Newline"
  | indent => "Indent"
  | dedent => "Dedent"
  | openParen => "OpenParen"
  | closeParen => "CloseParen"
  | assignment => "Assignment"
  | equals => "Equals"
  | notEquals => "NotEquals"
  | less => "Less"
  | lessEquals => "LessEquals"
  | greater => "Greater"
  | greaterEquals => "GreaterEquals"
  | colon => "Colon"
  | comma => "Comma"
  | arrow => "Arrow"
  | plus => "Plus"
  | dash => "Dash"
  | star => "Star"
  | slash => "Slash"
  | slashSlash => "SlashSlash"
  | percent => "Percent"
  | kwDef => "Def"
  | kwReturn => "Return"
  | kwIf => "If"
  | kwElif => "Elif"
  | kwElse => "Else"
  | kwWhile => "While"
  | kwPass => "Pass"
  | kwAnd => "And"
  | kwOr => "Or"
  | kwIs => "Is"
  | kwTrue => "True"
  | kwFalse => "False"
  | kwNone => "None"

/-- The kinds that only structure lines and blocks. -/
def isLayout : TokenKind → Bool
  | newline | indent | dedent => true
  | _ => false

/-- The kinds before which a simple statement may end. -/
def endsLine : TokenKind → Bool
  | newline | dedent | eof => true
  | _ => false

/-- The text of the kinds that have only one. -/
def text? : TokenKind → Option String
  | eof | number | identifier | newline | indent | dedent => none
  | openParen => some "("
  | closeParen => some ")"
  | assignment => some "="
  | equals => some "=="
  | notEquals => some "!="
  | less => some "<"
  | lessEquals => some "<="
  | greater => some ">"
  | greaterEquals => some ">="
  | colon => some ":"
  | comma => some ","
  | arrow => some "->"
  | plus => some "+"
  | dash => some "-"
  | star => some "*"
  | slash => some "/"
  | slashSlash => some "//"
  | percent => some "%"
  | kwDef => some "def"
  | kwReturn => some "return"
  | kwIf => some "if"
  | kwElif => some "elif"
  | kwElse => some "else"
  | kwWhile => some "while"
  | kwPass => some "pass"
  | kwAnd => some "and"
  | kwOr => some "or"
  | kwIs => some "is"
  | kwTrue => some "True"
  | kwFalse => some "False"
  | kwNone => some "None"

/-- The reserved words. -/
def keywords : List TokenKind :=
  [kwDef, kwReturn, kwIf, kwElif, kwElse, kwWhile, kwPass, kwAnd, kwOr, kwIs, kwTrue, kwFalse,
    kwNone]

/-- Punctuation and operators, the longer texts first. -/
def symbols : List TokenKind :=
  [arrow, slashSlash, equals, notEquals, lessEquals, greaterEquals, openParen, closeParen, less,
    greater, assignment, colon, comma, plus, dash, star, slash, percent]

/-- The keyword that a word is, if it is reserved. -/
def keyword? (word : String) : Option TokenKind := keywords.find? (·.text? = some word)

end TokenKind
end Offside
