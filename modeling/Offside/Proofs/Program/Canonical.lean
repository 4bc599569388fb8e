import Offside.Proofs.Program.WellFormed
import Offside.Proofs.Scan.Layout

/-! The canonical text of a program and the tokens that it is made of: a line for each simple
statement and each head of a compound one, bodies on the lines after their head and one block
deeper, and every operation in parentheses. -/
namespace Offside

variable {α : Type}

/-- An expression without its notes. -/
def Expr.bare (e : Expr α) : Expr Unit := e.map fun _ => ()

mutual
/-- A statement without its notes and the spans of its branches. -/
def Stmt.bare : Stmt α → Stmt Unit
  | .assign name value _ => .assign name value.bare ()
  | .declare name type value _ => .declare name type value.bare ()
  | .expression value _ => .expression value.bare ()
  | .function name parameters returns body _ =>
    .function name parameters returns (Stmt.allBare body) ()
  | .return value _ => .return value.bare ()
  | .conditional first alternatives otherwise _ =>
    .conditional (Stmt.branchBare first) (Stmt.branchesBare alternatives)
      (Stmt.allBare otherwise) ()
  | .loop condition body _ => .loop condition.bare (Stmt.allBare body) ()
  | .pass _ => .pass ()

def Stmt.allBare : List (Stmt α) → List (Stmt Unit)
  | [] => []
  | st :: rest => Stmt.bare st :: Stmt.allBare rest

def Stmt.branchBare : Branch α → Branch Unit
  | ⟨kind, condition, body, _⟩ => ⟨kind, condition.bare, Stmt.allBare body, .point .nowhere⟩

def Stmt.branchesBare : List (Branch α) → List (Branch Unit)
  | [] => []
  | b :: rest => Stmt.branchBare b :: Stmt.branchesBare rest
end

/-- The digits of a number, behind a minus if it is negative. -/
def integerText : Int → String
  | .ofNat n => n.repr
  | .negSucc n => "-" ++ (n + 1).repr

mutual
def Expr.text : Expr α → String
  | .number value _ => integerText value.toInt
  | .boolean true _ => "True"
  | .boolean false _ => "False"
  | .noneLiteral _ => "None"
  | .ident name _ => name
  | .binary op lhs rhs _ =>
    "(" ++ Expr.text lhs ++ " " ++ op.symbol ++ " " ++ Expr.text rhs ++ ")"
  | .call function arguments _ => function ++ "(" ++ Expr.argumentsText arguments

/-- The arguments of a call and the closing parenthesis. -/
def Expr.argumentsText : List (Expr α) → String
  | [] => ")"
  | [e] => Expr.text e ++ ")"
  | e :: next :: rest => Expr.text e ++ "," ++ " " ++ Expr.argumentsText (next :: rest)
end

def Parameter.text (p : Parameter) : String := p.name ++ ":" ++ " " ++ p.type.name

/-- The parameters of a function and the closing parenthesis. -/
def Parameter.listText : List Parameter → String
  | [] => ")"
  | [p] => p.text ++ ")"
  | p :: next :: rest => p.text ++ "," ++ " " ++ listText (next :: rest)

/-- What a function gives back, unless that is nothing. -/
def Ty.resultText : Ty → String
  | none => ""
  | type => " " ++ "->" ++ " " ++ type.name

mutual
/-- The lines of a statement in blocks that are nested so deep. -/
def Stmt.lines (depth : Nat) : Stmt α → List Line
  | .assign name value _ => [⟨depth, name ++ " " ++ "=" ++ " " ++ value.text⟩]
  | .declare name type value _ =>
    [⟨depth, name ++ ":" ++ " " ++ type.name ++ " " ++ "=" ++ " " ++ value.text⟩]
  | .expression value _ => [⟨depth, value.text⟩]
  | .function name parameters returns body _ =>
    ⟨depth, "def" ++ " " ++ name ++ "(" ++ Parameter.listText parameters ++ returns.resultText ++
      ":"⟩ :: Stmt.allLines (depth + 1) body
  | .return value _ => [⟨depth, "return" ++ " " ++ value.text⟩]
  | .conditional first alternatives otherwise _ =>
    Stmt.branchLines depth first ++ (Stmt.branchesLines depth alternatives ++
      if otherwise.isEmpty then []
      else ⟨depth, "else" ++ ":"⟩ :: Stmt.allLines (depth + 1) otherwise)
  | .loop condition body _ =>
    ⟨depth, "while" ++ " " ++ condition.text ++ ":"⟩ :: Stmt.allLines (depth + 1) body
  | .pass _ => [⟨depth, "pass"⟩]

def Stmt.allLines (depth : Nat) : List (Stmt α) → List Line
  | [] => []
  | st :: rest => Stmt.lines depth st ++ Stmt.allLines depth rest

def Stmt.branchLines (depth : Nat) : Branch α → List Line
  | ⟨kind, condition, body, _⟩ =>
    ⟨depth, kind.keyword ++ " " ++ condition.text ++ ":"⟩ :: Stmt.allLines (depth + 1) body

def Stmt.branchesLines (depth : Nat) : List (Branch α) → List Line
  | [] => []
  | b :: rest => Stmt.branchLines depth b ++ Stmt.branchesLines depth rest
end

/-- The canonical text of a program. -/
def Program.text (p : Program α) : List Char := (Stmt.allLines 0 p).flatMap Line.text

def integerSpellings : Int → List Spelling
  | .ofNat n => [(.number, n.repr)]
  | .negSucc n => [(.dash, "-"), (.number, (n + 1).repr)]

mutual
/-- The tokens that the text of an expression is made of. -/
def Expr.spellings : Expr α → List Spelling
  | .number value _ => integerSpellings value.toInt
  | .boolean true _ => [(.kwTrue, "True")]
  | .boolean false _ => [(.kwFalse, "False")]
  | .noneLiteral _ => [(.kwNone, "None")]
  | .ident name _ => [(.identifier, name)]
  | .binary op lhs rhs _ => (.openParen, "(") :: (Expr.spellings lhs ++
      (op.kind, op.symbol) :: (Expr.spellings rhs ++ [(.closeParen, ")")]))
  | .call function arguments _ =>
    (.identifier, function) :: (.openParen, "(") :: Expr.argumentsSpellings arguments

def Expr.argumentsSpellings : List (Expr α) → List Spelling
  | [] => [(.closeParen, ")")]
  | [e] => Expr.spellings e ++ [(.closeParen, ")")]
  | e :: next :: rest => Expr.spellings e ++ (.comma, ",") :: Expr.argumentsSpellings (next :: rest)
end

def Parameter.typedSpellings (p : Parameter) : List Spelling :=
  [(.identifier, p.name), (.colon, ":"), (.identifier, p.type.name)]

def Parameter.listSpellings : List Parameter → List Spelling
  | [] => [(.closeParen, ")")]
  | [p] => p.typedSpellings ++ [(.closeParen, ")")]
  | p :: next :: rest => p.typedSpellings ++ (.comma, ",") :: listSpellings (next :: rest)

def Ty.resultSpellings : Ty → List Spelling
  | none => []
  | type => [(.arrow, "->"), (.identifier, type.name)]

/-- The kind of the keyword that starts a branch. -/
def BranchKind.keywordKind : BranchKind → TokenKind
  | first => .kwIf
  | alternative => .kwElif

/-- A colon and the tokens of the lines after it in a block of their own. -/
def blockSpellings (inner : List Spelling) : List Spelling :=
  (.colon, ":") :: (.newline, "") :: (.indent, "") :: (inner ++ [(.dedent, "")])

mutual
/-- The tokens that the lines of a statement are made of, layout included. -/
def Stmt.spellings : Stmt α → List Spelling
  | .assign name value _ =>
    (.identifier, name) :: (.assignment, "=") :: (value.spellings ++ [(.newline, "")])
  | .declare name type value _ => (.identifier, name) :: (.colon, ":") ::
      (.identifier, type.name) :: (.assignment, "=") :: (value.spellings ++ [(.newline, "")])
  | .expression value _ => value.spellings ++ [(.newline, "")]
  | .function name parameters returns body _ =>
    (.kwDef, "def") :: (.identifier, name) :: (.openParen, "(") ::
      (Parameter.listSpellings parameters ++
        (returns.resultSpellings ++ blockSpellings (Stmt.allSpellings body)))
  | .return value _ => (.kwReturn, "return") :: (value.spellings ++ [(.newline, "")])
  | .conditional first alternatives otherwise _ =>
    Stmt.branchSpellings first ++ (Stmt.branchesSpellings alternatives ++
      if otherwise.isEmpty then []
      else (.kwElse, "else") :: blockSpellings (Stmt.allSpellings otherwise))
  | .loop condition body _ =>
    (.kwWhile, "while") :: (condition.spellings ++ blockSpellings (Stmt.allSpellings body))
  | .pass _ => [(.kwPass, "pass"), (.newline, "")]

def Stmt.allSpellings : List (Stmt α) → List Spelling
  | [] => []
  | st :: rest => Stmt.spellings st ++ Stmt.allSpellings rest

def Stmt.branchSpellings : Branch α → List Spelling
  | ⟨kind, condition, body, _⟩ =>
    (kind.keywordKind, kind.keyword) ::
      (condition.spellings ++ blockSpellings (Stmt.allSpellings body))

def Stmt.branchesSpellings : List (Branch α) → List Spelling
  | [] => []
  | b :: rest => Stmt.branchSpellings b ++ Stmt.branchesSpellings rest
end

end Offside
