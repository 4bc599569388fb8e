import Offside.Error
import Offside.Token.Stream
import Offside.Tree

/-! Recognizers read a tree from a stream of tokens. A refusal stands at the current token, which is
the first that no rule accepts, and leaves the stream there. -/
namespace Offside

/-- Gives a value or refuses, and either way says what is left of the stream. -/
abbrev Recognizer (α : Type) := EStateM Error Stream α

namespace Recognizer

def kind : Recognizer TokenKind := fun s => .ok s.kind s

def nextKind : Recognizer TokenKind := fun s => .ok s.nextKind s

def atEnd : Recognizer Bool := fun s => .ok s.atEnd s

def advance : Recognizer Token := fun s => .ok s.current s.advance

def refuse (cause : Cause) : Recognizer α := fun s => .error ⟨cause, s.position⟩ s

/-- What a message calls a token that no rule accepts. -/
def describe (t : Token) : String :=
  match t.kind with
  | .newline => "end of line"
  | .indent => "indent"
  | .dedent => "dedent"
  | _ => t.value

/-- Refuses the current token. -/
def unexpected : Recognizer α := fun s => refuse (.unexpectedToken (describe s.current)) s

/-- Reads a token as a leaf. -/
def leaf (label : Label) : Recognizer Node := do
  return .leaf label (← advance).span

/-- Reads a token of the given kind. -/
def expect (k : TokenKind) : Recognizer Token := fun s =>
  if s.kind = k then advance s
  else refuse (.wrongToken s.current.value ("expected " ++ k.name)) s

/-- Reads a token of the given kind as a leaf. -/
def expectLeaf (k : TokenKind) (label : Label) : Recognizer Node := do
  return .leaf label (← expect k).span

/-- Reads the end of a simple statement: a line's end, or nothing where a block or the input ends. -/
def lineEnd : Recognizer Unit := do
  match ← kind with
  | .newline => discard advance
  | .dedent | .eof => return
  | _ => unexpected

/-- At most `n` steps while the current kind allows another. -/
def repeatAtMost (goesOn : TokenKind → Bool) (step : Recognizer (List Node)) :
    Nat → Recognizer (List Node)
  | 0 => return []
  | n + 1 => do
    if goesOn (← kind) then
      let nodes ← step
      return nodes ++ (← repeatAtMost goesOn step n)
    else return []

/-- Repeats a step while the current kind allows another, and joins the results. A step that reads a
token each time takes no more steps than there are tokens. -/
def repeatWhile (goesOn : TokenKind → Bool) (step : Recognizer (List Node)) :
    Recognizer (List Node) := fun s => repeatAtMost goesOn step (s.upcoming.length + 1) s

/-- At most `n` steps, each of which gives a longer node or none. -/
def extendAtMost (step : Node → Recognizer (Option Node)) : Nat → Node → Recognizer Node
  | 0, node => return node
  | n + 1, node => do
    match ← step node with
    | none => return node
    | some longer => extendAtMost step n longer

/-- Puts a node into longer and longer ones as long as a step gives one. A step that reads a token
each time takes no more steps than there are tokens. -/
def extend (step : Node → Recognizer (Option Node)) (node : Node) : Recognizer Node := fun s =>
  extendAtMost step (s.upcoming.length + 1) node s

/-- A recursive rule, nested at most `n` deep. -/
def nestAtMost (rule : (α → Recognizer β) → α → Recognizer β) : Nat → α → Recognizer β
  | 0, _ => unexpected
  | n + 1, a => rule (nestAtMost rule n) a

/-- A recursive rule. A rule that reads a token before it calls itself is nested no deeper than there
are tokens. -/
def nest (rule : (α → Recognizer β) → α → Recognizer β) (a : α) : Recognizer β := fun s =>
  nestAtMost rule (s.upcoming.length + 1) a s

end Recognizer
end Offside
