import Offside.Token.Kind

/-! The piece of text that comes first: a line break, blank text within the line, or a token. Words
and numbers are as long as possible, and so are symbols. -/
namespace Offside

inductive Lexeme where
  | lineBreak (value : List Char)
  /-- Spaces, tabs, stray carriage returns, or a comment up to the end of its line. -/
  | blank (value : List Char)
  | token (kind : TokenKind) (value : List Char)
deriving DecidableEq, Repr

namespace Lexeme

def value : Lexeme → List Char
  | lineBreak value | blank value | token _ value => value

def isBlank (c : Char) : Bool := c = ' ' || c = '\t' || c = '\r'

def isWordStart (c : Char) : Bool := c.isAlpha || c = '_'

def isWordPart (c : Char) : Bool := c.isAlphanum || c = '_'

/-- The kind of a word. -/
def wordKind (word : List Char) : TokenKind :=
  (TokenKind.keyword? (String.ofList word)).getD .identifier

/-- Whether a text starts with the fixed text of a kind. -/
def startsWith (text : List Char) (k : TokenKind) : Bool :=
  match k.text? with
  | none => false
  | some s => s.toList.isPrefixOf text

/-- The symbol that a text starts with. -/
def symbol? (text : List Char) : Option Lexeme :=
  (TokenKind.symbols.find? (startsWith text)).bind fun k => k.text?.map fun s => .token k s.toList

/-- What a text that starts with `c` and goes on with `rest` starts with, line breaks apart. -/
def inLine? (c : Char) (rest : List Char) : Option Lexeme :=
  if isBlank c then some (.blank (c :: rest.takeWhile isBlank))
  else if c = '#' then some (.blank (c :: rest.takeWhile (· ≠ '\n')))
  else if isWordStart c then
    some (.token (wordKind (c :: rest.takeWhile isWordPart)) (c :: rest.takeWhile isWordPart))
  else if c.isDigit then some (.token .number (c :: rest.takeWhile Char.isDigit))
  else symbol? (c :: rest)

/-- What a text starts with. -/
def first? : List Char → Option Lexeme
  | [] => none
  | '\n' :: _ => some (.lineBreak ['\n'])
  | '\r' :: '\n' :: _ => some (.lineBreak ['\r', '\n'])
  | c :: rest => inLine? c rest

theorem text_ne_empty {k : TokenKind} {s : String} (h : k.text? = some s) : s.toList ≠ [] := by
  cases k <;> simp [TokenKind.text?] at h <;> subst h <;> decide

theorem value_ne_nil_of_symbol? {text : List Char} {l : Lexeme} (h : symbol? text = some l) :
    l.value ≠ [] := by
  obtain ⟨k, -, hk⟩ := Option.bind_eq_some_iff.1 h
  obtain ⟨s, hs, rfl⟩ := Option.map_eq_some_iff.1 hk
  exact text_ne_empty hs

theorem value_ne_nil_of_inLine? {c : Char} {rest : List Char} {l : Lexeme}
    (h : inLine? c rest = some l) : l.value ≠ [] := by
  unfold inLine? at h
  repeat' split at h
  all_goals first
    | exact value_ne_nil_of_symbol? h
    | (cases h; exact List.cons_ne_nil _ _)

/-- A lexeme has at least one character. -/
theorem value_ne_nil_of_first? {text : List Char} {l : Lexeme} (h : first? text = some l) :
    l.value ≠ [] := by
  unfold first? at h
  split at h
  · cases h
  · cases h; exact List.cons_ne_nil _ _
  · cases h; exact List.cons_ne_nil _ _
  · exact value_ne_nil_of_inLine? h

end Lexeme
end Offside
