import Offside.Error
import Offside.Scan.Indentation
import Offside.Scan.Lexeme
import Offside.Scan.Line
import Offside.Token

/-! The tokens of a source. The scanner reads one lexeme at a time. Line breaks and indentation
become layout tokens, except between parentheses, where a line break is blank; blank lines leave no
trace. -/
namespace Offside

structure Scanner where
  place : Place
  /-- Widths of the open levels, innermost first. The outermost one has the width 0. -/
  levels : List Nat
  /-- Parentheses that are open. -/
  depth : Nat
  /-- Whether the last token belongs to a line that has not been ended. -/
  inLine : Bool
deriving Repr

namespace Scanner

def start (file : String) (source : List Char) : Scanner := ⟨.front file source, [0], 0, false⟩

def fail (place : Place) (cause : Cause) : Except Error α := .error ⟨cause, place.position⟩

/-- Passes to the content of the next line that has one, with the layout tokens before it. -/
def enterLine (s : Scanner) : Except Error (List Token × Scanner) :=
  match s.place.lineStart with
  | (place, none) => .ok ([], { s with place, inLine := false })
  | (place, some width) =>
    match Indentation.enter? width s.levels with
    | none => fail place .inconsistentIndentation
    | some (kinds, levels) =>
      .ok (kinds.map (Token.layout · place.position),
        { s with place, levels, inLine := !kinds.isEmpty })

/-- The token that ends the line, if one is open. -/
def endLine (s : Scanner) : List Token :=
  if s.inLine then [.layout .newline s.place.position] else []

/-- Reads a line break of `n` characters. -/
def breakLine (s : Scanner) (n : Nat) : Except Error (List Token × Scanner) :=
  if 0 < s.depth then .ok ([], { s with place := s.place.skip n })
  else match enterLine { s with place := s.place.skip n } with
    | .error e => .error e
    | .ok (layout, s') => .ok (s.endLine ++ layout, s')

/-- How many parentheses are open after a token. -/
def depthAfter (depth : Nat) : TokenKind → Nat
  | .openParen => depth + 1
  | .closeParen => depth - 1
  | _ => depth

/-- Reads a token of the given characters. -/
def token (s : Scanner) (kind : TokenKind) (value : List Char) : List Token × Scanner :=
  ([⟨kind, String.ofList value, s.place.span value.length⟩],
    { s with
      place := s.place.skip value.length
      depth := depthAfter s.depth kind
      inLine := true })

/-- Reads the next lexeme. -/
def step (s : Scanner) : Except Error (List Token × Scanner) :=
  match Lexeme.first? s.place.rest with
  | none => fail s.place (.unrecognisedToken (String.ofList (s.place.rest.take 1)))
  | some (.lineBreak value) => s.breakLine value.length
  | some (.blank value) => .ok ([], { s with place := s.place.skip value.length })
  | some (.token kind value) => .ok (s.token kind value)

theorem length_le_of_enterLine {s s' : Scanner} {layout : List Token}
    (h : s.enterLine = .ok (layout, s')) :
    s'.place.rest.length ≤ s.place.rest.length := by
  have hle := s.place.length_rest_lineStart_le
  unfold enterLine at h
  split at h
  · rename_i hp
    rw [hp] at hle
    cases h
    exact hle
  · rename_i hp
    rw [hp] at hle
    split at h
    · cases h
    · cases h
      exact hle

theorem length_lt_of_breakLine {s s' : Scanner} {n : Nat} {tokens : List Token} (hn : 0 < n)
    (hs : s.place.rest ≠ []) (h : s.breakLine n = .ok (tokens, s')) :
    s'.place.rest.length < s.place.rest.length := by
  have hlt := s.place.length_rest_skip_lt hn hs
  unfold breakLine at h
  split at h
  · cases h
    exact hlt
  · split at h
    · cases h
    · rename_i he
      cases h
      exact Nat.lt_of_le_of_lt (length_le_of_enterLine he) hlt

/-- Every step reads at least one character. -/
theorem length_lt_of_step {s s' : Scanner} {tokens : List Token}
    (h : s.step = .ok (tokens, s')) : s'.place.rest.length < s.place.rest.length := by
  have hs : s.place.rest ≠ [] := by
    intro hs
    simp [step, hs, Lexeme.first?, fail] at h
  have hpos : ∀ l, Lexeme.first? s.place.rest = some l → 0 < l.value.length := fun l hl =>
    List.length_pos_iff.2 (Lexeme.value_ne_nil_of_first? hl)
  unfold step at h
  split at h
  · cases h
  · rename_i hl
    exact length_lt_of_breakLine (hpos _ hl) hs h
  · rename_i hl
    cases h
    exact s.place.length_rest_skip_lt (hpos _ hl) hs
  · rename_i hl
    cases h
    exact s.place.length_rest_skip_lt (hpos _ hl) hs

/-- The layout tokens that end the open line and close all levels but the outermost, and the final
token. -/
def finish (s : Scanner) : List Token :=
  s.endLine ++ List.replicate (s.levels.length - 1) (.layout .dedent s.place.position)
    ++ [.endAt s.place.position]

/-- Reads to the end of the source. -/
def run (s : Scanner) : Except Error (List Token) :=
  if s.place.rest = [] then .ok s.finish
  else match _h : s.step with
    | .error e => .error e
    | .ok (tokens, s') => s'.run.map (tokens ++ ·)
termination_by s.place.rest.length
decreasing_by exact length_lt_of_step _h

end Scanner

/-- The tokens of a source, or the first place where it has none. -/
def tokenize (file : String) (source : List Char) : Except Error (List Token) :=
  match (Scanner.start file source).enterLine with
  | .error e => .error e
  | .ok (layout, s) => s.run.map (layout ++ ·)

end Offside
