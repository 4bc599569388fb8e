import Offside.Token

/-! Tokens that are read one by one. The final token closes the input and cannot be passed, so there
always is a current token. -/
namespace Offside

structure Stream where
  /-- The tokens still to come before the final one. -/
  upcoming : List Token
  final : Token
  kind_final : final.kind = .eof
deriving DecidableEq

namespace Stream

/-- The stream of some tokens. The last one closes it if it is of that kind; otherwise a final token
is put where the last one ends, or at the front of the file. -/
def ofTokens (file : String) (tokens : List Token) : Stream :=
  match tokens.getLast? with
  | none => ⟨[], .endAt ⟨0, file⟩, rfl⟩
  | some last =>
    if h : last.kind = .eof then ⟨tokens.dropLast, last, h⟩
    else ⟨tokens, .endAt last.span.stop, rfl⟩

def current (s : Stream) : Token := s.upcoming.headD s.final

def kind (s : Stream) : TokenKind := s.current.kind

/-- The kind of the token after the current one. -/
def nextKind (s : Stream) : TokenKind := (s.upcoming.tail.headD s.final).kind

/-- Where the current token starts. -/
def position (s : Stream) : Position := s.current.span.start

/-- Passes the current token, unless it is the final one. -/
def advance (s : Stream) : Stream := { s with upcoming := s.upcoming.tail }

/-- Whether only the final token is left. -/
def atEnd (s : Stream) : Bool := s.upcoming.isEmpty

@[simp] theorem final_advance (s : Stream) : s.advance.final = s.final := rfl

@[simp] theorem upcoming_advance (s : Stream) : s.advance.upcoming = s.upcoming.tail := rfl

theorem kind_eq_eof_of_atEnd {s : Stream} (h : s.atEnd = true) : s.kind = .eof := by
  rw [atEnd, List.isEmpty_iff] at h
  simp [kind, current, h, s.kind_final]

end Stream
end Offside
