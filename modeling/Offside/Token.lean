import Offside.Position
import Offside.Token.Kind

/-! Tokens: a kind, the text in the source, and where it stands. -/
namespace Offside

structure Token where
  kind : TokenKind
  value : String
  span : Span
deriving DecidableEq, Repr, Inhabited

namespace Token

/-- A layout token, which has no text and no width. -/
def layout (kind : TokenKind) (p : Position) : Token := ⟨kind, "", .point p⟩

/-- The token that closes every input. -/
def endAt (p : Position) : Token := ⟨.eof, "EOF", .point p⟩

end Token
end Offside
