import Offside.Position
import Offside.Text.Bytes

/-! A byte offset that moves through a source. It may stand anywhere, also inside a character and
past the end, where there is nothing to read. -/
namespace Offside

structure Reader where
  file : String
  source : List Char
  offset : Nat
deriving Repr

namespace Reader

def front (file : String) (source : List Char) : Reader := ⟨file, source, 0⟩

/-- Moves on by `n` bytes. -/
def advance (r : Reader) (n : Nat) : Reader := { r with offset := r.offset + n }

/-- The text from here on, if a character starts here or the text ends here. -/
def remainder? (r : Reader) : Option (List Char) := Text.dropBytes? r.offset r.source

/-- The character here, which is zero at the end. -/
def current? (r : Reader) : Option Char := r.remainder?.map (·.headD '\x00')

def atEnd (r : Reader) : Bool := Text.byteSize r.source ≤ r.offset

def position (r : Reader) : Position := ⟨r.offset.toUInt32, r.file⟩

/-- The span of the next `n` bytes. -/
def span (r : Reader) (n : Nat) : Span := ⟨r.position, (r.advance n).position⟩

end Reader
end Offside
