/-! Places in a named source. An offset counts bytes of the source's UTF-8 form in 32 bits, so it
is exact for every source under `2 ^ 32` bytes. -/
namespace Offside

/-- A byte offset into a named source. -/
structure Position where
  offset : UInt32
  file : String
deriving DecidableEq, Repr, Inhabited

namespace Position

/-- The name of a source for which none was given. -/
def defaultFile : String := "shell"

/-- The position of what stands in no source. -/
def nowhere : Position := ⟨0, "<null>"⟩

end Position

/-- A stretch of source, from its first byte up to the byte after its last. -/
structure Span where
  start : Position
  stop : Position
deriving DecidableEq, Repr, Inhabited

namespace Span

/-- The span without bytes at a position. -/
def point (p : Position) : Span := ⟨p, p⟩

@[simp] theorem start_point (p : Position) : (point p).start = p := rfl
@[simp] theorem stop_point (p : Position) : (point p).stop = p := rfl

end Span
end Offside
