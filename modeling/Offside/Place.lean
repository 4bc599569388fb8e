import Offside.Position
import Offside.Text.Bytes

/-! A place in a source that is read from front to back: the text still to come and the number of
bytes before it. -/
namespace Offside

structure Place where
  file : String
  offset : Nat
  rest : List Char
deriving Repr

namespace Place

/-- The front of a source. -/
def front (file : String) (source : List Char) : Place := ⟨file, 0, source⟩

/-- The place after the next `n` characters, or the end. -/
def skip (p : Place) (n : Nat) : Place :=
  ⟨p.file, p.offset + Text.byteSize (p.rest.take n), p.rest.drop n⟩

def position (p : Place) : Position := ⟨p.offset.toUInt32, p.file⟩

/-- The span of the next `n` characters. -/
def span (p : Place) (n : Nat) : Span := ⟨p.position, (p.skip n).position⟩

@[simp] theorem file_skip (p : Place) (n : Nat) : (p.skip n).file = p.file := rfl

@[simp] theorem rest_skip (p : Place) (n : Nat) : (p.skip n).rest = p.rest.drop n := rfl

theorem rest_skip_length {p : Place} {v w : List Char} (h : p.rest = v ++ w) :
    (p.skip v.length).rest = w := by
  rw [rest_skip, h, List.drop_left]

theorem offset_skip_length {p : Place} {v w : List Char} (h : p.rest = v ++ w) :
    (p.skip v.length).offset = p.offset + Text.byteSize v := by
  rw [skip, h, List.take_left]

theorem skip_skip (p : Place) (m n : Nat) : (p.skip m).skip n = p.skip (m + n) := by
  simp only [skip, List.take_add, Text.byteSize_append, List.drop_drop, Nat.add_assoc]

theorem length_rest_skip (p : Place) (n : Nat) : (p.skip n).rest.length = p.rest.length - n := by
  simp

theorem length_rest_skip_lt (p : Place) {n : Nat} (hn : 0 < n) (hp : p.rest ≠ []) :
    (p.skip n).rest.length < p.rest.length := by
  have := List.length_pos_iff.2 hp
  rw [length_rest_skip]
  omega

theorem length_rest_skip_le (p : Place) (n : Nat) : (p.skip n).rest.length ≤ p.rest.length := by
  rw [length_rest_skip]
  omega

end Place
end Offside
