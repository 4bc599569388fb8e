import Offside.Text.Bytes

/-! The lines of a text and the one that holds a given byte. A line ends with its line feed; only
the last may have none. -/
namespace Offside.Text

/-- The text cut after each line feed. -/
def lines : List Char → List (List Char)
  | [] => []
  | c :: cs =>
    if c = '\n' then [c] :: lines cs
    else match lines cs with
      | [] => [[c]]
      | line :: rest => (c :: line) :: rest

/-- Nothing is lost when a text is cut into lines. -/
theorem flatten_lines (cs : List Char) : (lines cs).flatten = cs := by
  induction cs with
  | nil => rfl
  | cons c cs ih =>
    rw [lines]
    split
    · simp [ih]
    · split <;> rename_i h <;> simp_all

/-- A byte's place among the lines: the line's number counted from one, its characters, and how
many of its bytes stand before the place. -/
structure Line where
  number : Nat
  text : List Char
  column : Nat
deriving DecidableEq, Repr

/-- The line that holds byte `offset` of the given lines, the first of which has number `number`. -/
def lineIn? (number offset : Nat) : List (List Char) → Option Line
  | [] => none
  | line :: rest =>
    if offset < byteSize line then some ⟨number, line, offset⟩
    else lineIn? (number + 1) (offset - byteSize line) rest

/-- The line that holds byte `offset`; none at and past the end of the text. -/
def lineAt? (text : List Char) (offset : Nat) : Option Line := lineIn? 1 offset (lines text)

end Offside.Text
