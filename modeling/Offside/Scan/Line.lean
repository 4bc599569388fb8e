import Offside.Place

/-! Where a line's content starts. A line counts as blank when the first character after its
spaces and tabs ends it or starts a comment; blank lines are passed over whole. -/
namespace Offside.Place

/-- The characters that make up the width of a line. -/
def isIndentation (c : Char) : Bool := c = ' ' || c = '\t'

/-- The number of spaces and tabs ahead. -/
def indentation (p : Place) : Nat := (p.rest.takeWhile isIndentation).length

/-- The place after the spaces and tabs ahead. -/
def content (p : Place) : Place := p.skip p.indentation

/-- The characters whose line is blank when they come first. -/
def endsContent (c : Char) : Bool := c = '\n' || c = '\r' || c = '#'

/-- The place after the next line feed, or the end. -/
def nextLine (p : Place) : Place := p.skip ((p.rest.takeWhile (· ≠ '\n')).length + 1)

/-- Passes the blank lines and the indentation of the first line with content. Gives the place of
the content and the width before it, or the end of the text. -/
def lineStart (p : Place) : Place × Option Nat :=
  match _h : p.content.rest with
  | [] => (p.content, none)
  | c :: _ => if endsContent c then p.nextLine.lineStart else (p.content, some p.indentation)
termination_by p.rest.length
decreasing_by
  refine length_rest_skip_lt p (Nat.succ_pos _) fun hp => ?_
  simp [content, hp] at _h

/-- Passing blank lines never goes back. -/
theorem length_rest_lineStart_le (p : Place) :
    p.lineStart.1.rest.length ≤ p.rest.length := by
  fun_induction lineStart p with
  | case1 p h => exact length_rest_skip_le p _
  | case2 p c rest h hc ih => exact Nat.le_trans ih (length_rest_skip_le p _)
  | case3 p c rest h hc => exact length_rest_skip_le p _

end Offside.Place
