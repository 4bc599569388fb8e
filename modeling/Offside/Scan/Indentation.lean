import Offside.Token.Kind

/-! Open levels: the blocks and the outermost level, in which no block is open. Their widths are
kept innermost first. -/
namespace Offside.Indentation

/-- The width of the innermost level, and 0 if no level is open. -/
def innermost (levels : List Nat) : Nat := levels.headD 0

/-- The levels that a line of this width leaves open. -/
def keep (width : Nat) (levels : List Nat) : List Nat := levels.dropWhile (width < ·)

/-- What a line of this width opens or closes: the layout tokens before it and the levels that are
open in it. A wider line opens a level; any other must be as wide as a level that is open. -/
def enter? (width : Nat) (levels : List Nat) : Option (List TokenKind × List Nat) :=
  if innermost levels < width then some ([.indent], width :: levels)
  else
    let kept := keep width levels
    if innermost kept = width then
      some (List.replicate (levels.length - kept.length) .dedent, kept)
    else none

variable {width top : Nat} {levels : List Nat}

theorem keep_cons_of_lt (h : width < top) : keep width (top :: levels) = keep width levels :=
  List.dropWhile_cons_of_pos (decide_eq_true h)

theorem keep_cons_of_le (h : top ≤ width) : keep width (top :: levels) = top :: levels :=
  List.dropWhile_cons_of_neg (by simpa using h)

theorem keep_suffix (width : Nat) (levels : List Nat) : keep width levels <:+ levels :=
  List.dropWhile_suffix _

end Offside.Indentation
