import Mathlib.Data.Nat.Digits.Defs
import Offside.Error.Report
import Offside.Proofs.Text.Line

/-! When an error in a line of a source has a report, and which one. The bars are never too wide,
since the number of a line has at most ten digits: a report only fails for its caret. -/
namespace Offside.Error
open Text

variable {fill : Char} {width : Nat} {text source : List Char} {l : Line} {e : Error}

theorem padLeft?_of_lt (h : width < UInt16.size) :
    padLeft? fill width text = some (List.replicate (width - text.length) fill ++ text) :=
  if_pos h

theorem padLeft?_of_le (h : UInt16.size ≤ width) : padLeft? fill width text = none :=
  if_neg (Nat.not_lt_of_le h)

theorem length_toString_le {n k : Nat} (hk : 0 < k) (h : n < 10 ^ k) :
    (toString n).toList.length ≤ k := by
  rw [String.length_toList]
  exact Nat.repr_length n k hk h

/-- An offset of 32 bits stands in a line whose number has ten digits at most. -/
theorem barWidth_lt (hl : lineAt? source e.position.offset.toNat = some l) :
    (toString l.number).toList.length + 2 < UInt16.size := by
  have hnumber := (lineAt?_eq_some_iff.1 hl).number_le
  have hoffset := e.position.offset.toNat_lt
  have hdigits : (toString l.number).toList.length ≤ 10 := length_toString_le (by decide) (by omega)
  have hsize : UInt16.size = 65536 := rfl
  omega

/-- The bar in front of the lines of a report that show no text. -/
def bar (l : Line) : List Char :=
  List.replicate ((toString l.number).toList.length + 1) ' ' ++ ['|']

theorem excerpt?_of_lt (hbar : (toString l.number).toList.length + 2 < UInt16.size)
    (hcaret : caretColumn l + 1 < UInt16.size) :
    excerpt? l = some [bar l, (toString l.number).toList ++ [' ', '|', ' '] ++ shownLine l.text,
      bar l ++ ' ' :: (List.replicate (caretColumn l) '-' ++ ['^'])] := by
  simp only [excerpt?, padLeft?_of_lt hbar, padLeft?_of_lt hcaret]
  rfl

theorem excerpt?_of_le (hcaret : UInt16.size ≤ caretColumn l + 1) : excerpt? l = none := by
  simp only [excerpt?, padLeft?_of_le hcaret]
  cases padLeft? ' ' ((toString l.number).toList.length + 2) ['|'] <;> rfl

/-- The report on an error at a byte of a source. -/
theorem report?_of_lt (hl : lineAt? source e.position.offset.toNat = some l)
    (hcaret : caretColumn l + 1 < UInt16.size) :
    e.report? source = some (String.ofList
      ([e.headline.toList, ("-> " ++ e.position.file).toList, bar l,
        (toString l.number).toList ++ [' ', '|', ' '] ++ shownLine l.text,
        bar l ++ ' ' :: (List.replicate (caretColumn l) '-' ++ ['^'])].flatMap (· ++ ['\n']))) := by
  rw [report?, reportLines?, hl]
  simp only [excerpt?_of_lt (barWidth_lt hl) hcaret]
  rfl

/-- There is no report if the caret would stand too far to the right. -/
theorem report?_of_le (hl : lineAt? source e.position.offset.toNat = some l)
    (hcaret : UInt16.size ≤ caretColumn l + 1) : e.report? source = none := by
  rw [report?, reportLines?, hl]
  simp only [excerpt?_of_le hcaret]
  rfl

end Offside.Error
