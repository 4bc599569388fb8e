import Offside.Proofs.Scan.Tokens
import Offside.Proofs.Text.Line

/-! The width of a line is the number of spaces and tabs at its front. The scanner only enters a line
at its front, so the width that it measures is that of the line that holds the content. -/
namespace Offside

namespace Text

/-- The width of the line that holds a byte. -/
def widthAt? (text : List Char) (offset : Nat) : Option Nat :=
  (lineAt? text offset).map fun line => (line.text.takeWhile Place.isIndentation).length

variable {c : Char} {v w : List Char}

/-- The width of a line is known at the content after its spaces and tabs. -/
theorem widthAt?_append (hlines : lines (w ++ (v ++ c :: u)) = lines w ++ lines (v ++ c :: u))
    (hv : ∀ d ∈ v, Place.isIndentation d = true) (hc : Place.isIndentation c = false)
    (hbreak : c ≠ '\n') : widthAt? (w ++ (v ++ c :: u)) (byteSize w + byteSize v) = some v.length := by
  have hfeed : '\n' ∉ v := by
    intro hmem
    cases hv _ hmem
  obtain ⟨more, after, hfirst⟩ := lines_eq_cons (w := u) hfeed hbreak
  have hlt : byteSize v < byteSize (v ++ c :: more) := by
    have hpos := c.utf8Size_pos
    rw [byteSize_append, byteSize_cons]
    omega
  have hwidth : (v ++ c :: more).takeWhile Place.isIndentation = v := by
    rw [List.takeWhile_append_of_pos hv, List.takeWhile_cons_of_neg (by simp [hc]), List.append_nil]
  have hbefore := lineIn?_append 1 (byteSize v) (lines w) (lines (v ++ c :: u))
  rw [flatten_lines] at hbefore
  rw [widthAt?, lineAt?, hlines, hbefore, hfirst, lineIn?, if_pos hlt, Option.map_some, hwidth]

end Text

namespace Place

/-- A place at the front of a line, or at the end of the source. -/
def AtFront (source : List Char) (p : Place) : Prop :=
  ∃ before, source = before ++ p.rest ∧ p.offset = Text.byteSize before ∧
    Text.lines source = Text.lines before ++ Text.lines p.rest

variable {file : String} {source : List Char} {p q : Place}

theorem atFront_front (file : String) (source : List Char) : (front file source).AtFront source :=
  ⟨[], rfl, rfl, rfl⟩

/-- The place after a line feed is at the front of a line. -/
theorem In.atFront_skip (h : p.In file source) {v w : List Char}
    (hrest : p.rest = (v ++ ['\n']) ++ w) : (p.skip (v ++ ['\n']).length).AtFront source := by
  obtain ⟨-, before, hsource, hoffset⟩ := h
  have hlines := Text.lines_append_lineFeed (before ++ v) w
  refine ⟨before ++ (v ++ ['\n']), ?_, ?_, ?_⟩
  · rw [rest_skip_length hrest, hsource, hrest, List.append_assoc before]
  · rw [offset_skip_length hrest, hoffset, Text.byteSize_append before]
  · rw [rest_skip_length hrest, hsource, hrest]
    simpa using hlines

theorem In.atFront_of_rest_eq_nil (h : p.In file source) (hrest : p.rest = []) :
    p.AtFront source := by
  obtain ⟨-, before, hsource, hoffset⟩ := h
  refine ⟨before, hsource, hoffset, ?_⟩
  rw [hsource, hrest, List.append_nil, Text.lines, List.append_nil]

/-- Passing to the next line reads the line ahead, and its line feed if it has one. -/
theorem nextLine_cases (p : Place) :
    (p.rest = p.rest.takeWhile (· ≠ '\n') ∧ p.nextLine.rest = [] ∧
        p.nextLine.offset = p.offset + Text.byteSize (p.rest.takeWhile (· ≠ '\n'))) ∨
      ∃ w, p.rest = p.rest.takeWhile (· ≠ '\n') ++ ['\n'] ++ w ∧
        p.nextLine = p.skip (p.rest.takeWhile (· ≠ '\n') ++ ['\n']).length := by
  have hsplit := List.takeWhile_append_dropWhile (p := (· ≠ '\n')) (l := p.rest)
  cases hrest : p.rest.dropWhile (· ≠ '\n') with
  | nil =>
    rw [hrest, List.append_nil] at hsplit
    have hlength : p.rest.length ≤ (p.rest.takeWhile (· ≠ '\n')).length + 1 := by
      rw [hsplit]
      exact Nat.le_succ _
    refine .inl ⟨hsplit.symm, ?_, ?_⟩
    · rw [nextLine, rest_skip, List.drop_eq_nil_of_le hlength]
    · rw [nextLine, Place.skip, List.take_of_length_le hlength, hsplit]
  | cons d w =>
    have hd := List.head?_dropWhile_not (· ≠ '\n') p.rest
    rw [hrest] at hd hsplit
    obtain rfl : d = '\n' := by simpa using hd
    rw [List.append_cons] at hsplit
    exact .inr ⟨w, hsplit.symm, by rw [nextLine, List.length_append]; rfl⟩

theorem In.atFront_nextLine (h : p.In file source) : p.nextLine.AtFront source := by
  obtain ⟨-, hnil, -⟩ | ⟨w, hrest, hnext⟩ := p.nextLine_cases
  · exact (h.skip _).atFront_of_rest_eq_nil hnil
  · rw [hnext]
    exact h.atFront_skip hrest

/-- The scanner measures the width of the line that it enters. -/
theorem widthAt?_of_lineStart {width : Nat} (hp : p.In file source) (hfront : p.AtFront source)
    (h : p.lineStart = (q, some width)) : Text.widthAt? source q.offset = some width := by
  have hcontent := atContent_of_lineStart h
  fun_induction Place.lineStart p with
  | case1 p hrest => cases h
  | case2 p c rest hrest hc ih => exact ih (hp.skip _) hp.atFront_nextLine h
  | case3 p c rest hrest hc =>
    cases h
    obtain ⟨before, hsource, hoffset, hlines⟩ := hfront
    obtain ⟨d, more, hmore, hends, hindent⟩ := hcontent
    have hsplit : p.rest = p.rest.takeWhile isIndentation ++ d :: more := by
      rw [← hmore, rest_content, List.takeWhile_append_dropWhile]
    have hbreak : d ≠ '\n' := by
      rintro rfl
      cases hends
    have hall : ∀ d ∈ p.rest.takeWhile isIndentation, isIndentation d = true :=
      List.all_eq_true.1 List.all_takeWhile
    rw [hsource, hsplit] at hlines
    have hwidth := Text.widthAt?_append hlines hall hindent hbreak
    rw [← hsplit, ← hsource] at hwidth
    rw [content, indentation, offset_skip_length hsplit, hoffset]
    exact hwidth

/-- Where no line is entered, the source is at its end. -/
theorem rest_eq_nil_of_lineStart (h : p.lineStart = (q, none)) : q.rest = [] := by
  fun_induction Place.lineStart p with
  | case1 p hrest =>
    cases h
    exact hrest
  | case2 p c rest hrest hc ih => exact ih h
  | case3 p c rest hrest hc => cases h

end Place
end Offside
