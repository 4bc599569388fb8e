import Offside.Text.Line

/-! Lines of a text. Each byte before the end of the text is in one of them: it has the lines above
it and some bytes of its own line before it. -/
namespace Offside.Text

variable {c : Char} {v w text : List Char} {l : Line}

/-- A text may be cut after a line feed without a change to its lines. -/
theorem lines_append_lineFeed (v w : List Char) :
    lines (v ++ '\n' :: w) = lines (v ++ ['\n']) ++ lines w := by
  induction v with
  | nil => simp [lines]
  | cons c v ih =>
    by_cases hc : c = '\n'
    · simp only [List.cons_append, lines, hc, if_true, ih]
    · have hne : lines (v ++ ['\n']) ≠ [] := by
        intro hnil
        have hflatten := flatten_lines (v ++ ['\n'])
        simp [hnil] at hflatten
      obtain ⟨line, more, hlines⟩ := List.exists_cons_of_ne_nil hne
      simp only [List.cons_append, lines, hc, if_false, ih, hlines]

/-- The first line goes on up to a line feed. -/
theorem lines_eq_cons (hv : '\n' ∉ v) (hc : c ≠ '\n') :
    ∃ more after, lines (v ++ c :: w) = (v ++ c :: more) :: after := by
  induction v with
  | nil =>
    cases h : lines w with
    | nil => exact ⟨[], [], by simp [lines, hc, h]⟩
    | cons line after => exact ⟨line, after, by simp [lines, hc, h]⟩
  | cons d v ih =>
    rw [List.mem_cons, not_or] at hv
    obtain ⟨hd, hv⟩ := hv
    obtain ⟨more, after, hlines⟩ := ih hv
    exact ⟨more, after, by simp [lines, Ne.symm hd, hlines]⟩

/-- Only the last character of a line can be a line feed. -/
theorem lineFeed_not_mem_dropLast {line : List Char} (h : line ∈ lines text) :
    '\n' ∉ line.dropLast := by
  induction text generalizing line with
  | nil => cases h
  | cons c text ih =>
    rw [lines] at h
    split at h
    · obtain rfl | hrest := List.mem_cons.1 h
      · simp
      · exact ih hrest
    · rename_i hc
      split at h
      · rw [List.mem_singleton.1 h]
        simp
      · rename_i first rest hlines
        have hfirst := ih (hlines ▸ List.mem_cons_self)
        obtain rfl | hrest := List.mem_cons.1 h
        · cases first with
          | nil => simp
          | cons d first => simpa [Ne.symm hc] using hfirst
        · exact ih (hlines ▸ List.mem_cons_of_mem first hrest)

/-- A line has at least one character. -/
theorem ne_nil_of_mem_lines {line : List Char} (h : line ∈ lines text) : line ≠ [] := by
  induction text with
  | nil => cases h
  | cons c text ih =>
    rw [lines] at h
    split at h
    · obtain rfl | hrest := List.mem_cons.1 h
      · exact List.cons_ne_nil _ _
      · exact ih hrest
    · split at h
      · rw [List.mem_singleton.1 h]
        exact List.cons_ne_nil _ _
      · rename_i hlines
        obtain rfl | hrest := List.mem_cons.1 h
        · exact List.cons_ne_nil _ _
        · exact ih (hlines ▸ List.mem_cons_of_mem _ hrest)

theorem length_le_byteSize_flatten {ls : List (List Char)} (h : ∀ line ∈ ls, line ≠ []) :
    ls.length ≤ byteSize ls.flatten := by
  induction ls with
  | nil => exact Nat.zero_le _
  | cons line ls ih =>
    obtain ⟨hline, hrest⟩ := List.forall_mem_cons.1 h
    have hpos : 0 < line.length := List.length_pos_iff.2 hline
    have hle := length_le_byteSize line
    have hmore := ih hrest
    rw [List.flatten_cons, byteSize_append, List.length_cons]
    omega

theorem lineIn?_append (number k : Nat) (front back : List (List Char)) :
    lineIn? number (byteSize front.flatten + k) (front ++ back) =
      lineIn? (number + front.length) k back := by
  induction front generalizing number with
  | nil => simp
  | cons line front ih =>
    have hle : ¬ byteSize line + byteSize front.flatten + k < byteSize line := by omega
    have hsub : byteSize line + byteSize front.flatten + k - byteSize line =
        byteSize front.flatten + k := by omega
    have hnumber : number + 1 + front.length = number + (line :: front).length := by
      rw [List.length_cons]
      omega
    rw [List.flatten_cons, byteSize_append, List.cons_append, lineIn?, if_neg hle, hsub, ih,
      hnumber]

/-- A byte among the lines of a text: the lines above it, its own, and its distance from the start
of that. -/
def Line.IsAt (l : Line) (text : List Char) (offset : Nat) : Prop :=
  ∃ above below, lines text = above ++ l.text :: below ∧ l.number = 1 + above.length ∧
    offset = byteSize above.flatten + l.column ∧ l.column < byteSize l.text

theorem lineIn?_eq_some_iff {number offset : Nat} {ls : List (List Char)} :
    lineIn? number offset ls = some l ↔
      ∃ above below, ls = above ++ l.text :: below ∧ l.number = number + above.length ∧
        offset = byteSize above.flatten + l.column ∧ l.column < byteSize l.text := by
  constructor
  · intro h
    induction ls generalizing number offset with
    | nil => cases h
    | cons line rest ih =>
      rw [lineIn?] at h
      split at h
      · rename_i hlt
        cases h
        exact ⟨[], rest, rfl, rfl, by simp, hlt⟩
      · rename_i hle
        obtain ⟨above, below, rfl, hnumber, hoffset, hlt⟩ := ih h
        refine ⟨line :: above, below, rfl, ?_, ?_, hlt⟩
        · rw [List.length_cons]
          omega
        · rw [List.flatten_cons, byteSize_append]
          omega
  · rintro ⟨above, below, rfl, hnumber, rfl, hlt⟩
    rw [lineIn?_append, lineIn?, if_pos hlt, ← hnumber]

theorem lineAt?_eq_some_iff {offset : Nat} :
    lineAt? text offset = some l ↔ l.IsAt text offset := lineIn?_eq_some_iff

/-- The lines above a byte are no more than the bytes before it. -/
theorem Line.IsAt.number_le {offset : Nat} (h : l.IsAt text offset) : l.number ≤ offset + 1 := by
  obtain ⟨above, below, hlines, hnumber, hoffset, -⟩ := h
  have hfilled : ∀ line ∈ above, line ≠ [] := fun line hline =>
    ne_nil_of_mem_lines (hlines ▸ List.mem_append_left _ hline : line ∈ lines text)
  have hle := length_le_byteSize_flatten hfilled
  omega

theorem exists_lineIn? {number offset : Nat} {ls : List (List Char)}
    (h : offset < byteSize ls.flatten) : ∃ l, lineIn? number offset ls = some l := by
  induction ls generalizing number offset with
  | nil => cases h
  | cons line rest ih =>
    rw [List.flatten_cons, byteSize_append] at h
    rw [lineIn?]
    split
    · exact ⟨_, rfl⟩
    · exact ih (by omega)

/-- Each byte of a text is in some line. -/
theorem exists_lineAt? {offset : Nat} (h : offset < byteSize text) :
    ∃ l, lineAt? text offset = some l := by
  apply exists_lineIn?
  rwa [flatten_lines]

end Offside.Text
