import Offside.FrontEnd
import Offside.Proofs.Report
import Offside.Proofs.Scan.Skipped
import Offside.Proofs.Text.Stop

/-! Where the caret of a report stands. The column counts bytes and is moved by the spaces that the
shown line is without; the line is shown without all its leading white space, and its columns are
characters. So the caret is below the character that the error is about exactly if neither makes a
difference, in every report that there is. -/
namespace Offside

namespace Text

variable {above before after more v w : List Char} {c : Char} {p : Char → Bool}

theorem trim_append_cons (hc : isBlank c = false) (v w : List Char) :
    trim (v ++ c :: w) = v.dropWhile isBlank ++ c :: (w.reverse.dropWhile isBlank).reverse := by
  rw [trim, dropWhile_append_of_neg hc, List.reverse_append, List.reverse_cons, List.append_assoc,
    List.singleton_append, dropWhile_append_of_neg hc]
  simp

/-- The lines of a text that ends with one are not changed by what is behind it. -/
theorem lines_append (h : AtLineStart above) (w : List Char) :
    lines (above ++ w) = lines above ++ lines w := by
  obtain rfl | ⟨front, rfl⟩ := h
  · rfl
  · rw [List.append_assoc, List.singleton_append, lines_append_lineFeed]

/-- The line of a character, with the lines above it and the bytes before it. -/
theorem lineAt?_append (habove : AtLineStart above) (hbefore : '\n' ∉ before) (hc : c ≠ '\n')
    (after : List Char) : ∃ more,
      lineAt? (above ++ (before ++ c :: after)) (byteSize (above ++ before)) =
        some ⟨1 + (lines above).length, before ++ c :: more, byteSize before⟩ ∧
      '\n' ∉ (before ++ c :: more).dropLast := by
  obtain ⟨more, below, hlines⟩ := lines_eq_cons (w := after) hbefore hc
  refine ⟨more, lineAt?_eq_some_iff.2 ⟨lines above, below, ?_, rfl, ?_, ?_⟩, ?_⟩
  · rw [lines_append habove, hlines]
  · rw [flatten_lines, byteSize_append]
  · have hpos := c.utf8Size_pos
    change byteSize before < byteSize (before ++ c :: more)
    rw [byteSize_append, byteSize_cons]
    omega
  · exact lineFeed_not_mem_dropLast (hlines ▸ List.mem_cons_self)

end Text

open Text

namespace Error

variable {above before after more v : List Char} {c : Char} {e : Error}

theorem drop_margin (line : List Char) : line.drop (margin line) = line.dropWhile (· = ' ') := by
  have hsplit : line.takeWhile (· = ' ') ++ line.dropWhile (· = ' ') = line :=
    List.takeWhile_append_dropWhile
  calc line.drop (margin line)
      = (line.takeWhile (· = ' ') ++ line.dropWhile (· = ' ')).drop (margin line) := by rw [hsplit]
    _ = line.dropWhile (· = ' ') := List.drop_left

/-- Spaces are white space, so it makes no difference to cut them off first. -/
theorem dropWhile_dropWhile_space (v : List Char) :
    (v.dropWhile (· = ' ')).dropWhile isBlank = v.dropWhile isBlank := by
  induction v with
  | nil => rfl
  | cons d v ih =>
    by_cases hd : d = ' '
    · subst hd
      exact ih
    · rw [List.dropWhile_cons_of_neg (by simpa using hd)]

theorem ne_space (hc : isBlank c = false) : c ≠ ' ' := by
  rintro rfl
  cases hc

/-- A line is shown without the white space at its front and at its end. -/
theorem shownLine_append (hc : isBlank c = false) (v w : List Char) : shownLine (v ++ c :: w) =
    v.dropWhile isBlank ++ c :: (w.reverse.dropWhile isBlank).reverse := by
  have hspace : decide (c = ' ') = false := decide_eq_false (ne_space hc)
  rw [shownLine, drop_margin, dropWhile_append_of_neg (p := (· = ' ')) hspace, trim_append_cons hc,
    dropWhile_dropWhile_space]

/-- A space is one byte, so it is the bytes behind the leading spaces that are counted. -/
theorem byteSize_sub_margin (v w : List Char) :
    byteSize v - margin (v ++ w) = byteSize (v.dropWhile (· = ' ')) := by
  induction v with
  | nil => exact Nat.zero_sub _
  | cons d v ih =>
    by_cases hd : d = ' '
    · subst hd
      have hmargin : margin (' ' :: v ++ w) = margin (v ++ w) + 1 := rfl
      have hone : ' '.utf8Size = 1 := rfl
      rw [hmargin, byteSize_cons, hone, List.dropWhile_cons_of_pos rfl, ← ih]
      omega
    · have hmargin : margin (d :: v ++ w) = 0 := by
        rw [margin, List.cons_append, List.takeWhile_cons_of_neg (by simpa using hd)]
        rfl
      rw [hmargin, List.dropWhile_cons_of_neg (by simpa using hd), Nat.sub_zero]

/-- The bytes behind the leading spaces are as many as the characters behind the leading white
space exactly if all characters are of one byte and there is no other white space in front. -/
theorem byteSize_dropWhile_eq_iff :
    byteSize (v.dropWhile (· = ' ')) = (v.dropWhile isBlank).length ↔
      (∀ d ∈ v, d.utf8Size = 1) ∧ ∀ d ∈ v.takeWhile isBlank, d = ' ' := by
  induction v with
  | nil => simp
  | cons d v ih =>
    by_cases hspace : d = ' '
    · subst hspace
      have hone : ' '.utf8Size = 1 := rfl
      have hblank : isBlank ' ' = true := rfl
      simpa [hone, hblank] using ih
    rw [List.dropWhile_cons_of_neg (by simpa using hspace)]
    cases hblank : isBlank d with
    | true =>
      have hle := length_le_byteSize (d :: v)
      have hshorter := (List.dropWhile_suffix isBlank (l := v)).length_le
      rw [List.dropWhile_cons_of_pos hblank, List.takeWhile_cons_of_pos hblank]
      rw [List.length_cons] at hle
      constructor
      · omega
      · rintro ⟨-, hfront⟩
        exact absurd (hfront d List.mem_cons_self) hspace
    | false =>
      rw [List.dropWhile_cons_of_neg (by simp [hblank]), byteSize_eq_length_iff,
        List.takeWhile_cons_of_neg (by simp [hblank])]
      simp

theorem lineFeed_ne (hc : isBlank c = false) : c ≠ '\n' := by
  rintro rfl
  cases hc

/-- The line feed of a line is cut off with the white space at its end. -/
theorem lineFeed_not_mem_trimmed (h : '\n' ∉ (v ++ c :: more).dropLast) :
    '\n' ∉ (more.reverse.dropWhile isBlank).reverse := by
  obtain rfl | ⟨front, d, rfl⟩ := List.eq_nil_or_concat more
  · simp
  have hfront : '\n' ∉ front := by
    rw [List.concat_eq_append, ← List.cons_append, ← List.append_assoc, List.dropLast_concat] at h
    exact fun hmem => h (by simp [hmem])
  rw [List.concat_eq_append, List.reverse_append, List.reverse_singleton, List.singleton_append,
    List.mem_reverse]
  cases hd : isBlank d with
  | true =>
    rw [List.dropWhile_cons_of_pos hd]
    exact fun hmem => hfront (List.mem_reverse.1 ((List.dropWhile_suffix _).subset hmem))
  | false =>
    rw [List.dropWhile_cons_of_neg (by simp [hd]), List.mem_cons, List.mem_reverse, not_or]
    exact ⟨(lineFeed_ne hd).symm, hfront⟩

theorem lineFeed_not_mem_number (n : Nat) : '\n' ∉ (toString n).toList := by
  intro hmem
  have hdigits : (toString n).toList = Nat.toDigits 10 n := String.toList_ofList
  rw [hdigits] at hmem
  have hdigit := Nat.isDigit_of_mem_toDigits (by decide) (by decide) hmem
  cases hdigit

/-- What the last two lines of a report are: some line of the source, and the line of the caret. -/
def EndsWith (e : Error) (source shown caret : List Char) : Prop :=
  '\n' ∉ shown ∧ '\n' ∉ caret ∧ ∃ top, e.report? source =
    some (String.ofList (top ++ '\n' :: (shown ++ '\n' :: (caret ++ ['\n']))))

/-- The column of the caret below a character. -/
theorem caretColumn_append (hbefore : '\n' ∉ before) (hc : isBlank c = false)
    (habove : AtLineStart above) (hposition : e.position.offset.toNat = byteSize (above ++ before))
    (after : List Char) : ∃ more,
      let l : Text.Line := ⟨1 + (lines above).length, before ++ c :: more, byteSize before⟩
      lineAt? (above ++ (before ++ c :: after)) e.position.offset.toNat = some l ∧
      caretColumn l = byteSize (before.dropWhile (· = ' ')) ∧
      '\n' ∉ (before ++ c :: more).dropLast := by
  obtain ⟨more, hline, hfeed⟩ := lineAt?_append habove hbefore (lineFeed_ne hc) after
  exact ⟨more, hposition ▸ hline, byteSize_sub_margin before (c :: more), hfeed⟩

/-- The last two lines of a report on a character of a source. -/
theorem exists_endsWith (habove : AtLineStart above) (hbefore : '\n' ∉ before)
    (hc : isBlank c = false) (hposition : e.position.offset.toNat = byteSize (above ++ before))
    (hcaret : byteSize (before.dropWhile (· = ' ')) + 1 < UInt16.size) (after : List Char) :
    let number := (toString (1 + (lines above).length)).toList
    ∃ tail, e.EndsWith (above ++ (before ++ c :: after))
      (number ++ [' ', '|', ' '] ++ (before.dropWhile isBlank ++ c :: tail))
      (List.replicate (number.length + 1) ' ' ++ ['|', ' '] ++
        List.replicate (byteSize (before.dropWhile (· = ' '))) '-' ++ ['^']) := by
  intro number
  obtain ⟨more, hline, hcolumn, hfeed⟩ := caretColumn_append hbefore hc habove hposition after
  refine ⟨(more.reverse.dropWhile isBlank).reverse, ?shown, ?caret,
    e.headline.toList ++ '\n' :: ("-> " ++ e.position.file).toList ++ '\n' ::
      (List.replicate (number.length + 1) ' ' ++ ['|']), ?report⟩
  case shown =>
    have hblank : '\n' ∉ before.dropWhile isBlank :=
      fun hmem => hbefore ((List.dropWhile_suffix _).subset hmem)
    have hmargin : '\n' ∉ [' ', '|', ' '] := by decide
    simp only [List.mem_append, List.mem_cons (a := '\n') (b := c), not_or]
    exact ⟨⟨lineFeed_not_mem_number _, hmargin⟩, hblank, (lineFeed_ne hc).symm,
      lineFeed_not_mem_trimmed hfeed⟩
  case caret => simp
  case report =>
    rw [report?_of_lt hline (hcolumn ▸ hcaret), hcolumn]
    simp only [shownLine_append hc, bar]
    simp [number]

/-- The caret of a report on a character stands as far behind the bar as there are bytes behind the
leading spaces of the line, and the character as there are characters behind its leading white
space. So the caret stands below the character exactly if all characters before it on its line are
of one byte, and the line begins with no white space but spaces. There is no report if so many bytes
stand before the character that the width of the caret is not one of 16 bits. -/
theorem caret_below_iff (habove : AtLineStart above) (hbefore : '\n' ∉ before)
    (hc : isBlank c = false) (hposition : e.position.offset.toNat = byteSize (above ++ before))
    (after : List Char) :
    (UInt16.size ≤ byteSize (before.dropWhile (· = ' ')) + 1 →
      e.report? (above ++ (before ++ c :: after)) = none) ∧
    (byteSize (before.dropWhile (· = ' ')) + 1 < UInt16.size → ∃ lead tail stem,
      e.EndsWith (above ++ (before ++ c :: after)) (lead ++ (before.dropWhile isBlank ++ c :: tail))
        (stem ++ ['^']) ∧
      lead = (toString (1 + (lines above).length)).toList ++ [' ', '|', ' '] ∧
      stem.length = lead.length + byteSize (before.dropWhile (· = ' ')) ∧
      (stem.length = (lead ++ before.dropWhile isBlank).length ↔
        (∀ d ∈ before, d.utf8Size = 1) ∧ ∀ d ∈ before.takeWhile isBlank, d = ' ')) := by
  constructor
  · intro hwide
    obtain ⟨more, hline, hcolumn, -⟩ := caretColumn_append hbefore hc habove hposition after
    exact report?_of_le hline (hcolumn ▸ hwide)
  intro hcaret
  obtain ⟨tail, hends⟩ := exists_endsWith habove hbefore hc hposition hcaret after
  let lead := (toString (1 + (lines above).length)).toList ++ [' ', '|', ' ']
  refine ⟨lead, tail, _, hends, rfl, ?_⟩
  have hstem : ∀ k, (List.replicate ((toString (1 + (lines above).length)).toList.length + 1) ' ' ++
      ['|', ' '] ++ List.replicate k '-').length = lead.length + k := by
    intro k
    simp only [lead, List.length_append, List.length_replicate, List.length_cons, List.length_nil]
  have hcharacter : (lead ++ before.dropWhile isBlank).length =
      lead.length + (before.dropWhile isBlank).length := List.length_append
  rw [hstem, hcharacter]
  exact ⟨rfl, Nat.add_left_cancel_iff.trans byteSize_dropWhile_eq_iff⟩

/-- An indentation of spaces is cut off in both counts. -/
theorem caret_below_iff_spaces :
    let above := "if True:\n".toList
    let before := "    x = ".toList
    let after := "one + 1\n".toList
    ∃ e, typedProgramOf "shell" (above ++ (before ++ 'N' :: after)) = .error e ∧
      AtLineStart above ∧ '\n' ∉ before ∧ isBlank 'N' = false ∧
      e.position.offset.toNat = byteSize (above ++ before) ∧
      byteSize (before.dropWhile (· = ' ')) + 1 < UInt16.size ∧
      ∃ lead tail stem,
        e.EndsWith (above ++ (before ++ 'N' :: after))
          (lead ++ (before.dropWhile isBlank ++ 'N' :: tail)) (stem ++ ['^']) ∧
        lead = (toString (1 + (lines above).length)).toList ++ [' ', '|', ' '] ∧
        stem.length = lead.length + byteSize (before.dropWhile (· = ' ')) ∧
        (stem.length = (lead ++ before.dropWhile isBlank).length ↔
          (∀ d ∈ before, d.utf8Size = 1) ∧ ∀ d ∈ before.takeWhile isBlank, d = ' ') := by
  intro above before after
  obtain ⟨e, he, hposition⟩ : ∃ e,
      typedProgramOf "shell" (above ++ (before ++ 'N' :: after)) = .error e ∧
        decide (e.position.offset.toNat = byteSize (above ++ before)) = true :=
    Except.exists_eq_error_of (by decide +kernel)
  have hposition := of_decide_eq_true hposition
  have habove : AtLineStart above := .inr ⟨"if True:".toList, by decide⟩
  have hbefore : '\n' ∉ before := by decide
  have hcaret : byteSize (before.dropWhile (· = ' ')) + 1 < UInt16.size := by decide
  exact ⟨e, he, habove, hbefore, by decide, hposition, hcaret,
    (caret_below_iff habove hbefore (by decide) hposition after).2 hcaret⟩

/-- A tab in front of a line is cut off and counted all the same: the caret stands one column to the
right of the character. -/
theorem caret_beside_tab :
    let above := "if True:\n".toList
    let before := "\tx = ".toList
    let after := "one + 1\n".toList
    ∃ e, typedProgramOf "shell" (above ++ (before ++ 'N' :: after)) = .error e ∧
      AtLineStart above ∧ '\n' ∉ before ∧ isBlank 'N' = false ∧
      e.position.offset.toNat = byteSize (above ++ before) ∧
      e.EndsWith (above ++ (before ++ 'N' :: after)) ("2 | x = ".toList ++ 'N' :: "one + 1".toList)
        ("  | -----".toList ++ ['^']) ∧
      "  | -----".toList.length = "2 | x = ".toList.length + 1 := by
  intro above before after
  obtain ⟨e, he, hreport⟩ : ∃ e,
      typedProgramOf "shell" (above ++ (before ++ 'N' :: after)) = .error e ∧
        decide (e.position.offset.toNat = byteSize (above ++ before) ∧
          e.report? (above ++ (before ++ 'N' :: after)) = some (String.ofList (
            "Error: OperandTypeMismatch ".toList ++
                "(Operator `+` cannot be applied to `none` and `int`)\n-> shell\n  |".toList ++
              '\n' :: ("2 | x = None + 1".toList ++ '\n' :: ("  | -----^".toList ++ ['\n'])))))
          = true :=
    Except.exists_eq_error_of (by decide +kernel)
  obtain ⟨hposition, hreport⟩ := of_decide_eq_true hreport
  exact ⟨e, he, .inr ⟨"if True:".toList, by decide⟩, by decide, by decide, hposition,
    ⟨by decide, by decide, _, hreport⟩, by decide⟩

end Error
end Offside
