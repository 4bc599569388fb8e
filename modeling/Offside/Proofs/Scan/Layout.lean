import Offside.Proofs.Scan.Lexing
import Offside.Proofs.Scan.Tokens

/-! The layout tokens of indented lines. Which blocks a line opens and closes depends on the depths
of the lines alone, so the tokens of a text are those of its lines with the layout between them. -/
namespace Offside

/-- A line of a text, in blocks that are nested so deep. -/
structure Line where
  depth : Nat
  content : String
deriving DecidableEq, Repr

namespace Line

/-- Four spaces for each block, the content, and a line feed. -/
def text (l : Line) : List Char :=
  List.replicate (4 * l.depth) ' ' ++ (l.content.toList ++ ['\n'])

/-- The content of a line is read as these tokens, which leave no parenthesis open. -/
structure ReadAs (content : String) (ss : List Spelling) : Prop where
  lexes : ∀ rest, Lexes content.toList ss ('\n' :: rest)
  leading : Lexeme.Leading content.toList
  ne_nil : ss ≠ []
  balanced : depthAfterAll 0 ss = 0

/-- The tokens of some lines where levels of these widths are open, the final token apart. -/
inductive Layout : List Nat → List Line → List Spelling → Prop
  | nil {levels} : Layout levels [] (List.replicate (levels.length - 1) (.dedent, ""))
  | cons {levels kept kinds depth content ss lines more} :
      Indentation.enter? (4 * depth) levels = some (kinds, kept) → ReadAs content ss →
      Layout kept lines more →
      Layout levels (⟨depth, content⟩ :: lines)
        (kinds.map (·, "") ++ (ss ++ (.newline, "") :: more))

/-- The widths of the open levels at some depth. -/
def widths : Nat → List Nat
  | 0 => [0]
  | depth + 1 => 4 * (depth + 1) :: widths depth

/-- No block at this depth goes on in these lines. -/
def Shallow (depth : Nat) (lines : List Line) : Prop := ∀ l ∈ lines.head?, l.depth ≤ depth

variable {depth : Nat} {content : String} {lines : List Line} {ss more : List Spelling}

@[simp] theorem length_widths (depth : Nat) : (widths depth).length = depth + 1 := by
  induction depth with
  | zero => rfl
  | succ depth ih => rw [widths, List.length_cons, ih]

@[simp] theorem innermost_widths (depth : Nat) :
    Indentation.innermost (widths depth) = 4 * depth := by
  cases depth <;> rfl

theorem enter?_same (depth : Nat) :
    Indentation.enter? (4 * depth) (widths depth) = some ([], widths depth) := by
  have hkeep : Indentation.keep (4 * depth) (widths depth) = widths depth := by
    cases depth with
    | zero => rfl
    | succ depth => exact Indentation.keep_cons_of_le (Nat.le_refl _)
  refine Indentation.enter?_eq_some_iff.2 (.inr ⟨?_, hkeep.symm, innermost_widths depth, ?_⟩)
  · exact Nat.le_of_eq (innermost_widths depth).symm
  · simp

theorem enter?_deeper (depth : Nat) : Indentation.enter? (4 * (depth + 1)) (widths depth) =
    some ([.indent], widths (depth + 1)) := by
  refine Indentation.enter?_eq_some_iff.2 (.inl ⟨?_, rfl, rfl⟩)
  rw [innermost_widths]
  omega

/-- A line that is no deeper than a block closes the blocks in it as well. -/
theorem enter?_shallower {width : Nat} {kinds : List TokenKind} {kept : List Nat}
    (hwidth : width ≤ 4 * depth)
    (h : Indentation.enter? width (widths depth) = some (kinds, kept)) :
    Indentation.enter? width (widths (depth + 1)) = some (.dedent :: kinds, kept) := by
  obtain ⟨hwider, -⟩ | ⟨-, hkept, hinnermost, hkinds⟩ := Indentation.enter?_eq_some_iff.1 h
  · rw [innermost_widths] at hwider
    omega
  · have hkeep : Indentation.keep width (widths (depth + 1)) = kept := by
      rw [hkept]
      exact Indentation.keep_cons_of_lt (by omega)
    have hlength : kept.length ≤ depth + 1 := by
      have hle := (Indentation.keep_suffix width (widths depth)).length_le
      rwa [length_widths, ← hkept] at hle
    have hcount : depth + 1 + 1 - kept.length = depth + 1 - kept.length + 1 := by omega
    refine Indentation.enter?_eq_some_iff.2 (.inr ⟨?_, hkeep.symm, hinnermost, ?_⟩)
    · rw [innermost_widths]
      omega
    · rw [hkinds, length_widths, length_widths, hcount, List.replicate_succ]

namespace Layout

theorem same (h : ReadAs content ss) (hmore : Layout (widths depth) lines more) :
    Layout (widths depth) (⟨depth, content⟩ :: lines) (ss ++ (.newline, "") :: more) :=
  .cons (enter?_same depth) h hmore

/-- An indentation comes before the first line of a deeper block. -/
theorem opens (h : Layout (widths (depth + 1)) (⟨depth + 1, content⟩ :: lines) ss) :
    Layout (widths depth) (⟨depth + 1, content⟩ :: lines) ((.indent, "") :: ss) := by
  cases h with
  | cons henter hread hmore =>
    rw [enter?_same] at henter
    cases henter
    exact .cons (enter?_deeper depth) hread hmore

/-- A dedentation comes after the last line of a block. -/
theorem closes (hlines : Shallow depth lines) (h : Layout (widths depth) lines ss) :
    Layout (widths (depth + 1)) lines ((.dedent, "") :: ss) := by
  cases h with
  | nil =>
    rw [length_widths, Nat.add_sub_cancel, ← List.replicate_succ]
    have hwhole : Layout (widths (depth + 1)) [] _ := .nil
    rwa [length_widths] at hwhole
  | @cons _ _ _ d _ _ _ _ henter hread hmore =>
    have hdepth : d ≤ depth := hlines _ rfl
    exact .cons (enter?_shallower (by omega) henter) hread hmore

end Layout
end Line

namespace Place

variable {p : Place}

theorem lineStart_of_content_eq_nil (h : p.content.rest = []) :
    p.lineStart = (p.content, none) := by
  rw [lineStart]
  split
  · rfl
  · rename_i hcons
    rw [h] at hcons
    cases hcons

theorem lineStart_of_rest_eq_nil (h : p.rest = []) : p.lineStart = (p.content, none) :=
  lineStart_of_content_eq_nil (by rw [rest_content, h, List.dropWhile_nil])

theorem lineStart_of_blank {c : Char} {rest : List Char} (h : p.content.rest = c :: rest)
    (hc : endsContent c = true) : p.lineStart = p.nextLine.lineStart := by
  rw [lineStart]
  split
  · rename_i hnil
    rw [h] at hnil
    cases hnil
  · rename_i hcons
    rw [h] at hcons
    cases hcons
    rw [if_pos hc]

theorem lineStart_of_content {c : Char} {rest : List Char} (h : p.content.rest = c :: rest)
    (hc : endsContent c = false) : p.lineStart = (p.content, some p.indentation) := by
  rw [lineStart]
  split
  · rename_i hnil
    rw [h] at hnil
    cases hnil
  · rename_i hcons
    rw [h] at hcons
    cases hcons
    rw [hc]
    rfl

theorem lineStart_of_leading {n : Nat} {t : List Char} (h : p.rest = List.replicate n ' ' ++ t)
    (ht : Lexeme.Leading t) : p.lineStart = (p.skip n, some n) := by
  obtain ⟨c, cs, rfl, hc⟩ := ht
  simp only [Lexeme.startsContent, Bool.and_eq_true, Bool.not_eq_true'] at hc
  obtain ⟨hends, hblank⟩ := hc
  have hspaces : ∀ d ∈ List.replicate n ' ', isIndentation d = true := by
    intro d hd
    rw [List.eq_of_mem_replicate hd]
    decide
  have hindent : ¬ isIndentation c = true := by
    simp only [Lexeme.isBlank, Bool.or_eq_false_iff] at hblank
    rw [isIndentation, hblank.1.1, hblank.1.2]
    exact Bool.false_ne_true
  have hwidth : p.indentation = n := by
    rw [indentation, h, List.takeWhile_append_of_pos hspaces, List.takeWhile_cons_of_neg hindent,
      List.append_nil, List.length_replicate]
  have hrest : p.content.rest = c :: cs := by
    rw [content, hwidth, rest_skip, h, List.drop_left' List.length_replicate]
  rw [lineStart_of_content hrest hends, content, hwidth]

end Place

namespace Scanner

/-- Enters a line and reads to the end of the source. -/
def runLine (s : Scanner) : Except Error (List Token) :=
  match s.enterLine with
  | .error e => .error e
  | .ok (layout, s') => s'.run.map (layout ++ ·)

theorem runLine_eq_ok_iff {s : Scanner} {tokens : List Token} : s.runLine = .ok tokens ↔
    ∃ layout s' more, s.enterLine = .ok (layout, s') ∧ s'.run = .ok more ∧
      tokens = layout ++ more := by
  unfold runLine
  cases s.enterLine with
  | error e => simp
  | ok r =>
    simp only [Except.map_eq_ok_iff, Except.ok.injEq]
    constructor
    · rintro ⟨more, hrun, rfl⟩
      exact ⟨_, _, more, rfl, hrun, rfl⟩
    · rintro ⟨_, _, more, rfl, hrun, rfl⟩
      exact ⟨more, hrun, rfl⟩

/-- At a line break outside of parentheses the line ends and the next one is entered. -/
theorem run_of_lineBreak {s : Scanner} {value : List Char}
    (hfirst : Lexeme.first? s.place.rest = some (.lineBreak value)) (hdepth : s.depth = 0) :
    s.run = (runLine { s with place := s.place.skip value.length }).map (s.endLine ++ ·) := by
  have hrest : s.place.rest ≠ [] := by
    intro hnil
    rw [hnil] at hfirst
    cases hfirst
  unfold runLine
  cases hentered : enterLine { s with place := s.place.skip value.length } with
  | error e =>
    have hopen : ¬ 0 < s.depth := by omega
    refine run_of_step_eq_error hrest ?_
    simp only [step, hfirst, breakLine, hopen, if_false, hentered]
  | ok r =>
    rw [run_of_step (.broken hfirst hdepth (enterLine_eq_ok_iff.1 hentered)), Except.map_map]
    simp only [List.append_assoc]

/-- A run of lines passes the first of them with its layout, its tokens and its line break. -/
theorem runLine_of_line {s : Scanner} {width : Nat} {content : String} {rest : List Char}
    {ss : List Spelling} {kinds : List TokenKind} {kept : List Nat}
    (hs : s.place.rest = List.replicate width ' ' ++ (content.toList ++ ['\n']) ++ rest)
    (henter : Indentation.enter? width s.levels = some (kinds, kept))
    (hread : Line.ReadAs content ss) (hdepth : s.depth = 0) :
    ∃ (tokens : List Token) (s' : Scanner),
      tokens.map Token.spelling = kinds.map (·, "") ++ (ss ++ [(.newline, "")]) ∧
      s.runLine = s'.runLine.map (tokens ++ ·) ∧
      s'.place = s.place.skip (List.replicate width ' ' ++ (content.toList ++ ['\n'])).length ∧
      s'.levels = kept ∧ s'.depth = 0 := by
  simp only [List.append_assoc, List.singleton_append] at hs
  have hentered : s.enterLine = .ok (kinds.map (Token.layout · (s.place.skip width).position),
      { s with place := s.place.skip width, levels := kept, inLine := !kinds.isEmpty }) := by
    unfold enterLine
    rw [Place.lineStart_of_leading hs (hread.leading.append _)]
    simp only [henter]
  have hcontent : (s.place.skip width).rest = content.toList ++ '\n' :: rest := by
    rw [Place.rest_skip, hs, List.drop_left' List.length_replicate]
  obtain ⟨tokens, s', hspelling, hrun, hplace, hlevels, hdepth', hinLine⟩ :=
    run_of_lexes (hread.lexes rest)
      (s := { s with place := s.place.skip width, levels := kept, inLine := !kinds.isEmpty })
      hcontent
  have hclosed : s'.depth = 0 := by
    rw [hdepth']
    exact hdepth ▸ hread.balanced
  have hfeed : Lexeme.first? s'.place.rest = some (.lineBreak ['\n']) := by
    rw [hplace, Place.rest_skip_length hcontent]
    rfl
  have hopen : s'.inLine = true := by simp [hinLine, hread.ne_nil]
  refine ⟨kinds.map (Token.layout · (s.place.skip width).position) ++
    (tokens ++ [.layout .newline s'.place.position]), { s' with place := s'.place.skip 1 }, ?_, ?_,
    ?_, hlevels, hclosed⟩
  · simp only [List.map_append, List.map_map, hspelling]
    rfl
  · unfold runLine
    rw [hentered]
    simp only [hrun, run_of_lineBreak hfeed hclosed, endLine, if_pos hopen, Except.map_map,
      List.append_assoc]
    rfl
  · simp only [hplace, Place.skip_skip, List.length_append, List.length_replicate,
      List.length_singleton, Nat.add_assoc]

/-- Where the text is at its end all levels but the outermost are closed. -/
theorem runLine_of_rest_eq_nil {s : Scanner} (hs : s.place.rest = []) :
    ∃ p, s.runLine =
      .ok (List.replicate (s.levels.length - 1) (.layout .dedent p) ++ [.endAt p]) := by
  have hentered := enterLine_eq_ok_iff.2 (Enters.ended (Place.lineStart_of_rest_eq_nil hs))
  have hrest : s.place.content.rest = [] := by rw [Place.rest_content, hs, List.dropWhile_nil]
  refine ⟨s.place.content.position, runLine_eq_ok_iff.2 ⟨_, _, _, hentered, ?_, rfl⟩⟩
  exact run_of_rest_eq_nil hrest

/-- The tokens of lines are those of their layout. -/
theorem runLine_of_layout {levels : List Nat} {lines : List Line} {ss : List Spelling}
    (h : Line.Layout levels lines ss) {s : Scanner} (hs : s.place.rest = lines.flatMap Line.text)
    (hlevels : s.levels = levels) (hdepth : s.depth = 0) :
    ∃ tokens p, s.runLine = .ok (tokens ++ [.endAt p]) ∧ tokens.map Token.spelling = ss := by
  induction h generalizing s with
  | nil =>
    obtain ⟨p, hrun⟩ := runLine_of_rest_eq_nil hs
    refine ⟨_, p, hrun, ?_⟩
    rw [List.map_replicate, hlevels]
    rfl
  | @cons levels kept kinds depth content ss lines more henter hread _ ih =>
    rw [← hlevels] at henter
    have hline : s.place.rest = List.replicate (4 * depth) ' ' ++ (content.toList ++ ['\n']) ++
        lines.flatMap Line.text := hs
    obtain ⟨tokens, s', hspelling, hrun, hplace, hkept, hclosed⟩ :=
      runLine_of_line hline henter hread hdepth
    have hrest : s'.place.rest = lines.flatMap Line.text := by
      rw [hplace, Place.rest_skip_length hline]
    obtain ⟨moreTokens, p, hmore, hmoreSpelling⟩ := ih hrest hkept hclosed
    refine ⟨tokens ++ moreTokens, p, ?_, ?_⟩
    · rw [hrun, hmore, List.append_assoc]
      rfl
    · rw [List.map_append, hspelling, hmoreSpelling]
      simp only [List.append_assoc, List.singleton_append]

end Scanner

theorem tokenize_eq_runLine (file : String) (source : List Char) :
    tokenize file source = (Scanner.start file source).runLine := rfl

end Offside
