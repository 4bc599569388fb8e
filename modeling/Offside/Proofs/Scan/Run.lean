import Offside.Proofs.Scan.Lexeme
import Offside.Proofs.Success
import Offside.Scan

/-! Runs of the scanner as steps. What one step can do is said once; an invariant of the scanner
holds of every run when it holds at the start and each kind of step preserves it. -/
namespace Offside

theorem Indentation.enter?_eq_some_iff {width : Nat} {levels levels' : List Nat}
    {kinds : List TokenKind} : enter? width levels = some (kinds, levels') ↔
      (innermost levels < width ∧ kinds = [.indent] ∧ levels' = width :: levels) ∨
      (width ≤ innermost levels ∧ levels' = keep width levels ∧ innermost levels' = width ∧
        kinds = List.replicate (levels.length - levels'.length) .dedent) := by
  unfold enter?
  by_cases hwider : innermost levels < width
  · simp [hwider, Nat.not_le_of_lt hwider, @eq_comm _ _ kinds, @eq_comm _ _ levels']
  · rw [if_neg hwider]
    by_cases hkept : innermost (keep width levels) = width
    · simp only [hkept, if_true, hwider, Option.some.injEq, Prod.mk.injEq, false_and, false_or]
      constructor
      · rintro ⟨rfl, rfl⟩
        exact ⟨Nat.le_of_not_lt hwider, rfl, hkept, rfl⟩
      · rintro ⟨-, rfl, -, rfl⟩
        exact ⟨rfl, rfl⟩
    · simp only [hkept, if_false, hwider, reduceCtorEq, false_and, false_or, false_iff]
      rintro ⟨-, rfl, h, -⟩
      exact hkept h

namespace Scanner

/-- The ways to enter a line: at the end of the source, in a wider line, in a line of an open
level. -/
inductive Enters (s : Scanner) : List Token → Scanner → Prop
  | ended {place} : s.place.lineStart = (place, none) →
      Enters s [] { s with place, inLine := false }
  | wider {place width} : s.place.lineStart = (place, some width) →
      Indentation.innermost s.levels < width →
      Enters s [.layout .indent place.position]
        { s with place, levels := width :: s.levels, inLine := true }
  | level {place width kept} : s.place.lineStart = (place, some width) →
      width ≤ Indentation.innermost s.levels → kept = Indentation.keep width s.levels →
      Indentation.innermost kept = width →
      Enters s (List.replicate (s.levels.length - kept.length) (.layout .dedent place.position))
        { s with place, levels := kept, inLine := kept.length < s.levels.length }

theorem enterLine_eq_ok_iff {s s' : Scanner} {layout : List Token} :
    s.enterLine = .ok (layout, s') ↔ s.Enters layout s' := by
  have hlevel : ∀ n m : Nat, (!(List.replicate (n - m) TokenKind.dedent).isEmpty) =
      decide (m < n) := by
    intro n m
    rw [List.isEmpty_replicate]
    by_cases h : m < n
    · have hpos : n - m ≠ 0 := by omega
      simp [h, hpos]
    · have hzero : n - m = 0 := by omega
      simp [h, hzero]
  constructor
  · intro h
    unfold enterLine at h
    split at h
    · rename_i hline
      cases h
      exact .ended hline
    · rename_i place width hline
      split at h
      · cases h
      · rename_i kinds levels hentered
        cases h
        obtain ⟨hwider, rfl, rfl⟩ | ⟨hwider, rfl, hkept, rfl⟩ :=
          Indentation.enter?_eq_some_iff.1 hentered
        · exact .wider hline hwider
        · rw [hlevel, List.map_replicate]
          exact .level hline hwider rfl hkept
  · intro h
    unfold enterLine
    cases h with
    | ended hline => rw [hline]
    | wider hline hwider =>
      rw [hline]
      simp only [Indentation.enter?_eq_some_iff.2 (.inl ⟨hwider, rfl, rfl⟩)]
      rfl
    | level hline hwider hkept hwidth =>
      rw [hline]
      simp only [Indentation.enter?_eq_some_iff.2 (.inr ⟨hwider, hkept, hwidth, rfl⟩)]
      rw [hlevel, List.map_replicate]

/-- What a step can do. -/
inductive Step (s : Scanner) : List Token → Scanner → Prop
  | joined {value} : Lexeme.first? s.place.rest = some (.lineBreak value) → 0 < s.depth →
      Step s [] { s with place := s.place.skip value.length }
  | broken {value layout s'} : Lexeme.first? s.place.rest = some (.lineBreak value) → s.depth = 0 →
      Enters { s with place := s.place.skip value.length } layout s' →
      Step s (s.endLine ++ layout) s'
  | blank {value} : Lexeme.first? s.place.rest = some (.blank value) →
      Step s [] { s with place := s.place.skip value.length }
  | token {kind value} : Lexeme.first? s.place.rest = some (.token kind value) →
      Step s [⟨kind, String.ofList value, s.place.span value.length⟩]
        { s with
          place := s.place.skip value.length
          depth := depthAfter s.depth kind
          inLine := true }

theorem step_eq_ok_iff {s s' : Scanner} {tokens : List Token} :
    s.step = .ok (tokens, s') ↔ s.Step tokens s' := by
  constructor
  · intro h
    unfold step at h
    split at h
    · cases h
    · rename_i value hlexeme
      unfold breakLine at h
      split at h
      · rename_i hdepth
        cases h
        exact .joined hlexeme hdepth
      · rename_i hdepth
        split at h
        · cases h
        · rename_i layout s' hentered
          cases h
          exact .broken hlexeme (Nat.eq_zero_of_not_pos hdepth) (enterLine_eq_ok_iff.1 hentered)
    · rename_i value hlexeme
      cases h
      exact .blank hlexeme
    · rename_i kind value hlexeme
      cases h
      exact .token hlexeme
  · intro h
    unfold step
    cases h with
    | joined hlexeme hdepth => simp only [hlexeme, breakLine, hdepth, if_true]
    | broken hlexeme hdepth hentered =>
      have hclosed : ¬ 0 < s.depth := by omega
      simp only [hlexeme, breakLine, hclosed, if_false, enterLine_eq_ok_iff.2 hentered]
    | blank hlexeme => simp only [hlexeme]
    | token hlexeme =>
      simp only [hlexeme]
      rfl

theorem Step.rest_ne_nil {s s' : Scanner} {tokens : List Token} (h : s.Step tokens s') :
    s.place.rest ≠ [] := by
  intro hnil
  have hlt := length_lt_of_step (step_eq_ok_iff.2 h)
  rw [hnil] at hlt
  cases hlt

/-- A line cannot be entered if it is as wide as no level that it could continue. -/
theorem enterLine_eq_error_iff {s : Scanner} {e : Error} :
    s.enterLine = .error e ↔ ∃ place width, s.place.lineStart = (place, some width) ∧
      Indentation.enter? width s.levels = none ∧
        e = ⟨.inconsistentIndentation, place.position⟩ := by
  unfold enterLine
  constructor
  · intro h
    split at h
    · cases h
    · rename_i place width hline
      split at h
      · rename_i hnone
        cases h
        exact ⟨place, width, hline, hnone, rfl⟩
      · cases h
  · rintro ⟨place, width, hline, hnone, rfl⟩
    simp only [hline, hnone]
    rfl

/-- A step fails at a character that starts no lexeme, or at a line break if the next line cannot be
entered. -/
theorem step_eq_error_iff {s : Scanner} {e : Error} :
    s.step = .error e ↔
      (Lexeme.first? s.place.rest = none ∧
        e = ⟨.unrecognisedToken (String.ofList (s.place.rest.take 1)), s.place.position⟩) ∨
      ∃ value, Lexeme.first? s.place.rest = some (.lineBreak value) ∧ s.depth = 0 ∧
        enterLine { s with place := s.place.skip value.length } = .error e := by
  unfold step
  constructor
  · intro h
    split at h
    · rename_i hnone
      cases h
      exact .inl ⟨hnone, rfl⟩
    · rename_i value hlexeme
      unfold breakLine at h
      split at h
      · cases h
      · rename_i hdepth
        split at h
        · rename_i hentered
          cases h
          exact .inr ⟨value, hlexeme, Nat.eq_zero_of_not_pos hdepth, hentered⟩
        · cases h
    · cases h
    · cases h
  · rintro (⟨hnone, rfl⟩ | ⟨value, hlexeme, hdepth, hentered⟩)
    · simp only [hnone]
      rfl
    · have hclosed : ¬ 0 < s.depth := by omega
      simp only [hlexeme, breakLine, hclosed, if_false, hentered]

/-- What has been emitted when the scanner is in a state, on its way through a source. -/
inductive Reaches (file : String) (source : List Char) : List Token → Scanner → Prop
  | start {layout s} : (start file source).Enters layout s → Reaches file source layout s
  | step {tokens more s s'} : Reaches file source tokens s → s.Step more s' →
      Reaches file source (tokens ++ more) s'

theorem Reaches.run {file : String} {source : List Char} {tokens more : List Token} {s : Scanner}
    (h : Reaches file source tokens s) (hrun : s.run = .ok more) :
    ∃ front last, Reaches file source front last ∧ last.place.rest = [] ∧
      tokens ++ more = front ++ last.finish := by
  fun_induction Scanner.run s generalizing tokens more with
  | case1 s hrest =>
    cases hrun
    exact ⟨tokens, s, h, hrest, rfl⟩
  | case2 s hrest e hstep => cases hrun
  | case3 s hrest us s' hstep ih =>
    obtain ⟨vs, hvs, rfl⟩ := Except.map_eq_ok_iff.1 hrun
    obtain ⟨front, last, hlast, hend, heq⟩ := ih (h.step (step_eq_ok_iff.1 hstep)) hvs
    exact ⟨front, last, hlast, hend, by rw [← heq, List.append_assoc]⟩

end Scanner

/-- The tokens of a source are those that a run emits, and those that end it. -/
theorem reaches_of_tokenize {file : String} {source : List Char} {tokens : List Token}
    (h : tokenize file source = .ok tokens) :
    ∃ front last, Scanner.Reaches file source front last ∧ last.place.rest = [] ∧
      tokens = front ++ last.finish := by
  unfold tokenize at h
  split at h
  · cases h
  · rename_i layout s hentered
    obtain ⟨more, hrun, rfl⟩ := Except.map_eq_ok_iff.1 h
    exact (Scanner.Reaches.start (Scanner.enterLine_eq_ok_iff.1 hentered)).run hrun

end Offside
