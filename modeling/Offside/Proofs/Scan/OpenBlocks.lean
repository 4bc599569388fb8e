import Offside.Proofs.Grammar.Closing
import Offside.Proofs.Scan.Moved
import Offside.Proofs.Scan.Seam

/-! The parentheses and the blocks that the scanner takes for open are those that its tokens leave
open. At the end of a text whose lines are all ended, the next line closes the blocks, so what comes
next is read as it is alone. -/
namespace Offside

theorem blocksOpened_replicate (n : Nat) (tok : Token) :
    blocksOpened (List.replicate n tok) = n * tok.kind.blockWeight := by
  simp [blocksOpened]

namespace Indentation

/-- Widths of open levels, innermost first. Each level is wider than the one around it, and the
outermost has the width 0. -/
inductive Descending : List Nat → Prop
  | outermost : Descending [0]
  | cons {width levels} : innermost levels < width → Descending levels →
      Descending (width :: levels)

namespace Descending

variable {levels : List Nat}

theorem length_pos (h : Descending levels) : 0 < levels.length := by cases h <;> simp

/-- A line leaves such levels open. -/
theorem keep (h : Descending levels) (width : Nat) : Descending (keep width levels) := by
  induction h with
  | outermost =>
    rw [keep_cons_of_le (Nat.zero_le width)]
    exact .outermost
  | @cons top levels htop h ih =>
    obtain hlt | hle := Nat.lt_or_ge width top
    · rwa [keep_cons_of_lt hlt]
    · rw [keep_cons_of_le hle]
      exact .cons htop h

/-- A line without indentation leaves the outermost level open. -/
theorem keep_zero (h : Descending levels) : Indentation.keep 0 levels = [0] := by
  induction h with
  | outermost => rfl
  | cons htop _ ih => rw [keep_cons_of_lt (Nat.zero_lt_of_lt htop), ih]

end Descending
end Indentation

namespace Scanner

variable {file : String} {x y : List Char} {u tokens layout more : List Token} {s s' : Scanner}
  {q : Position} {n : Nat}

theorem blocksOpened_endLine (s : Scanner) : blocksOpened s.endLine = 0 := by
  obtain ⟨n, hn⟩ := s.endLine_eq_replicate
  rw [hn, blocksOpened_replicate]
  exact Int.mul_zero _

theorem blocksOpened_dedents (n : Nat) (p : Position) :
    blocksOpened (List.replicate n (.layout .dedent p)) = -n := by
  rw [blocksOpened_replicate]
  exact Int.mul_neg_one _

/-- The outermost level is open and, with falling widths, as many blocks as the tokens leave
open. -/
structure Opens (tokens : List Token) (s : Scanner) : Prop where
  blocks : blocksOpened tokens + 1 = s.levels.length
  descending : Indentation.Descending s.levels

theorem Enters.opens (h : s.Enters layout s') (hs : Opens tokens s) :
    Opens (tokens ++ layout) s' := by
  have hblocks := hs.blocks
  cases h with
  | ended =>
    rw [List.append_nil]
    exact ⟨hblocks, hs.descending⟩
  | wider hline hwider =>
    refine ⟨?_, .cons hwider hs.descending⟩
    rw [blocksOpened_append, blocksOpened_cons, blocksOpened_nil]
    simp only [Token.layout, TokenKind.blockWeight, List.length_cons]
    omega
  | @level place width kept hline hle hkept =>
    have hsuffix : kept <:+ s.levels := hkept ▸ Indentation.keep_suffix _ _
    have hlength := hsuffix.length_le
    refine ⟨?_, hkept ▸ hs.descending.keep width⟩
    rw [blocksOpened_append, blocksOpened_dedents]
    dsimp only
    omega

/-- The end of a line opens and closes nothing. -/
theorem Opens.endLine (hs : Opens tokens s) (n : Nat) :
    Opens (tokens ++ s.endLine) { s with place := s.place.skip n } := by
  refine ⟨?_, hs.descending⟩
  rw [blocksOpened_append, blocksOpened_endLine, Int.add_zero]
  exact hs.blocks

theorem Step.opens (h : s.Step more s') (hs : Opens tokens s) : Opens (tokens ++ more) s' := by
  cases h with
  | joined =>
    rw [List.append_nil]
    exact ⟨hs.blocks, hs.descending⟩
  | @broken value _ _ hl hdepth hentered =>
    rw [← List.append_assoc]
    exact hentered.opens (hs.endLine value.length)
  | blank =>
    rw [List.append_nil]
    exact ⟨hs.blocks, hs.descending⟩
  | token hl =>
    have hcontent := (Lexeme.isContent_of_first? hl).1
    refine ⟨?_, hs.descending⟩
    rw [blocksOpened_append, blocksOpened_of_isContent (List.forall_mem_singleton.2 hcontent),
      Int.add_zero]
    exact hs.blocks

theorem Reaches.opens (h : Reaches file x tokens s) : Opens tokens s := by
  induction h with
  | start hentered =>
    have hstart : Opens [] (Scanner.start file x) := ⟨rfl, .outermost⟩
    exact hentered.opens hstart
  | step _ hstep ih => exact hstep.opens ih

theorem Enters.inLine_of_rest_eq_nil (h : s.Enters layout s') (hrest : s'.place.rest = []) :
    s'.inLine = false := by
  cases h with
  | ended => rfl
  | wider hline => exact absurd hrest (rest_ne_nil_of_lineStart hline)
  | level hline => exact absurd hrest (rest_ne_nil_of_lineStart hline)

/-- At the end of a text whose lines are all ended, the last line is over outside of parentheses. -/
theorem Reaches.inLine_of_rest_eq_nil (hx : AtLineStart x) (h : Reaches file x tokens s)
    (hrest : s.place.rest = []) (hdepth : s.depth = 0) : s.inLine = false := by
  cases h with
  | start hentered => exact hentered.inLine_of_rest_eq_nil hrest
  | step hbefore hstep =>
    have hlines := hbefore.atLineStart hx
    cases hstep with
    | joined hl hopen => exact absurd hdepth (Nat.ne_of_gt hopen)
    | broken hl _ hentered => exact hentered.inLine_of_rest_eq_nil hrest
    | blank hl => exact absurd hrest (Place.rest_skip_ne_nil hlines hl nofun)
    | token hl => exact absurd hrest (Place.rest_skip_ne_nil hlines hl nofun)

/-- How the text before a line has ended is not seen at the content of the line. -/
theorem run_inLine (hs : s.place.AtContent) (b : Bool) : run { s with inLine := b } = s.run := by
  have hrest : s.place.rest ≠ [] := by
    obtain ⟨c, rest, hcons, -⟩ := hs
    simp [hcons]
  have hstep : step { s with inLine := b } = s.step := by
    unfold step
    cases hl : Lexeme.first? s.place.rest with
    | none => rfl
    | some l =>
      obtain ⟨k, v, rfl⟩ := hs.token_of_first? hl
      rfl
  cases hs : s.step with
  | error e =>
    rw [run_of_step_eq_error hrest hs, run_of_step_eq_error (s := { s with inLine := b }) hrest]
    rw [hstep, hs]
  | ok r =>
    obtain ⟨more, s'⟩ := r
    rw [run_of_step (step_eq_ok_iff.1 hs), run_of_step (s := { s with inLine := b })]
    rw [← step_eq_ok_iff, hstep, hs]

/-- A line that opens no block at the outermost level closes those that are open. -/
theorem runLine_of_outermost {t : Scanner} (hplace : t.place = s.place) (hdepth : t.depth = s.depth)
    (ht : Indentation.Descending t.levels) (hs : s.levels = [0]) (h : s.runLine = .ok tokens)
    (hindent : firstKind tokens .eof ≠ .indent) :
    ∃ p, t.runLine = .ok (List.replicate (t.levels.length - 1) (.layout .dedent p) ++ tokens) := by
  obtain ⟨layout, s', more, hentered, hrun, rfl⟩ := runLine_eq_ok_iff.1 h
  cases enterLine_eq_ok_iff.1 hentered with
  | @ended q hline =>
    have hrest := Place.rest_eq_nil_of_lineStart hline
    rw [run_of_rest_eq_nil hrest] at hrun
    cases hrun
    rw [← hplace] at hline
    refine ⟨q.position, ?_⟩
    rw [runLine_of_enters (.ended hline), run_of_rest_eq_nil hrest]
    simp [Except.map, finish, endLine, hs]
  | wider => exact absurd rfl hindent
  | @level q width kept hline hle hkept =>
    rw [hs] at hle hkept
    obtain rfl : width = 0 := Nat.le_zero.1 hle
    obtain rfl : kept = [0] := hkept
    have hnext := run_inLine (s := ⟨q, [0], t.depth, false⟩) (Place.atContent_of_lineStart hline)
      (decide (1 < t.levels.length))
    have hrun : run ⟨q, [0], t.depth, false⟩ = .ok more := by
      rw [← hrun, hdepth, hs]
      rfl
    rw [← hplace] at hline
    refine ⟨q.position, ?_⟩
    rw [runLine_of_enters (.level hline (Nat.zero_le _) ht.keep_zero.symm rfl)]
    refine (congrArg (Except.map _) (hnext.trans hrun)).trans ?_
    simp [Except.map, hs]

end Scanner

/-- Where a text whose lines are all ended has closed its parentheses, the end of the text closes
blocks only. -/
theorem exists_reaches_of_balanced {file : String} {x : List Char} {u : List Token} {q : Position}
    (hx : AtLineStart x) (hu : tokenize file x = .ok (u ++ [.endAt q])) (hbalanced : Balanced u) :
    ∃ front last, Scanner.Reaches file x front last ∧ last.place.rest = [] ∧ last.depth = 0 ∧
      last.inLine = false ∧
      u = front ++
        List.replicate (last.levels.length - 1) (.layout .dedent last.place.position) := by
  obtain ⟨front, last, hlast, hrest, heq⟩ := reaches_of_tokenize hu
  rw [Scanner.finish, ← List.append_assoc] at heq
  obtain ⟨rfl, -⟩ := List.append_inj' heq rfl
  have hdepth : last.depth = 0 := by
    have hzero := hbalanced 0
    rwa [parensAfter_append, parensAfter_append, hlast.parens,
      parensAfter_of_layout last.isLayout_endLine,
      parensAfter_of_layout (Scanner.isLayout_of_replicate rfl _ _)] at hzero
  have hinLine := hlast.inLine_of_rest_eq_nil hx hrest hdepth
  have hend : last.endLine = [] := by
    rw [Scanner.endLine, hinLine]
    rfl
  exact ⟨front, last, hlast, hrest, hdepth, hinLine, by rw [hend, List.nil_append]⟩

/-- What comes behind a text is read as it is alone, further on, once the blocks of the text have
been closed. -/
theorem tokenize_append_of_balanced {file : String} {x y : List Char} {u tokens : List Token}
    {q : Position} (hsize : Text.byteSize x < UInt32.size) (hx : AtLineStart x)
    (hu : tokenize file x = .ok (u ++ [.endAt q])) (hbalanced : Balanced u)
    (htokens : tokenize file y = .ok tokens) (hindent : firstKind tokens .eof ≠ .indent) :
    ∃ front n p p', u = front ++ List.replicate n (.layout .dedent p) ∧ Ended u ∧
      tokenize file (x ++ y) = .ok (front ++ List.replicate n (.layout .dedent p') ++
        tokens.map (Token.map (.moveBy (Text.byteSize x)))) := by
  obtain ⟨front, last, hlast, hrest, hdepth, hinLine, rfl⟩ :=
    exists_reaches_of_balanced hx hu hbalanced
  have hplace : last.place.append y = (Place.front file y).moveBy (Text.byteSize x) := by
    obtain ⟨hfile, before, hbefore, hoffset⟩ := hlast.place
    rw [hrest, List.append_nil] at hbefore
    simp [Place.append, Place.moveBy, Place.front, hfile, hoffset, hbefore, hrest]
  have hmoved := (Scanner.start file y).runLine_moveBy (Text.byteSize x)
  rw [← tokenize_eq_runLine, htokens] at hmoved
  obtain ⟨tokens', htokens', rfl⟩ := hmoved.exists_ok
  obtain ⟨p', hnext⟩ := Scanner.runLine_of_outermost (t := last.append y)
    (s := (Scanner.start file y).moveBy (Text.byteSize x)) hplace hdepth hlast.opens.descending rfl
    htokens' (by cases tokens <;> exact hindent)
  refine ⟨front, last.levels.length - 1, last.place.position, p', rfl, ⟨?_, ?_⟩, ?_⟩
  · exact openLine_append_eq_nil ((hlast.follows hsize).ended hinLine)
      (Scanner.isLayout_of_replicate rfl _ _)
  · have hblocks := hlast.opens.blocks
    have hpos := hlast.opens.descending.length_pos
    rw [blocksOpened_append, Scanner.blocksOpened_dedents]
    omega
  · rw [hlast.tokenize_append hx, Scanner.goOn, if_pos ⟨hrest, hdepth⟩, hnext, List.append_assoc]
    rfl

end Offside
