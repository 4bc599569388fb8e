import Offside.Proofs.Scan.Layout
import Offside.Proofs.Scan.Tokens

/-! Where the scanner stops and why. Text is still to come there, so the place lies before the end
of the source. -/
namespace Offside

/-- Why the scanner stops at a place. -/
inductive Place.Refused (p : Place) : Error → Prop
  | character : Refused p ⟨.unrecognisedToken (String.ofList (p.rest.take 1)), p.position⟩
  | indentation : Refused p ⟨.inconsistentIndentation, p.position⟩

namespace Scanner

variable {file : String} {source : List Char} {tokens : List Token} {s : Scanner} {e : Error}

/-- The scanner has stopped at a place of a source, before its end. -/
def Stops (file : String) (source : List Char) (e : Error) : Prop :=
  ∃ p : Place, p.In file source ∧ p.rest ≠ [] ∧ p.Refused e

theorem stops_of_enterLine (hs : s.place.In file source) (h : s.enterLine = .error e) :
    Stops file source e := by
  obtain ⟨place, width, hline, -, rfl⟩ := enterLine_eq_error_iff.1 h
  have hplace := hs.lineStart
  rw [hline] at hplace
  obtain ⟨c, rest, hrest, -⟩ := Place.atContent_of_lineStart hline
  exact ⟨place, hplace, by rw [hrest]; exact List.cons_ne_nil c rest, .indentation⟩

theorem stops_of_step (hs : s.place.In file source) (hrest : s.place.rest ≠ [])
    (h : s.step = .error e) : Stops file source e := by
  obtain ⟨-, rfl⟩ | ⟨value, -, -, hentered⟩ := step_eq_error_iff.1 h
  · exact ⟨s.place, hs, hrest, .character⟩
  · exact stops_of_enterLine (hs.skip value.length) hentered

theorem Reaches.stops (h : Reaches file source tokens s) (hrun : s.run = .error e) :
    Stops file source e := by
  fun_induction Scanner.run s generalizing tokens with
  | case1 s hrest => cases hrun
  | case2 s hrest e hstep =>
    cases hrun
    exact stops_of_step h.place hrest hstep
  | case3 s hrest us s' hstep ih =>
    exact ih (h.step (step_eq_ok_iff.1 hstep)) (Except.map_eq_error_iff.1 hrun)

end Scanner

/-- A source without tokens has a character that starts none, or a line that is as wide as none of
the lines it could continue. -/
theorem stops_of_tokenize {file : String} {source : List Char} {e : Error}
    (h : tokenize file source = .error e) : Scanner.Stops file source e := by
  unfold tokenize at h
  split at h
  · rename_i hentered
    cases h
    exact Scanner.stops_of_enterLine (Place.In.front file source) hentered
  · rename_i layout s hentered
    have hreached := Scanner.Reaches.start (Scanner.enterLine_eq_ok_iff.1 hentered)
    exact hreached.stops (Except.map_eq_error_iff.1 h)

/-- A source that starts with known tokens is refused at the first character that starts none. -/
theorem tokenize_of_lexes {text rest : List Char} {c : Char} {ss : List Spelling}
    (h : Lexes text ss (c :: rest)) (htext : Lexeme.Leading text)
    (hc : Lexeme.first? (c :: rest) = none) (file : String) :
    tokenize file (text ++ c :: rest) = .error ⟨.unrecognisedToken (String.ofList [c]),
      ⟨(Text.byteSize text).toUInt32, file⟩⟩ := by
  let start := Scanner.start file (text ++ c :: rest)
  let first : Scanner := { start with place := start.place.skip 0 }
  have hline : start.place.lineStart = (start.place.skip 0, some 0) :=
    Place.lineStart_of_leading rfl (htext.append _)
  have hentered : start.enterLine = .ok ([], first) := by
    unfold Scanner.enterLine
    rw [hline]
    rfl
  obtain ⟨tokens, last, -, hrun, hplace, -⟩ := Scanner.run_of_lexes h (s := first) rfl
  have hrest : last.place.rest = c :: rest := hplace ▸ Place.rest_skip_length rfl
  have hoffset : last.place.offset = Text.byteSize text := by
    rw [hplace, Place.offset_skip_length rfl]
    exact Nat.zero_add _
  have hstep : last.step = .error ⟨.unrecognisedToken (String.ofList [c]),
      ⟨(Text.byteSize text).toUInt32, file⟩⟩ := by
    refine Scanner.step_eq_error_iff.2 (.inl ⟨hrest ▸ hc, ?_⟩)
    rw [hrest, Place.position, hoffset, hplace]
    rfl
  have hstopped := Scanner.run_of_step_eq_error (hrest ▸ List.cons_ne_nil c rest) hstep
  rw [tokenize, hentered]
  simp only [hrun, hstopped]
  rfl

end Offside
