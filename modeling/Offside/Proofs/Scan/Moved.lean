import Offside.Proofs.Alike
import Offside.Proofs.Program.Relocation
import Offside.Proofs.Scan.Layout

/-! The scanner does not depend on where its text stands. The same text further on in a source has
the same tokens, as much further on, and stops the scanner for the same cause. -/
namespace Offside

/-- The position `k` bytes further on. -/
def Position.moveBy (k : Nat) (p : Position) : Position := ⟨p.offset + k.toUInt32, p.file⟩

/-- The same token elsewhere. -/
def Token.map (h : Position → Position) (tok : Token) : Token := { tok with span := tok.span.map h }

namespace Place

/-- The place in the same text `k` bytes further on. -/
def moveBy (k : Nat) (p : Place) : Place := { p with offset := p.offset + k }

variable (k : Nat) (p : Place)

@[simp] theorem rest_moveBy : (p.moveBy k).rest = p.rest := rfl

theorem skip_moveBy (n : Nat) : (p.moveBy k).skip n = (p.skip n).moveBy k := by
  simp only [skip, moveBy, Nat.add_right_comm]

theorem position_moveBy : (p.moveBy k).position = p.position.moveBy k := by
  simp only [position, moveBy, Position.moveBy, Nat.toUInt32, UInt32.ofNat_add]

theorem span_moveBy (n : Nat) : (p.moveBy k).span n = (p.span n).map (.moveBy k) := by
  simp only [span, skip_moveBy, position_moveBy, Span.map]

theorem content_moveBy : (p.moveBy k).content = p.content.moveBy k := p.skip_moveBy k _

theorem lineStart_moveBy : (p.moveBy k).lineStart = (p.lineStart.1.moveBy k, p.lineStart.2) := by
  fun_induction Place.lineStart p with
  | case1 p hrest =>
    rw [lineStart_of_content_eq_nil (by rw [content_moveBy, rest_moveBy, hrest]), content_moveBy]
  | case2 p c rest hrest hc ih =>
    rw [lineStart_of_blank (by rw [content_moveBy, rest_moveBy, hrest]) hc, ← ih]
    exact congrArg lineStart (p.skip_moveBy k _)
  | case3 p c rest hrest hc =>
    rw [lineStart_of_content (by rw [content_moveBy, rest_moveBy, hrest]) (by simpa using hc),
      content_moveBy]
    rfl

end Place

namespace Scanner

/-- The scanner in the same text `k` bytes further on. -/
def moveBy (k : Nat) (s : Scanner) : Scanner := { s with place := s.place.moveBy k }

/-- The same tokens and the same scanner `k` bytes further on. -/
def MovedBy (k : Nat) (r r' : List Token × Scanner) : Prop :=
  r' = (r.1.map (Token.map (.moveBy k)), r.2.moveBy k)

variable (k : Nat) (s : Scanner)

@[simp] theorem place_moveBy : (s.moveBy k).place = s.place.moveBy k := rfl
@[simp] theorem levels_moveBy : (s.moveBy k).levels = s.levels := rfl
@[simp] theorem depth_moveBy : (s.moveBy k).depth = s.depth := rfl
@[simp] theorem inLine_moveBy : (s.moveBy k).inLine = s.inLine := rfl

theorem map_layout (p : Place) (kinds : List TokenKind) :
    kinds.map (Token.layout · (p.moveBy k).position) =
      (kinds.map (Token.layout · p.position)).map (Token.map (.moveBy k)) := by
  rw [p.position_moveBy, List.map_map]
  rfl

theorem enterLine_moveBy : Except.Alike (MovedBy k) (Error.MovedBy (.moveBy k)) s.enterLine
    (s.moveBy k).enterLine := by
  unfold enterLine
  rw [place_moveBy, s.place.lineStart_moveBy, levels_moveBy]
  obtain ⟨place, _ | width⟩ := s.place.lineStart
  · exact .ok rfl
  · dsimp only
    cases Indentation.enter? width s.levels with
    | none => exact .error (congrArg (Error.mk _) (place.position_moveBy k))
    | some r => exact .ok (congrArg (Prod.mk · _) (map_layout k place r.1))

theorem endLine_moveBy : (s.moveBy k).endLine = s.endLine.map (Token.map (.moveBy k)) := by
  unfold endLine
  rw [inLine_moveBy, place_moveBy, s.place.position_moveBy]
  split <;> rfl

theorem breakLine_moveBy (n : Nat) : Except.Alike (MovedBy k) (Error.MovedBy (.moveBy k))
    (s.breakLine n) ((s.moveBy k).breakLine n) := by
  unfold breakLine
  rw [depth_moveBy, place_moveBy, s.place.skip_moveBy, endLine_moveBy]
  split
  · exact .ok rfl
  · have hnext := enterLine_moveBy k { s with place := s.place.skip n }
    cases hentered : enterLine { s with place := s.place.skip n } with
    | error e =>
      rw [hentered] at hnext
      obtain ⟨e', hentered', he⟩ := hnext.exists_error
      simp only [moveBy] at hentered' ⊢
      rw [hentered']
      exact .error he
    | ok r =>
      rw [hentered] at hnext
      obtain ⟨r', hentered', rfl⟩ := hnext.exists_ok
      simp only [moveBy] at hentered' ⊢
      rw [hentered']
      exact .ok (congrArg (Prod.mk · _) List.map_append.symm)

theorem step_moveBy : Except.Alike (MovedBy k) (Error.MovedBy (.moveBy k)) s.step
    (s.moveBy k).step := by
  unfold step
  rw [place_moveBy, Place.rest_moveBy]
  cases Lexeme.first? s.place.rest with
  | none => exact .error (congrArg (Error.mk _) (s.place.position_moveBy k))
  | some l =>
    cases l with
    | lineBreak value => exact s.breakLine_moveBy k _
    | blank value =>
      simp only [s.place.skip_moveBy]
      exact .ok rfl
    | token kind value =>
      simp only [token, place_moveBy, s.place.skip_moveBy, s.place.span_moveBy]
      exact .ok rfl

theorem finish_moveBy : (s.moveBy k).finish = s.finish.map (Token.map (.moveBy k)) := by
  simp only [finish, endLine_moveBy, place_moveBy, s.place.position_moveBy, levels_moveBy,
    List.map_append, List.map_replicate]
  rfl

/-- Tokens that are the same `k` bytes further on, or errors that are. -/
abbrev RunMovedBy (k : Nat) : Except Error (List Token) → Except Error (List Token) → Prop :=
  Except.Alike (fun u u' => u' = u.map (Token.map (.moveBy k))) (Error.MovedBy (.moveBy k))

theorem RunMovedBy.append {k : Nat} {x x' : Except Error (List Token)} (h : RunMovedBy k x x')
    (more : List Token) :
    RunMovedBy k (x.map (more ++ ·)) (x'.map (more.map (Token.map (.moveBy k)) ++ ·)) :=
  h.map fun _ _ hu => by rw [hu, List.map_append]

theorem run_moveBy : RunMovedBy k s.run (s.moveBy k).run := by
  fun_induction Scanner.run s with
  | case1 s hrest =>
    rw [run_of_rest_eq_nil (s := s.moveBy k) hrest]
    exact .ok (s.finish_moveBy k)
  | case2 s hrest e hstep =>
    have hmoved := s.step_moveBy k
    rw [hstep] at hmoved
    obtain ⟨e', hstep', he⟩ := hmoved.exists_error
    rw [run_of_step_eq_error (s := s.moveBy k) hrest hstep']
    exact .error he
  | case3 s hrest more s' hstep ih =>
    have hmoved := s.step_moveBy k
    rw [hstep] at hmoved
    obtain ⟨r, hstep', rfl⟩ := hmoved.exists_ok
    rw [run_of_step (step_eq_ok_iff.1 hstep')]
    exact ih.append more

theorem runLine_moveBy : RunMovedBy k s.runLine (s.moveBy k).runLine := by
  have hmoved := s.enterLine_moveBy k
  unfold runLine
  cases hentered : s.enterLine with
  | error e =>
    rw [hentered] at hmoved
    obtain ⟨e', hentered', he⟩ := hmoved.exists_error
    rw [hentered']
    exact .error he
  | ok r =>
    rw [hentered] at hmoved
    obtain ⟨r', hentered', rfl⟩ := hmoved.exists_ok
    rw [hentered']
    exact (r.2.run_moveBy k).append r.1

end Scanner
end Offside
