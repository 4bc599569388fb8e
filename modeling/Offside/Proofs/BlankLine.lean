import Offside.Proofs.ReadAlike
import Offside.Proofs.Scan.Places
import Offside.Proofs.Scan.WhiteSpace

/-! A line of white space or comment means nothing, wherever it stands between two lines of a text,
inside of parentheses or out of them. The typed program with it is the one without it, with what
comes behind the line moved by its length. -/
namespace Offside
open Text

/-- Spaces and tabs, then nothing or a comment, then a line feed. -/
def BlankLine (line : List Char) : Prop :=
  ∃ width comment, line = width ++ (comment ++ ['\n']) ∧
    (∀ c ∈ width, Place.isIndentation c = true) ∧
    (comment = [] ∨ ∃ text, comment = '#' :: text) ∧ '\n' ∉ comment

/-- The positions from byte `n` on are moved by `k` bytes. -/
def Position.moveFrom (n k : Nat) (p : Position) : Position :=
  if n ≤ p.offset.toNat then p.moveBy k else p

namespace Place

variable {p : Place} {line rest : List Char}

theorem lineStart_of_blankLine (h : BlankLine line) (hp : p.rest = line ++ rest) :
    p.lineStart = (p.skip line.length).lineStart := by
  obtain ⟨width, comment, rfl, hwidth, hcomment, hfeed⟩ := h
  have hline : p.rest = width ++ (comment ++ '\n' :: rest) := by simpa using hp
  obtain ⟨c, more, hcons, hends, hc⟩ : ∃ c more, comment ++ '\n' :: rest = c :: more ∧
      endsContent c = true ∧ isIndentation c = false := by
    obtain rfl | ⟨text, rfl⟩ := hcomment
    · exact ⟨'\n', rest, rfl, rfl, rfl⟩
    · exact ⟨'#', text ++ '\n' :: rest, rfl, rfl, rfl⟩
  have hcontent : p.content.rest = c :: more := by
    rw [hcons] at hline
    rw [content_of_append hline hwidth hc, rest_skip_length hline]
  have hbefore : '\n' ∉ width ++ comment := by
    intro hmem
    obtain hmem | hmem := List.mem_append.1 hmem
    · cases hwidth _ hmem
    · exact hfeed hmem
  rw [← List.append_assoc] at hline
  rw [lineStart_of_blank hcontent hends, nextLine_of_append hline hbefore]
  simp only [List.length_append, List.length_singleton, Nat.add_assoc]

end Place

namespace Lexeme

variable {text rest : List Char}

theorem first?_comment (hfeed : '\n' ∉ text) :
    first? ('#' :: text ++ '\n' :: rest) = some (.blank ('#' :: text)) := by
  have hall : ∀ d ∈ text, decide (d ≠ '\n') = true := fun d hd =>
    decide_eq_true fun h => hfeed (h ▸ hd)
  calc first? ('#' :: text ++ '\n' :: rest)
      = some (.blank ('#' :: (text ++ '\n' :: rest).takeWhile (· ≠ '\n'))) := rfl
    _ = some (.blank ('#' :: text)) := by rw [takeWhile_append_cons hall rfl]

end Lexeme

namespace Scanner

variable {file : String} {source : List Char} {tokens : List Token} {s s' : Scanner} {e : Error}
  {line rest : List Char}

theorem run_of_blank {v : List Char}
    (h : v = [] ∨ Lexeme.first? s.place.rest = some (.blank v)) :
    s.run = run { s with place := s.place.skip v.length } := by
  obtain rfl | hblank := h
  · rfl
  · exact run_of_step_nil (.blank hblank)

/-- Between parentheses a blank line is passed over: white space, a comment, and its line feed. -/
theorem run_of_blankLine (h : BlankLine line) (hs : s.place.rest = line ++ rest)
    (hdepth : 0 < s.depth) : s.run = run { s with place := s.place.skip line.length } := by
  obtain ⟨width, comment, rfl, hwidth, hcomment, hfeed⟩ := h
  have hline : s.place.rest = width ++ (comment ++ ['\n'] ++ rest) := by simpa using hs
  have hafter : (s.place.skip width.length).rest = comment ++ (['\n'] ++ rest) := by
    rw [Place.rest_skip_length hline, List.append_assoc]
  have hcomments : comment = [] ∨
      Lexeme.first? (s.place.skip width.length).rest = some (.blank comment) := by
    obtain hnil | ⟨text, rfl⟩ := hcomment
    · exact .inl hnil
    · rw [hafter]
      exact .inr (Lexeme.first?_comment fun hmem => hfeed (List.mem_cons_of_mem _ hmem))
  calc s.run = run { s with place := s.place.skip width.length } :=
        run_of_isWhite hdepth hline fun c hc => isWhite_of_isIndentation (hwidth c hc)
    _ = run { s with place := (s.place.skip width.length).skip comment.length } :=
        run_of_blank (s := { s with place := s.place.skip width.length }) hcomments
    _ = run { s with place := ((s.place.skip width.length).skip comment.length).skip 1 } :=
        run_of_isWhite (s := { s with place := (s.place.skip width.length).skip comment.length })
          hdepth (Place.rest_skip_length hafter) (List.forall_mem_singleton.2 rfl)
    _ = run { s with place := s.place.skip (width ++ (comment ++ ['\n'])).length } := by
        simp only [Place.skip_skip, List.length_append, List.length_singleton, Nat.add_assoc]

/-- After a blank line the scanner goes on as it does without it. -/
theorem goOn_blankLine (h : BlankLine line) (hs : s.place.rest = []) (rest : List Char) :
    RunMovedBy (byteSize line) (s.goOn rest) (s.goOn (line ++ rest)) := by
  have hplace : (s.place.append (line ++ rest)).skip line.length =
      (s.place.append rest).moveBy (byteSize line) := by
    simp [Place.skip, Place.append, Place.moveBy, hs]
  unfold goOn
  split
  · have hline := Place.lineStart_of_blankLine (p := s.place.append (line ++ rest)) h
      (by rw [Place.rest_append, hs, List.nil_append])
    rw [hplace] at hline
    rw [runLine_congr (s := s.append (line ++ rest)) (t := (s.append rest).moveBy (byteSize line))
      hline rfl rfl]
    exact runLine_moveBy _ _
  · rename_i hopen
    have hdepth : 0 < s.depth := Nat.pos_of_ne_zero fun hzero => hopen ⟨hs, hzero⟩
    rw [run_of_blankLine (s := s.append (line ++ rest)) h
      (by rw [place_append, Place.rest_append, hs, List.nil_append]) hdepth, place_append, hplace]
    exact run_moveBy _ _

section Bounds

variable (hsize : byteSize source < UInt32.size)
include hsize

theorem stop_lt_of_layout {p : Place} (hp : p.In file source) (hrest : p.rest ≠ [])
    (k : TokenKind) (n : Nat) : ∀ tok ∈ List.replicate n (Token.layout k p.position),
      tok.span.stop.offset.toNat < byteSize source := by
  intro tok htok
  rw [List.eq_of_mem_replicate htok]
  exact (hp.isCharacter hsize hrest).offset_lt

theorem Enters.stop_lt (hs : s.place.In file source) (h : s.Enters tokens s') :
    ∀ tok ∈ tokens, tok.span.stop.offset.toNat < byteSize source := by
  have hplace := h.place_in hs
  cases h with
  | ended => exact List.forall_mem_nil _
  | wider hline =>
    exact stop_lt_of_layout hsize hplace (rest_ne_nil_of_lineStart hline) .indent 1
  | level hline =>
    exact stop_lt_of_layout hsize hplace (rest_ne_nil_of_lineStart hline) .dedent _

theorem Step.stop_lt (hs : s.place.In file source) (hlines : AtLineStart s.place.rest)
    (h : s.Step tokens s') : ∀ tok ∈ tokens, tok.span.stop.offset.toNat < byteSize source := by
  have hrest := h.rest_ne_nil
  cases h with
  | joined => exact List.forall_mem_nil _
  | broken _ _ hentered =>
    obtain ⟨n, hn⟩ := s.endLine_eq_replicate
    rw [hn]
    exact List.forall_mem_append.2
      ⟨stop_lt_of_layout hsize hs hrest .newline n, hentered.stop_lt hsize (hs.skip _)⟩
  | blank => exact List.forall_mem_nil _
  | token hl =>
    have hwithin := Place.rest_skip_ne_nil hlines hl nofun
    exact List.forall_mem_singleton.2 ((hs.skip _).isCharacter hsize hwithin).offset_lt

/-- What is read of a text whose lines are all ended ends before it does. -/
theorem Reaches.stop_lt (hx : AtLineStart source) (h : Reaches file source tokens s) :
    ∀ tok ∈ tokens, tok.span.stop.offset.toNat < byteSize source := by
  induction h with
  | start hentered => exact hentered.stop_lt hsize (Place.In.front file source)
  | step hbefore hstep ih =>
    exact List.forall_mem_append.2 ⟨ih, hstep.stop_lt hsize hbefore.place (hbefore.atLineStart hx)⟩

/-- What is still to be read stands from the place of the scanner on. -/
theorem tokensBetween_of_run (hs : s.place.In file source) (h : s.run = .ok tokens) :
    TokensBetween s.place.offset (byteSize source) tokens := by
  fun_induction Scanner.run s generalizing tokens with
  | case1 s hrest =>
    cases h
    exact tokensBetween_finish hsize hs
  | case2 s hrest e hstep => cases h
  | case3 s hrest us s' hstep ih =>
    obtain ⟨vs, hvs, rfl⟩ := Except.map_eq_ok_iff.1 h
    have hstep := step_eq_ok_iff.1 hstep
    exact (hstep.tokensBetween hsize hs).append (ih (hstep.place hs) hvs)

theorem offset_le_of_enterLine_error (hs : s.place.In file source) (h : s.enterLine = .error e) :
    s.place.offset ≤ e.position.offset.toNat := by
  obtain ⟨q, width, hline, -, rfl⟩ := enterLine_eq_error_iff.1 h
  have hle := s.place.offset_le_lineStart
  have hq := hs.lineStart
  rw [hline] at hle hq
  rwa [hq.toNat_position hsize]

theorem offset_le_of_run_error (hs : s.place.In file source) (h : s.run = .error e) :
    s.place.offset ≤ e.position.offset.toNat := by
  fun_induction Scanner.run s with
  | case1 s hrest => cases h
  | case2 s hrest e' hstep =>
    cases h
    obtain ⟨-, rfl⟩ | ⟨value, -, -, hentered⟩ := step_eq_error_iff.1 hstep
    · exact Nat.le_of_eq (hs.toNat_position hsize).symm
    · exact Nat.le_trans (s.place.offset_le_skip _)
        (offset_le_of_enterLine_error hsize (hs.skip value.length) hentered)
  | case3 s hrest us s' hstep ih =>
    have hstep := step_eq_ok_iff.1 hstep
    exact Nat.le_trans (hstep.tokensBetween hsize hs).le
      (ih (hstep.place hs) (Except.map_eq_error_iff.1 h))

theorem tokensBetween_of_runLine (hs : s.place.In file source) (h : s.runLine = .ok tokens) :
    TokensBetween s.place.offset (byteSize source) tokens := by
  obtain ⟨layout, s', more, hentered, hrun, rfl⟩ := runLine_eq_ok_iff.1 h
  have hentered := enterLine_eq_ok_iff.1 hentered
  exact (hentered.tokensBetween hsize hs).append
    (tokensBetween_of_run hsize (hentered.place_in hs) hrun)

theorem offset_le_of_runLine_error (hs : s.place.In file source) (h : s.runLine = .error e) :
    s.place.offset ≤ e.position.offset.toNat := by
  unfold runLine at h
  split at h
  · rename_i hentered
    cases h
    exact offset_le_of_enterLine_error hsize hs hentered
  · rename_i layout s' hentered
    have hentered := enterLine_eq_ok_iff.1 hentered
    exact Nat.le_trans (hentered.tokensBetween hsize hs).le
      (offset_le_of_run_error hsize (hentered.place_in hs) (Except.map_eq_error_iff.1 h))

/-- What is read of the text behind stands behind the first text. -/
theorem tokensBetween_of_goOn (hs : (s.append rest).place.In file source)
    (h : s.goOn rest = .ok tokens) : TokensBetween s.place.offset (byteSize source) tokens := by
  unfold goOn at h
  split at h
  · exact tokensBetween_of_runLine (s := s.append rest) hsize hs h
  · exact tokensBetween_of_run (s := s.append rest) hsize hs h

theorem offset_le_of_goOn_error (hs : (s.append rest).place.In file source)
    (h : s.goOn rest = .error e) : s.place.offset ≤ e.position.offset.toNat := by
  unfold goOn at h
  split at h
  · exact offset_le_of_runLine_error (s := s.append rest) hsize hs h
  · exact offset_le_of_run_error (s := s.append rest) hsize hs h

end Bounds
end Scanner

section Moved

variable {file : String} {a b line : List Char} {n k : Nat} {p : Position} {u : List Token}

theorem Position.moveFrom_of_lt (h : p.offset.toNat < n) : p.moveFrom n k = p :=
  if_neg (Nat.not_le_of_lt h)

theorem Position.moveFrom_of_le (h : n ≤ p.offset.toNat) : p.moveFrom n k = p.moveBy k := if_pos h

theorem map_moveFrom_of_lt (h : ∀ tok ∈ u, tok.span.start.offset.toNat < n ∧
    tok.span.stop.offset.toNat < n) : u.map (Token.map (.moveFrom n k)) = u := by
  refine (List.map_congr_left fun tok htok => ?_).trans (List.map_id u)
  simp only [Token.map, Span.map, Position.moveFrom_of_lt (h tok htok).1,
    Position.moveFrom_of_lt (h tok htok).2, id]

theorem map_moveFrom_of_le (h : ∀ tok ∈ u, n ≤ tok.span.start.offset.toNat ∧
    n ≤ tok.span.stop.offset.toNat) :
    u.map (Token.map (.moveFrom n k)) = u.map (Token.map (.moveBy k)) := by
  refine List.map_congr_left fun tok htok => ?_
  simp only [Token.map, Span.map, Position.moveFrom_of_le (h tok htok).1,
    Position.moveFrom_of_le (h tok htok).2]

/-- Tokens that are the same with those from byte `n` on moved, or errors that are. -/
abbrev RunMovedFrom (n k : Nat) : Except Error (List Token) → Except Error (List Token) → Prop :=
  Except.Alike (fun u u' => u' = u.map (Token.map (.moveFrom n k))) (Error.MovedBy (.moveFrom n k))

/-- What is read of a text whose lines are all ended stays where it is. -/
theorem Scanner.Reaches.map_moveFrom {s : Scanner} (hsize : byteSize a < UInt32.size)
    (ha : AtLineStart a) (h : Scanner.Reaches file a u s) :
    u.map (Token.map (.moveFrom (byteSize a) k)) = u := by
  refine map_moveFrom_of_lt fun tok htok => ?_
  have hstop := h.stop_lt hsize ha tok htok
  have hstart := ((h.tokensBetween hsize).of_mem htok).2.1
  exact ⟨Nat.lt_of_le_of_lt hstart hstop, hstop⟩

/-- At the end of a text, all that comes behind a blank line is moved. -/
theorem Scanner.goOn_moveFrom {s : Scanner} (h : BlankLine line)
    (hsize : byteSize (a ++ b) < UInt32.size) (hs : s.place.In file a) (hrest : s.place.rest = []) :
    RunMovedFrom (byteSize a) (byteSize line) (s.goOn b) (s.goOn (line ++ b)) := by
  have hoffset : s.place.offset = byteSize a := by
    obtain ⟨-, before, hbefore, hoffset⟩ := hs
    rw [hoffset, hbefore, hrest, List.append_nil]
  have hplace : (s.append b).place.In file (a ++ b) := hs.append b
  have hmoved := Scanner.goOn_blankLine h hrest b
  cases hb : s.goOn b with
  | error e =>
    rw [hb] at hmoved
    obtain ⟨e', hb', rfl⟩ := hmoved.exists_error
    have hle := Scanner.offset_le_of_goOn_error hsize hplace hb
    rw [hoffset] at hle
    rw [hb']
    exact .error (congrArg (Error.mk e.cause) (Position.moveFrom_of_le hle).symm)
  | ok u =>
    rw [hb] at hmoved
    obtain ⟨u', hb', rfl⟩ := hmoved.exists_ok
    have hbetween := Scanner.tokensBetween_of_goOn hsize hplace hb
    rw [hoffset] at hbetween
    rw [hb']
    refine .ok (map_moveFrom_of_le fun tok htok => ?_).symm
    obtain ⟨hstart, hle, -⟩ := hbetween.of_mem htok
    exact ⟨hstart, Nat.le_trans hstart hle⟩

/-- The tokens of a text with a blank line are those without it, moved. -/
theorem tokenize_blankLine (ha : AtLineStart a) (h : BlankLine line)
    (hsize : byteSize (a ++ (line ++ b)) < UInt32.size) :
    RunMovedFrom (byteSize a) (byteSize line)
      (tokenize file (a ++ b)) (tokenize file (a ++ (line ++ b))) := by
  simp only [byteSize_append] at hsize
  have hfirst : byteSize a < UInt32.size := by omega
  have hboth : byteSize (a ++ b) < UInt32.size := by
    rw [byteSize_append]
    omega
  cases htokens : tokenize file a with
  | error e =>
    rw [tokenize_append_of_error ha htokens, tokenize_append_of_error ha htokens]
    have hlt := (isCharacter_of_tokenize hfirst htokens).offset_lt
    exact .error (congrArg (Error.mk e.cause) (Position.moveFrom_of_lt hlt).symm)
  | ok tokens =>
    obtain ⟨front, last, hlast, hrest, -⟩ := reaches_of_tokenize htokens
    rw [hlast.tokenize_append ha, hlast.tokenize_append ha]
    refine (Scanner.goOn_moveFrom h hboth hlast.place hrest).map ?_
    rintro u _ rfl
    rw [List.map_append, hlast.map_moveFrom hfirst ha]

/-- Sources with the same tokens elsewhere have the same typed program elsewhere. -/
theorem typedProgramOf_moved {source source' : List Char} {f : Position → Position}
    (hsize : byteSize source < UInt32.size) (hsize' : byteSize source' < UInt32.size)
    (h : Except.Alike (fun u u' => u' = u.map (Token.map f)) (Error.MovedBy f)
      (tokenize file source) (tokenize file source')) :
    Except.Alike (fun t t' => t' = Program.moveTyped f t)
      (fun e e' => e'.cause.name = e.cause.name ∧ e'.position = f e.position)
      (typedProgramOf file source) (typedProgramOf file source') := by
  have halike : Except.Alike (List.Forall₂ (Token.SpelledAlike ⟨source, f⟩ ⟨source', id⟩))
      (Error.Alike ⟨source, f⟩ ⟨source', id⟩) (tokenize file source) (tokenize file source') := by
    refine h.mono ?_ ?_
    · rintro u _ rfl
      exact spelledAlike_map
    · rintro e _ rfl
      exact ⟨rfl, rfl⟩
  refine (typedProgramOf_alike hsize hsize' halike).mono (fun t t' ht => ?_)
    fun e e' he => ⟨he.name, he.position.symm⟩
  rw [ht, Program.moveTyped_id]

end Moved

/-- A blank line between two lines of a text, inside of parentheses or out of them, leaves its typed
program as it is, with what stands behind the line moved by its length. A text that is refused is
refused for a cause of the same name, in the place that is moved to. -/
theorem blank_line_means_nothing {file : String} {a b line : List Char} (ha : AtLineStart a)
    (h : BlankLine line) (hsize : byteSize (a ++ (line ++ b)) < UInt32.size) :
    Except.Alike (fun t t' => t' = Program.moveTyped (.moveFrom (byteSize a) (byteSize line)) t)
      (fun e e' => e'.cause.name = e.cause.name ∧
        e'.position = e.position.moveFrom (byteSize a) (byteSize line))
      (typedProgramOf file (a ++ b)) (typedProgramOf file (a ++ (line ++ b))) := by
  have hboth : byteSize (a ++ b) < UInt32.size := by
    simp only [byteSize_append] at hsize ⊢
    omega
  exact typedProgramOf_moved hboth hsize (tokenize_blankLine ha h hsize)

/-- A comment line may stand within a pair of parentheses. A refusal behind it moves with it. -/
theorem blank_line_means_nothing_within :
    let a := "x: int = 1 + (\n".toList
    let line := " \t# y = 2)\n".toList
    let b := "2)\ny: int = x\n".toList
    let refused := "2)\ny: bool = x\n".toList
    let f := Position.moveFrom (byteSize a) (byteSize line)
    (∃ t, typedProgramOf "shell" (a ++ b) = .ok t ∧ t.length = 2 ∧
      typedProgramOf "shell" (a ++ (line ++ b)) = .ok (Program.moveTyped f t)) ∧
    ∃ e e', typedProgramOf "shell" (a ++ refused) = .error e ∧
      typedProgramOf "shell" (a ++ (line ++ refused)) = .error e' ∧
      e'.cause.name = e.cause.name ∧ e'.position = f e.position := by
  intro a line b refused f
  have ha : AtLineStart a := .inr ⟨"x: int = 1 + (".toList, rfl⟩
  have hline : BlankLine line :=
    ⟨" \t".toList, "# y = 2)".toList, rfl, List.all_eq_true.1 rfl, .inr ⟨" y = 2)".toList, rfl⟩,
      by decide⟩
  obtain ⟨t, ht, hlength⟩ : ∃ t, typedProgramOf "shell" (a ++ b) = .ok t ∧
      decide (t.length = 2) = true := Except.exists_eq_ok_of (by decide +kernel)
  obtain ⟨e, he⟩ : ∃ e, typedProgramOf "shell" (a ++ refused) = .error e :=
    Except.exists_eq_error (by decide +kernel)
  have hok : Except.Alike _ _ (typedProgramOf "shell" (a ++ b)) _ :=
    blank_line_means_nothing ha hline (by decide +kernel)
  have herror : Except.Alike _ _ (typedProgramOf "shell" (a ++ refused)) _ :=
    blank_line_means_nothing ha hline (by decide +kernel)
  rw [ht] at hok
  rw [he] at herror
  obtain ⟨t', ht', rfl⟩ := hok.exists_ok
  obtain ⟨e', he', hsame⟩ := herror.exists_error
  exact ⟨⟨t, ht, of_decide_eq_true hlength, ht'⟩, e, e', he, he', hsame⟩

end Offside
