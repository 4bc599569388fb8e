import Offside.Proofs.Scan.Layout
import Offside.Proofs.Scan.Skipped
import Offside.Proofs.Text.Stop

/-! A text whose lines are all ended, with more text behind it. The scanner reads the first text as
it does alone, since no lexeme goes on past a line feed except white space, and goes on in the rest
from the levels and the parentheses that it has left open. -/
namespace Offside

theorem AtLineStart.of_append {u v : List Char} (h : AtLineStart (u ++ v)) : AtLineStart v := by
  obtain hnil | ⟨front, hfront⟩ := h
  · exact .inl (List.append_eq_nil_iff.1 hnil).2
  · obtain rfl | ⟨v, c, rfl⟩ := List.eq_nil_or_concat v
    · exact .inl rfl
    · rw [List.concat_eq_append, ← List.append_assoc] at hfront
      obtain ⟨-, hc⟩ := List.append_inj' hfront rfl
      exact .inr ⟨v, by rw [List.concat_eq_append, hc]⟩

theorem AtLineStart.drop {v : List Char} (h : AtLineStart v) (n : Nat) :
    AtLineStart (v.drop n) := by
  rw [← List.take_append_drop n v] at h
  exact h.of_append

theorem AtLineStart.mem {v : List Char} (h : AtLineStart v) (hv : v ≠ []) : '\n' ∈ v := by
  obtain rfl | ⟨front, rfl⟩ := h
  · exact absurd rfl hv
  · simp

/-- Text within a line is followed by the end of its line. -/
theorem AtLineStart.ne_nil {u v : List Char} (h : AtLineStart (u ++ v)) (hu : u ≠ [])
    (hfeed : '\n' ∉ u) : v ≠ [] := by
  rintro rfl
  rw [List.append_nil] at h
  exact hfeed (h.mem hu)

namespace Lexeme

variable {text v : List Char} {c : Char} {rest : List Char} {l : Lexeme}

theorem lineFeed_not_mem_of_text? {k : TokenKind} {s : String} (h : k.text? = some s) :
    '\n' ∉ s.toList := by
  cases k <;> cases h <;> decide

theorem startsWith_append (h : '\n' ∈ text) (m : List Char) (k : TokenKind) :
    startsWith (text ++ m) k = startsWith text k := by
  unfold startsWith
  split
  · rfl
  · exact isPrefixOf_append_of_mem (lineFeed_not_mem_of_text? ‹_›) h m

theorem symbol?_append (h : '\n' ∈ text) (m : List Char) : symbol? (text ++ m) = symbol? text := by
  unfold symbol?
  rw [funext (startsWith_append h m)]

theorem inLine?_append (h : '\n' ∈ rest) (m : List Char) :
    inLine? c (rest ++ m) = inLine? c rest := by
  unfold inLine?
  rw [takeWhile_append_of_mem (by rfl) h, takeWhile_append_of_mem (by rfl) h,
    takeWhile_append_of_mem (by rfl) h, takeWhile_append_of_mem (by rfl) h, ← List.cons_append,
    symbol?_append (List.mem_cons_of_mem c h)]

theorem first?_eq_inLine? (hc : c ≠ '\n') (hreturn : c = '\r' → rest.head? ≠ some '\n') :
    first? (c :: rest) = inLine? c rest := by
  unfold first?
  split
  · rename_i heq
    cases heq
  · rename_i heq
    cases heq
    exact absurd rfl hc
  · rename_i heq
    cases heq
    exact absurd rfl (hreturn rfl)
  · rename_i heq
    cases heq
    rfl

/-- A text that is not empty starts with a line break, with other white space or a comment, or with
what has to be a token. -/
theorem start_cases (c : Char) (rest : List Char) :
    c = '\n' ∨ (c = '\r' ∧ ∃ after, rest = '\n' :: after) ∨
      ((isBlank c = true ∨ c = '#') ∧ c ≠ '\n' ∧ (c = '\r' → rest.head? ≠ some '\n')) ∨
      (isBlank c = false ∧ c ≠ '#' ∧ c ≠ '\n') := by
  by_cases hfeed : c = '\n'
  · exact .inl hfeed
  by_cases hreturn : c = '\r' ∧ rest.head? = some '\n'
  · exact .inr (.inl ⟨hreturn.1, List.head?_eq_some_iff.1 hreturn.2⟩)
  by_cases hblank : isBlank c = true ∨ c = '#'
  · exact .inr (.inr (.inl ⟨hblank, hfeed, fun hr hh => hreturn ⟨hr, hh⟩⟩))
  · simp only [not_or, Bool.not_eq_true] at hblank
    exact .inr (.inr (.inr ⟨hblank.1, hblank.2, hfeed⟩))

/-- White space and comments go on up to a line feed, over carriage returns. -/
theorem exists_inLine?_blank (h : isBlank c = true ∨ c = '#') :
    ∃ p : Char → Bool, p '\n' = false ∧ p '\r' = true ∧
      ∀ rest, inLine? c rest = some (.blank (c :: rest.takeWhile p)) := by
  by_cases hblank : isBlank c = true
  · exact ⟨isBlank, rfl, rfl, fun rest => by rw [inLine?, if_pos hblank]⟩
  · have hcomment : c = '#' := h.resolve_left hblank
    exact ⟨(· ≠ '\n'), rfl, rfl, fun rest => by rw [inLine?, if_neg hblank, if_pos hcomment]⟩

/-- A lexeme ends with its line at the latest, so text behind the line does not change it. -/
theorem first?_append (h : '\n' ∈ text) (m : List Char) : first? (text ++ m) = first? text := by
  cases text with
  | nil => cases h
  | cons c rest =>
    by_cases hc : c = '\n'
    · rw [hc]
      rfl
    obtain hfeed | hrest := List.mem_cons.1 h
    · exact absurd hfeed.symm hc
    by_cases hreturn : c = '\r' ∧ rest.head? = some '\n'
    · obtain ⟨rfl, hhead⟩ := hreturn
      obtain ⟨after, rfl⟩ := List.head?_eq_some_iff.1 hhead
      rfl
    · have hhead : (rest ++ m).head? = rest.head? := by
        cases rest with
        | nil => cases hrest
        | cons d rest => rfl
      rw [List.cons_append, first?_eq_inLine? hc fun hr hh => hreturn ⟨hr, hhead ▸ hh⟩,
        first?_eq_inLine? hc fun hr hh => hreturn ⟨hr, hh⟩, inLine?_append hrest]

theorem lineFeed_not_mem_takeWhile {p : Char → Bool} (hp : p '\n' = false) (rest : List Char) :
    '\n' ∉ rest.takeWhile p := by
  intro hmem
  have hall := List.all_eq_true.1 (List.all_takeWhile (p := p) (l := rest)) _ hmem
  rw [hp] at hall
  cases hall

theorem lineFeed_not_mem_of_inLine? (hc : c ≠ '\n') (h : inLine? c rest = some l) :
    '\n' ∉ l.value := by
  have hcons : ∀ {p : Char → Bool}, p '\n' = false → '\n' ∉ c :: rest.takeWhile p := fun hp =>
    List.not_mem_cons_of_ne_of_not_mem hc.symm (lineFeed_not_mem_takeWhile hp rest)
  unfold inLine? at h
  repeat' split at h
  · cases h
    exact hcons rfl
  · cases h
    exact hcons rfl
  · cases h
    exact hcons rfl
  · cases h
    exact hcons rfl
  · obtain ⟨k, -, s, hs, rfl⟩ := symbol?_eq_some h
    exact lineFeed_not_mem_of_text? hs

/-- Only line breaks have a line feed. -/
theorem lineFeed_not_mem (h : first? text = some l) (hl : ∀ v, l ≠ .lineBreak v) :
    '\n' ∉ l.value := by
  unfold first? at h
  split at h
  · cases h
  · cases h
    exact absurd rfl (hl _)
  · cases h
    exact absurd rfl (hl _)
  · rename_i hfeed _
    exact lineFeed_not_mem_of_inLine? hfeed h

theorem length_value_le (h : first? text = some l) : l.value.length ≤ text.length :=
  (value_prefix_of_first? h).length_le

end Lexeme

namespace Place

variable {p q : Place} {c : Char} {rest y : List Char}

/-- The place with more text behind what is to come. -/
def append (p : Place) (y : List Char) : Place := { p with rest := p.rest ++ y }

@[simp] theorem rest_append (p : Place) (y : List Char) : (p.append y).rest = p.rest ++ y := rfl

@[simp] theorem position_append (p : Place) (y : List Char) :
    (p.append y).position = p.position := rfl

theorem In.append {file : String} {x : List Char} (h : p.In file x) (y : List Char) :
    (p.append y).In file (x ++ y) := by
  obtain ⟨hfile, before, rfl, hoffset⟩ := h
  exact ⟨hfile, before, List.append_assoc _ _ _, hoffset⟩

theorem skip_append {n : Nat} (h : n ≤ p.rest.length) (y : List Char) :
    (p.append y).skip n = (p.skip n).append y := by
  simp only [skip, append, List.take_append_of_le_length h, List.drop_append_of_le_length h]

theorem span_append {n : Nat} (h : n ≤ p.rest.length) (y : List Char) :
    (p.append y).span n = p.span n := by
  rw [span, skip_append h]
  rfl

theorem not_isIndentation_of_content (h : p.content.rest = c :: rest) :
    isIndentation c = false := by
  have hhead := List.head?_dropWhile_not isIndentation p.rest
  rw [← rest_content, h] at hhead
  exact hhead

theorem content_of_append {v : List Char} (hp : p.rest = v ++ c :: rest)
    (hv : ∀ d ∈ v, isIndentation d = true) (hc : isIndentation c = false) :
    p.content = p.skip v.length := by
  rw [content, indentation, hp, takeWhile_append_cons hv hc]

theorem nextLine_of_append {v : List Char} (hp : p.rest = v ++ '\n' :: rest)
    (hv : '\n' ∉ v) : p.nextLine = p.skip (v.length + 1) := by
  have hall : ∀ d ∈ v, decide (d ≠ '\n') = true := fun d hd =>
    decide_eq_true fun hfeed => hv (hfeed ▸ hd)
  rw [nextLine, hp, takeWhile_append_cons hall rfl]

theorem indentation_append (h : p.content.rest = c :: rest) (y : List Char) :
    (p.append y).indentation = p.indentation := by
  have hmem : c ∈ p.rest := by
    rw [p.rest_eq_takeWhile_append_content, h]
    simp
  rw [indentation, rest_append, takeWhile_append_of_mem (not_isIndentation_of_content h) hmem]
  rfl

theorem content_append (h : p.content.rest = c :: rest) (y : List Char) :
    (p.append y).content = p.content.append y := by
  have hle : p.indentation ≤ p.rest.length := (List.takeWhile_prefix _).length_le
  rw [content, indentation_append h, skip_append hle]
  rfl

theorem nextLine_append (h : '\n' ∈ p.rest) (y : List Char) :
    (p.append y).nextLine = p.nextLine.append y := by
  obtain ⟨hrest, -⟩ | ⟨w, hrest, -⟩ := p.nextLine_cases
  · rw [hrest] at h
    exact absurd h (Lexeme.not_mem_takeWhile_ne _)
  · have hle : (p.rest.takeWhile (· ≠ '\n')).length + 1 ≤ p.rest.length := by
      have hlength := congrArg List.length hrest
      simp only [List.length_append, List.length_singleton] at hlength
      omega
    rw [nextLine, rest_append, takeWhile_append_of_mem (by rfl) h, skip_append hle]
    rfl

theorem content_of_rest_eq_nil (h : p.rest = []) : p.content = p := by
  obtain ⟨file, offset, rest⟩ := p
  cases h
  rfl

theorem first?_append (hp : AtLineStart p.rest) {l : Lexeme} (h : Lexeme.first? p.rest = some l)
    (y : List Char) : Lexeme.first? (p.append y).rest = some l := by
  have hne : p.rest ≠ [] := by
    intro hnil
    rw [hnil] at h
    cases h
  rw [rest_append, Lexeme.first?_append (hp.mem hne), h]

/-- After a lexeme other than a line break, the end of its line is still to come. -/
theorem rest_skip_ne_nil (hp : AtLineStart p.rest) {l : Lexeme}
    (h : Lexeme.first? p.rest = some l) (hl : ∀ v, l ≠ .lineBreak v) :
    (p.skip l.value.length).rest ≠ [] := by
  obtain ⟨after, hafter⟩ := Lexeme.value_prefix_of_first? h
  rw [← hafter] at hp
  rw [rest_skip_length hafter.symm]
  exact hp.ne_nil (Lexeme.value_ne_nil_of_first? h) (Lexeme.lineFeed_not_mem h hl)

/-- Blank lines are passed alike with more text behind them, and those at its front too. -/
theorem lineStart_append (hp : AtLineStart p.rest) (y : List Char) : (p.append y).lineStart =
    p.lineStart.2.elim (p.lineStart.1.append y).lineStart
      (fun width => (p.lineStart.1.append y, some width)) := by
  fun_induction Place.lineStart p with
  | case1 p hrest =>
    have hnil : p.rest = [] := by
      refine Classical.byContradiction fun hne => ?_
      have hsplit := p.rest_eq_takeWhile_append_content
      rw [hrest, List.append_nil] at hsplit
      have hfeed := hp.mem hne
      rw [hsplit] at hfeed
      exact Lexeme.lineFeed_not_mem_takeWhile rfl _ hfeed
    rw [content_of_rest_eq_nil hnil]
    rfl
  | case2 p c rest hrest hc ih =>
    have hne : p.rest ≠ [] := by
      intro hnil
      rw [content_of_rest_eq_nil hnil, hnil] at hrest
      cases hrest
    have hcontent : (p.append y).content.rest = c :: (rest ++ y) := by
      rw [content_append hrest, rest_append, hrest, List.cons_append]
    rw [lineStart_of_blank hcontent hc, nextLine_append (hp.mem hne), ih (hp.drop _)]
  | case3 p c rest hrest hc =>
    have hcontent : (p.append y).content.rest = c :: (rest ++ y) := by
      rw [content_append hrest, rest_append, hrest, List.cons_append]
    rw [lineStart_of_content hcontent (by simpa using hc), content_append hrest,
      indentation_append hrest]
    rfl

end Place

namespace Scanner

variable {file : String} {x y : List Char} {tokens layout more : List Token} {s s' : Scanner}
  {e : Error}

/-- The scanner with more text behind what is to come. -/
def append (s : Scanner) (y : List Char) : Scanner := { s with place := s.place.append y }

@[simp] theorem place_append (s : Scanner) (y : List Char) :
    (s.append y).place = s.place.append y := rfl

/-- How the scanner goes on in the text behind. At the end of a line outside of parentheses it has
the next line to enter. -/
def goOn (s : Scanner) (y : List Char) : Except Error (List Token) :=
  if s.place.rest = [] ∧ s.depth = 0 then (s.append y).runLine else (s.append y).run

theorem goOn_of_rest_ne_nil (h : s.place.rest ≠ []) (y : List Char) :
    s.goOn y = (s.append y).run := if_neg fun hs => h hs.1

theorem goOn_of_depth_pos (h : 0 < s.depth) (y : List Char) : s.goOn y = (s.append y).run :=
  if_neg fun hs => by omega

/-- Entering a line depends on the lines ahead, the open blocks and the open parentheses. -/
theorem enterLine_congr {t : Scanner} (hline : s.place.lineStart = t.place.lineStart)
    (hlevels : s.levels = t.levels) (hdepth : s.depth = t.depth) : s.enterLine = t.enterLine := by
  simp only [enterLine, hline, hlevels, hdepth]

theorem runLine_congr {t : Scanner} (hline : s.place.lineStart = t.place.lineStart)
    (hlevels : s.levels = t.levels) (hdepth : s.depth = t.depth) : s.runLine = t.runLine := by
  rw [runLine, runLine, enterLine_congr hline hlevels hdepth]

theorem runLine_of_enters (h : s.Enters layout s') : s.runLine = s'.run.map (layout ++ ·) := by
  rw [runLine, enterLine_eq_ok_iff.2 h]

/-- The tokens of a source are those that are read up to a state and those that are read from it. -/
theorem Reaches.tokenize_eq (h : Reaches file x tokens s) :
    tokenize file x = s.run.map (tokens ++ ·) := by
  induction h with
  | start hentered => exact runLine_of_enters hentered
  | step hbefore hstep ih =>
    rw [ih, run_of_step hstep, Except.map_map]
    simp only [List.append_assoc]

theorem rest_ne_nil_of_lineStart {p q : Place} {width : Nat} (h : p.lineStart = (q, some width)) :
    q.rest ≠ [] := by
  obtain ⟨c, rest, hrest, -⟩ := Place.atContent_of_lineStart h
  rw [hrest]
  exact List.cons_ne_nil c rest

/-- A line of the first text is entered in the same way, and its end is passed on. -/
theorem Enters.runLine_append (hs : AtLineStart s.place.rest) (hdepth : s.depth = 0)
    (h : s.Enters layout s') (y : List Char) :
    (s.append y).runLine = (s'.goOn y).map (layout ++ ·) := by
  have hline := Place.lineStart_append hs y
  cases h with
  | @ended q hstart =>
    rw [hstart] at hline
    rw [goOn, if_pos ⟨Place.rest_eq_nil_of_lineStart hstart, hdepth⟩]
    rw [runLine_congr (s := s.append y) (t := append { s with place := q, inLine := false } y)
      hline rfl rfl]
    cases runLine _ <;> rfl
  | wider hstart hwider =>
    rw [hstart] at hline
    rw [goOn_of_rest_ne_nil (rest_ne_nil_of_lineStart hstart),
      runLine_of_enters (.wider (s := s.append y) hline hwider)]
    rfl
  | level hstart hle hkept hwidth =>
    rw [hstart] at hline
    rw [goOn_of_rest_ne_nil (rest_ne_nil_of_lineStart hstart),
      runLine_of_enters (.level (s := s.append y) hline hle hkept hwidth)]
    rfl

/-- A step in the first text is the same with more text behind it. -/
theorem Step.run_append (hs : AtLineStart s.place.rest) (h : s.Step more s') (y : List Char) :
    (s.append y).run = (s'.goOn y).map (more ++ ·) := by
  cases h with
  | @joined value hl hdepth =>
    have hle : value.length ≤ s.place.rest.length := Lexeme.length_value_le hl
    have hstep := Step.joined (s := s.append y) (Place.first?_append hs hl y) hdepth
    rw [place_append, Place.skip_append hle] at hstep
    have hgoOn := goOn_of_depth_pos (s := { s with place := s.place.skip value.length }) hdepth y
    rw [hgoOn, run_of_step hstep]
    rfl
  | @broken value layout _ hl hdepth hentered =>
    have hle : value.length ≤ s.place.rest.length := Lexeme.length_value_le hl
    have hnext := Enters.runLine_append (s := { s with place := s.place.skip value.length })
      (hs.drop value.length) hdepth hentered y
    rw [run_of_lineBreak (s := s.append y) (Place.first?_append hs hl y) hdepth, place_append,
      Place.skip_append hle]
    refine (congrArg (Except.map (s.endLine ++ ·)) hnext).trans ?_
    simp only [Except.map_map, List.append_assoc]
  | @blank value hl =>
    have hle : value.length ≤ s.place.rest.length := Lexeme.length_value_le hl
    have hstep := Step.blank (s := s.append y) (Place.first?_append hs hl y)
    rw [place_append, Place.skip_append hle] at hstep
    rw [goOn_of_rest_ne_nil (Place.rest_skip_ne_nil hs hl nofun), run_of_step hstep]
    rfl
  | @token kind value hl =>
    have hle : value.length ≤ s.place.rest.length := Lexeme.length_value_le hl
    have hstep := Step.token (s := s.append y) (Place.first?_append hs hl y)
    rw [place_append, Place.skip_append hle, Place.span_append hle] at hstep
    rw [goOn_of_rest_ne_nil (Place.rest_skip_ne_nil hs hl nofun), run_of_step hstep]
    rfl

theorem Reaches.atLineStart (hx : AtLineStart x) (h : Reaches file x tokens s) :
    AtLineStart s.place.rest := by
  obtain ⟨-, before, hbefore, -⟩ := h.place
  rw [hbefore] at hx
  exact hx.of_append

/-- What has been read of the first text is read in the same way with more text behind it. -/
theorem Reaches.tokenize_append (hx : AtLineStart x) (h : Reaches file x tokens s)
    (y : List Char) : tokenize file (x ++ y) = (s.goOn y).map (tokens ++ ·) := by
  induction h with
  | start hentered => exact hentered.runLine_append hx rfl y
  | @step tokens more s s' hbefore hstep ih =>
    rw [ih, goOn_of_rest_ne_nil hstep.rest_ne_nil, hstep.run_append (hbefore.atLineStart hx),
      Except.map_map]
    simp only [List.append_assoc]

theorem enterLine_append_of_error (hs : AtLineStart s.place.rest) (h : s.enterLine = .error e)
    (y : List Char) : (s.append y).enterLine = .error e := by
  obtain ⟨q, width, hstart, hnone, rfl⟩ := enterLine_eq_error_iff.1 h
  have hline := Place.lineStart_append hs y
  rw [hstart] at hline
  exact enterLine_eq_error_iff.2 ⟨q.append y, width, hline, hnone, rfl⟩

theorem step_append_of_error (hs : AtLineStart s.place.rest) (hrest : s.place.rest ≠ [])
    (h : s.step = .error e) (y : List Char) : (s.append y).step = .error e := by
  obtain ⟨hnone, rfl⟩ | ⟨value, hl, hdepth, hentered⟩ := step_eq_error_iff.1 h
  · refine step_eq_error_iff.2 (.inl ⟨(Lexeme.first?_append (hs.mem hrest) y).trans hnone, ?_⟩)
    obtain ⟨c, rest, hcons⟩ := List.exists_cons_of_ne_nil hrest
    rw [place_append, Place.rest_append, hcons]
    rfl
  · have hle : value.length ≤ s.place.rest.length := Lexeme.length_value_le hl
    have hnext := enterLine_append_of_error (s := { s with place := s.place.skip value.length })
      (hs.drop value.length) hentered y
    refine step_eq_error_iff.2 (.inr ⟨value, Place.first?_append hs hl y, hdepth, ?_⟩)
    rw [place_append, Place.skip_append hle]
    exact hnext

/-- A run that fails has stopped at a step. -/
theorem Reaches.exists_error (h : Reaches file x tokens s) (hrun : s.run = .error e) :
    ∃ front last, Reaches file x front last ∧ last.place.rest ≠ [] ∧ last.step = .error e := by
  fun_induction Scanner.run s generalizing tokens with
  | case1 s hrest => cases hrun
  | case2 s hrest e' hstep =>
    cases hrun
    exact ⟨tokens, s, h, hrest, hstep⟩
  | case3 s hrest us s' hstep ih =>
    exact ih (h.step (step_eq_ok_iff.1 hstep)) (Except.map_eq_error_iff.1 hrun)

end Scanner

/-- A text without tokens has none with more text behind it either, for the same error. -/
theorem tokenize_append_of_error {file : String} {x : List Char} {e : Error} (hx : AtLineStart x)
    (h : tokenize file x = .error e) (y : List Char) : tokenize file (x ++ y) = .error e := by
  cases hentered : (Scanner.start file x).enterLine with
  | error e' =>
    rw [tokenize, hentered] at h
    cases h
    rw [tokenize]
    rw [show Scanner.start file (x ++ y) = (Scanner.start file x).append y from rfl,
      Scanner.enterLine_append_of_error hx hentered]
  | ok r =>
    have hreached := Scanner.Reaches.start (Scanner.enterLine_eq_ok_iff.1 hentered)
    rw [tokenize, hentered] at h
    obtain ⟨front, last, hlast, hrest, hstep⟩ :=
      hreached.exists_error (Except.map_eq_error_iff.1 h)
    have hfail := Scanner.step_append_of_error (hlast.atLineStart hx) hrest hstep y
    rw [hlast.tokenize_append hx, Scanner.goOn_of_rest_ne_nil hrest,
      Scanner.run_of_step_eq_error (by simp [hrest]) hfail]
    rfl

end Offside
