import Offside.Proofs.ReadAlike
import Offside.Proofs.Scan.Layout
import Offside.Proofs.Scan.Seam

/-! A carriage return before every line feed means nothing. It is a part of the line break, or of
the white space or the comment before it, or of a blank line that is passed over; so the scanner is
at the same line breaks and the same tokens in both texts. -/
namespace Offside

namespace Text

/-- The text with a carriage return before every line feed. -/
def crlf (text : List Char) : List Char :=
  text.flatMap fun c => if c = '\n' then ['\r', '\n'] else [c]

variable {text v : List Char} {c : Char} {p : Char → Bool}

@[simp] theorem crlf_nil : crlf [] = [] := rfl

@[simp] theorem crlf_lineFeed (text : List Char) :
    crlf ('\n' :: text) = '\r' :: '\n' :: crlf text := rfl

theorem crlf_cons (hc : c ≠ '\n') (text : List Char) : crlf (c :: text) = c :: crlf text := by
  simp [crlf, hc]

theorem crlf_append (v w : List Char) : crlf (v ++ w) = crlf v ++ crlf w := List.flatMap_append

theorem crlf_eq_self (h : '\n' ∉ v) : crlf v = v := by
  induction v with
  | nil => rfl
  | cons c v ih =>
    obtain ⟨hc, hv⟩ := List.ne_and_not_mem_of_not_mem_cons h
    rw [crlf_cons (Ne.symm hc), ih hv]

theorem byteSize_le_crlf (text : List Char) : byteSize text ≤ byteSize (crlf text) := by
  induction text with
  | nil => exact Nat.le_refl 0
  | cons c text ih =>
    by_cases hc : c = '\n'
    · rw [hc, crlf_lineFeed, byteSize_cons, byteSize_cons, byteSize_cons]
      omega
    · rw [crlf_cons hc, byteSize_cons, byteSize_cons]
      omega

/-- A scan that stops at both characters of a line ending reads the same. -/
theorem takeWhile_crlf (hfeed : p '\n' = false) (hreturn : p '\r' = false) :
    (crlf text).takeWhile p = text.takeWhile p := by
  induction text with
  | nil => rfl
  | cons c text ih =>
    by_cases hc : c = '\n'
    · rw [hc, crlf_lineFeed]
      simp [hfeed, hreturn]
    · simp only [crlf_cons hc, List.takeWhile_cons, ih]

theorem dropWhile_crlf (hfeed : p '\n' = false) (hreturn : p '\r' = false) :
    (crlf text).dropWhile p = crlf (text.dropWhile p) := by
  induction text with
  | nil => rfl
  | cons c text ih =>
    by_cases hc : c = '\n'
    · rw [hc, crlf_lineFeed]
      simp [hfeed, hreturn]
    · simp only [crlf_cons hc, List.dropWhile_cons, ih]
      split
      · rfl
      · rw [crlf_cons hc]

/-- A scan that stops at line feeds only has read the carriage return when it does. -/
theorem dropWhile_crlf_cases (hfeed : p '\n' = false) (hreturn : p '\r' = true)
    (text : List Char) :
    (∃ rest, text.dropWhile p = '\n' :: rest ∧ (crlf text).dropWhile p = '\n' :: crlf rest) ∨
      (crlf text).dropWhile p = crlf (text.dropWhile p) := by
  induction text with
  | nil => exact .inr rfl
  | cons c text ih =>
    by_cases hc : c = '\n'
    · rw [hc, crlf_lineFeed]
      exact .inl ⟨text, by simp [hfeed], by simp [hfeed, hreturn]⟩
    · rw [crlf_cons hc, List.dropWhile_cons, List.dropWhile_cons]
      split
      · exact ih
      · exact .inr (crlf_cons hc text).symm

/-- The lines after the first are the same apart from their endings. -/
theorem drop_line_crlf (text : List Char) :
    (crlf text).drop (((crlf text).takeWhile (· ≠ '\n')).length + 1) =
      crlf (text.drop ((text.takeWhile (· ≠ '\n')).length + 1)) := by
  induction text with
  | nil => rfl
  | cons c text ih =>
    by_cases hc : c = '\n'
    · rw [hc]
      rfl
    · simpa [crlf_cons hc, hc] using ih

theorem isPrefixOf_crlf {s : List Char} (hfeed : '\n' ∉ s) (hreturn : '\r' ∉ s)
    (text : List Char) : s.isPrefixOf (crlf text) = s.isPrefixOf text := by
  induction s generalizing text with
  | nil => rfl
  | cons d s ih =>
    obtain ⟨hd, hs⟩ := List.ne_and_not_mem_of_not_mem_cons hfeed
    obtain ⟨hd', hs'⟩ := List.ne_and_not_mem_of_not_mem_cons hreturn
    cases text with
    | nil => rfl
    | cons c text =>
      by_cases hc : c = '\n'
      · have hne : (d == '\r') = false := beq_eq_false_iff_ne.2 (Ne.symm hd')
        have hne' : (d == '\n') = false := beq_eq_false_iff_ne.2 (Ne.symm hd)
        rw [hc, crlf_lineFeed, List.isPrefixOf, List.isPrefixOf, hne, hne']
        rfl
      · rw [crlf_cons hc, List.isPrefixOf, List.isPrefixOf, ih hs hs']

end Text

open Text

namespace Lexeme

variable {text v rest : List Char} {c : Char} {l : Lexeme}

theorem return_not_mem_of_text? {k : TokenKind} {s : String} (h : k.text? = some s) :
    '\r' ∉ s.toList := by
  cases k <;> cases h <;> decide

theorem symbol?_crlf (text : List Char) : symbol? (crlf text) = symbol? text := by
  have hstarts : ∀ k, startsWith (crlf text) k = startsWith text k := by
    intro k
    unfold startsWith
    split
    · rfl
    · exact isPrefixOf_crlf (lineFeed_not_mem_of_text? ‹_›) (return_not_mem_of_text? ‹_›) text
  unfold symbol?
  rw [funext hstarts]

theorem head?_crlf_ne (text : List Char) : (crlf text).head? ≠ some '\n' := by
  cases text with
  | nil => nofun
  | cons c text =>
    by_cases hc : c = '\n'
    · rw [hc, crlf_lineFeed, List.head?_cons]
      decide
    · rw [crlf_cons hc, List.head?_cons]
      exact fun h => hc (Option.some.inj h)

theorem first?_crlf_cons (hc : c ≠ '\n') (text : List Char) :
    first? (crlf (c :: text)) = inLine? c (crlf text) := by
  rw [crlf_cons hc, first?_eq_inLine? hc fun _ => head?_crlf_ne text]

/-- Tokens are the same before either line ending. -/
theorem inLine?_crlf (hc : c ≠ '\n') (hblank : isBlank c = false) (hcomment : c ≠ '#') :
    inLine? c (crlf text) = inLine? c text := by
  unfold inLine?
  rw [takeWhile_crlf (p := isWordPart) rfl rfl, takeWhile_crlf (p := Char.isDigit) rfl rfl,
    ← crlf_cons hc, symbol?_crlf]
  simp only [hblank, hcomment, Bool.false_eq_true, if_false]

end Lexeme

namespace Place

variable {p q : Place}

/-- The next line with content has the same width and the same content. -/
theorem lineStart_crlf (h : q.rest = crlf p.rest) :
    q.lineStart.2 = p.lineStart.2 ∧ q.lineStart.1.rest = crlf p.lineStart.1.rest := by
  fun_induction Place.lineStart p generalizing q with
  | case1 p hrest =>
    have hcontent : q.content.rest = [] := by
      rw [rest_content, h, dropWhile_crlf rfl rfl, ← rest_content, hrest, crlf_nil]
    rw [lineStart_of_content_eq_nil hcontent, hcontent, hrest]
    exact ⟨rfl, rfl⟩
  | case2 p c rest hrest hc ih =>
    have hcontent : q.content.rest = crlf (c :: rest) := by
      rw [rest_content, h, dropWhile_crlf rfl rfl, ← rest_content, hrest]
    obtain ⟨d, more, hcons, hd⟩ : ∃ d more, q.content.rest = d :: more ∧ endsContent d = true := by
      rw [hcontent]
      by_cases hfeed : c = '\n'
      · rw [hfeed]
        exact ⟨_, _, rfl, rfl⟩
      · exact ⟨_, _, crlf_cons hfeed rest, hc⟩
    rw [lineStart_of_blank hcons hd]
    refine ih ?_
    rw [nextLine, rest_skip, nextLine, rest_skip, h, drop_line_crlf]
  | case3 p c rest hrest hc =>
    have hends : endsContent c = false := by simpa using hc
    have hfeed : c ≠ '\n' := by
      rintro rfl
      cases hends
    have hcontent : q.content.rest = c :: crlf rest := by
      rw [rest_content, h, dropWhile_crlf rfl rfl, ← rest_content, hrest, crlf_cons hfeed]
    rw [lineStart_of_content hcontent hends, hcontent, hrest, crlf_cons hfeed, indentation, h,
      takeWhile_crlf rfl rfl]
    exact ⟨rfl, rfl⟩

end Place

namespace Scanner

variable {s t : Scanner} {v w : List Char}

/-- Scanners in one state, apart from their places. -/
structure Agrees (s t : Scanner) : Prop where
  levels : t.levels = s.levels
  depth : t.depth = s.depth
  inLine : t.inLine = s.inLine

/-- Tokens of the same spellings, or errors of the same cause. -/
abbrev RunAlike : Except Error (List Token) → Except Error (List Token) → Prop :=
  Except.Alike (fun u u' => u'.map Token.spelling = u.map Token.spelling)
    (fun e e' => e'.cause = e.cause)

theorem RunAlike.append {x x' : Except Error (List Token)} (h : RunAlike x x')
    {u u' : List Token} (hu : u'.map Token.spelling = u.map Token.spelling) :
    RunAlike (x.map (u ++ ·)) (x'.map (u' ++ ·)) :=
  h.map fun _ _ hmore => by rw [List.map_append, List.map_append, hu, hmore]

theorem Agrees.endLine (h : s.Agrees t) :
    t.endLine.map Token.spelling = s.endLine.map Token.spelling := by
  unfold Scanner.endLine
  rw [h.inLine]
  split <;> rfl

theorem Agrees.finish (h : s.Agrees t) :
    t.finish.map Token.spelling = s.finish.map Token.spelling := by
  simp only [Scanner.finish, List.map_append, h.endLine, h.levels, List.map_replicate]
  rfl

/-- Entering a line emits the same layout. -/
theorem Agrees.enterLine (h : s.Agrees t) (hrest : t.place.rest = crlf s.place.rest) :
    Except.Alike (fun r r' => r'.1.map Token.spelling = r.1.map Token.spelling ∧ r.2.Agrees r'.2 ∧
      r'.2.place.rest = crlf r.2.place.rest) (fun e e' => e'.cause = e.cause)
      s.enterLine t.enterLine := by
  obtain ⟨hwidth, hplace⟩ := Place.lineStart_crlf hrest
  unfold Scanner.enterLine
  rw [h.levels, h.depth]
  generalize s.place.lineStart = line, t.place.lineStart = line' at hwidth hplace
  obtain ⟨p, width⟩ := line
  obtain ⟨q, width'⟩ := line'
  dsimp only at hwidth hplace
  subst hwidth
  cases width' with
  | none => exact .ok ⟨rfl, ⟨rfl, rfl, rfl⟩, hplace⟩
  | some width =>
    dsimp only
    cases Indentation.enter? width s.levels with
    | none => exact .error rfl
    | some r => exact .ok ⟨by simp only [List.map_map]; rfl, ⟨rfl, rfl, rfl⟩, hplace⟩

/-- Whether shorter texts have the same tokens with either line ending. -/
def AlikeBelow (n : Nat) : Prop :=
  ∀ s t : Scanner, s.place.rest.length < n → s.Agrees t → t.place.rest = crlf s.place.rest →
    RunAlike s.run t.run

theorem AlikeBelow.mono {m n : Nat} (h : AlikeBelow n) (hle : m ≤ n) : AlikeBelow m :=
  fun s t hlt => h s t (Nat.lt_of_lt_of_le hlt hle)

theorem Agrees.runLine (h : s.Agrees t) (ih : AlikeBelow (s.place.rest.length + 1))
    (hrest : t.place.rest = crlf s.place.rest) : RunAlike s.runLine t.runLine := by
  have hentered := h.enterLine hrest
  unfold Scanner.runLine
  cases hline : s.enterLine with
  | error e =>
    rw [hline] at hentered
    obtain ⟨e', hline', he⟩ := hentered.exists_error
    rw [hline']
    exact .error he
  | ok r =>
    rw [hline] at hentered
    obtain ⟨r', hline', hlayout, hagrees, hafter⟩ := hentered.exists_ok
    rw [hline']
    exact (ih _ _ (Nat.lt_succ_of_le (length_le_of_enterLine hline)) hagrees hafter).append hlayout

/-- Line breaks are alike before texts that are the same apart from their line endings. -/
theorem Agrees.run_lineBreak (h : s.Agrees t) (ih : AlikeBelow s.place.rest.length)
    (hs : Lexeme.first? s.place.rest = some (.lineBreak v))
    (ht : Lexeme.first? t.place.rest = some (.lineBreak w))
    (hrest : (t.place.skip w.length).rest = crlf (s.place.skip v.length).rest) :
    RunAlike s.run t.run := by
  have hlt : (s.place.skip v.length).rest.length < s.place.rest.length := by
    refine s.place.length_rest_skip_lt (List.length_pos_iff.2 (Lexeme.value_ne_nil_of_first? hs)) ?_
    intro hnil
    rw [hnil] at hs
    cases hs
  by_cases hdepth : 0 < s.depth
  · rw [run_of_step_nil (.joined hs hdepth), run_of_step_nil (.joined ht (h.depth ▸ hdepth))]
    exact ih _ _ hlt ⟨h.levels, h.depth, h.inLine⟩ hrest
  · have hclosed : s.depth = 0 := by omega
    rw [run_of_lineBreak hs hclosed, run_of_lineBreak ht (h.depth.trans hclosed)]
    refine RunAlike.append ?_ h.endLine
    exact Agrees.runLine (s := { s with place := s.place.skip v.length })
      (t := { t with place := t.place.skip w.length }) ⟨h.levels, h.depth, h.inLine⟩
      (ih.mono hlt) hrest

/-- White space and comments are alike, and leave a carriage return behind in neither text. -/
theorem Agrees.run_blank {c : Char} {text : List Char} (h : s.Agrees t)
    (ih : AlikeBelow s.place.rest.length) (hs : s.place.rest = c :: text)
    (ht : t.place.rest = crlf (c :: text)) (hc : c ≠ '\n')
    (hreturn : c = '\r' → text.head? ≠ some '\n')
    (hblank : Lexeme.isBlank c = true ∨ c = '#') : RunAlike s.run t.run := by
  obtain ⟨p, hfeed, hreturns, hp⟩ := Lexeme.exists_inLine?_blank hblank
  have hfirst : Lexeme.first? s.place.rest = some (.blank (c :: text.takeWhile p)) := by
    rw [hs, Lexeme.first?_eq_inLine? hc hreturn, hp]
  have hfirst' : Lexeme.first? t.place.rest = some (.blank (c :: (crlf text).takeWhile p)) := by
    rw [ht, Lexeme.first?_crlf_cons hc, hp]
  have hafter : (s.place.skip (c :: text.takeWhile p).length).rest = text.dropWhile p := by
    refine Place.rest_skip_length ?_
    rw [hs, List.cons_append, List.takeWhile_append_dropWhile]
  have hafter' : (t.place.skip (c :: (crlf text).takeWhile p).length).rest =
      (crlf text).dropWhile p := by
    refine Place.rest_skip_length ?_
    rw [ht, crlf_cons hc, List.cons_append, List.takeWhile_append_dropWhile]
  have hlt : (text.dropWhile p).length < s.place.rest.length := by
    rw [hs, List.length_cons]
    exact Nat.lt_succ_of_le (List.dropWhile_suffix p).length_le
  rw [run_of_step_nil (.blank hfirst), run_of_step_nil (.blank hfirst')]
  obtain ⟨rest, hrest, hrest'⟩ | hrest := dropWhile_crlf_cases hfeed hreturns text
  · rw [hrest] at hafter hlt
    rw [hrest'] at hafter'
    refine Agrees.run_lineBreak (v := ['\n']) (w := ['\n']) ⟨h.levels, h.depth, h.inLine⟩
      (ih.mono (by rw [hafter]; exact Nat.le_of_lt hlt)) (by rw [hafter]; rfl)
      (by rw [hafter']; rfl) ?_
    rw [Place.rest_skip, hafter', Place.rest_skip, hafter]
    rfl
  · exact ih _ _ (by rw [hafter]; exact hlt) ⟨h.levels, h.depth, h.inLine⟩
      (by rw [hafter', hrest, hafter])

/-- Tokens are alike. -/
theorem Agrees.run_token {c : Char} {text : List Char} (h : s.Agrees t)
    (ih : AlikeBelow s.place.rest.length) (hs : s.place.rest = c :: text)
    (ht : t.place.rest = crlf (c :: text)) (hc : c ≠ '\n') (hblank : Lexeme.isBlank c = false)
    (hcomment : c ≠ '#') : RunAlike s.run t.run := by
  have hreturn : c ≠ '\r' := by
    rintro rfl
    cases hblank
  have hfirst : Lexeme.first? s.place.rest = Lexeme.inLine? c text := by
    rw [hs, Lexeme.first?_eq_inLine? hc fun hr => absurd hr hreturn]
  have hfirst' : Lexeme.first? t.place.rest = Lexeme.inLine? c text := by
    rw [ht, Lexeme.first?_crlf_cons hc, Lexeme.inLine?_crlf hc hblank hcomment]
  cases hl : Lexeme.inLine? c text with
  | none =>
    rw [hl] at hfirst hfirst'
    rw [crlf_cons hc] at ht
    rw [run_of_step_eq_error (by simp [hs]) (step_eq_error_iff.2 (.inl ⟨hfirst, rfl⟩)),
      run_of_step_eq_error (by simp [ht]) (step_eq_error_iff.2 (.inl ⟨hfirst', rfl⟩))]
    exact .error (by rw [hs, ht]; rfl)
  | some l =>
    rw [hl] at hfirst hfirst'
    have hcontent : s.place.AtContent :=
      ⟨c, text, hs, by simp [Place.endsContent, hc, hreturn, hcomment],
        (Bool.or_eq_false_iff.1 hblank).1⟩
    obtain ⟨k, v, rfl⟩ := hcontent.token_of_first? hfirst
    obtain ⟨rest, hrest⟩ := Lexeme.value_prefix_of_first? hfirst
    have hafter : (s.place.skip v.length).rest = rest := Place.rest_skip_length hrest.symm
    have hafter' : (t.place.skip v.length).rest = crlf rest := by
      refine Place.rest_skip_length ?_
      have hbreak : ∀ w, Lexeme.token k v ≠ .lineBreak w := by
        intro w hw
        cases hw
      have hv : crlf v = v := crlf_eq_self (Lexeme.lineFeed_not_mem hfirst hbreak)
      rw [ht, ← hs, ← hrest, crlf_append]
      exact congrArg (· ++ _) hv
    have hlt : rest.length < s.place.rest.length := by
      have hpos := List.length_pos_iff.2 (Lexeme.value_ne_nil_of_first? hfirst)
      rw [← hrest, List.length_append]
      exact Nat.lt_add_of_pos_left hpos
    rw [run_of_step (.token hfirst), run_of_step (.token hfirst')]
    refine RunAlike.append (ih
      { s with place := s.place.skip v.length, depth := depthAfter s.depth k, inLine := true }
      { t with place := t.place.skip v.length, depth := depthAfter t.depth k, inLine := true }
      (by rw [hafter]; exact hlt) ⟨h.levels, by rw [h.depth], rfl⟩ (by rw [hafter', hafter])) rfl

/-- A text has the same tokens with either line ending. -/
theorem alikeBelow (n : Nat) : AlikeBelow n := by
  induction n with
  | zero => exact fun s t hlt => absurd hlt (Nat.not_lt_zero _)
  | succ n ih =>
    intro s t hlt h hrest
    have ih : AlikeBelow s.place.rest.length := ih.mono (Nat.le_of_lt_succ hlt)
    cases hs : s.place.rest with
    | nil =>
      rw [hs] at hrest
      rw [run_of_rest_eq_nil hs, run_of_rest_eq_nil hrest]
      exact .ok h.finish
    | cons c text =>
      rw [hs] at hrest
      obtain rfl | ⟨rfl, rest, rfl⟩ | ⟨hblank, hc, hreturn⟩ | ⟨hblank, hcomment, hc⟩ :=
        Lexeme.start_cases c text
      · refine h.run_lineBreak (v := ['\n']) (w := ['\r', '\n']) ih (by rw [hs]; rfl)
          (by rw [hrest]; rfl) ?_
        rw [Place.rest_skip, hrest, Place.rest_skip, hs]
        rfl
      · -- The first of the two carriage returns is white space before the line break.
        have hwhite : Lexeme.first? t.place.rest = some (.blank ['\r', '\r']) := by
          rw [hrest]
          rfl
        rw [run_of_step_nil (.blank hwhite)]
        refine Agrees.run_lineBreak (v := ['\r', '\n']) (w := ['\n'])
          ⟨h.levels, h.depth, h.inLine⟩ ih (by rw [hs]; rfl) ?_ ?_
        · rw [Place.rest_skip, hrest]
          rfl
        · rw [Place.rest_skip, Place.rest_skip, hrest, Place.rest_skip, hs]
          rfl
      · exact h.run_blank ih hs hrest hc hreturn hblank
      · exact h.run_token ih hs hrest hc hblank hcomment

end Scanner

/-- The tokens of a text with a carriage return before every line feed are those without. -/
theorem tokenize_crlf (file : String) (source : List Char) :
    Scanner.RunAlike (tokenize file source) (tokenize file (crlf source)) :=
  Scanner.Agrees.runLine (s := .start file source) (t := .start file (crlf source))
    ⟨rfl, rfl, rfl⟩ (Scanner.alikeBelow _) rfl

/-- Tokens that are spelled alike are so wherever they stand. -/
theorem spelledAlike_of_map {v w : View} (hplace : ∀ p q, v.place p = w.place q)
    {u u' : List Token} (h : u'.map Token.spelling = u.map Token.spelling) :
    List.Forall₂ (Token.SpelledAlike v w) u u' := by
  have hall : List.Forall₂ (fun tok tok' => tok.spelling = tok'.spelling) u u' := by
    rw [← List.forall₂_map_right_iff, ← List.forall₂_map_left_iff, List.forall₂_eq_eq_eq]
    exact h.symm
  exact hall.imp fun tok tok' htok => ⟨htok.symm, .mk (hplace _ _) (hplace _ _)⟩

/-- Line endings mean nothing. With a carriage return before every line feed, a text has the same
tokens or stops the scanner for the same cause; and it has the same typed program, all positions
taken for one, or it is refused for a cause of the same name. -/
theorem line_endings_mean_nothing {file : String} {source : List Char}
    (hsize : byteSize (crlf source) < UInt32.size) :
    Except.Alike (fun u u' => u'.map Token.spelling = u.map Token.spelling)
      (fun e e' => e'.cause = e.cause) (tokenize file source) (tokenize file (crlf source)) ∧
    Except.Alike (fun t t' => Program.moveTyped (fun _ => .nowhere) t' =
        Program.moveTyped (fun _ => .nowhere) t)
      (fun e e' => e'.cause.name = e.cause.name)
      (typedProgramOf file source) (typedProgramOf file (crlf source)) := by
  have htokens := tokenize_crlf file source
  refine ⟨htokens, ?_⟩
  let v : View := ⟨source, fun _ => .nowhere⟩
  let w : View := ⟨crlf source, fun _ => .nowhere⟩
  have halike : Except.Alike (List.Forall₂ (Token.SpelledAlike v w)) (Error.Alike v w)
      (tokenize file source) (tokenize file (crlf source)) :=
    htokens.mono (fun u u' hu => spelledAlike_of_map (fun _ _ => rfl) hu)
      fun e e' he => ⟨congrArg Cause.name he, rfl⟩
  have hsmaller := Nat.lt_of_le_of_lt (byteSize_le_crlf source) hsize
  exact (typedProgramOf_alike (v := v) (w := w) hsmaller hsize halike).mono
    (fun t t' ht => ht.symm) fun e e' he => he.name

/-- A text may have both line endings, and carriage returns in comments and on blank lines. -/
theorem line_endings_mean_nothing_mixed :
    let source := "x: int = (1 + # a\r b\r\n  2)\n\r\n \r# c\ny: int = x \r\n".toList
    ∃ u u' t t', tokenize "shell" source = .ok u ∧ tokenize "shell" (crlf source) = .ok u' ∧
      u.length = 17 ∧ u'.map Token.spelling = u.map Token.spelling ∧
      typedProgramOf "shell" source = .ok t ∧ t.length = 2 ∧
      typedProgramOf "shell" (crlf source) = .ok t' ∧
      Program.moveTyped (fun _ => .nowhere) t' = Program.moveTyped (fun _ => .nowhere) t := by
  intro source
  obtain ⟨u, hu, htokens⟩ : ∃ u, tokenize "shell" source = .ok u ∧
      decide (u.length = 17) = true := Except.exists_eq_ok_of (by decide +kernel)
  obtain ⟨t, ht, hstatements⟩ : ∃ t, typedProgramOf "shell" source = .ok t ∧
      decide (t.length = 2) = true := Except.exists_eq_ok_of (by decide +kernel)
  have hsize : byteSize (crlf source) < UInt32.size := by decide +kernel
  have hboth : Except.Alike _ _ (tokenize "shell" source) _ ∧
      Except.Alike _ _ (typedProgramOf "shell" source) _ := line_endings_mean_nothing hsize
  rw [hu, ht] at hboth
  obtain ⟨u', hu', hspelling⟩ := hboth.1.exists_ok
  obtain ⟨t', ht', hsame⟩ := hboth.2.exists_ok
  exact ⟨u, u', t, t', hu, hu', of_decide_eq_true htokens, hspelling, ht,
    of_decide_eq_true hstatements, ht', hsame⟩

end Offside
