import Offside.Proofs.Scan.Run

/-! Texts that are read as known tokens. A text is judged with the rest of the source behind it,
since words, numbers and symbols are as long as possible; so texts can be put together. -/
namespace Offside

namespace Lexeme

variable {c : Char} {cs rest : List Char} {s : String}

/-- Whether a character is the first of a token: it is neither white space nor starts a comment. -/
def startsContent (c : Char) : Bool := !Place.endsContent c && !isBlank c

/-- Whether a word or number before this text ends there. -/
def endsWord (rest : List Char) : Bool := rest.head?.all (!isWordPart ·)

/-- A text whose first character is the first of a token. -/
def Leading (text : List Char) : Prop := ∃ c cs, text = c :: cs ∧ startsContent c = true

theorem Leading.append {t : List Char} (h : Leading t) (u : List Char) : Leading (t ++ u) := by
  obtain ⟨c, cs, rfl, hc⟩ := h
  exact ⟨c, cs ++ u, rfl, hc⟩

/-- Tokens start with what is no white space and starts no comment. -/
theorem startsContent_of {p : Char → Bool} (hp : ['\n', '\r', '#', ' ', '\t'].any p = false)
    (h : p c = true) : startsContent c = true := by
  have hmem : startsContent c = false → c ∈ ['\n', '\r', '#', ' ', '\t'] := by
    grind [startsContent, Place.endsContent, isBlank]
  cases hc : startsContent c with
  | true => rfl
  | false => exact absurd h (List.any_eq_false.1 hp c (hmem hc))

theorem startsContent_of_isWordStart (h : isWordStart c = true) : startsContent c = true :=
  startsContent_of rfl h

theorem startsContent_of_isDigit (h : c.isDigit = true) : startsContent c = true :=
  startsContent_of rfl h

theorem isWordPart_of_isDigit (h : c.isDigit = true) : isWordPart c = true := by
  simp [isWordPart, Char.isAlphanum, h]

theorem not_isWordStart_of_isDigit (h : c.isDigit = true) : isWordStart c = false := by
  have hne : c ≠ '_' := by
    rintro rfl
    exact absurd h (by decide)
  have hletter : c.isAlpha =
      (decide (c.val ≥ 'A'.val ∧ c.val ≤ 'Z'.val) || (c.val ≥ 'a'.val && c.val ≤ 'z'.val)) := rfl
  simp only [Char.isDigit, Bool.and_eq_true, decide_eq_true_eq, ge_iff_le,
    UInt32.le_iff_toNat_le] at h
  simp only [isWordStart, hletter, hne, decide_false, Bool.or_false, Bool.or_eq_false_iff,
    Bool.and_eq_false_iff, decide_eq_false_iff_not, ge_iff_le, UInt32.le_iff_toNat_le]
  have hnine : '9'.val.toNat = 57 := rfl
  have hA : 'A'.val.toNat = 65 := rfl
  have ha : 'a'.val.toNat = 97 := rfl
  omega

/-- A part of a word or number is read up to where it ends. -/
theorem takeWhile_append_of_endsWord {p : Char → Bool} (hp : ∀ c, p c = true → isWordPart c = true)
    (hcs : cs.all p = true) (hrest : endsWord rest = true) : (cs ++ rest).takeWhile p = cs := by
  rw [List.takeWhile_append_of_pos (by simpa using hcs)]
  cases rest with
  | nil => simp
  | cons c rest =>
    have hc : ¬ p c = true := by
      intro h
      simp [endsWord, hp c h] at hrest
    rw [List.takeWhile_cons_of_neg hc, List.append_nil]

/-- The first lexeme of a text that starts with a token. -/
theorem first?_of_startsContent (hc : startsContent c = true) : first? (c :: rest) =
    if isWordStart c then
      some (.token (wordKind (c :: rest.takeWhile isWordPart)) (c :: rest.takeWhile isWordPart))
    else if c.isDigit then some (.token .number (c :: rest.takeWhile Char.isDigit))
    else symbol? (c :: rest) := by
  simp only [startsContent, Place.endsContent, Bool.and_eq_true, Bool.not_eq_true',
    Bool.or_eq_false_iff, decide_eq_false_iff_not] at hc
  obtain ⟨⟨⟨hfeed, hreturn⟩, hcomment⟩, hblank⟩ := hc
  have hinLine : first? (c :: rest) = inLine? c rest := by
    unfold first?
    split
    · rename_i heq
      cases heq
    · rename_i heq
      cases heq
      exact absurd rfl hfeed
    · rename_i heq
      cases heq
      exact absurd rfl hreturn
    · rename_i heq
      cases heq
      rfl
  rw [hinLine, inLine?, if_neg (by simp [hblank]), if_neg hcomment]

theorem exists_of_isWord (h : TokenKind.isWord s = true) : ∃ c cs, s.toList = c :: cs ∧
    isWordStart c = true ∧ cs.all isWordPart = true := by
  unfold TokenKind.isWord at h
  split at h
  · cases h
  · rename_i c cs hs
    rw [Bool.and_eq_true] at h
    exact ⟨c, cs, hs, h⟩

theorem isWord_of_isName (h : TokenKind.isName s = true) :
    TokenKind.isWord s = true ∧ TokenKind.keyword? s = none := by
  rw [TokenKind.isName, Bool.and_eq_true, Option.isNone_iff_eq_none] at h
  exact h

theorem first?_word (h : TokenKind.isWord s = true) (hrest : endsWord rest = true) :
    first? (s.toList ++ rest) = some (.token (wordKind s.toList) s.toList) := by
  obtain ⟨c, cs, hs, hstart, hcs⟩ := exists_of_isWord h
  rw [hs, List.cons_append, first?_of_startsContent (startsContent_of_isWordStart hstart),
    if_pos hstart, takeWhile_append_of_endsWord (fun _ h => h) hcs hrest]

theorem first?_name (h : TokenKind.isName s = true) (hrest : endsWord rest = true) :
    first? (s.toList ++ rest) = some (.token .identifier s.toList) := by
  obtain ⟨hword, hkeyword⟩ := isWord_of_isName h
  rw [first?_word hword hrest, wordKind, String.ofList_toList, hkeyword]
  rfl

theorem exists_of_isDigits (h : TokenKind.isDigits s = true) : ∃ c cs, s.toList = c :: cs ∧
    c.isDigit = true ∧ cs.all Char.isDigit = true := by
  simp only [TokenKind.isDigits, Bool.and_eq_true, decide_eq_true_eq] at h
  obtain ⟨c, cs, hs⟩ := List.exists_cons_of_ne_nil h.1
  have hall := h.2
  rw [hs, List.all_cons, Bool.and_eq_true] at hall
  exact ⟨c, cs, hs, hall⟩

theorem first?_digits (h : TokenKind.isDigits s = true) (hrest : endsWord rest = true) :
    first? (s.toList ++ rest) = some (.token .number s.toList) := by
  obtain ⟨c, cs, hs, hc, hcs⟩ := exists_of_isDigits h
  rw [hs, List.cons_append, first?_of_startsContent (startsContent_of_isDigit hc),
    if_neg (by rw [not_isWordStart_of_isDigit hc]; exact Bool.false_ne_true), if_pos hc,
    takeWhile_append_of_endsWord (fun _ => isWordPart_of_isDigit) hcs hrest]

theorem leading_of_isWord (h : TokenKind.isWord s = true) : Leading s.toList := by
  obtain ⟨c, cs, hs, hstart, -⟩ := exists_of_isWord h
  exact ⟨c, cs, hs, startsContent_of_isWordStart hstart⟩

theorem leading_of_isName (h : TokenKind.isName s = true) : Leading s.toList :=
  leading_of_isWord (isWord_of_isName h).1

theorem leading_of_isDigits (h : TokenKind.isDigits s = true) : Leading s.toList := by
  obtain ⟨c, cs, hs, hc, -⟩ := exists_of_isDigits h
  exact ⟨c, cs, hs, startsContent_of_isDigit hc⟩

/-- A token is read with its whole text if a space or a line feed comes next. -/
theorem first?_of_spells {k : TokenKind} (hk : k.isContent = true) (h : k.spells s = true)
    (hc : c = ' ' ∨ c = '\n') :
    first? (s.toList ++ c :: rest) = some (.token k s.toList) := by
  have hends : endsWord (c :: rest) = true := by obtain rfl | rfl := hc <;> rfl
  cases htext : k.text? with
  | none =>
    obtain rfl | rfl := TokenKind.eq_of_text?_eq_none hk htext
    · exact first?_name h hends
    · exact first?_digits h hends
  | some t =>
    obtain rfl := TokenKind.eq_of_spells_of_text? htext h
    obtain rfl | rfl := hc <;> cases k <;> cases htext <;> rfl

/-- The text of a token starts with what is no white space and starts no comment. -/
theorem leading_of_spells {k : TokenKind} (hk : k.isContent = true) (h : k.spells s = true) :
    Leading s.toList := by
  cases htext : k.text? with
  | none =>
    obtain rfl | rfl := TokenKind.eq_of_text?_eq_none hk htext
    · exact leading_of_isName h
    · exact leading_of_isDigits h
  | some t =>
    obtain rfl := TokenKind.eq_of_spells_of_text? htext h
    cases k <;> cases htext <;> exact ⟨_, _, rfl, rfl⟩

/-- One space before a token is all that is blank. -/
theorem first?_space (h : Leading rest) : first? (' ' :: rest) = some (.blank [' ']) := by
  obtain ⟨c, cs, rfl, hc⟩ := h
  have hblank : ¬ isBlank c = true := by
    intro h
    simp [startsContent, h] at hc
  have htake : (c :: cs).takeWhile isBlank = [] := List.takeWhile_cons_of_neg hblank
  calc first? (' ' :: c :: cs) = some (.blank (' ' :: (c :: cs).takeWhile isBlank)) := rfl
    _ = some (.blank [' ']) := by rw [htake]

end Lexeme

open Lexeme

/-- A text is read as tokens of these kinds and texts before the rest of the source. -/
inductive Lexes : List Char → List Spelling → List Char → Prop
  | nil {rest} : Lexes [] [] rest
  | blank {v t ss rest} : first? (v ++ (t ++ rest)) = some (.blank v) → Lexes t ss rest →
      Lexes (v ++ t) ss rest
  | token {k v t ss rest} : first? (v ++ (t ++ rest)) = some (.token k v) → Lexes t ss rest →
      Lexes (v ++ t) ((k, String.ofList v) :: ss) rest

namespace Lexes

variable {t t' rest : List Char} {ss ss' : List Spelling} {s : String} {k : TokenKind}

theorem append (h : Lexes t ss (t' ++ rest)) (h' : Lexes t' ss' rest) :
    Lexes (t ++ t') (ss ++ ss') rest := by
  generalize hwhole : t' ++ rest = whole at h
  induction h with
  | nil => exact h'
  | blank hfirst _ ih =>
    subst hwhole
    rw [List.append_assoc]
    exact .blank (by rw [List.append_assoc]; exact hfirst) (ih rfl)
  | token hfirst _ ih =>
    subst hwhole
    rw [List.append_assoc]
    exact .token (by rw [List.append_assoc]; exact hfirst) (ih rfl)

/-- A token of a fixed text. -/
theorem fixed (hfirst : first? (s.toList ++ (t ++ rest)) = some (.token k s.toList))
    (h : Lexes t ss rest) : Lexes (s.toList ++ t) ((k, s) :: ss) rest := by
  have hwhole := Lexes.token hfirst h
  rwa [String.ofList_toList] at hwhole

theorem name (hs : TokenKind.isName s = true) (hrest : endsWord (t ++ rest) = true)
    (h : Lexes t ss rest) : Lexes (s.toList ++ t) ((.identifier, s) :: ss) rest :=
  fixed (first?_name hs hrest) h

theorem space (ht : Leading (t ++ rest)) (h : Lexes t ss rest) :
    Lexes (" ".toList ++ t) ss rest := .blank (v := [' ']) (first?_space ht) h

end Lexes

/-- How many parentheses are open after some tokens. -/
def depthAfterAll (depth : Nat) (ss : List Spelling) : Nat :=
  ss.foldl (fun d s => Scanner.depthAfter d s.1) depth

def parensAfter (depth : Nat) (u : List Token) : Nat := depthAfterAll depth (u.map Token.spelling)

theorem parensAfter_append (depth : Nat) (u v : List Token) :
    parensAfter depth (u ++ v) = parensAfter (parensAfter depth u) v := by
  rw [parensAfter, List.map_append, depthAfterAll, List.foldl_append]
  rfl

/-- Layout opens and closes no parenthesis. -/
theorem parensAfter_of_layout {u : List Token} (hu : ∀ tok ∈ u, tok.kind.isLayout = true)
    (depth : Nat) : parensAfter depth u = depth := by
  induction u with
  | nil => rfl
  | cons tok u ih =>
    obtain ⟨htok, hu⟩ := List.forall_mem_cons.1 hu
    have hdepth : Scanner.depthAfter depth tok.kind = depth := by
      generalize tok.kind = k at htok
      cases k <;> first | rfl | cases htok
    change parensAfter (Scanner.depthAfter depth tok.kind) u = depth
    rw [hdepth, ih hu]

namespace Scanner

variable {s s' : Scanner} {more : List Token}

theorem run_of_rest_eq_nil (h : s.place.rest = []) : s.run = .ok s.finish := by rw [run, if_pos h]

theorem run_of_step_eq_error {e : Error} (hrest : s.place.rest ≠ []) (h : s.step = .error e) :
    s.run = .error e := by
  rw [run, if_neg hrest]
  split
  · rename_i hfail
    rw [h] at hfail
    cases hfail
    rfl
  · rename_i hok
    rw [h] at hok
    cases hok

theorem run_of_step (h : s.Step more s') : s.run = s'.run.map (more ++ ·) := by
  have hstep := step_eq_ok_iff.2 h
  rw [run, if_neg h.rest_ne_nil]
  split
  · rename_i hfail
    rw [hstep] at hfail
    cases hfail
  · rename_i hok
    rw [hstep] at hok
    cases hok
    rfl

theorem run_of_step_nil (h : s.Step [] s') : s.run = s'.run := by
  rw [run_of_step h]
  cases s'.run <;> rfl

/-- A run passes a text with the tokens that it is read as. -/
theorem run_of_lexes {t rest : List Char} {ss : List Spelling} (h : Lexes t ss rest) {s : Scanner}
    (hs : s.place.rest = t ++ rest) :
    ∃ (tokens : List Token) (s' : Scanner), tokens.map Token.spelling = ss ∧
      s.run = s'.run.map (tokens ++ ·) ∧ s'.place = s.place.skip t.length ∧
      s'.levels = s.levels ∧ s'.depth = depthAfterAll s.depth ss ∧
      s'.inLine = (s.inLine || !ss.isEmpty) := by
  induction h generalizing s with
  | nil =>
    refine ⟨[], s, rfl, ?_, rfl, rfl, rfl, by simp⟩
    cases s.run <;> rfl
  | @blank v t ss rest hfirst _ ih =>
    rw [List.append_assoc] at hs
    have hstep : s.Step [] { s with place := s.place.skip v.length } := .blank (by rw [hs, hfirst])
    obtain ⟨tokens, s', hspelling, hrun, hplace, hlevels, hdepth, hinLine⟩ :=
      ih (s := { s with place := s.place.skip v.length }) (Place.rest_skip_length hs)
    refine ⟨tokens, s', hspelling, ?_, ?_, hlevels, hdepth, hinLine⟩
    · rw [run_of_step hstep, hrun]
      cases s'.run <;> rfl
    · rw [hplace, Place.skip_skip, List.length_append]
  | @token k v t ss rest hfirst _ ih =>
    rw [List.append_assoc] at hs
    have hstep := Step.token (s := s) (by rw [hs, hfirst])
    obtain ⟨tokens, s', hspelling, hrun, hplace, hlevels, hdepth, hinLine⟩ := ih (s := { s with
      place := s.place.skip v.length, depth := depthAfter s.depth k, inLine := true })
      (Place.rest_skip_length hs)
    refine ⟨⟨k, String.ofList v, s.place.span v.length⟩ :: tokens, s', ?_, ?_, ?_, hlevels,
      hdepth, ?_⟩
    · rw [List.map_cons, hspelling]
      rfl
    · rw [run_of_step hstep, hrun]
      cases s'.run <;> rfl
    · rw [hplace, Place.skip_skip, List.length_append]
    · rw [hinLine]
      simp

end Scanner
end Offside
