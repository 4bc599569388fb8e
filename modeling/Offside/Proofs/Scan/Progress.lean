import Offside.Proofs.Scan.Skipped
import Offside.Reader

/-! The scanner as a cursor that counts bytes. The source is cut anew wherever the cursor stands,
and once more by a number of bytes that is a count of characters; a cut inside a character fails. No
cut fails in any source. Each lexeme and each blank line takes the cursor forward, so the scanner
comes to an end, and if it has not stopped at an error, the cursor is at the end of the source. -/
namespace Offside

namespace Text

variable {text : List Char}

/-- The number of spaces and tabs at the front. -/
def indentation (text : List Char) : Nat := (text.takeWhile Place.isIndentation).length

/-- The bytes up to the first line feed and of that, or up to the end. -/
def lineBytes (text : List Char) : Nat :=
  if '\n' ∈ text then byteSize (text.takeWhile (· ≠ '\n')) + 1 else byteSize text

/-- Spaces and tabs are of one byte each, so that their number is a place to cut. -/
theorem byteSize_takeWhile_isIndentation (text : List Char) :
    byteSize (text.takeWhile Place.isIndentation) = indentation text := by
  refine byteSize_eq_length_iff.2 fun c hc => ?_
  have hindent := List.all_eq_true.1 List.all_takeWhile c hc
  simp only [Place.isIndentation, Bool.or_eq_true, decide_eq_true_eq] at hindent
  obtain rfl | rfl := hindent <;> rfl

theorem dropBytes?_indentation (text : List Char) :
    dropBytes? (indentation text) text = some (text.dropWhile Place.isIndentation) := by
  have hcut := dropBytes?_append (text.takeWhile Place.isIndentation)
    (text.dropWhile Place.isIndentation)
  rwa [List.takeWhile_append_dropWhile, byteSize_takeWhile_isIndentation] at hcut

theorem lineBytes_pos (h : text ≠ []) : 0 < lineBytes text := by
  unfold lineBytes
  split
  · exact Nat.succ_pos _
  · obtain ⟨c, cs, rfl⟩ := List.exists_cons_of_ne_nil h
    exact Nat.add_pos_left c.utf8Size_pos _

end Text

namespace Reader

/-- A cursor between two characters of its source. The text ahead can be cut off, and then its
indentation. -/
structure Valid (r : Reader) : Prop where
  offset_le : r.offset ≤ Text.byteSize r.source
  boundary : ∃ before after, r.source = before ++ after ∧ r.offset = Text.byteSize before
  cuts : ∃ text content, r.remainder? = some text ∧
    Text.dropBytes? (Text.indentation text) text = some content

/-- A round of the search for the content of a line. It goes on at the next line, or it ends, with
the width of the line if there is one. It has no result where a cut fails. -/
def searchRound? (r : Reader) : Option (Reader ⊕ Reader × Option Nat) := do
  let text ← r.remainder?
  match ← Text.dropBytes? (Text.indentation text) text with
  | [] => return .inr (r.advance (Text.indentation text), none)
  | c :: _ =>
    if Place.endsContent c then return .inl (r.advance (Text.lineBytes text))
    else return .inr (r.advance (Text.indentation text), some (Text.indentation text))

/-- A search from its first round to its last, with the cursor at the start of each later round. -/
inductive Search : Reader → List Reader → Reader × Option Nat → Prop
  | done {r found} : r.searchRound? = some (.inr found) → Search r [] found
  | next {r r' later found} : r.searchRound? = some (.inl r') → Search r' later found →
      Search r (r' :: later) found

/-- A search that ends, with a valid cursor in each round and at its end. Each round starts behind
the one before. -/
def Finds (r : Reader) (found : Reader × Option Nat) : Prop :=
  ∃ later, Search r later found ∧ (∀ q ∈ r :: later, q.Valid) ∧
    (r :: later).IsChain (·.offset < ·.offset) ∧ found.1.Valid

variable {r r' : Reader} {text : List Char} {later : List Reader} {found : Reader × Option Nat}

theorem valid_of_remainder? (h : r.remainder? = some text) : r.Valid := by
  obtain ⟨before, hsource, hoffset⟩ := Text.dropBytes?_eq_some_iff.1 h
  refine ⟨?_, ⟨before, text, hsource, hoffset⟩, text, _, h, Text.dropBytes?_indentation text⟩
  rw [hsource, hoffset, Text.byteSize_append]
  exact Nat.le_add_right _ _

/-- Only the cut at the cursor can fail. -/
theorem searchRound?_of_remainder? (h : r.remainder? = some text) :
    r.searchRound? = some (match text.dropWhile Place.isIndentation with
      | [] => .inr (r.advance (Text.indentation text), none)
      | c :: _ =>
        if Place.endsContent c then .inl (r.advance (Text.lineBytes text))
        else .inr (r.advance (Text.indentation text), some (Text.indentation text))) := by
  simp only [searchRound?, h, Text.dropBytes?_indentation, Option.bind_eq_bind, Option.bind_some]
  split
  · rfl
  · split <;> rfl

/-- A cut inside a character fails. -/
example : searchRound? ⟨"", ['é'], 1⟩ = none := rfl

theorem exists_remainder? {x : Reader ⊕ Reader × Option Nat} (h : r.searchRound? = some x) :
    ∃ text, r.remainder? = some text := by
  obtain ⟨text, htext, -⟩ := Option.bind_eq_some_iff.1 h
  exact ⟨text, htext⟩

/-- The search goes on only at a line that has a character. -/
theorem lt_of_searchRound? (h : r.searchRound? = some (.inl r')) : r.offset < r'.offset := by
  obtain ⟨text, htext⟩ := exists_remainder? h
  rw [searchRound?_of_remainder? htext] at h
  split at h
  · cases h
  · rename_i c rest hcontent
    split at h
    · -- The character that ends the line is there, so the line has at least one byte.
      cases h
      have hne : text ≠ [] := by
        rintro rfl
        cases hcontent
      exact Nat.lt_add_of_pos_right (Text.lineBytes_pos hne)
    · cases h

namespace Search

theorem valid (h : Search r later found) : ∀ q ∈ r :: later, q.Valid := by
  induction h with
  | done hround =>
    obtain ⟨text, htext⟩ := exists_remainder? hround
    exact List.forall_mem_singleton.2 (valid_of_remainder? htext)
  | next hround _ ih =>
    obtain ⟨text, htext⟩ := exists_remainder? hround
    exact List.forall_mem_cons.2 ⟨valid_of_remainder? htext, ih⟩

theorem isChain (h : Search r later found) : (r :: later).IsChain (·.offset < ·.offset) := by
  induction h with
  | done => exact .singleton _
  | next hround _ ih => exact .cons_cons (lt_of_searchRound? hround) ih

theorem finds (h : Search r later found) (hfound : found.1.Valid) : r.Finds found :=
  ⟨later, h, h.valid, h.isChain, hfound⟩

end Search
end Reader

namespace Place

variable {file : String} {source : List Char} {p : Place}

/-- The cursor at a place of a source. -/
def reader (source : List Char) (p : Place) : Reader := ⟨p.file, source, p.offset⟩

theorem In.remainder? (h : p.In file source) : (p.reader source).remainder? = some p.rest := by
  obtain ⟨-, before, hsource, hoffset⟩ := h
  exact Text.dropBytes?_eq_some_iff.2 ⟨before, hsource, hoffset⟩

theorem In.valid (h : p.In file source) : (p.reader source).Valid :=
  Reader.valid_of_remainder? h.remainder?

theorem In.atEnd_iff (h : p.In file source) :
    (p.reader source).atEnd = true ↔ p.rest = [] := by
  obtain ⟨-, before, hsource, hoffset⟩ := h
  have hend : (p.reader source).atEnd = true ↔ Text.byteSize source ≤ p.offset :=
    decide_eq_true_iff
  rw [hend, hsource, hoffset, Text.byteSize_append]
  constructor
  · intro hle
    have hlength := Text.length_le_byteSize p.rest
    exact List.length_eq_zero_iff.1 (by omega)
  · intro hrest
    rw [hrest]
    exact Nat.le_refl _

theorem In.atEnd_eq_false (h : p.In file source) (hrest : p.rest ≠ []) :
    (p.reader source).atEnd = false :=
  Bool.eq_false_iff.2 fun hend => hrest (h.atEnd_iff.1 hend)

theorem reader_skip_length (source : List Char) {v : List Char} (hv : v <+: p.rest) :
    (p.skip v.length).reader source = (p.reader source).advance (Text.byteSize v) := by
  obtain ⟨w, hw⟩ := hv
  rw [reader, offset_skip_length hw.symm]
  rfl

/-- The span of some characters ahead is that of their bytes. -/
theorem span_eq_reader_span (source : List Char) {v : List Char} (hv : v <+: p.rest) :
    p.span v.length = (p.reader source).span (Text.byteSize v) := by
  rw [Reader.span, ← reader_skip_length source hv]
  rfl

theorem reader_content (source : List Char) (p : Place) :
    p.content.reader source = (p.reader source).advance (Text.indentation p.rest) := by
  have hskip := reader_skip_length source (List.takeWhile_prefix isIndentation (l := p.rest))
  rwa [Text.byteSize_takeWhile_isIndentation] at hskip

theorem reader_nextLine (source : List Char) (p : Place) :
    p.nextLine.reader source = (p.reader source).advance (Text.lineBytes p.rest) := by
  obtain ⟨hrest, -, hoffset⟩ | ⟨w, hrest, hnext⟩ := p.nextLine_cases
  · have hfeed : '\n' ∉ p.rest := by
      rw [hrest]
      exact Lexeme.not_mem_takeWhile_ne p.rest
    rw [reader, hoffset, ← hrest, Text.lineBytes, if_neg hfeed]
    rfl
  · have hfeed : '\n' ∈ p.rest := by
      rw [hrest]
      simp
    rw [hnext, reader_skip_length source ⟨w, hrest.symm⟩, Text.byteSize_append,
      Text.lineBytes, if_pos hfeed]
    rfl

/-- The search for the content of a line by bytes comes to where that by characters does. -/
theorem In.finds_lineStart (h : p.In file source) :
    (p.reader source).Finds (p.lineStart.1.reader source, p.lineStart.2) := by
  suffices hsearch : ∃ later,
      Reader.Search (p.reader source) later (p.lineStart.1.reader source, p.lineStart.2) by
    obtain ⟨later, hlater⟩ := hsearch
    exact hlater.finds h.lineStart.valid
  -- By the rounds of the search by characters; the cut of each is known from its place.
  fun_induction Place.lineStart p with
  | case1 p hrest =>
    have hround := Reader.searchRound?_of_remainder? h.remainder?
    rw [← rest_content, hrest, ← reader_content] at hround
    exact ⟨_, .done hround⟩
  | case2 p c rest hrest hc ih =>
    obtain ⟨later, hlater⟩ := ih (h.skip _)
    have hround := Reader.searchRound?_of_remainder? h.remainder?
    simp only [← rest_content, hrest, hc, if_true, ← reader_nextLine] at hround
    exact ⟨_, .next hround hlater⟩
  | case3 p c rest hrest hc =>
    have hround := Reader.searchRound?_of_remainder? h.remainder?
    simp only [← rest_content, hrest, hc, ← reader_content] at hround
    exact ⟨_, .done hround⟩

end Place

namespace Scanner

/-- Where the cursor stands after a lexeme: behind it, and after a line break outside parentheses
where the search for the content of the next line ends. -/
inductive Passes (source : List Char) (s : Scanner) : Lexeme → Reader → Prop
  | within {l} : (∀ value, l = .lineBreak value → 0 < s.depth) →
      Passes source s l ((s.place.reader source).advance (Text.byteSize l.value))
  | broken {value r width} : s.depth = 0 →
      ((s.place.reader source).advance (Text.byteSize value)).Finds (r, width) →
      Passes source s (.lineBreak value) r

/-- A turn of the scanner, which reads what is ahead of a valid cursor. A lexeme takes the cursor
forward to where the turn ends, also if it ends with an error; without a lexeme the turn is an error
where it is. A token stands on the bytes ahead, and an error before the end of the source names the
character at the cursor. -/
structure Advances (source : List Char) (s : Scanner) : Prop where
  valid : (s.place.reader source).Valid
  remainder : (s.place.reader source).remainder? = some s.place.rest
  lexeme {l : Lexeme} : Lexeme.first? s.place.rest = some l →
    l.value <+: s.place.rest ∧
    ∃ r, s.Passes source l r ∧ r.Valid ∧ s.place.offset < r.offset ∧
      (∀ tokens s', s.step = .ok (tokens, s') → s'.place.reader source = r) ∧
      ∀ e, s.step = .error e → e.position = r.position
  token {kind : TokenKind} {value : List Char} :
    Lexeme.first? s.place.rest = some (.token kind value) → ∃ s', s.step = .ok
      ([⟨kind, String.ofList value, (s.place.reader source).span (Text.byteSize value)⟩], s')
  noLexeme : Lexeme.first? s.place.rest = none →
    ∃ cause, s.step = .error ⟨cause, s.place.position⟩
  refused : (s.place.reader source).atEnd = false → Lexeme.first? s.place.rest = none →
    ∃ c, (s.place.reader source).current? = some c ∧
      s.step = .error ⟨.unrecognisedToken (String.ofList [c]), (s.place.reader source).position⟩

/-- The turns of the scanner up to the end of the source or an error, with the states that it comes
to after the first one. -/
inductive Turns (source : List Char) :
    Scanner → List Scanner → Except Error (List Token) → Prop
  | ended {s} : (s.place.reader source).atEnd = true → Turns source s [] (.ok s.finish)
  | refused {s e} : (s.place.reader source).atEnd = false → s.step = .error e →
      Turns source s [] (.error e)
  | next {s s' tokens later result} : (s.place.reader source).atEnd = false →
      s.step = .ok (tokens, s') → Turns source s' later result →
      Turns source s (s' :: later) (result.map (tokens ++ ·))

variable {file : String} {source : List Char} {s s' : Scanner} {later : List Scanner}
  {result : Except Error (List Token)} {tokens : List Token} {e : Error} {l : Lexeme}

/-- The place to which a lexeme takes the scanner. -/
def placeAfter (s : Scanner) : Lexeme → Place
  | .lineBreak value =>
    if 0 < s.depth then s.place.skip value.length else (s.place.skip value.length).lineStart.1
  | .blank value | .token _ value => s.place.skip value.length

theorem placeAfter_in (hs : s.place.In file source) (l : Lexeme) :
    (s.placeAfter l).In file source := by
  unfold placeAfter
  split
  · split
    · exact hs.skip _
    · exact (hs.skip _).lineStart
  all_goals exact hs.skip _

theorem offset_lt_placeAfter (h : Lexeme.first? s.place.rest = some l) :
    s.place.offset < (s.placeAfter l).offset := by
  have hlexeme : s.place.offset < (s.place.skip l.value.length).offset := by
    obtain ⟨w, hw⟩ := Lexeme.value_prefix_of_first? h
    have hpos := List.length_pos_iff.2 (Lexeme.value_ne_nil_of_first? h)
    have hle := Text.length_le_byteSize l.value
    rw [Place.offset_skip_length hw.symm]
    omega
  unfold placeAfter
  split
  · split
    · exact hlexeme
    · exact Nat.lt_of_lt_of_le hlexeme (Place.offset_le_lineStart _)
  all_goals exact hlexeme

theorem passes_placeAfter (hs : s.place.In file source)
    (h : Lexeme.first? s.place.rest = some l) :
    s.Passes source l ((s.placeAfter l).reader source) := by
  have hcursor := Place.reader_skip_length source (Lexeme.value_prefix_of_first? h)
  cases l with
  | lineBreak value =>
    by_cases hdepth : 0 < s.depth
    · rw [placeAfter, if_pos hdepth]
      exact hcursor ▸ .within fun _ _ => hdepth
    · have hfinds := (hs.skip value.length).finds_lineStart
      rw [placeAfter, if_neg hdepth]
      exact .broken (Nat.eq_zero_of_not_pos hdepth) (hcursor ▸ hfinds)
  | blank value => exact hcursor ▸ .within nofun
  | token kind value => exact hcursor ▸ .within nofun

theorem place_of_step (hl : Lexeme.first? s.place.rest = some l)
    (h : s.step = .ok (tokens, s')) : s'.place = s.placeAfter l := by
  cases step_eq_ok_iff.1 h with
  | joined hlexeme hdepth =>
    cases hl.symm.trans hlexeme
    rw [placeAfter, if_pos hdepth]
  | broken hlexeme hdepth hentered =>
    cases hl.symm.trans hlexeme
    rw [placeAfter, if_neg (by omega), hentered.place]
  | blank hlexeme =>
    cases hl.symm.trans hlexeme
    rfl
  | token hlexeme =>
    cases hl.symm.trans hlexeme
    rfl

/-- A line that cannot be entered is refused at its content. -/
theorem position_of_step (hl : Lexeme.first? s.place.rest = some l) (h : s.step = .error e) :
    e.position = (s.placeAfter l).position := by
  obtain ⟨hnone, -⟩ | ⟨value, hlexeme, hdepth, hentered⟩ := step_eq_error_iff.1 h
  · cases hl.symm.trans hnone
  · obtain ⟨place, width, hline, -, rfl⟩ := enterLine_eq_error_iff.1 hentered
    cases hl.symm.trans hlexeme
    rw [placeAfter, if_neg (by omega), hline]

theorem advances (hs : s.place.In file source) : s.Advances source where
  valid := hs.valid
  remainder := hs.remainder?
  lexeme {l} hl := by
    refine ⟨Lexeme.value_prefix_of_first? hl, _, passes_placeAfter hs hl,
      (placeAfter_in hs l).valid, offset_lt_placeAfter hl, fun tokens s' hstep => ?_,
      fun e hstep => position_of_step hl hstep⟩
    rw [place_of_step hl hstep]
  token hl := by
    have hspan := Place.span_eq_reader_span source (Lexeme.value_prefix_of_first? hl)
    exact ⟨_, hspan ▸ step_eq_ok_iff.2 (.token hl)⟩
  noLexeme hnone := ⟨_, step_eq_error_iff.2 (.inl ⟨hnone, rfl⟩)⟩
  refused hend hnone := by
    have hrest : s.place.rest ≠ [] := fun hnil => by simp [hs.atEnd_iff.2 hnil] at hend
    obtain ⟨c, cs, hc⟩ := List.exists_cons_of_ne_nil hrest
    refine ⟨c, ?_, step_eq_error_iff.2 (.inl ⟨hnone, ?_⟩)⟩
    · rw [Reader.current?, hs.remainder?, hc]
      rfl
    · rw [hc]
      rfl

theorem offset_lt_of_step (h : s.step = .ok (tokens, s')) : s.place.offset < s'.place.offset := by
  cases hl : Lexeme.first? s.place.rest with
  | none =>
    have herror := step_eq_error_iff.2 (.inl ⟨hl, rfl⟩)
    cases h.symm.trans herror
  | some l =>
    rw [place_of_step hl h]
    exact offset_lt_placeAfter hl

namespace Turns

theorem advances (h : Turns source s later result) (hs : s.place.In file source) :
    ∀ q ∈ s :: later, q.Advances source := by
  induction h with
  | ended | refused => exact List.forall_mem_singleton.2 (Scanner.advances hs)
  | next _ hstep _ ih =>
    exact List.forall_mem_cons.2
      ⟨Scanner.advances hs, ih ((step_eq_ok_iff.1 hstep).place hs)⟩

theorem isChain (h : Turns source s later result) :
    (s :: later).IsChain (·.place.offset < ·.place.offset) := by
  induction h with
  | ended | refused => exact .singleton _
  | next _ hstep _ ih => exact .cons_cons (offset_lt_of_step hstep) ih

/-- Turns without an error end at the end of the source. -/
theorem offset_getLastD (h : Turns source s later result) (hs : s.place.In file source)
    (hresult : result = .ok tokens) :
    (later.getLastD s).place.offset = Text.byteSize source := by
  induction h generalizing tokens with
  | ended hend => exact Nat.le_antisymm hs.offset_le (of_decide_eq_true hend)
  | refused => cases hresult
  | next _ hstep _ ih =>
    obtain ⟨more, hmore, -⟩ := Except.map_eq_ok_iff.1 hresult
    rw [List.getLastD_cons]
    exact ih ((step_eq_ok_iff.1 hstep).place hs) hmore

end Turns

/-- The scanner comes to its last turn. -/
theorem exists_turns (hs : s.place.In file source) : ∃ later, Turns source s later s.run := by
  fun_induction Scanner.run s with
  | case1 s hrest => exact ⟨_, .ended (hs.atEnd_iff.2 hrest)⟩
  | case2 s hrest e hstep => exact ⟨_, .refused (hs.atEnd_eq_false hrest) hstep⟩
  | case3 s hrest tokens s' hstep ih =>
    obtain ⟨later, hlater⟩ := ih ((step_eq_ok_iff.1 hstep).place hs)
    exact ⟨_, .next (hs.atEnd_eq_false hrest) hstep hlater⟩

/-- The first line can have any width. -/
theorem exists_enterLine_start (file : String) (source : List Char) :
    ∃ layout first, (start file source).enterLine = .ok (layout, first) := by
  cases h : (start file source).enterLine with
  | ok entered => exact ⟨entered.1, entered.2, rfl⟩
  | error e =>
    obtain ⟨place, width, -, hnone, -⟩ := enterLine_eq_error_iff.1 h
    -- Only the outermost level is open, of width 0, so a line is as wide or wider.
    have hsome : Indentation.enter? width [0] ≠ none := by
      cases width <;> simp [Indentation.enter?, Indentation.innermost, Indentation.keep]
    exact absurd hnone hsome

end Scanner

/-- The cursor of the scanner is always valid and always goes forward. In every source the search
for the first line comes to an end, and so do the turns of the scanner after it, with the tokens or
the error of the source. In each round of a search and in each turn the cursor stands between two
characters, so that no cut fails, and each round and each turn starts behind the one before. If
there are tokens, the cursor is at last at the end of the source. -/
theorem scanner_progress (file : String) (source : List Char) :
    ∃ layout first width later result,
      (Scanner.start file source).enterLine = .ok (layout, first) ∧
      (Reader.front file source).Finds (first.place.reader source, width) ∧
      Scanner.Turns source first later result ∧
      tokenize file source = result.map (layout ++ ·) ∧
      (∀ s ∈ first :: later, s.Advances source) ∧
      (first :: later).IsChain (·.place.offset < ·.place.offset) ∧
      ∀ tokens, tokenize file source = .ok tokens →
        (later.getLastD first).place.offset = Text.byteSize source := by
  obtain ⟨layout, first, hentered⟩ := Scanner.exists_enterLine_start file source
  have hfront := Place.In.front file source
  have hplace := (Scanner.enterLine_eq_ok_iff.1 hentered).place
  have hfirst : first.place.In file source := hplace ▸ hfront.lineStart
  have hfinds : (Reader.front file source).Finds
      (first.place.reader source, (Place.front file source).lineStart.2) :=
    hplace ▸ hfront.finds_lineStart
  obtain ⟨later, hturns⟩ := Scanner.exists_turns hfirst
  have htokenize : tokenize file source = first.run.map (layout ++ ·) := by
    rw [tokenize, hentered]
  refine ⟨layout, first, _, later, _, hentered, hfinds, hturns, htokenize,
    hturns.advances hfirst, hturns.isChain, fun tokens htokens => ?_⟩
  obtain ⟨more, hrun, -⟩ := Except.map_eq_ok_iff.1 (htokenize.symm.trans htokens)
  exact hturns.offset_getLastD hfirst hrun

end Offside
