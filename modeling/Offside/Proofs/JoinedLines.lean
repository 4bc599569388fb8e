import Offside.Proofs.Scan.WhiteSpace

/-! A line feed between parentheses is as good as a space. Words, numbers and symbols end at either
of the two, so up to the line feed the same lexemes are read; and while parentheses are open, white
space is passed over with the line feeds in it. -/
namespace Offside
open Text

theorem InComment.append_left {v : List Char} {c : Char} (h : InComment v c) (u : List Char) :
    InComment (u ++ v) c := by
  obtain hc | ⟨front, more, rfl, hmore⟩ := h
  · exact .inl hc
  · exact .inr ⟨u ++ front, more, by rw [List.append_assoc], hmore⟩

namespace Lexeme

variable {c d : Char} {u b : List Char} {l : Lexeme}

theorem space_not_mem_of_text? {k : TokenKind} {s : String} (h : k.text? = some s) :
    ' ' ∉ s.toList := by
  cases k <;> cases h <;> decide

theorem symbol?_append_cons (hd : d = ' ' ∨ d = '\n') (u b : List Char) :
    symbol? (u ++ d :: b) = symbol? u := by
  have hstarts : ∀ k, startsWith (u ++ d :: b) k = startsWith u k := by
    intro k
    unfold startsWith
    split
    · rfl
    · rename_i htext
      refine isPrefixOf_append_of_not_mem ?_ u b
      obtain rfl | rfl := hd
      · exact space_not_mem_of_text? htext
      · exact lineFeed_not_mem_of_text? htext
  unfold symbol?
  rw [funext hstarts]

/-- Whether there is a token, and which, is decided before the next space or line feed. -/
theorem first?_append_cons (hblank : isBlank c = false) (hcomment : c ≠ '#') (hfeed : c ≠ '\n')
    (hd : d = ' ' ∨ d = '\n') (u b : List Char) : first? (c :: (u ++ d :: b)) = inLine? c u := by
  have hreturn : c ≠ '\r' := by
    rintro rfl
    cases hblank
  have hword : isWordPart d = false := by obtain rfl | rfl := hd <;> rfl
  have hdigit : d.isDigit = false := by obtain rfl | rfl := hd <;> rfl
  rw [first?_eq_inLine? hfeed fun h => absurd h hreturn, inLine?, inLine?,
    takeWhile_append_of_neg hword, takeWhile_append_of_neg hdigit, ← List.cons_append,
    symbol?_append_cons hd]
  simp only [hblank, hcomment, Bool.false_eq_true, if_false]

/-- A lexeme that ends before a line feed, or at it if it is no white space, does so before a space
as well. -/
theorem first?_append_space (h : first? (l.value ++ (u ++ '\n' :: b)) = some l)
    (hl : ∀ v, l = .blank v → u ≠ []) : first? (l.value ++ (u ++ ' ' :: b)) = some l := by
  obtain ⟨c, v, hv⟩ := List.exists_cons_of_ne_nil (value_ne_nil_of_first? h)
  rw [hv, List.cons_append] at h ⊢
  obtain rfl | ⟨rfl, after, hafter⟩ | ⟨hblank, hfeed, hreturn⟩ | ⟨hblank, hcomment, hfeed⟩ :=
    start_cases c (v ++ (u ++ '\n' :: b))
  · exact h
  · rw [hafter] at h
    cases h
    cases hv
    rfl
  · obtain ⟨p, -, -, hp⟩ := exists_inLine?_blank hblank
    rw [first?_eq_inLine? hfeed hreturn, hp] at h
    obtain rfl := Option.some.inj h
    obtain ⟨e, u, rfl⟩ := List.exists_cons_of_ne_nil (hl _ rfl)
    have htake : (v ++ e :: (u ++ '\n' :: b)).takeWhile p = v := (List.cons.inj hv).2
    have hhead : (v ++ e :: (u ++ ' ' :: b)).head? = (v ++ e :: (u ++ '\n' :: b)).head? := by
      cases v <;> rfl
    simp only [List.cons_append] at hreturn ⊢
    rw [first?_eq_inLine? hfeed fun hr => hhead ▸ hreturn hr, hp, htake,
      takeWhile_append_cons_congr htake]
  · rw [← List.append_assoc, first?_append_cons hblank hcomment hfeed (.inr rfl)] at h
    rw [← List.append_assoc, first?_append_cons hblank hcomment hfeed (.inl rfl), h]

/-- What is no lexeme before a line feed is none before a space. -/
theorem first?_append_space_of_eq_none (hu : u ≠ []) (h : first? (u ++ '\n' :: b) = none) :
    first? (u ++ ' ' :: b) = none := by
  obtain ⟨c, u, rfl⟩ := List.exists_cons_of_ne_nil hu
  rw [List.cons_append] at h ⊢
  obtain rfl | ⟨rfl, after, hafter⟩ | ⟨hblank, hfeed, hreturn⟩ | ⟨hblank, hcomment, hfeed⟩ :=
    start_cases c (u ++ '\n' :: b)
  · cases h
  · rw [hafter] at h
    cases h
  · obtain ⟨p, -, -, hp⟩ := exists_inLine?_blank hblank
    rw [first?_eq_inLine? hfeed hreturn, hp] at h
    cases h
  · rw [first?_append_cons hblank hcomment hfeed (.inr rfl)] at h
    rw [first?_append_cons hblank hcomment hfeed (.inl rfl), h]

end Lexeme

namespace Place

variable {p q : Place} {c : Char} {b u v w z : List Char}

/-- The place with another text to come. -/
def reading (p : Place) (text : List Char) : Place := { p with rest := text }

@[simp] theorem rest_reading (p : Place) (text : List Char) : (p.reading text).rest = text := rfl

theorem skip_reading (h : p.rest = v ++ w) (y : List Char) :
    (p.reading (v ++ y)).skip v.length = (p.skip v.length).reading y := by
  simp only [skip, reading, h, List.take_left, List.drop_left]

theorem rest_lineStart_suffix (p : Place) : p.lineStart.1.rest <:+ p.rest := by
  fun_induction lineStart p with
  | case1 p hrest => exact List.drop_suffix _ _
  | case2 p c rest hrest hc ih => exact ih.trans (List.drop_suffix _ _)
  | case3 p c rest hrest hc => exact List.drop_suffix _ _

/-- The content of a line that is ended starts before what is behind the line. -/
theorem exists_content_of_mem {rest : List Char} (hp : p.rest = u ++ z) (hu : '\n' ∈ u)
    (h : p.content.rest = c :: rest) : ∃ w, p.content.rest = c :: w ++ z := by
  obtain ⟨line, t, rfl⟩ := List.append_of_mem hu
  rw [List.append_assoc, List.cons_append] at hp
  rw [rest_content, hp, dropWhile_append_of_neg rfl] at h ⊢
  cases hwidth : line.dropWhile isIndentation with
  | nil =>
    rw [hwidth] at h
    cases h
    exact ⟨t, rfl⟩
  | cons d width =>
    rw [hwidth] at h
    cases h
    exact ⟨width ++ '\n' :: t, by simp⟩

/-- The width of a line is the same whatever is behind its first character. -/
theorem content_reading (hp : p.rest = u ++ z) (hq : p.content.rest = c :: v ++ z)
    (y : List Char) : (p.reading (u ++ y)).content = p.content.reading (c :: v ++ y) ∧
      (p.reading (u ++ y)).indentation = p.indentation := by
  have hc : isIndentation c = false := not_isIndentation_of_content hq
  have hsplit := p.rest_eq_takeWhile_append_content
  rw [hq] at hsplit
  have hwidth : ∀ d ∈ p.rest.takeWhile isIndentation, isIndentation d = true :=
    List.all_eq_true.1 List.all_takeWhile
  unfold content indentation
  generalize p.rest.takeWhile isIndentation = width at hsplit hwidth
  have hu : u = width ++ c :: v := by
    rw [hp, ← List.append_assoc] at hsplit
    exact List.append_cancel_right hsplit
  have hreading : (p.reading (u ++ y)).rest = width ++ c :: (v ++ y) := by simp [hu]
  rw [hreading, takeWhile_append_cons hwidth hc, hu, List.append_assoc, skip_reading hsplit]
  exact ⟨rfl, rfl⟩

/-- The content of a line is found in the same way whatever is behind its first character. -/
theorem lineStart_reading {width : Nat} (h : p.lineStart = (q, some width))
    (hp : p.rest = u ++ z) (hq : q.rest = v ++ z) (hv : v ≠ []) (y : List Char) :
    (p.reading (u ++ y)).lineStart = (q.reading (v ++ y), some width) := by
  fun_induction lineStart p generalizing u with
  | case1 p hrest => cases h
  | case2 p c rest hrest hc ih =>
    obtain ⟨-, hnil, -⟩ | ⟨after, hsplit, hnext⟩ := p.nextLine_cases
    · rw [lineStart_of_rest_eq_nil hnil] at h
      cases h
    have hfeed := Lexeme.not_mem_takeWhile_ne p.rest
    generalize p.rest.takeWhile (· ≠ '\n') = line at hsplit hnext hfeed
    have hafter : p.nextLine.rest = after := by rw [hnext, rest_skip_length hsplit]
    -- The content comes after the line feed of the blank line, so that stands in front of `z`.
    obtain ⟨t, ht⟩ : q.rest <:+ after := by
      have hsuffix := p.nextLine.rest_lineStart_suffix
      rwa [h, hafter] at hsuffix
    rw [hq, ← List.append_assoc] at ht
    have hu : u = line ++ ['\n'] ++ (t ++ v) := by
      rw [hp, ← ht, ← List.append_assoc] at hsplit
      exact List.append_cancel_right hsplit
    have hreading : (p.reading (u ++ y)).rest = line ++ '\n' :: (t ++ v ++ y) := by simp [hu]
    have hnext' : (p.reading (u ++ y)).nextLine = p.nextLine.reading (t ++ v ++ y) := by
      rw [nextLine_of_append hreading hfeed, hnext, ← skip_reading hsplit, hu]
      simp
    obtain ⟨w, hw⟩ := exists_content_of_mem hp (by simp [hu]) hrest
    have hmore : (p.reading (u ++ y)).content.rest = c :: (w ++ y) := by
      rw [(content_reading hp hw y).1]
      rfl
    rw [lineStart_of_blank hmore hc, hnext']
    exact ih h (by rw [hafter, ht])
  | case3 p c rest hrest hc =>
    cases h
    obtain ⟨d, v, rfl⟩ := List.exists_cons_of_ne_nil hv
    have hends : endsContent d = false := by
      rw [hq] at hrest
      cases hrest
      simpa using hc
    obtain ⟨hcontent, hwidth⟩ := content_reading hp hq y
    rw [lineStart_of_content (by rw [hcontent]; rfl) hends, hcontent, hwidth]

/-- Of a text that is still to come, the lexeme is the front. -/
theorem eq_append_of_first? {l : Lexeme} (hl : Lexeme.first? p.rest = some l) (hv : l.value = v)
    (hp : p.rest = u ++ z) (hq : (p.skip v.length).rest = w ++ z) :
    u = v ++ w ∧ p.rest = v ++ (w ++ z) := by
  obtain ⟨after, hafter⟩ := Lexeme.value_prefix_of_first? hl
  rw [hv] at hafter
  rw [rest_skip_length hafter.symm] at hq
  subst hq
  refine ⟨?_, hafter.symm⟩
  rw [hp, ← List.append_assoc] at hafter
  exact (List.append_cancel_right hafter).symm

/-- A lexeme up to the line feed is read with a space in its place, except for white space that ends
there. -/
theorem first?_reading {l : Lexeme} (hl : Lexeme.first? p.rest = some l) (hl' : l.value = v)
    (hp : p.rest = u ++ '\n' :: b) (hq : (p.skip v.length).rest = w ++ '\n' :: b)
    (hw : ∀ v, l = .blank v → w ≠ []) :
    Lexeme.first? (p.reading (u ++ ' ' :: b)).rest = some l ∧
      (p.reading (u ++ ' ' :: b)).skip v.length = (p.skip v.length).reading (w ++ ' ' :: b) := by
  obtain ⟨rfl, hrest⟩ := eq_append_of_first? hl hl' hp hq
  subst hl'
  rw [hrest] at hl
  rw [List.append_assoc, skip_reading hrest]
  exact ⟨Lexeme.first?_append_space hl hw, rfl⟩

end Place

namespace Scanner

variable {file : String} {s s' : Scanner} {layout more tokens : List Token}
  {a b u u' : List Char}

/-- The scanner with another text to come. -/
def reading (s : Scanner) (text : List Char) : Scanner := { s with place := s.place.reading text }

@[simp] theorem place_reading (s : Scanner) (text : List Char) :
    (s.reading text).place = s.place.reading text := rfl

/-- A line whose content stands before the line feed is entered in the same way. -/
theorem Enters.reading (h : s.Enters layout s') (hs : s.place.rest = u ++ '\n' :: b)
    (hs' : s'.place.rest = u' ++ '\n' :: b) (y : List Char) :
    (s.reading (u ++ y)).Enters layout (s'.reading (u' ++ y)) := by
  have hne : ∀ {place width}, s.place.lineStart = (place, some width) →
      place.rest = u' ++ '\n' :: b → u' ≠ [] := by
    rintro place width hline hplace rfl
    obtain ⟨c, rest, hrest, hends, -⟩ := Place.atContent_of_lineStart hline
    rw [hplace] at hrest
    cases hrest
    cases hends
  cases h with
  | ended hline =>
    have hnil := Place.rest_eq_nil_of_lineStart hline
    simp [hnil] at hs'
  | wider hline hwider =>
    exact .wider (s := s.reading (u ++ y))
      (Place.lineStart_reading hline hs hs' (hne hline hs') y) hwider
  | level hline hle hkept hwidth =>
    exact .level (s := s.reading (u ++ y))
      (Place.lineStart_reading hline hs hs' (hne hline hs') y) hle hkept hwidth

theorem Enters.rest_suffix (h : s.Enters layout s') : s'.place.rest <:+ s.place.rest := by
  rw [h.place]
  exact s.place.rest_lineStart_suffix

theorem Step.rest_suffix (h : s.Step more s') : s'.place.rest <:+ s.place.rest := by
  cases h with
  | joined => exact List.drop_suffix _ _
  | broken _ _ hentered => exact hentered.rest_suffix.trans (List.drop_suffix _ _)
  | blank => exact List.drop_suffix _ _
  | token => exact List.drop_suffix _ _

/-- A step that ends before the line feed, or at it if it reads no comment, is made before a space
as well. -/
theorem Step.run_reading (h : s.Step more s') (hs : s.place.rest = u ++ '\n' :: b)
    (hs' : s'.place.rest = u' ++ '\n' :: b) (hopen : u' = [] → 0 < s'.depth)
    (hcomment : ¬ InComment u '\n') :
    (s.reading (u ++ ' ' :: b)).run = (s'.reading (u' ++ ' ' :: b)).run.map (more ++ ·) := by
  cases h with
  | @joined v hl hdepth =>
    obtain ⟨hl', hskip⟩ := Place.first?_reading (v := v) hl rfl hs hs' nofun
    have hstep := Step.joined (s := s.reading (u ++ ' ' :: b)) hl' hdepth
    rw [place_reading, hskip] at hstep
    exact run_of_step hstep
  | @broken v layout s' hl hdepth hentered =>
    obtain ⟨t, ht⟩ := hentered.rest_suffix
    rw [hs', ← List.append_assoc] at ht
    obtain ⟨hl', hskip⟩ := Place.first?_reading (v := v) hl rfl hs ht.symm nofun
    have hentered' := hentered.reading ht.symm hs' (' ' :: b)
    have hstep := Step.broken (s := s.reading (u ++ ' ' :: b)) hl' hdepth
      (by rw [place_reading, hskip]; exact hentered')
    exact run_of_step hstep
  | @blank v hl =>
    by_cases hu' : u' = []
    · subst hu'
      obtain ⟨rfl, hrest⟩ := Place.eq_append_of_first? (v := v) hl rfl hs hs'
      rw [List.append_nil] at hcomment ⊢
      rw [List.nil_append] at hrest
      have hwhite : ∀ c ∈ v, isWhite c = true := by
        obtain hblank | ⟨more, rfl, hmore⟩ := Lexeme.blank_cases hl
        · exact fun c hc => isWhite_of_isBlank (hblank c hc)
        · exact absurd (.inr ⟨[], more, rfl, hmore⟩) hcomment
      rw [run_of_isWhite (s := s.reading (v ++ ' ' :: b)) (hopen rfl) rfl hwhite, place_reading,
        Place.skip_reading hrest]
      exact (congrFun Except.map_id _).symm
    · obtain ⟨hl', hskip⟩ := Place.first?_reading (v := v) hl rfl hs hs' fun _ _ => hu'
      have hstep := Step.blank (s := s.reading (u ++ ' ' :: b)) hl'
      rw [place_reading, hskip] at hstep
      exact run_of_step hstep
  | @token kind v hl =>
    obtain ⟨hl', hskip⟩ := Place.first?_reading (v := v) hl rfl hs hs' nofun
    have hstep := Step.token (s := s.reading (u ++ ' ' :: b)) hl'
    rw [place_reading, Place.span, hskip] at hstep
    exact run_of_step hstep

/-- What is read up to the line feed is also read with a space in its place. -/
theorem Reaches.tokenize_space (h : Reaches file (a ++ '\n' :: b) tokens s)
    (hs : s.place.rest = u ++ '\n' :: b) (hopen : u = [] → 0 < s.depth)
    (hcomment : ¬ InComment a '\n') :
    tokenize file (a ++ ' ' :: b) = (s.reading (u ++ ' ' :: b)).run.map (tokens ++ ·) := by
  induction h generalizing u with
  | start hentered => exact runLine_of_enters (hentered.reading rfl hs (' ' :: b))
  | @step tokens more s s' hbefore hstep ih =>
    obtain ⟨t, ht⟩ := hstep.rest_suffix
    rw [hs, ← List.append_assoc] at ht
    have hne : t ++ u ≠ [] := by
      intro hnil
      have hlt := length_lt_of_step (step_eq_ok_iff.2 hstep)
      rw [hs, ← ht, hnil, (List.append_eq_nil_iff.1 hnil).2] at hlt
      exact absurd hlt (Nat.lt_irrefl _)
    have hcomment' : ¬ InComment (t ++ u) '\n' := by
      obtain ⟨-, before, hbefore, -⟩ := hbefore.place
      rw [← ht, ← List.append_assoc] at hbefore
      rw [List.append_cancel_right hbefore] at hcomment
      exact fun h => hcomment (h.append_left before)
    rw [ih ht.symm fun h => absurd h hne, hstep.run_reading ht.symm hs hopen hcomment',
      Except.map_map]
    simp only [List.append_assoc]

/-- A lexeme that reads the line feed is a line break that ends with it. -/
theorem eq_lineBreak_of_passes {l : Lexeme} (hl : Lexeme.first? s.place.rest = some l)
    (hs : s.place.rest = u ++ '\n' :: b)
    (hle : (s.place.skip l.value.length).rest.length ≤ b.length) :
    l = .lineBreak (u ++ ['\n']) ∧ ∀ c ∈ u, isWhite c = true := by
  obtain ⟨w, hw⟩ := Lexeme.value_prefix_of_first? hl
  rw [Place.rest_skip_length hw.symm] at hle
  rw [hs] at hw
  obtain ⟨t, ht⟩ : ∃ t, l.value = u ++ '\n' :: t := by
    obtain ⟨t, rfl, rfl⟩ | ⟨t, ht, htail⟩ := List.append_eq_append_iff.1 hw
    · simp at hle
      omega
    · cases t with
      | nil =>
        rw [List.nil_append] at htail
        rw [← htail, List.length_cons] at hle
        omega
      | cons d t =>
        cases htail
        exact ⟨t, ht⟩
  cases l with
  | lineBreak v =>
    obtain rfl : v = u ++ '\n' :: t := ht
    obtain hv | hv := Lexeme.lineBreak_cases hl
    · cases u with
      | nil =>
        cases hv
        exact ⟨rfl, List.forall_mem_nil _⟩
      | cons c u => simp at hv
    · cases u with
      | nil => simp at hv
      | cons c u =>
        obtain ⟨rfl, hu⟩ := List.cons.inj hv
        cases u with
        | nil =>
          cases hu
          exact ⟨rfl, List.forall_mem_singleton.2 rfl⟩
        | cons d u => simp at hu
  | blank v =>
    have hfeed := Lexeme.lineFeed_not_mem hl nofun
    simp [ht] at hfeed
  | token k v =>
    have hfeed := Lexeme.lineFeed_not_mem hl nofun
    simp [ht] at hfeed

/-- From the last state that is not past it, the space is read as the line feed is. -/
theorem run_reading_of_last (hs : s.place.rest = u ++ '\n' :: b) (hopen : 0 < s.depth)
    (hlast : ∀ more s', s.Step more s' → s'.place.rest.length ≤ b.length) :
    (s.reading (u ++ ' ' :: b)).run = s.run := by
  cases hl : Lexeme.first? s.place.rest with
  | none =>
    have hu : u ≠ [] := by
      rintro rfl
      rw [hs] at hl
      cases hl
    have hnone := Lexeme.first?_append_space_of_eq_none hu (hs ▸ hl)
    rw [run_of_step_eq_error (s := s) (by simp [hs]) (step_eq_error_iff.2 (.inl ⟨hl, rfl⟩)),
      run_of_step_eq_error (s := s.reading (u ++ ' ' :: b)) (by simp)
        (step_eq_error_iff.2 (.inl ⟨hnone, rfl⟩))]
    obtain ⟨c, u, rfl⟩ := List.exists_cons_of_ne_nil hu
    rw [hs]
    rfl
  | some l =>
    have hle : (s.place.skip l.value.length).rest.length ≤ b.length := by
      cases l with
      | lineBreak v => exact hlast _ _ (.joined hl hopen)
      | blank v => exact hlast _ _ (.blank hl)
      | token k v => exact hlast _ _ (.token hl)
    obtain ⟨rfl, hwhite⟩ := eq_lineBreak_of_passes hl hs hle
    have hspace : ∀ c ∈ u ++ [' '], isWhite c = true :=
      List.forall_mem_append.2 ⟨hwhite, List.forall_mem_singleton.2 rfl⟩
    have hreading : (s.reading (u ++ ' ' :: b)).place.rest = u ++ [' '] ++ b := by simp
    have hplace : (s.place.reading (u ++ ' ' :: b)).skip (u ++ [' ']).length =
        s.place.skip (u ++ ['\n']).length := by
      have hwidth : byteSize [' '] = byteSize ['\n'] := rfl
      simp [Place.skip, Place.reading, hs, List.take_append, byteSize_append, hwidth]
    rw [run_of_step_nil (.joined hl hopen),
      run_of_isWhite (s := s.reading (u ++ ' ' :: b)) hopen hreading hspace, place_reading, hplace]
    rfl

end Scanner

/-- So many parentheses are open where the scanner comes to the line feed between two texts: in its
last state that is not past the line feed. From there it reads the line feed, or goes no further
because it has no token. -/
def DepthAt (file : String) (a b : List Char) (depth : Nat) : Prop :=
  ∃ tokens s u, Scanner.Reaches file (a ++ '\n' :: b) tokens s ∧ s.place.rest = u ++ '\n' :: b ∧
    s.depth = depth ∧ ∀ more s', s.Step more s' → s'.place.rest.length ≤ b.length

variable {file : String} {a b : List Char} {depth : Nat}

/-- Where parentheses are open, a line feed that ends no comment is as good as a space. -/
theorem line_feed_as_space (h : DepthAt file a b depth) (hopen : 0 < depth)
    (hcomment : ¬ InComment a '\n') :
    tokenize file (a ++ ' ' :: b) = tokenize file (a ++ '\n' :: b) := by
  obtain ⟨tokens, s, u, hreached, hs, rfl, hlast⟩ := h
  rw [hreached.tokenize_space hs (fun _ => hopen) hcomment, hreached.tokenize_eq,
    Scanner.run_reading_of_last hs hopen hlast]

theorem line_feed_as_space_nested :
    let a := "f(x,\n (1\r".toList
    let b := " + 2 # é\n)) - @\n".toList
    DepthAt "shell" a b 2 ∧ 0 < 2 ∧ ¬ InComment a '\n' ∧
      tokenize "shell" (a ++ ' ' :: b) = tokenize "shell" (a ++ '\n' :: b) := by
  intro a b
  have hdepth : DepthAt "shell" a b 2 := by
    have hreached : Scanner.Reaches "shell" (a ++ '\n' :: b) _ _ :=
      .step (.step (.step (.step (.step (.step (.step (.step (.start
        (.level (Place.lineStart_of_content rfl rfl) (Nat.le_refl 0) rfl rfl))
        (@Scanner.Step.token _ .identifier ['f'] rfl))
        (@Scanner.Step.token _ .openParen ['('] rfl))
        (@Scanner.Step.token _ .identifier ['x'] rfl))
        (@Scanner.Step.token _ .comma [','] rfl))
        (@Scanner.Step.joined _ ['\n'] rfl (by decide)))
        (@Scanner.Step.blank _ [' '] rfl))
        (@Scanner.Step.token _ .openParen ['('] rfl))
        (@Scanner.Step.token _ .number ['1'] rfl)
    refine ⟨_, _, ['\r'], hreached, rfl, rfl, fun more s' hstep => ?_⟩
    cases hstep with
    | joined hl =>
      cases hl
      exact Nat.le_refl _
    | broken _ hzero => cases hzero
    | blank hl => cases hl
    | token hl => cases hl
  have hcomment : ¬ InComment a '\n' := by
    rintro (hfeed | ⟨front, more, ha, -⟩)
    · cases hfeed
    · have hmem : '#' ∈ a := by simp [ha]
      exact absurd hmem (by decide)
  exact ⟨hdepth, by decide, hcomment, line_feed_as_space hdepth (by decide) hcomment⟩

end Offside
