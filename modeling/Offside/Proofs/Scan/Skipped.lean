import Offside.Proofs.Scan.Width

/-! What the scanner passes over without a token. It is white space and comments, and one thing
more: outside of parentheses a line whose first character after spaces and tabs is a carriage return
counts as blank, and is passed over with everything that stands on it. -/
namespace Offside
open Text

/-- Whether a character is a space, a tab, a carriage return or a line feed. -/
def isWhite (c : Char) : Bool := Lexeme.isBlank c || c = '\n'

/-- Whether a character after this text is part of a comment: it starts one, or one has started on
its line. -/
def InComment (before : List Char) (c : Char) : Prop :=
  c = '#' ∨ ∃ front more, before = front ++ '#' :: more ∧ '\n' ∉ more

/-- Whether a line starts after this text. -/
def AtLineStart (before : List Char) : Prop := before = [] ∨ ∃ front, before = front ++ ['\n']

/-- Whether the tokens that stand before an offset leave no parenthesis open. -/
def ClosedAt (tokens : List Token) (offset : Nat) : Prop :=
  ∃ u v, tokens = u ++ v ∧ (∀ tok ∈ u, tok.span.stop.offset.toNat ≤ offset) ∧
    (∀ tok ∈ v, offset ≤ tok.span.start.offset.toNat) ∧ parensAfter 0 u = 0

/-- Whether the line that this text ends in starts outside of parentheses and opens with a carriage
return, spaces and tabs apart. -/
def OpensWithReturn (tokens : List Token) (before : List Char) : Prop :=
  ∃ front width more, before = front ++ (width ++ '\r' :: more) ∧ AtLineStart front ∧
    ClosedAt tokens (byteSize front) ∧ (∀ d ∈ width, Place.isIndentation d = true) ∧ '\n' ∉ more

/-- Whether a character after this text may be passed over between these tokens. -/
def MayBeSkipped (tokens : List Token) (before : List Char) (c : Char) : Prop :=
  isWhite c = true ∨ InComment before c ∨ OpensWithReturn tokens before

/-- Whether all of a text may be passed over that stands after another. -/
def Skippable (tokens : List Token) (before v : List Char) : Prop :=
  ∀ front c more, v = front ++ c :: more → MayBeSkipped tokens (before ++ front) c

theorem ClosedAt.append_right {tokens more : List Token} {n : Nat} (h : ClosedAt tokens n)
    (hmore : ∀ tok ∈ more, n ≤ tok.span.start.offset.toNat) : ClosedAt (tokens ++ more) n := by
  obtain ⟨u, v, rfl, hu, hv, hclosed⟩ := h
  exact ⟨u, v ++ more, List.append_assoc .., hu, List.forall_mem_append.2 ⟨hv, hmore⟩, hclosed⟩

namespace Skippable

variable {tokens : List Token} {before v w : List Char}

theorem of_isWhite (h : ∀ c ∈ v, isWhite c = true) : Skippable tokens before v := by
  rintro front c more rfl
  exact .inl (h c (by simp))

theorem append (hv : Skippable tokens before v) (hw : Skippable tokens (before ++ v) w) :
    Skippable tokens before (v ++ w) := by
  intro front c more heq
  obtain ⟨u, rfl, hu⟩ | ⟨u, rfl, hu⟩ := List.append_eq_append_iff.1 heq
  · rw [← List.append_assoc]
    exact hw u c more hu
  · cases u with
    | nil =>
      have hfirst := hw [] c more hu.symm
      simpa using hfirst
    | cons d u =>
      cases hu
      exact hv front c u rfl

/-- A comment goes on up to the end of its line. -/
theorem comment (h : '\n' ∉ v) : Skippable tokens before ('#' :: v) := by
  intro front c more heq
  cases front with
  | nil =>
    cases heq
    exact .inr (.inl (.inl rfl))
  | cons d front =>
    rw [List.cons_append, List.cons.injEq] at heq
    obtain ⟨rfl, rfl⟩ := heq
    have hfront : '\n' ∉ front := fun hmem => h (by simp [hmem])
    exact .inr (.inl (.inr ⟨before, front, rfl, hfront⟩))

/-- Outside of parentheses a line that opens with a carriage return is passed over up to its end. -/
theorem afterReturn {width : List Char} (hbefore : AtLineStart before)
    (hclosed : ClosedAt tokens (byteSize before))
    (hwidth : ∀ d ∈ width, Place.isIndentation d = true) (h : '\n' ∉ v) :
    Skippable tokens (before ++ width) ('\r' :: v) := by
  intro front c more heq
  cases front with
  | nil =>
    cases heq
    exact .inl rfl
  | cons d front =>
    rw [List.cons_append, List.cons.injEq] at heq
    obtain ⟨rfl, rfl⟩ := heq
    have hfront : '\n' ∉ front := fun hmem => h (by simp [hmem])
    exact .inr (.inr ⟨before, width, front, by simp, hbefore, hclosed, hwidth, hfront⟩)

end Skippable

theorem isWhite_of_isIndentation {c : Char} (h : Place.isIndentation c = true) :
    isWhite c = true := by
  simp only [Place.isIndentation, Bool.or_eq_true, decide_eq_true_eq] at h
  obtain rfl | rfl := h <;> rfl

theorem isWhite_of_isBlank {c : Char} (h : Lexeme.isBlank c = true) : isWhite c = true := by
  rw [isWhite, h, Bool.true_or]

namespace Lexeme

variable {text value : List Char}

theorem not_mem_takeWhile_ne (rest : List Char) : '\n' ∉ rest.takeWhile (· ≠ '\n') := by
  intro hmem
  have hall := List.all_eq_true.1 (List.all_takeWhile (p := (· ≠ '\n')) (l := rest)) _ hmem
  simp at hall

/-- Blank text within a line is white space or a comment. -/
theorem blank_cases (h : first? text = some (.blank value)) :
    (∀ d ∈ value, isBlank d = true) ∨ ∃ more, value = '#' :: more ∧ '\n' ∉ more := by
  unfold first? at h
  split at h
  · cases h
  · cases h
  · cases h
  unfold inLine? at h
  split at h
  · rename_i hblank
    cases h
    exact .inl (List.forall_mem_cons.2 ⟨hblank, List.all_eq_true.1 List.all_takeWhile⟩)
  split at h
  · rename_i hcomment
    cases h
    exact .inr ⟨_, congrArg (List.cons · _) hcomment, not_mem_takeWhile_ne _⟩
  split at h
  · cases h
  split at h
  · cases h
  · obtain ⟨k, -, s, -, hl⟩ := symbol?_eq_some h
    cases hl

theorem skippable_of_first?_blank {tokens : List Token} {before : List Char}
    (h : first? text = some (.blank value)) : Skippable tokens before value := by
  obtain hblank | ⟨more, rfl, hmore⟩ := blank_cases h
  · exact .of_isWhite fun d hd => isWhite_of_isBlank (hblank d hd)
  · exact .comment hmore

theorem isWhite_of_first?_lineBreak (h : first? text = some (.lineBreak value)) :
    ∀ c ∈ value, isWhite c = true := by
  obtain rfl | rfl := lineBreak_cases h
  · exact List.forall_mem_singleton.2 rfl
  · exact List.forall_mem_cons.2 ⟨rfl, List.forall_mem_singleton.2 rfl⟩

end Lexeme

namespace Place

variable {file : String} {source before v w : List Char} {tokens : List Token} {c : Char}
  {p q r : Place}

/-- What stands between a place and a later one may be passed over between these tokens. -/
def Skips (source : List Char) (tokens : List Token) (p q : Place) : Prop :=
  ∃ before v, source = before ++ p.rest ∧ p.rest = v ++ q.rest ∧
    q.offset = p.offset + byteSize v ∧ Skippable tokens before v

theorem Skips.trans (hpq : p.Skips source tokens q) (hqr : q.Skips source tokens r) :
    p.Skips source tokens r := by
  obtain ⟨before, v, hbefore, hv, hoffset, hskippable⟩ := hpq
  obtain ⟨front, w, hfront, hw, hoffset', hskippable'⟩ := hqr
  have hsource : before ++ v ++ q.rest = front ++ q.rest := by
    rw [List.append_assoc, ← hv, ← hbefore, hfront]
  obtain rfl := List.append_cancel_right hsource
  refine ⟨before, v ++ w, hbefore, ?_, ?_, hskippable.append hskippable'⟩
  · rw [hv, hw, List.append_assoc]
  · rw [hoffset', hoffset, byteSize_append, Nat.add_assoc]

theorem Skips.skip (hsource : source = before ++ p.rest) (hrest : p.rest = v ++ w)
    (hv : Skippable tokens before v) : p.Skips source tokens (p.skip v.length) :=
  ⟨before, v, hsource, by rw [rest_skip_length hrest, hrest], offset_skip_length hrest, hv⟩

theorem rest_eq_takeWhile_append_content (p : Place) :
    p.rest = p.rest.takeWhile isIndentation ++ p.content.rest := by
  rw [rest_content, List.takeWhile_append_dropWhile]

theorem Skips.content (hsource : source = before ++ p.rest) :
    p.Skips source tokens p.content := by
  refine .skip hsource p.rest_eq_takeWhile_append_content (.of_isWhite fun d hd => ?_)
  exact isWhite_of_isIndentation (List.all_eq_true.1 List.all_takeWhile d hd)

/-- The line ahead may be passed over if it is blank. -/
theorem skippable_line {rest : List Char} (hbefore : AtLineStart before)
    (hclosed : ClosedAt tokens (byteSize before)) (hrest : p.content.rest = c :: rest)
    (hc : endsContent c = true) : Skippable tokens before (p.rest.takeWhile (· ≠ '\n')) := by
  have hsplit := p.rest_eq_takeWhile_append_content
  rw [hrest] at hsplit
  have hwidth : ∀ d ∈ p.rest.takeWhile isIndentation, isIndentation d = true :=
    List.all_eq_true.1 List.all_takeWhile
  have hfeed : ∀ d ∈ p.rest.takeWhile isIndentation, decide (d ≠ '\n') = true := by
    intro d hd
    have hd := hwidth d hd
    refine decide_eq_true ?_
    rintro rfl
    cases hd
  have hwhite : Skippable tokens before (p.rest.takeWhile isIndentation) :=
    .of_isWhite fun d hd => isWhite_of_isIndentation (hwidth d hd)
  rw [hsplit, List.takeWhile_append_of_pos hfeed]
  refine hwhite.append ?_
  simp only [endsContent, Bool.or_eq_true, decide_eq_true_eq] at hc
  obtain (rfl | rfl) | rfl := hc
  · exact .of_isWhite (List.forall_mem_nil _)
  · exact .afterReturn hbefore hclosed hwidth (Lexeme.not_mem_takeWhile_ne rest)
  · exact .comment (Lexeme.not_mem_takeWhile_ne rest)

/-- A place that only the end of the source or the front of a line can be. -/
def StartsLine (source : List Char) (p : Place) : Prop :=
  ∀ before, source = before ++ p.rest → p.rest = [] ∨ AtLineStart before

theorem startsLine_front (file : String) (source : List Char) :
    (front file source).StartsLine source := by
  intro before hsource
  exact .inr (.inl (List.self_eq_append_left.1 hsource))

/-- After a line feed a line starts. -/
theorem StartsLine.skip (hsource : source = before ++ p.rest) (hrest : p.rest = v ++ ['\n'] ++ w) :
    (p.skip (v ++ ['\n']).length).StartsLine source := by
  intro front hfront
  rw [rest_skip_length hrest, hsource, hrest, ← List.append_assoc] at hfront
  obtain rfl := List.append_cancel_right hfront
  exact .inr (.inr ⟨before ++ v, by rw [List.append_assoc]⟩)

theorem startsLine_nextLine (hsource : source = before ++ p.rest) :
    p.nextLine.StartsLine source := by
  obtain ⟨-, hnil, -⟩ | ⟨w, hrest, hnext⟩ := p.nextLine_cases
  · exact fun front _ => .inl hnil
  · rw [hnext]
    exact .skip hsource hrest

theorem Skips.nextLine (hsource : source = before ++ p.rest)
    (hv : Skippable tokens before (p.rest.takeWhile (· ≠ '\n'))) :
    p.Skips source tokens p.nextLine := by
  obtain ⟨hrest, hnil, hoffset⟩ | ⟨w, hrest, hnext⟩ := p.nextLine_cases
  · refine ⟨before, p.rest.takeWhile (· ≠ '\n'), hsource, ?_, hoffset, hv⟩
    rw [hnil, List.append_nil]
    exact hrest
  · rw [hnext]
    refine .skip hsource hrest (hv.append (.of_isWhite fun d hd => ?_))
    rw [List.mem_singleton.1 hd]
    rfl

/-- The way to the content of a line only passes over what may be passed over, if no parenthesis is
open. -/
theorem Skips.lineStart (hp : p.In file source) (hstart : p.StartsLine source)
    (hclosed : ∀ n, p.offset ≤ n → ClosedAt tokens n) : p.Skips source tokens p.lineStart.1 := by
  fun_induction Place.lineStart p with
  | case1 p hrest =>
    obtain ⟨-, before, hsource, -⟩ := hp
    exact .content hsource
  | case2 p c rest hrest hc ih =>
    have hnext : p.nextLine.In file source := hp.skip _
    obtain ⟨-, before, hsource, hoffset⟩ := hp
    have hline : Skippable tokens before (p.rest.takeWhile (· ≠ '\n')) := by
      obtain hnil | hbefore := hstart before hsource
      · simp [Place.content, hnil] at hrest
      · exact skippable_line hbefore (hclosed _ (Nat.le_of_eq hoffset)) hrest hc
    have hlater : ∀ n, p.nextLine.offset ≤ n → ClosedAt tokens n := fun n hn =>
      hclosed n (Nat.le_trans (p.offset_le_skip _) hn)
    exact (Skips.nextLine hsource hline).trans (ih hnext (startsLine_nextLine hsource) hlater)
  | case3 p c rest hrest hc =>
    obtain ⟨-, before, hsource, -⟩ := hp
    exact .content hsource

end Place

/-- Whether a byte lies in the span of a token. -/
def Covers (tokens : List Token) (k : Nat) : Prop :=
  ∃ tok ∈ tokens, tok.span.start.offset.toNat ≤ k ∧ k < tok.span.stop.offset.toNat

/-- Each byte before an offset lies in a token or may be passed over. -/
def Accounts (source : List Char) (tokens : List Token) (n : Nat) : Prop :=
  ∀ before c after k, source = before ++ c :: after → byteSize before ≤ k →
    k < byteSize before + c.utf8Size → k < n → Covers tokens k ∨ MayBeSkipped tokens before c

/-- Each byte of a text belongs to a character. -/
theorem exists_of_lt_byteSize {text : List Char} {k : Nat} (hk : k < byteSize text) :
    ∃ before c after, text = before ++ c :: after ∧ byteSize before ≤ k ∧
      k < byteSize before + c.utf8Size := by
  induction text generalizing k with
  | nil => cases hk
  | cons d text ih =>
    obtain hd | hd := Nat.lt_or_ge k d.utf8Size
    · exact ⟨[], d, text, rfl, Nat.zero_le k, by simpa using hd⟩
    · have hlt : k - d.utf8Size < byteSize text := by
        rw [byteSize_cons] at hk
        omega
      obtain ⟨before, c, after, rfl, hle, hlt⟩ := ih hlt
      refine ⟨d :: before, c, after, rfl, ?_, ?_⟩ <;> rw [byteSize_cons] <;> omega

/-- A character with a byte in a stretch of text is one of the stretch. -/
theorem exists_of_byte_between {u v w before after : List Char} {c : Char} {k : Nat}
    (h : before ++ c :: after = u ++ (v ++ w)) (hbefore : byteSize before ≤ k)
    (hc : k < byteSize before + c.utf8Size) (hu : byteSize u ≤ k)
    (hv : k < byteSize u + byteSize v) :
    ∃ front more, before = u ++ front ∧ v = front ++ c :: more := by
  obtain ⟨x, rfl, hx⟩ | ⟨x, rfl, hx⟩ := List.append_eq_append_iff.1 h
  · cases x with
    | nil =>
      cases v with
      | nil =>
        rw [List.append_nil, byteSize_nil] at hv
        omega
      | cons d v =>
        cases hx
        exact ⟨[], v, by simp, rfl⟩
    | cons d x =>
      cases hx
      simp only [byteSize_append, byteSize_cons] at hu
      omega
  · obtain ⟨y, rfl, hy⟩ | ⟨y, rfl, hy⟩ := List.append_eq_append_iff.1 hx
    · simp only [byteSize_append] at hbefore
      omega
    · cases y with
      | nil =>
        simp only [byteSize_append, byteSize_nil] at hbefore hv
        omega
      | cons d y =>
        cases hy
        exact ⟨x, y, rfl, rfl⟩

variable {file : String} {source : List Char} {tokens more : List Token} {p q : Place} {n m k : Nat}

theorem Covers.append_left (h : Covers more k) : Covers (tokens ++ more) k := by
  obtain ⟨tok, htok, hk⟩ := h
  exact ⟨tok, List.mem_append_right _ htok, hk⟩

theorem Covers.append_right (h : Covers tokens k) : Covers (tokens ++ more) k := by
  obtain ⟨tok, htok, hk⟩ := h
  exact ⟨tok, List.mem_append_left _ htok, hk⟩

/-- Behind tokens that leave no parenthesis open none is open. -/
theorem ClosedAt.of_tokensBetween (h : TokensBetween 0 n tokens)
    (hparens : parensAfter 0 tokens = 0) (hm : n ≤ m) : ClosedAt tokens m :=
  ⟨tokens, [], (List.append_nil tokens).symm,
    fun _ htok => Nat.le_trans (h.of_mem htok).2.2 hm, nofun, hparens⟩

theorem OpensWithReturn.append_right {before : List Char} (h : OpensWithReturn tokens before)
    (hmore : ∀ tok ∈ more, byteSize before ≤ tok.span.start.offset.toNat) :
    OpensWithReturn (tokens ++ more) before := by
  obtain ⟨front, width, w, rfl, hfront, hclosed, hwidth, hw⟩ := h
  refine ⟨front, width, w, rfl, hfront, hclosed.append_right fun tok htok => ?_, hwidth, hw⟩
  exact Nat.le_trans (by simp [byteSize_append]) (hmore tok htok)

/-- What is accounted for stays so with the tokens to come. -/
theorem Accounts.append_right (h : Accounts source tokens n)
    (hmore : ∀ tok ∈ more, n ≤ tok.span.start.offset.toNat) :
    Accounts source (tokens ++ more) n := by
  intro before c after k hsource hle hlt hk
  have hlater : ∀ tok ∈ more, byteSize before ≤ tok.span.start.offset.toNat := fun tok htok =>
    Nat.le_trans hle (Nat.le_trans (Nat.le_of_lt hk) (hmore tok htok))
  obtain hcovers | hwhite | hcomment | hreturn := h before c after k hsource hle hlt hk
  · exact .inl hcovers.append_right
  · exact .inr (.inl hwhite)
  · exact .inr (.inr (.inl hcomment))
  · exact .inr (.inr (.inr (hreturn.append_right hlater)))

/-- What is passed over is accounted for. -/
theorem Accounts.skips (h : Accounts source tokens p.offset) (hp : p.In file source)
    (hskips : p.Skips source tokens q) : Accounts source tokens q.offset := by
  intro before c after k hsource hle hlt hk
  obtain hbefore | hfrom := Nat.lt_or_ge k p.offset
  · exact h before c after k hsource hle hlt hbefore
  obtain ⟨-, u, hu, hoffset⟩ := hp
  obtain ⟨u', v, hu', hrest, hstop, hskippable⟩ := hskips
  obtain rfl : u = u' := List.append_cancel_right (hu.symm.trans hu')
  have hsplit : before ++ c :: after = u ++ (v ++ q.rest) := by
    rw [← hsource, hu, hrest]
  obtain ⟨front, more, rfl, hv⟩ :=
    exists_of_byte_between hsplit hle hlt (hoffset ▸ hfrom) (by omega)
  exact .inr (hskippable front c more hv)

/-- A token accounts for its text. -/
theorem Accounts.token {kind : TokenKind} {value : String} {length : Nat}
    (hsize : byteSize source < UInt32.size) (hp : p.In file source)
    (h : Accounts source tokens p.offset) :
    Accounts source (tokens ++ [⟨kind, value, p.span length⟩]) (p.skip length).offset := by
  have hstart : ∀ tok ∈ [(⟨kind, value, p.span length⟩ : Token)],
      p.offset ≤ tok.span.start.offset.toNat :=
    List.forall_mem_singleton.2 (Nat.le_of_eq (hp.toNat_position hsize).symm)
  intro before c after k hsource hle hlt hk
  obtain hbefore | hfrom := Nat.lt_or_ge k p.offset
  · exact h.append_right hstart before c after k hsource hle hlt hbefore
  refine .inl (.append_left ⟨_, List.mem_singleton.2 rfl, ?_, ?_⟩)
  · rwa [Place.span, hp.toNat_position hsize]
  · rwa [Place.span, (hp.skip length).toNat_position hsize]

namespace Scanner

variable {s s' : Scanner}

/-- Entering a line outside of parentheses leaves no byte unaccounted for. -/
theorem Enters.accounts (hsize : byteSize source < UInt32.size) (hs : s.place.In file source)
    (hstart : s.place.StartsLine source) (hbetween : TokensBetween 0 s.place.offset tokens)
    (hparens : parensAfter 0 tokens = 0) (h : Accounts source tokens s.place.offset)
    (hentered : s.Enters more s') : Accounts source (tokens ++ more) s'.place.offset := by
  have hline := Place.Skips.lineStart hs hstart fun _ hn => .of_tokensBetween hbetween hparens hn
  have hposition := (hentered.place_in hs).toNat_position hsize
  have hcontent : Accounts source tokens s'.place.offset := by
    rw [hentered.place]
    exact h.skips hs hline
  refine hcontent.append_right fun tok htok => ?_
  rw [hentered.span_eq tok htok]
  exact Nat.le_of_eq hposition.symm

/-- A step leaves no byte unaccounted for. -/
theorem Step.accounts (hsize : byteSize source < UInt32.size)
    (hreached : Reaches file source tokens s) (h : Accounts source tokens s.place.offset)
    (hstep : s.Step more s') : Accounts source (tokens ++ more) s'.place.offset := by
  have hs := hreached.place
  have hplace := hs
  obtain ⟨-, before, hsource, -⟩ := hplace
  cases hstep with
  | @joined value hl _ =>
    obtain ⟨w, hw⟩ := Lexeme.value_prefix_of_first? hl
    rw [List.append_nil]
    exact h.skips hs (.skip hsource hw.symm (.of_isWhite (Lexeme.isWhite_of_first?_lineBreak hl)))
  | @broken value layout s' hl hdepth hentered =>
    obtain ⟨w, hw⟩ := Lexeme.value_prefix_of_first? hl
    obtain ⟨n, hn⟩ := s.endLine_eq_replicate
    have hposition := hs.toNat_position hsize
    have hend : Accounts source (tokens ++ s.endLine) s.place.offset := by
      refine h.append_right fun tok htok => ?_
      rw [hn] at htok
      rw [List.eq_of_mem_replicate htok]
      exact Nat.le_of_eq hposition.symm
    have hbreak := hend.skips hs
      (.skip hsource hw.symm (.of_isWhite (Lexeme.isWhite_of_first?_lineBreak hl)))
    have hbetween : TokensBetween 0 (s.place.skip value.length).offset (tokens ++ s.endLine) := by
      have hle := s.place.offset_le_skip value.length
      rw [hn]
      exact (hreached.tokensBetween hsize).append
        (tokensBetween_layout .newline (Nat.le_of_eq hposition.symm) (hposition ▸ hle))
    have hparens : parensAfter 0 (tokens ++ s.endLine) = 0 := by
      rw [parensAfter_append, parensAfter_of_layout s.isLayout_endLine, hreached.parens, hdepth]
    obtain ⟨v, rfl⟩ := Lexeme.exists_of_first?_lineBreak hl
    rw [← List.append_assoc]
    exact hentered.accounts hsize (hs.skip _) (.skip hsource hw.symm) hbetween hparens hbreak
  | blank hl =>
    obtain ⟨w, hw⟩ := Lexeme.value_prefix_of_first? hl
    rw [List.append_nil]
    exact h.skips hs (.skip hsource hw.symm (Lexeme.skippable_of_first?_blank hl))
  | token _ => exact h.token hsize hs

theorem Reaches.accounts (hsize : byteSize source < UInt32.size)
    (h : Reaches file source tokens s) : Accounts source tokens s.place.offset := by
  induction h with
  | @start layout s hentered =>
    have hfront := Place.In.front file source
    have hnone : Accounts source [] (Place.front file source).offset :=
      fun _ _ _ k _ _ _ hk => absurd hk (Nat.not_lt_zero k)
    have hnothing : TokensBetween 0 (Place.front file source).offset [] := Nat.le_refl 0
    rw [← List.nil_append layout]
    exact hentered.accounts hsize hfront (Place.startsLine_front file source) hnothing rfl hnone
  | step hbefore hstep ih => exact hstep.accounts hsize hbefore ih

end Scanner

/-- No byte is lost: one that lies in no token belongs to white space or to a comment, or stands on
a line outside of parentheses that opens with a stray carriage return. -/
theorem bytes_accounted (hsize : byteSize source < UInt32.size)
    (h : tokenize file source = .ok tokens) (hk : k < byteSize source) :
    ∃ before c after, source = before ++ c :: after ∧ byteSize before ≤ k ∧
      k < byteSize before + c.utf8Size ∧
      (Covers tokens k ∨ isWhite c = true ∨ InComment before c ∨ OpensWithReturn tokens before) := by
  obtain ⟨front, last, hreaches, hend, rfl⟩ := reaches_of_tokenize h
  obtain ⟨before, c, after, hsource, hle, hlt⟩ := exists_of_lt_byteSize hk
  have haccounts : Accounts source (front ++ last.finish) last.place.offset :=
    (hreaches.accounts hsize).append_right fun tok htok =>
      ((Scanner.tokensBetween_finish hsize hreaches.place).of_mem htok).1
  obtain ⟨-, all, hall, hoffset⟩ := hreaches.place
  rw [hend, List.append_nil] at hall
  exact ⟨before, c, after, hsource, hle, hlt,
    haccounts before c after k hsource hle hlt (by rwa [hoffset, ← hall])⟩

theorem bytes_accounted_comment :
    let source := "f(a,\n\t# é b\n\rg) \r\n\rx = 1\ny\n".toList
    byteSize source < UInt32.size ∧ 9 < byteSize source ∧
      ∃ tokens, tokenize "shell" source = .ok tokens ∧ tokens.length = 10 ∧
        ∃ before c after, source = before ++ c :: after ∧ byteSize before ≤ 9 ∧
          9 < byteSize before + c.utf8Size ∧
          (Covers tokens 9 ∨ isWhite c = true ∨ InComment before c ∨
            OpensWithReturn tokens before) := by
  intro source
  have hsize : byteSize source < UInt32.size := by decide +kernel
  have hk : 9 < byteSize source := by decide +kernel
  obtain ⟨tokens, htokens, hlength⟩ : ∃ tokens, tokenize "shell" source = .ok tokens ∧
      decide (tokens.length = 10) = true := Except.exists_eq_ok_of (by decide +kernel)
  exact ⟨hsize, hk, tokens, htokens, of_decide_eq_true hlength, bytes_accounted hsize htokens hk⟩

/-- A statement after a stray carriage return is lost: no token holds it, and it is no comment. -/
theorem statement_lost_after_return :
    let source := "\rx = 1\n".toList
    tokenize "shell" source = .ok [.endAt ⟨7, "shell"⟩] ∧ ¬ Covers [.endAt ⟨7, "shell"⟩] 1 ∧
      ∃ after, source = ['\r'] ++ 'x' :: after ∧ byteSize ['\r'] = 1 ∧ isWhite 'x' = false ∧
        ¬ InComment ['\r'] 'x' := by
  refine ⟨Except.eq_ok_of_toOption (by decide +kernel), ?_, _, rfl, rfl, rfl, ?_⟩
  · rintro ⟨tok, htok, hstart, hstop⟩
    rw [List.mem_singleton.1 htok] at hstart
    exact absurd hstart (by decide)
  · rintro (hc | ⟨front, more, hreturn, -⟩)
    · cases hc
    · have hmem : '#' ∈ ['\r'] := by simp [hreturn]
      exact absurd hmem (by decide)

end Offside
