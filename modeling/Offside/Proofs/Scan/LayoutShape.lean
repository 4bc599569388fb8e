import Offside.Proofs.Scan.OpenBlocks

/-! The shape of the tokens of a source. They are logical lines, each with what it opens or closes
in front of its content and a line break behind it; layout stands outside of parentheses; no more
blocks are closed than have been opened; and the widths of the levels grow from 0 on. -/
namespace Offside

/-- Kinds in which parentheses are nested properly, and all of them are closed. -/
inductive WellNested : List TokenKind → Prop
  | nil : WellNested []
  | other {k ks} : k.isParen = false → WellNested ks → WellNested (k :: ks)
  | parens {ks ls} : WellNested ks → WellNested ls →
      WellNested (.openParen :: (ks ++ .closeParen :: ls))

/-- What stands in front of the content of a logical line: an indentation, or any number of
dedentations. -/
inductive IsOpening : List TokenKind → Prop
  | indent : IsOpening [.indent]
  | dedents (n : Nat) : IsOpening (List.replicate n .dedent)

/-- The kinds of a logical line: its opening, its content and the line break that ends it. -/
inductive IsLogicalLine : List TokenKind → Prop
  | mk {opening content} : IsOpening opening → content ≠ [] →
      (∀ k ∈ content, k.isContent = true) → IsLogicalLine (opening ++ (content ++ [.newline]))

/-- The kinds of some tokens are those of logical lines. -/
def AreLogicalLines (tokens : List Token) : Prop :=
  ∃ lines : List (List TokenKind), tokens.map Token.kind = lines.flatten ∧
    ∀ line ∈ lines, IsLogicalLine line

/-- The widths of the open levels, outermost first. -/
def Scanner.stack (s : Scanner) : List Nat := s.levels.reverse

variable {file : String} {source : List Char} {tokens layout more u v : List Token} {tok : Token}
  {n : Nat}

namespace WellNested

variable {ks ls : List TokenKind}

theorem of_not_paren (h : ∀ k ∈ ks, k.isParen = false) : WellNested ks := by
  induction ks with
  | nil => exact .nil
  | cons k ks ih =>
    obtain ⟨hk, hks⟩ := List.forall_mem_cons.1 h
    exact .other hk (ih hks)

/-- Properly nested parentheses leave open as many as there were. -/
theorem foldl_depthAfter (h : WellNested ks) (depth : Nat) :
    ks.foldl Scanner.depthAfter depth = depth := by
  induction h generalizing depth with
  | nil => rfl
  | other hk _ ih => rw [List.foldl_cons, depthAfter_of_not_paren hk, ih]
  | parens _ _ ihks ihls =>
    rw [List.foldl_cons, List.foldl_append, ihks, List.foldl_cons]
    exact ihls depth

/-- On the way through properly nested parentheses none is closed that was open before. -/
theorem le_foldl_depthAfter (h : WellNested ks) (hl : ls <+: ks) (depth : Nat) :
    depth ≤ ls.foldl Scanner.depthAfter depth := by
  induction h generalizing ls depth with
  | nil =>
    rw [List.prefix_nil.1 hl]
    exact Nat.le_refl _
  | other hk _ ih =>
    obtain rfl | ⟨ms, rfl, hms⟩ := List.prefix_cons_iff.1 hl
    · exact Nat.le_refl _
    · rw [List.foldl_cons, depthAfter_of_not_paren hk]
      exact ih hms depth
  | @parens ks' ls' hks _ ihks ihls =>
    obtain rfl | ⟨ms, rfl, hms⟩ := List.prefix_cons_iff.1 hl
    · exact Nat.le_refl _
    rw [List.foldl_cons]
    -- The prefix ends between the parentheses, or behind what stands between them.
    obtain hms | ⟨ns, rfl⟩ := List.prefix_or_prefix_of_prefix hms (List.prefix_append ks' _)
    · exact Nat.le_trans (Nat.le_succ depth) (ihks hms (depth + 1))
    · rw [List.prefix_append_right_inj] at hms
      rw [List.foldl_append, hks.foldl_depthAfter]
      obtain rfl | ⟨ns, rfl, hns⟩ := List.prefix_cons_iff.1 hms
      · exact Nat.le_succ depth
      · exact ihls hns depth

end WellNested

theorem parensAfter_eq_foldl (depth : Nat) (u : List Token) :
    parensAfter depth u = (u.map Token.kind).foldl Scanner.depthAfter depth := by
  rw [parensAfter, depthAfterAll, List.foldl_map, List.foldl_map]
  rfl

theorem TokenKind.blockWeight_nonneg {k : TokenKind} (hk : k ≠ .dedent) : 0 ≤ k.blockWeight := by
  cases k <;> first | decide | exact absurd rfl hk

/-- The blocks that are open are those that have been opened without those that have been closed. -/
theorem blocksOpened_eq_count (u : List Token) : blocksOpened u =
    (u.map Token.kind).count .indent - (u.map Token.kind).count .dedent := by
  induction u with
  | nil => rfl
  | cons tok u ih =>
    rw [blocksOpened_cons, ih, List.map_cons, List.count_cons, List.count_cons]
    cases tok.kind <;> simp [TokenKind.blockWeight] <;> omega

namespace Indentation.Descending

variable {levels : List Nat} {width : Nat}

theorem getLast? (h : Descending levels) : levels.getLast? = some 0 := by
  induction h with
  | outermost => rfl
  | cons _ h ih =>
    obtain ⟨top, levels, rfl⟩ := List.exists_cons_of_length_pos h.length_pos
    exact ih

/-- No level is wider than the innermost one. -/
theorem le_innermost (h : Descending levels) (hwidth : width ∈ levels) :
    width ≤ innermost levels := by
  induction h with
  | outermost => exact Nat.le_of_eq (List.mem_singleton.1 hwidth)
  | cons htop _ ih =>
    obtain rfl | hwidth := List.mem_cons.1 hwidth
    · exact Nat.le_refl _
    · exact Nat.le_of_lt (Nat.lt_of_le_of_lt (ih hwidth) htop)

theorem pairwise (h : Descending levels) : levels.Pairwise (· > ·) := by
  induction h with
  | outermost => exact List.pairwise_singleton _ _
  | cons htop h ih =>
    refine List.pairwise_cons.2 ⟨fun other hother => ?_, ih⟩
    exact Nat.lt_of_le_of_lt (h.le_innermost hother) htop

end Indentation.Descending

/-- No block is closed that is not open. -/
def ClosesOpened (before : List Token) (tok : Token) : Prop :=
  tok.kind = .dedent → 0 < blocksOpened before

/-- Layout stands where all parentheses are closed. -/
def LayoutOutside (before : List Token) (tok : Token) : Prop :=
  tok.kind.isLayout = true → parensAfter 0 before = 0

theorem Throughout.closesOpened_of_ne (h : Throughout ClosesOpened u)
    (hv : ∀ tok ∈ v, tok.kind ≠ .dedent) : Throughout ClosesOpened (u ++ v) := by
  refine h.append fun before tok after heq hdedent => ?_
  exact absurd hdedent (hv tok (by simp [heq]))

/-- As many blocks may be closed as are open. -/
theorem Throughout.closesOpened_dedents (h : Throughout ClosesOpened u)
    (hn : n ≤ blocksOpened u) (p : Position) :
    Throughout ClosesOpened (u ++ List.replicate n (.layout .dedent p)) := by
  induction n with
  | zero => rwa [List.replicate_zero, List.append_nil]
  | succ n ih =>
    rw [List.replicate_succ', ← List.append_assoc]
    refine (ih (by omega)).append_singleton fun _ => ?_
    rw [blocksOpened_append, Scanner.blocksOpened_dedents]
    omega

/-- Some tokens that close no block too many have at every point closed at most as many as they have
opened. -/
theorem Throughout.blocksOpened_nonneg (h : Throughout ClosesOpened tokens) (hu : u <+: tokens) :
    0 ≤ blocksOpened u := by
  induction u using List.reverseRecOn with
  | nil => exact Int.le_refl 0
  | append_singleton u tok ih =>
    obtain ⟨v, rfl⟩ := hu
    have hbefore := ih ⟨tok :: v, by simp⟩
    have htok := h u tok v (by simp)
    rw [blocksOpened_append, blocksOpened_cons, blocksOpened_nil, Int.add_zero]
    -- Only a dedentation takes a block away, and it takes one that is open.
    by_cases hk : tok.kind = .dedent
    · have hopen := htok hk
      rw [hk, TokenKind.blockWeight]
      omega
    · exact Int.add_nonneg hbefore (TokenKind.blockWeight_nonneg hk)

/-- Where all parentheses are closed layout may follow, which opens none. -/
theorem Throughout.layoutOutside (h : Throughout LayoutOutside u) (hdepth : parensAfter 0 u = 0)
    (hv : ∀ tok ∈ v, tok.kind.isLayout = true) : Throughout LayoutOutside (u ++ v) := by
  refine h.append fun before tok after heq _ => ?_
  have hbefore : ∀ tok ∈ before, tok.kind.isLayout = true := fun tok htok =>
    hv tok (by simp [heq, htok])
  rw [parensAfter_append, parensAfter_of_layout hbefore, hdepth]

namespace Scanner

variable {s s' : Scanner}

/-- What is known of the layout so far. -/
structure Disciplined (tokens : List Token) : Prop where
  outside : Throughout LayoutOutside tokens
  closes : Throughout ClosesOpened tokens

theorem Disciplined.closesOpened_endLine (h : Disciplined tokens) (s : Scanner) :
    Throughout ClosesOpened (tokens ++ s.endLine) := by
  obtain ⟨n, hn⟩ := s.endLine_eq_replicate
  rw [hn]
  refine h.closes.closesOpened_of_ne fun tok htok => ?_
  rw [List.eq_of_mem_replicate htok]
  exact (by decide : TokenKind.newline ≠ .dedent)

theorem Enters.disciplined (h : s.Enters layout s') (hs : Disciplined tokens)
    (hopens : Opens tokens s) (hparens : parensAfter 0 tokens = 0) :
    Disciplined (tokens ++ layout) := by
  have houtside := hs.outside.layoutOutside hparens h.isLayout
  cases h with
  | ended =>
    rw [List.append_nil]
    exact hs
  | wider =>
    refine ⟨houtside, hs.closes.closesOpened_of_ne ?_⟩
    exact List.forall_mem_singleton.2 (by decide : TokenKind.indent ≠ .dedent)
  | @level place width kept _ _ hkept =>
    have hblocks := hopens.blocks
    have hlevels := hopens.descending.length_pos
    have hpos : 0 < kept.length := hkept ▸ (hopens.descending.keep width).length_pos
    exact ⟨houtside, hs.closes.closesOpened_dedents (by omega) _⟩

theorem Step.disciplined (h : s.Step more s') (hs : Disciplined tokens)
    (hopens : Opens tokens s) (hparens : parensAfter 0 tokens = s.depth) :
    Disciplined (tokens ++ more) := by
  cases h with
  | joined =>
    rw [List.append_nil]
    exact hs
  | @broken value layout _ hl hdepth hentered =>
    rw [← List.append_assoc]
    have houtside := hs.outside.layoutOutside (hparens.trans hdepth) s.isLayout_endLine
    refine hentered.disciplined ⟨houtside, hs.closesOpened_endLine s⟩
      (hopens.endLine value.length) ?_
    rw [parensAfter_append, parensAfter_of_layout s.isLayout_endLine, hparens, hdepth]
  | blank =>
    rw [List.append_nil]
    exact hs
  | token hl =>
    have hcontent := (Lexeme.isContent_of_first? hl).1
    refine ⟨hs.outside.append_singleton fun hlayout => ?_, hs.closes.closesOpened_of_ne ?_⟩
    · cases (TokenKind.isLayout_of_isContent hcontent).symm.trans hlayout
    · exact List.forall_mem_singleton.2 (TokenKind.ne_of_isContent hcontent rfl)

theorem Reaches.disciplined (h : Reaches file source tokens s) : Disciplined tokens := by
  induction h with
  | start hentered => exact hentered.disciplined ⟨.nil, .nil⟩ ⟨rfl, .outermost⟩ rfl
  | step hbefore hstep ih => exact hstep.disciplined ih hbefore.opens hbefore.parens

end Scanner

namespace AreLogicalLines

theorem nil : AreLogicalLines [] := ⟨[], rfl, List.forall_mem_nil _⟩

theorem append_line (h : AreLogicalLines u) (hv : IsLogicalLine (v.map Token.kind)) :
    AreLogicalLines (u ++ v) := by
  obtain ⟨lines, hlines, hall⟩ := h
  refine ⟨lines ++ [v.map Token.kind], ?_, ?_⟩
  · rw [List.map_append, hlines, List.flatten_append, List.flatten_singleton]
  · exact List.forall_mem_append.2 ⟨hall, List.forall_mem_singleton.2 hv⟩

end AreLogicalLines

namespace Scanner

variable {s s' : Scanner}

/-- What a logical line consists of that has been begun: nothing, its opening, or its opening and
some of its content. -/
inductive Begun (s : Scanner) : List Token → Prop
  | nothing : s.inLine = false → Begun s []
  | opening {u : List Token} : IsOpening (u.map Token.kind) → s.inLine = true →
      s.place.AtContent → Begun s u
  | content {u v : List Token} : IsOpening (u.map Token.kind) → v ≠ [] →
      OfKinds TokenKind.isContent v → s.inLine = true → Begun s (u ++ v)

/-- The tokens so far are logical lines, and one that has been begun. -/
def Lined (tokens : List Token) (s : Scanner) : Prop :=
  ∃ u v, tokens = u ++ v ∧ AreLogicalLines u ∧ s.Begun v

/-- Once the content of a line has been read, the end of the line completes it. -/
theorem Lined.endLine (h : Lined tokens s) (hplace : ¬ s.place.AtContent) :
    AreLogicalLines (tokens ++ s.endLine) := by
  obtain ⟨u, v, rfl, hu, hv⟩ := h
  cases hv with
  | nothing hline =>
    rw [endLine, if_neg (by simp [hline]), List.append_nil, List.append_nil]
    exact hu
  | opening _ _ hcontent => exact absurd hcontent hplace
  | @content opening v hopening hv hcontent hline =>
    rw [endLine, if_pos hline, List.append_assoc]
    refine hu.append_line ?_
    rw [List.append_assoc, List.map_append, List.map_append]
    refine .mk hopening (by simpa using hv) ?_
    exact List.forall_mem_map.2 hcontent

theorem Enters.lined (h : s.Enters layout s') (hs : AreLogicalLines tokens) :
    Lined (tokens ++ layout) s' := by
  refine ⟨tokens, layout, rfl, hs, ?_⟩
  cases h with
  | ended => exact .nothing rfl
  | wider hline => exact .opening .indent rfl (Place.atContent_of_lineStart hline)
  | @level place width kept hline =>
    obtain hzero | hpos := Nat.eq_zero_or_pos (s.levels.length - kept.length)
    · rw [hzero]
      exact .nothing (decide_eq_false (by omega))
    · refine .opening ?_ (decide_eq_true (by omega)) (Place.atContent_of_lineStart hline)
      rw [List.map_replicate]
      exact .dedents _

/-- Content goes on a line that has been begun, or begins one. -/
theorem Begun.append (h : s.Begun v) (htok : tok.kind.isContent = true) (hline : s'.inLine = true) :
    s'.Begun (v ++ [tok]) := by
  have hlast : OfKinds TokenKind.isContent [tok] := List.forall_mem_singleton.2 htok
  cases h with
  | nothing => exact .content (u := []) (.dedents 0) (by simp) hlast hline
  | opening hopening => exact .content hopening (by simp) hlast hline
  | content hopening hv hcontent =>
    rw [List.append_assoc]
    exact .content hopening (by simp) (hcontent.append hlast) hline

/-- A step without tokens stays in the line that has been begun. -/
theorem Lined.of_step_nil (h : Lined tokens s) (hstep : s.Step [] s')
    (hinLine : s'.inLine = s.inLine) : Lined tokens s' := by
  obtain ⟨u, v, rfl, hu, hv⟩ := h
  refine ⟨u, v, rfl, hu, ?_⟩
  cases hv with
  | nothing hline => exact .nothing (hinLine.trans hline)
  | opening _ _ hcontent =>
    obtain ⟨tok, htok, -⟩ := hstep.token_of_atContent hcontent
    cases htok
  | content hopening hv hcontent hline => exact .content hopening hv hcontent (hinLine.trans hline)

theorem Step.lined (h : s.Step more s') (hs : Lined tokens s) : Lined (tokens ++ more) s' := by
  cases h with
  | joined hl hdepth =>
    rw [List.append_nil]
    exact hs.of_step_nil (.joined hl hdepth) rfl
  | broken hl hdepth hentered =>
    rw [← List.append_assoc]
    refine hentered.lined (hs.endLine fun hcontent => ?_)
    obtain ⟨k, v, hkv⟩ := hcontent.token_of_first? hl
    cases hkv
  | blank hl =>
    rw [List.append_nil]
    exact hs.of_step_nil (.blank hl) rfl
  | token hl =>
    obtain ⟨u, v, rfl, hu, hv⟩ := hs
    rw [List.append_assoc]
    exact ⟨u, _, rfl, hu, hv.append (Lexeme.isContent_of_first? hl).1 rfl⟩

theorem Reaches.lined (h : Reaches file source tokens s) : Lined tokens s := by
  induction h with
  | start hentered => exact hentered.lined .nil
  | step _ hstep ih => exact hstep.lined ih

/-- The widths of the levels grow from 0 on, and there is one more of them than blocks are open. -/
theorem Reaches.stack (h : Reaches file source tokens s) :
    s.stack.head? = some 0 ∧ s.stack.Pairwise (· < ·) ∧
      s.stack.length + (tokens.map Token.kind).count .dedent =
        (tokens.map Token.kind).count .indent + 1 := by
  have hlevels := h.opens.descending
  refine ⟨?_, ?_, ?_⟩
  · rw [Scanner.stack, List.head?_reverse]
    exact hlevels.getLast?
  · rw [Scanner.stack, List.pairwise_reverse]
    exact hlevels.pairwise
  · have hblocks := h.opens.blocks
    rw [blocksOpened_eq_count] at hblocks
    rw [Scanner.stack, List.length_reverse]
    omega

end Scanner

/-- No layout stands between an opening parenthesis and the next one that nothing closes yet. -/
theorem Throughout.isLayout_eq_false {before inner after : List Token} {opening : Token}
    (h : Throughout LayoutOutside (before ++ opening :: (inner ++ after)))
    (hopening : opening.kind = .openParen) (hinner : WellNested (inner.map Token.kind)) :
    ∀ tok ∈ inner, tok.kind.isLayout = false := by
  intro tok htok
  obtain ⟨v, w, rfl⟩ := List.append_of_mem htok
  refine Bool.eq_false_iff.2 fun hlayout => ?_
  have hzero := h (before ++ opening :: v) tok (w ++ after) (by simp) hlayout
  have hprefix : v.map Token.kind <+: (v ++ tok :: w).map Token.kind := by simp
  have hle := hinner.le_foldl_depthAfter hprefix (parensAfter 0 before + 1)
  have hdepth : parensAfter 0 (before ++ opening :: v) = (v.map Token.kind).foldl
      Scanner.depthAfter (parensAfter 0 before + 1) := by
    rw [parensAfter_append, parensAfter_eq_foldl, List.map_cons, List.foldl_cons, hopening]
    rfl
  omega

/-- The shape that layout gives some tokens. -/
structure Shaped (tokens : List Token) : Prop where
  /-- They are logical lines, dedentations and the end of the input. -/
  lines : ∃ (lines : List (List TokenKind)) (n : Nat), (∀ line ∈ lines, IsLogicalLine line) ∧
    tokens.map Token.kind = lines.flatten ++ (List.replicate n .dedent ++ [.eof])
  /-- No more blocks are closed than have been opened. -/
  opened : ∀ u, u <+: tokens → (u.map Token.kind).count .dedent ≤ (u.map Token.kind).count .indent
  /-- All blocks are closed in the end. -/
  closed : (tokens.map Token.kind).count .dedent = (tokens.map Token.kind).count .indent
  /-- No layout stands between a parenthesis and the one that closes it. -/
  outside : ∀ before opening inner closing after,
    tokens = before ++ opening :: (inner ++ closing :: after) → opening.kind = .openParen →
      closing.kind = .closeParen → WellNested (inner.map Token.kind) →
        ∀ tok ∈ inner, tok.kind.isLayout = false

namespace Scanner

variable {s : Scanner}

theorem isContent_finish (s : Scanner) : ∀ tok ∈ s.finish, tok.kind.isContent = false := by
  have hlayout : ∀ tok : Token, tok.kind.isLayout = true → tok.kind.isContent = false := by
    intro tok htok
    rw [TokenKind.isContent, htok]
    rfl
  refine List.forall_mem_append.2 ⟨List.forall_mem_append.2 ⟨?_, ?_⟩, ?_⟩
  · exact fun tok htok => hlayout tok (s.isLayout_endLine tok htok)
  · exact fun tok htok => hlayout tok (isLayout_of_replicate rfl _ _ tok htok)
  · exact List.forall_mem_singleton.2 rfl

theorem Disciplined.closesOpened_finish (h : Disciplined tokens) (hopens : Opens tokens s) :
    Throughout ClosesOpened (tokens ++ s.finish) := by
  have hblocks := (hopens.endLine 0).blocks
  have hpos := hopens.descending.length_pos
  rw [finish, ← List.append_assoc, ← List.append_assoc]
  refine ((h.closesOpened_endLine s).closesOpened_dedents ?_ _).closesOpened_of_ne ?_
  · dsimp only at hblocks
    omega
  · exact List.forall_mem_singleton.2 (by decide : TokenKind.eof ≠ .dedent)

theorem Opens.blocksOpened_finish (h : Opens tokens s) : blocksOpened (tokens ++ s.finish) = 0 := by
  have hblocks := (h.endLine 0).blocks
  have hpos := h.descending.length_pos
  rw [finish, ← List.append_assoc, ← List.append_assoc, blocksOpened_append, blocksOpened_append,
    blocksOpened_dedents, blocksOpened_cons]
  dsimp only at hblocks
  simp only [Token.endAt, TokenKind.blockWeight, blocksOpened_nil]
  omega

/-- Where the text ends the tokens that end the last line and the blocks complete the shape. -/
theorem Reaches.shaped (h : Reaches file source tokens s) (hrest : s.place.rest = []) :
    Shaped (tokens ++ s.finish) := by
  have hopens := h.opens
  have hcloses := h.disciplined.closesOpened_finish hopens
  constructor
  · have hplace : ¬ s.place.AtContent := by
      rintro ⟨c, rest, hcons, -⟩
      simp [hrest] at hcons
    obtain ⟨lines, hlines, hall⟩ := h.lined.endLine hplace
    refine ⟨lines, s.levels.length - 1, hall, ?_⟩
    rw [finish, List.append_assoc, ← List.append_assoc, List.map_append, hlines, List.map_append,
      List.map_replicate]
    rfl
  · intro u hu
    have hopened := hcloses.blocksOpened_nonneg hu
    rw [blocksOpened_eq_count] at hopened
    omega
  · have hclosed := hopens.blocksOpened_finish
    rw [blocksOpened_eq_count] at hclosed
    omega
  · intro before opening inner closing after heq hopening hclosing hinner
    -- The parenthesis that closes is none of the tokens that end the text.
    obtain ⟨rest, hfront⟩ : ∃ rest, tokens = before ++ opening :: (inner ++ rest) := by
      have hassoc : tokens ++ s.finish = (before ++ opening :: inner) ++ closing :: after := by
        rw [heq, List.append_assoc, List.cons_append]
      obtain ⟨rest, rfl, -⟩ | ⟨rest, -, hfinish⟩ := List.append_eq_append_iff.1 hassoc.symm
      · exact ⟨rest, by simp⟩
      · have hend := s.isContent_finish closing (by simp [hfinish])
        rw [hclosing] at hend
        cases hend
    have houtside := h.disciplined.outside
    rw [hfront] at houtside
    exact houtside.isLayout_eq_false hopening hinner

end Scanner

/-- Layout gives the tokens of a source their shape. On the way through the source the widths of the
levels grow from 0 on, and there is one more of them than blocks are open. -/
theorem layout_shape (h : tokenize file source = .ok tokens) : Shaped tokens ∧
    ∀ front s, Scanner.Reaches file source front s →
      s.stack.head? = some 0 ∧ s.stack.Pairwise (· < ·) ∧
        s.stack.length + (front.map Token.kind).count .dedent =
          (front.map Token.kind).count .indent + 1 := by
  obtain ⟨front, last, hlast, hrest, rfl⟩ := reaches_of_tokenize h
  exact ⟨hlast.shaped hrest, fun _ _ hreaches => hreaches.stack⟩

/-- An indentation in front, a block in a block that one line closes at once, a line break between
parentheses, a parenthesis too many and no line break behind the last line. -/
theorem layout_shape_blocks :
    let source := "  a:\n   b:\n\n    ((c)\n d\n)) # e\n  )\n   f".toList
    ∃ tokens, tokenize "shell" source = .ok tokens ∧ tokens.length = 27 ∧ Shaped tokens ∧
      ∀ front s, Scanner.Reaches "shell" source front s →
        s.stack.head? = some 0 ∧ s.stack.Pairwise (· < ·) ∧
          s.stack.length + (front.map Token.kind).count .dedent =
            (front.map Token.kind).count .indent + 1 := by
  intro source
  obtain ⟨tokens, htokens, hlength⟩ : ∃ tokens, tokenize "shell" source = .ok tokens ∧
      decide (tokens.length = 27) = true := Except.exists_eq_ok_of (by decide +kernel)
  exact ⟨tokens, htokens, of_decide_eq_true hlength, layout_shape htokens⟩

end Offside
