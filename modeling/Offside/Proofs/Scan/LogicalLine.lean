import Mathlib.Data.List.DropRight
import Offside.Proofs.Scan.Width

/-! The lines that layout tokens make of the tokens of a source, which a line break between
parentheses does not end. The blocks that layout tokens open and close have widths, and every line
starts with the width of the innermost block. -/
namespace Offside
open Indentation

/-- The width of the line of the source that a token starts in. -/
def Token.width? (source : List Char) (tok : Token) : Option Nat :=
  Text.widthAt? source tok.span.start.offset.toNat

/-- The tokens of the last line so far, which is over after a layout token. -/
def openLine (tokens : List Token) : List Token := tokens.rtakeWhile (!·.kind.isLayout)

/-- The first token of the line that a token stands in, given the tokens before it. -/
def lineHead (before : List Token) (tok : Token) : Token := (openLine before).headD tok

/-- The widths of the levels that are open after a token, innermost first. -/
def levelsAfter (source : List Char) (levels : List Nat) (tok : Token) : List Nat :=
  match tok.kind with
  | .indent => (tok.width? source).getD 0 :: levels
  | .dedent => levels.tail
  | _ => levels

/-- The widths of the levels that some tokens leave open, innermost first. Before any token the
outermost one is open, of width 0. -/
def openLevels (source : List Char) (tokens : List Token) : List Nat :=
  tokens.foldl (levelsAfter source) [0]

variable {source : List Char} {tokens u v : List Token} {tok : Token}

section OpenLine

theorem openLine_append_layout (h : tok.kind.isLayout = true) : openLine (u ++ [tok]) = [] :=
  List.rtakeWhile_concat_neg _ _ _ (by simp [h])

theorem openLine_append_other (h : tok.kind.isLayout = false) :
    openLine (u ++ [tok]) = openLine u ++ [tok] :=
  List.rtakeWhile_concat_pos _ _ _ (by simp [h])

theorem openLine_append_eq_nil (hu : openLine u = []) (hv : ∀ tok ∈ v, tok.kind.isLayout = true) :
    openLine (u ++ v) = [] := by
  induction v using List.reverseRecOn with
  | nil => rwa [List.append_nil]
  | append_singleton v tok ih =>
    rw [← List.append_assoc]
    exact openLine_append_layout (hv tok (by simp))

end OpenLine

section Levels

theorem openLevels_append_singleton (source : List Char) (u : List Token) (tok : Token) :
    openLevels source (u ++ [tok]) = levelsAfter source (openLevels source u) tok := by
  rw [openLevels, List.foldl_append]
  rfl

theorem levelsAfter_of_ne {l : List Nat} (hindent : tok.kind ≠ .indent)
    (hdedent : tok.kind ≠ .dedent) : levelsAfter source l tok = l := by
  unfold levelsAfter
  split
  · exact absurd ‹_› hindent
  · exact absurd ‹_› hdedent
  · rfl

theorem openLevels_append_other (hindent : tok.kind ≠ .indent) (hdedent : tok.kind ≠ .dedent) :
    openLevels source (u ++ [tok]) = openLevels source u := by
  rw [openLevels_append_singleton]
  exact levelsAfter_of_ne hindent hdedent

theorem openLevels_append_newline (htok : tok.kind = .newline) :
    openLevels source (u ++ [tok]) = openLevels source u :=
  openLevels_append_other (by rw [htok]; decide) (by rw [htok]; decide)

theorem openLevels_append_content (htok : tok.kind.isContent = true) :
    openLevels source (u ++ [tok]) = openLevels source u :=
  openLevels_append_other (TokenKind.ne_of_isContent htok rfl) (TokenKind.ne_of_isContent htok rfl)

theorem openLevels_append_dedents (source : List Char) (u : List Token) (n : Nat) (p : Position) :
    openLevels source (u ++ List.replicate n (.layout .dedent p)) = (openLevels source u).drop n := by
  induction n with
  | zero => simp
  | succ n ih =>
    rw [List.replicate_succ', ← List.append_assoc, openLevels_append_singleton, ih]
    exact List.tail_drop

end Levels

/-- What the next token is like: content that starts a line has the width of the innermost block,
and an indentation opens a wider one. -/
structure Fits (source : List Char) (before : List Token) (tok : Token) : Prop where
  content : tok.kind.isContent = true → openLine before = [] →
    tok.width? source = some (innermost (openLevels source before))
  indent : tok.kind = .indent →
    ∃ width, tok.width? source = some width ∧ innermost (openLevels source before) < width

theorem Fits.of_ne (hcontent : tok.kind.isContent = false) (hindent : tok.kind ≠ .indent) :
    Fits source u tok :=
  ⟨fun h => absurd h (by simp [hcontent]), fun h => absurd h hindent⟩

/-- Each token fits the ones before it. -/
def Laid (source : List Char) (tokens : List Token) : Prop :=
  ∀ before tok after, tokens = before ++ tok :: after → Fits source before tok

namespace Laid

theorem nil : Laid source [] := Throughout.nil

theorem of_append (h : Laid source (u ++ v)) : Laid source u := Throughout.left (P := Fits source) h

theorem append_singleton (h : Laid source u) (htok : Fits source u tok) :
    Laid source (u ++ [tok]) := Throughout.append_singleton (P := Fits source) h htok

theorem append_of_ne (h : Laid source u)
    (hv : ∀ tok ∈ v, tok.kind.isContent = false ∧ tok.kind ≠ .indent) : Laid source (u ++ v) := by
  refine Throughout.append (P := Fits source) h fun before tok after heq => ?_
  obtain ⟨hcontent, hindent⟩ := hv tok (by simp [heq])
  exact .of_ne hcontent hindent

/-- The line that some content stands in has the width of the innermost block. -/
theorem width?_lineHead (h : Laid source tokens) {before after : List Token}
    (heof : ∀ tok ∈ before, tok.kind ≠ .eof) (htok : tok.kind.isContent = true)
    (htokens : tokens = before ++ tok :: after) :
    (lineHead before tok).width? source = some (innermost (openLevels source before)) := by
  induction before using List.reverseRecOn generalizing tok after with
  | nil => exact (h [] tok after htokens).content htok rfl
  | append_singleton before last ih =>
    obtain ⟨hbefore, hlast⟩ := List.forall_mem_append.1 heof
    cases hlayout : last.kind.isLayout with
    | true =>
      have hline := openLine_append_layout (u := before) hlayout
      rw [lineHead, hline]
      exact (h _ tok after htokens).content htok hline
    | false =>
      -- The token before is content of the same line, which leaves the blocks as they are.
      have hcontent : last.kind.isContent = true := by
        simp [TokenKind.isContent, hlayout, hlast last (List.mem_singleton_self last)]
      have hhead : lineHead (before ++ [last]) tok = lineHead before last := by
        rw [lineHead, openLine_append_other hlayout, lineHead]
        cases openLine before <;> rfl
      rw [hhead, openLevels_append_content hcontent]
      exact ih hbefore hcontent (htokens.trans (List.append_assoc before [last] _))

end Laid

namespace Scanner

variable {file : String} {s s' : Scanner} {more : List Token}

/-- What the scanner knows of the lines so far. Where a line has to start, its content comes next, and
its width is that of the innermost block. -/
structure Follows (source : List Char) (tokens : List Token) (s : Scanner) : Prop where
  laid : Laid source tokens
  levels : openLevels source tokens = s.levels
  ended : s.inLine = false → openLine tokens = []
  content : openLine tokens = [] → s.place.rest = [] ∨ s.place.AtContent ∧
    Text.widthAt? source s.place.offset = some (innermost s.levels)

/-- Where a line has to start, the next step reads its first token. -/
theorem Follows.token_of_step (h : Follows source tokens s) (hline : openLine tokens = [])
    (hstep : s.Step more s') : (∃ tok, more = [tok]) ∧
      Text.widthAt? source s.place.offset = some (innermost s.levels) := by
  obtain hrest | ⟨hcontent, hwidth⟩ := h.content hline
  · exact absurd hrest hstep.rest_ne_nil
  · obtain ⟨tok, htok, -⟩ := hstep.token_of_atContent hcontent
    exact ⟨⟨tok, htok⟩, hwidth⟩

/-- A step without tokens stays in its line. -/
theorem Follows.of_step_nil (h : Follows source tokens s) (hstep : s.Step [] s')
    (hlevels : s'.levels = s.levels) (hinLine : s'.inLine = s.inLine) :
    Follows source tokens s' := by
  have hopen : openLine tokens ≠ [] := by
    intro hline
    obtain ⟨⟨tok, htok⟩, -⟩ := h.token_of_step hline hstep
    cases htok
  constructor
  · exact h.laid
  · rw [h.levels, hlevels]
  · rw [hinLine]
    exact h.ended
  · exact fun hline => absurd hline hopen

theorem Follows.endLine (h : Follows source tokens s) :
    Laid source (tokens ++ s.endLine) ∧ openLevels source (tokens ++ s.endLine) = s.levels ∧
      openLine (tokens ++ s.endLine) = [] := by
  unfold Scanner.endLine
  cases hline : s.inLine with
  | true =>
    rw [if_pos rfl]
    have hindent : TokenKind.newline ≠ .indent := by decide
    exact ⟨h.laid.append_singleton (.of_ne rfl hindent),
      (openLevels_append_newline rfl).trans h.levels, openLine_append_layout rfl⟩
  | false =>
    rw [if_neg Bool.false_ne_true, List.append_nil]
    exact ⟨h.laid, h.levels, h.ended hline⟩

theorem Follows.append_content (h : Follows source tokens s) (htok : tok.kind.isContent = true)
    (hwidth : openLine tokens = [] → tok.width? source = some (innermost s.levels))
    (hlevels : s'.levels = s.levels) (hline : s'.inLine = true) :
    Follows source (tokens ++ [tok]) s' := by
  constructor
  · apply h.laid.append_singleton
    constructor
    · intro _ hopen
      rw [hwidth hopen, h.levels]
    · intro hindent
      exact absurd hindent (TokenKind.ne_of_isContent htok rfl)
  · rw [openLevels_append_content htok, h.levels, hlevels]
  · rw [hline]
    nofun
  · rw [openLine_append_other (TokenKind.isLayout_of_isContent htok)]
    intro hopen
    simp at hopen

section Steps

variable (hsize : Text.byteSize source < UInt32.size)
include hsize

/-- The width at a token is that at the place where it has been read. -/
theorem width?_of_position {p : Place} (hp : p.In file source) (htok : tok.span.start = p.position) :
    tok.width? source = Text.widthAt? source p.offset := by
  rw [Token.width?, htok, hp.toNat_position hsize]

/-- A line is entered with the width of a block, after the block has been opened or the ones within
it have been closed. -/
theorem Enters.follows (hplace : s.place.In file source) (hfront : s.place.AtFront source)
    (hlaid : Laid source tokens) (hlevels : openLevels source tokens = s.levels)
    (hline : openLine tokens = []) (h : s.Enters more s') : Follows source (tokens ++ more) s' := by
  have hafter := h.place_in hplace
  cases h with
  | ended hstart =>
    rw [List.append_nil]
    have hrest := Place.rest_eq_nil_of_lineStart hstart
    exact ⟨hlaid, hlevels, fun _ => hline, fun _ => .inl hrest⟩
  | @wider place width hstart hwider =>
    have hcontent := Place.atContent_of_lineStart hstart
    have hwidth := Place.widthAt?_of_lineStart hplace hfront hstart
    have htok : (Token.layout .indent place.position).width? source = some width :=
      (width?_of_position hsize hafter rfl).trans hwidth
    have hline' : openLine (tokens ++ [.layout .indent place.position]) = [] :=
      openLine_append_layout rfl
    constructor
    · apply hlaid.append_singleton
      refine ⟨fun h => (by cases h), fun _ => ⟨width, htok, ?_⟩⟩
      rw [hlevels]
      exact hwider
    · rw [openLevels_append_singleton, hlevels]
      simp only [levelsAfter, Token.layout] at htok ⊢
      rw [htok, Option.getD_some]
    · exact fun _ => hline'
    · exact fun _ => .inr ⟨hcontent, hwidth⟩
  | @level place width kept hstart hle hkept hinner =>
    have hcontent := Place.atContent_of_lineStart hstart
    have hwidth := Place.widthAt?_of_lineStart hplace hfront hstart
    have hall : ∀ tok ∈ List.replicate (s.levels.length - kept.length)
        (Token.layout .dedent place.position), tok.kind = .dedent := by
      intro tok htok
      rw [List.eq_of_mem_replicate htok]
      rfl
    have hline' := openLine_append_eq_nil hline (fun tok htok => by rw [hall tok htok]; rfl)
    have hsuffix : kept <:+ s.levels := hkept ▸ keep_suffix _ _
    constructor
    · apply hlaid.append_of_ne
      intro tok htok
      rw [hall tok htok]
      decide
    · rw [openLevels_append_dedents, hlevels]
      exact (List.suffix_iff_eq_drop.1 hsuffix).symm
    · exact fun _ => hline'
    · intro _
      rw [hinner]
      exact .inr ⟨hcontent, hwidth⟩

/-- What is known of the lines stays true with every step. -/
theorem Step.follows (hplace : s.place.In file source) (h : Follows source tokens s)
    (hstep : s.Step more s') : Follows source (tokens ++ more) s' := by
  cases hstep with
  | joined hlexeme hdepth =>
    rw [List.append_nil]
    exact h.of_step_nil (.joined hlexeme hdepth) rfl rfl
  | broken hlexeme hdepth hentered =>
    obtain ⟨v, rfl⟩ := Lexeme.exists_of_first?_lineBreak hlexeme
    obtain ⟨w, hw⟩ := Lexeme.value_prefix_of_first? hlexeme
    have hfront := hplace.atFront_skip hw.symm
    obtain ⟨hlaid, hlevels, hline⟩ := h.endLine
    rw [← List.append_assoc]
    exact Enters.follows hsize (s := { s with place := s.place.skip (v ++ ['\n']).length })
      (hplace.skip _) hfront hlaid hlevels hline hentered
  | blank hlexeme =>
    rw [List.append_nil]
    exact h.of_step_nil (.blank hlexeme) rfl rfl
  | token hlexeme =>
    refine h.append_content (Lexeme.isContent_of_first? hlexeme).1 ?_ rfl rfl
    intro hline
    obtain ⟨-, hwidth⟩ := h.token_of_step hline (.token hlexeme)
    rw [width?_of_position hsize hplace rfl]
    exact hwidth

theorem Reaches.follows (h : Reaches file source tokens s) : Follows source tokens s := by
  induction h with
  | start hentered =>
    have hplace := Place.In.front file source
    have hfront := Place.atFront_front file source
    have hfollows := hentered.follows hsize hplace hfront .nil rfl rfl
    rwa [List.nil_append] at hfollows
  | step hbefore hstep ih => exact hstep.follows hsize hbefore.place ih

end Steps
end Scanner

/-- The lines of a source's tokens start as wide as the blocks that they stand in. -/
theorem laid_of_tokenize {file : String} (hsize : Text.byteSize source < UInt32.size)
    (h : tokenize file source = .ok tokens) : Laid source tokens := by
  obtain ⟨front, last, hlast, -, rfl⟩ := reaches_of_tokenize h
  obtain ⟨n, hn⟩ := last.endLine_eq_replicate
  apply (hlast.follows hsize).laid.append_of_ne
  intro tok htok
  simp only [Scanner.finish, hn, List.mem_append, List.mem_replicate, List.mem_singleton] at htok
  obtain (⟨-, rfl⟩ | ⟨-, rfl⟩) | rfl := htok
  · exact ⟨rfl, (by decide : TokenKind.newline ≠ .indent)⟩
  · exact ⟨rfl, (by decide : TokenKind.dedent ≠ .indent)⟩
  · exact ⟨rfl, (by decide : TokenKind.eof ≠ .indent)⟩

end Offside
