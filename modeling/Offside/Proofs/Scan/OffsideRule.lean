import Offside.Proofs.Scan.Layout
import Offside.Proofs.Scan.LayoutShape

/-! The offside rule. Lines of tokens that are written with one space between two tokens are read as
these tokens, with the layout that a stack of widths gives them. -/
namespace Offside

/-- A line of tokens with so many spaces in front. -/
structure TokenLine where
  width : Nat
  tokens : List Spelling
deriving DecidableEq, Repr

namespace TokenLine

/-- The texts of the tokens, a space between each two of them. -/
def content (l : TokenLine) : String := " ".intercalate (l.tokens.map Prod.snd)

/-- The spaces in front, the content and a line feed. -/
def text (l : TokenLine) : List Char :=
  List.replicate l.width ' ' ++ (l.content.toList ++ ['\n'])

/-- The tokens have texts that can be theirs, and close the parentheses that they open. -/
structure IsSpelled (l : TokenLine) : Prop where
  ne_nil : l.tokens ≠ []
  spelled : ∀ s ∈ l.tokens, s.1.isContent = true ∧ s.1.spells s.2 = true
  nested : WellNested (l.tokens.map Prod.fst)

/-- Takes the widths off a stack that stand above a width, with one dedentation for each. -/
def pop (width : Nat) : List Nat → List Spelling × List Nat
  | [] => ([], [])
  | top :: stack =>
    if top = width then ([], top :: stack)
    else ((.dedent, "") :: (pop width stack).1, (pop width stack).2)

/-- The layout in front of a line of some width, and the stack behind it. A wider line is pushed on
the stack, and any other has to be found there. -/
def enter? (width : Nat) : List Nat → Option (List Spelling × List Nat)
  | [] => none
  | top :: stack =>
    if top < width then some ([(.indent, "")], width :: top :: stack)
    else if width ∈ top :: stack then some (pop width (top :: stack))
    else none

/-- The tokens of some lines with their layout, or the offset of the first token of the first line
whose width is not found on the stack. The first of the lines starts at an offset. -/
def layOut (offset : Nat) (stack : List Nat) : List TokenLine → Except Nat (List Spelling)
  | [] => .ok (List.replicate (stack.length - 1) (.dedent, "") ++ [(.eof, "EOF")])
  | l :: lines =>
    match enter? l.width stack with
    | none => .error (offset + l.width)
    | some (layout, stack) =>
      (layOut (offset + Text.byteSize l.text) stack lines).map
        (layout ++ (l.tokens ++ [(.newline, "")]) ++ ·)

end TokenLine

open Indentation

variable {width : Nat} {levels : List Nat}

namespace Indentation.Descending

/-- The level that a width keeps has this width just if one that is open has it. -/
theorem innermost_keep_iff (h : Descending levels) :
    innermost (Indentation.keep width levels) = width ↔ width ∈ levels := by
  induction h with
  | outermost =>
    rw [keep_cons_of_le (Nat.zero_le width)]
    exact eq_comm.trans List.mem_singleton.symm
  | @cons top levels htop h ih =>
    obtain hlt | hle := Nat.lt_or_ge width top
    · rw [keep_cons_of_lt hlt, ih, List.mem_cons, or_iff_right (Nat.ne_of_lt hlt)]
    · rw [keep_cons_of_le hle, List.mem_cons]
      refine ⟨fun heq => .inl heq.symm, ?_⟩
      rintro (rfl | hmem)
      · rfl
      · exact absurd (Nat.lt_of_le_of_lt (h.le_innermost hmem) htop) (Nat.not_lt.2 hle)

/-- A stack is popped down to the levels that are kept. -/
theorem pop_eq (h : Descending levels) (hwidth : width ∈ levels) :
    TokenLine.pop width levels =
      (List.replicate (levels.length - (Indentation.keep width levels).length) (.dedent, ""),
        Indentation.keep width levels) := by
  induction h with
  | outermost =>
    obtain rfl := List.mem_singleton.1 hwidth
    rfl
  | @cons top levels htop h ih =>
    obtain rfl | hwidth := List.mem_cons.1 hwidth
    · rw [keep_cons_of_le (Nat.le_refl _), TokenLine.pop, if_pos rfl, Nat.sub_self]
      rfl
    · have hlt : width < top := Nat.lt_of_le_of_lt (h.le_innermost hwidth) htop
      have hle := (keep_suffix width levels).length_le
      rw [keep_cons_of_lt hlt, TokenLine.pop, if_neg (Nat.ne_of_gt hlt), ih hwidth,
        List.length_cons, Nat.succ_sub hle, List.replicate_succ]

/-- A line changes a stack as it changes the levels. -/
theorem enter?_eq (h : Descending levels) :
    TokenLine.enter? width levels = (Indentation.enter? width levels).map
      fun entered => (entered.1.map (·, ""), entered.2) := by
  obtain ⟨stack, hstack⟩ : ∃ stack, levels = innermost levels :: stack := by
    cases h with
    | outermost => exact ⟨[], rfl⟩
    | @cons top levels => exact ⟨levels, rfl⟩
  rw [hstack, TokenLine.enter?, ← hstack, Indentation.enter?]
  by_cases hwider : innermost levels < width
  · rw [if_pos hwider, if_pos hwider]
    rfl
  rw [if_neg hwider, if_neg hwider]
  by_cases hmem : width ∈ levels
  · rw [if_pos hmem, if_pos (h.innermost_keep_iff.2 hmem), h.pop_eq hmem, Option.map_some,
      List.map_replicate]
  · rw [if_neg hmem, if_neg (mt h.innermost_keep_iff.1 hmem)]
    rfl

theorem of_enter? {kinds : List TokenKind} {kept : List Nat} (h : Descending levels)
    (henter : Indentation.enter? width levels = some (kinds, kept)) : Descending kept := by
  obtain ⟨hwider, -, rfl⟩ | ⟨-, rfl, -⟩ := enter?_eq_some_iff.1 henter
  · exact .cons hwider h
  · exact h.keep width

end Indentation.Descending

namespace TokenLine

open Lexeme

variable {ss : List Spelling} {l : TokenLine} {lines : List TokenLine}

/-- Tokens with single spaces between them are read as they are. -/
theorem lexes_intercalate (hne : ss ≠ [])
    (hss : ∀ s ∈ ss, s.1.isContent = true ∧ s.1.spells s.2 = true) (rest : List Char) :
    Leading ([' '].intercalate (ss.map (·.2.toList))) ∧
      Lexes ([' '].intercalate (ss.map (·.2.toList))) ss ('\n' :: rest) := by
  induction ss with
  | nil => exact absurd rfl hne
  | cons s ss ih =>
    obtain ⟨⟨hcontent, hspells⟩, hss⟩ := List.forall_mem_cons.1 hss
    have hleading := leading_of_spells hcontent hspells
    cases ss with
    | nil =>
      rw [List.map_singleton, List.intercalate_singleton]
      refine ⟨hleading, ?_⟩
      have hfirst : first? (s.2.toList ++ '\n' :: rest) = some (.token s.1 s.2.toList) :=
        first?_of_spells hcontent hspells (.inr rfl)
      have hlexes := Lexes.fixed (t := []) hfirst .nil
      rwa [List.append_nil] at hlexes
    | cons t ss =>
      obtain ⟨hmore, hlexes⟩ := ih (List.cons_ne_nil _ _) hss
      rw [List.map_cons, List.map_cons, List.intercalate_cons_cons, List.append_assoc]
      refine ⟨hleading.append _, ?_⟩
      exact .fixed (first?_of_spells hcontent hspells (.inl rfl)) (.space (hmore.append _) hlexes)

theorem IsSpelled.readAs (h : l.IsSpelled) : Line.ReadAs l.content l.tokens where
  lexes rest := by
    rw [content, String.toList_intercalate, List.map_map]
    exact (lexes_intercalate h.ne_nil h.spelled rest).2
  leading := by
    rw [content, String.toList_intercalate, List.map_map]
    exact (lexes_intercalate h.ne_nil h.spelled []).1
  ne_nil := h.ne_nil
  balanced := by
    have hnested := h.nested.foldl_depthAfter 0
    rwa [List.foldl_map] at hnested

end TokenLine

theorem Text.byteSize_spaces (n : Nat) : byteSize (List.replicate n ' ') = n := by
  have hlength : byteSize (List.replicate n ' ') = (List.replicate n ' ').length := by
    refine byteSize_eq_length_iff.2 fun c hc => ?_
    rw [List.eq_of_mem_replicate hc]
    rfl
  rw [hlength, List.length_replicate]

/-- The line that is refused starts within the text. -/
theorem TokenLine.lt_of_layOut {offset n : Nat} {stack : List Nat}
    (h : layOut offset stack lines = .error n) :
    n < offset + Text.byteSize (lines.flatMap text) := by
  induction lines generalizing offset stack with
  | nil => cases h
  | cons l lines ih =>
    have htext : l.width < Text.byteSize l.text := by
      rw [text, Text.byteSize_append, Text.byteSize_spaces, Text.byteSize_append]
      exact Nat.lt_add_of_pos_right (Nat.lt_add_left _ Nat.one_pos)
    rw [List.flatMap_cons, Text.byteSize_append]
    rw [layOut] at h
    split at h
    · cases h
      omega
    · have hlt := ih (Except.map_eq_error_iff.1 h)
      omega

/-- The error of a line that cannot be entered at an offset. -/
def misplaced (file : String) (offset : Nat) : Error :=
  ⟨.inconsistentIndentation, offset.toUInt32, file⟩

/-- Lines are read as the stack lays them out, from any of them on. -/
theorem Scanner.runLine_layOut {s : Scanner} (hlines : ∀ l ∈ lines, l.IsSpelled)
    (hs : s.place.rest = lines.flatMap TokenLine.text) (hlevels : Descending s.levels)
    (hdepth : s.depth = 0) : s.runLine.map (·.map Token.spelling) =
      (TokenLine.layOut s.place.offset s.levels lines).mapError (misplaced s.place.file) := by
  induction lines generalizing s with
  | nil =>
    obtain ⟨p, hrun⟩ := runLine_of_rest_eq_nil hs
    rw [hrun, TokenLine.layOut]
    simp only [Except.map, Except.mapError, List.map_append, List.map_replicate]
    rfl
  | cons l lines ih =>
    obtain ⟨hl, hlines⟩ := List.forall_mem_cons.1 hlines
    rw [TokenLine.layOut, hlevels.enter?_eq]
    cases henter : Indentation.enter? l.width s.levels with
    | none =>
      have hline : s.place.rest = List.replicate l.width ' ' ++
          (l.content.toList ++ '\n' :: lines.flatMap TokenLine.text) := by
        rw [hs, List.flatMap_cons, TokenLine.text]
        simp only [List.append_assoc, List.singleton_append]
      have hstart := Place.lineStart_of_leading hline (hl.readAs.leading.append _)
      have hentered := enterLine_eq_error_iff.2 ⟨_, _, hstart, henter, rfl⟩
      have hoffset := Place.offset_skip_length hline
      rw [List.length_replicate, Text.byteSize_spaces] at hoffset
      unfold runLine
      rw [hentered]
      simp only [Except.map, Except.mapError, Option.map_none, misplaced, Place.position, hoffset]
      rfl
    | some entered =>
      obtain ⟨kinds, kept⟩ := entered
      obtain ⟨tokens, s', hspelling, hrun, hplace, rfl, hclosed⟩ :=
        runLine_of_line hs henter hl.readAs hdepth
      have hrest : s'.place.rest = lines.flatMap TokenLine.text := by
        rw [hplace]
        exact Place.rest_skip_length hs
      have hoffset : s'.place.offset = s.place.offset + Text.byteSize l.text := by
        rw [hplace]
        exact Place.offset_skip_length hs
      have hfile : s'.place.file = s.place.file := by rw [hplace, Place.file_skip]
      have hmore := ih hlines hrest (hlevels.of_enter? henter) hclosed
      rw [hoffset, hfile] at hmore
      calc s.runLine.map (·.map Token.spelling)
          = (s'.runLine.map (·.map Token.spelling)).map (tokens.map Token.spelling ++ ·) := by
            rw [hrun, Except.map_map, Except.map_map]
            simp only [List.map_append]
        _ = ((TokenLine.layOut _ s'.levels lines).mapError _).map
              (tokens.map Token.spelling ++ ·) := by rw [hmore]
        _ = ((TokenLine.layOut _ s'.levels lines).map
              (kinds.map (·, "") ++ (l.tokens ++ [(.newline, "")]) ++ ·)).mapError _ := by
            rw [hspelling]
            cases TokenLine.layOut _ s'.levels lines <;> rfl

/-- The scanner undoes the spelling of lines. It reads their tokens with the layout of the offside
rule, or stops at the first token of the line that has no place on the stack. -/
theorem tokenize_lines {file : String} (hlines : ∀ l ∈ lines, l.IsSpelled)
    (hsize : Text.byteSize (lines.flatMap TokenLine.text) < UInt32.size) :
    (∀ ss, TokenLine.layOut 0 [0] lines = .ok ss →
      ∃ tokens, tokenize file (lines.flatMap TokenLine.text) = .ok tokens ∧
        tokens.map Token.spelling = ss) ∧
    ∀ n, TokenLine.layOut 0 [0] lines = .error n →
      ∃ p : Position, tokenize file (lines.flatMap TokenLine.text) =
          .error ⟨.inconsistentIndentation, p⟩ ∧ p.file = file ∧ p.offset.toNat = n := by
  have hrun : (tokenize file (lines.flatMap TokenLine.text)).map (·.map Token.spelling) =
      (TokenLine.layOut 0 [0] lines).mapError (misplaced file) :=
    Scanner.runLine_layOut (s := .start file (lines.flatMap TokenLine.text)) hlines rfl
      .outermost rfl
  constructor
  · intro ss hss
    rw [hss] at hrun
    exact Except.map_eq_ok_iff.1 hrun
  · intro n hn
    rw [hn] at hrun
    refine ⟨⟨n.toUInt32, file⟩, Except.map_eq_error_iff.1 hrun, rfl, ?_⟩
    have hlt := TokenLine.lt_of_layOut hn
    exact UInt32.toNat_ofNat_of_lt' (by omega)

/-- A block in a block, both closed by one line, and then a line that is wider than the outermost
level and narrower than the block that has been opened again. -/
theorem tokenize_lines_blocks :
    let right : List TokenLine :=
      [⟨0, [(.kwIf, "if"), (.identifier, "iff")]⟩,
        ⟨2, [(.identifier, "_a1"), (.openParen, "("), (.number, "007"), (.closeParen, ")")]⟩,
        ⟨4, [(.slashSlash, "//"), (.slash, "/")]⟩,
        ⟨0, [(.dash, "-"), (.arrow, "->")]⟩]
    let wrong := right ++ [⟨6, [(.kwPass, "pass")]⟩, ⟨3, [(.assignment, "=")]⟩]
    (∀ l ∈ wrong, l.IsSpelled) ∧ Text.byteSize (wrong.flatMap TokenLine.text) < UInt32.size ∧
      (∃ tokens, tokenize "shell" (right.flatMap TokenLine.text) = .ok tokens ∧
        tokens.map Token.spelling =
          [(.kwIf, "if"), (.identifier, "iff"), (.newline, ""), (.indent, ""), (.identifier, "_a1"),
            (.openParen, "("), (.number, "007"), (.closeParen, ")"), (.newline, ""), (.indent, ""),
            (.slashSlash, "//"), (.slash, "/"), (.newline, ""), (.dedent, ""), (.dedent, ""),
            (.dash, "-"), (.arrow, "->"), (.newline, ""), (.eof, "EOF")]) ∧
      ∃ p : Position, tokenize "shell" (wrong.flatMap TokenLine.text) =
        .error ⟨.inconsistentIndentation, p⟩ ∧ p.file = "shell" ∧ p.offset.toNat = 49 := by
  intro right wrong
  have hnested : ∀ l ∈ wrong, WellNested (l.tokens.map Prod.fst) := by
    have hparens : WellNested (.openParen :: ([.number] ++ .closeParen :: [])) :=
      .parens (.of_not_paren (by decide)) .nil
    simp only [wrong, right, List.cons_append, List.nil_append, List.forall_mem_cons]
    refine ⟨.of_not_paren (by decide), .other rfl hparens, ?_, ?_, ?_, ?_, List.forall_mem_nil _⟩
    all_goals exact .of_not_paren (by decide)
  have hspelled : ∀ l ∈ wrong, l.tokens ≠ [] ∧
      ∀ s ∈ l.tokens, s.1.isContent = true ∧ s.1.spells s.2 = true := by decide +kernel
  have hwrong : ∀ l ∈ wrong, l.IsSpelled := fun l hl =>
    ⟨(hspelled l hl).1, (hspelled l hl).2, hnested l hl⟩
  have hright : ∀ l ∈ right, l.IsSpelled := fun l hl => hwrong l (List.mem_append_left _ hl)
  have hsize : Text.byteSize (wrong.flatMap TokenLine.text) < UInt32.size := by decide +kernel
  have hsizeRight : Text.byteSize (right.flatMap TokenLine.text) < UInt32.size := by decide +kernel
  refine ⟨hwrong, hsize, (tokenize_lines hright hsizeRight).1 _ rfl, ?_⟩
  exact (tokenize_lines hwrong hsize).2 49 rfl

end Offside
