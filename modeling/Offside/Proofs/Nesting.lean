import Offside.Proofs.FrontEnd
import Offside.Proofs.Grammar.Bodies
import Offside.Proofs.Scan.LogicalLine

/-! Indentation is nesting. The statements at the top level are not indented; those of an indented
block start lines of one width, which is greater than that of the line that the block hangs on. -/
namespace Offside
open Indentation

/-- A token with a text starts at a position, between the tokens before and after it. -/
structure Stands (tokens before : List Token) (tok : Token) (after : List Token) (p : Position) :
    Prop where
  split : tokens = before ++ tok :: after
  content : tok.kind.isContent = true
  start : tok.span.start = p

/-- A line of the tokens starts at a position. -/
def StartsLine (tokens : List Token) (p : Position) : Prop :=
  ∃ before tok after, Stands tokens before tok after p ∧ openLine before = []

/-- The width of the line of the tokens that holds a position, which is that of the line of the
source where its first token stands. -/
def LineWidth (source : List Char) (tokens : List Token) (p : Position) (width : Nat) : Prop :=
  ∃ before tok after, Stands tokens before tok after p ∧
    (lineHead before tok).width? source = some width

/-- The token at a position is followed by a line break. -/
def BreaksAfter (tokens : List Token) (p : Position) : Prop :=
  ∃ before tok newline after, Stands tokens before tok (newline :: after) p ∧
    newline.kind = .newline

/-- If there is a line break after the colon that a body starts with, the statements of the body
start lines of one width, greater than that of the line that holds the colon. -/
def Nested (source : List Char) (tokens : List Token) (body : Node) : Prop :=
  BreaksAfter tokens body.span.start →
    ∃ outer width, LineWidth source tokens body.span.start outer ∧ outer < width ∧
      ∀ a ∈ body.children.tail,
        StartsLine tokens a.span.start ∧ LineWidth source tokens a.span.start width

variable {source : List Char} {tokens before u v after : List Token} {tok : Token} {p : Position}

/-- Tokens with those before and after them. -/
def Cut (tokens before u after : List Token) : Prop := tokens = before ++ (u ++ after)

theorem Cut.left (h : Cut tokens before (u ++ v) after) : Cut tokens before u (v ++ after) := by
  rw [Cut, h, List.append_assoc u]

theorem Cut.right (h : Cut tokens before (u ++ v) after) : Cut tokens (before ++ u) v after := by
  rw [Cut, h, List.append_assoc u, List.append_assoc before]

/-- There is only one token that has a text at a position. -/
theorem Stands.unique {next : TokenKind} {before' after' : List Token} {tok' : Token}
    (htokens : TokensOf source next tokens) (h : Stands tokens before tok after p)
    (h' : Stands tokens before' tok' after' p) : before = before' ∧ tok = tok' ∧ after = after' := by
  -- If one of them came later than the other, it would start later.
  have hlater : ∀ {front mid back : List Token} {x y : Token},
      tokens = front ++ x :: (mid ++ y :: back) → x.kind.isContent = true →
        x.span.start = p → y.span.start = p → False := by
    intro front mid back x y heq hx hxp hyp
    have hback := htokens
    rw [heq] at hback
    have hlt := hback.append.2.start_lt hx (List.mem_append_right mid List.mem_cons_self)
    rw [hxp, hyp] at hlt
    exact Nat.lt_irrefl _ hlt
  have heq := h.split.symm.trans h'.split
  obtain ⟨mid, rfl, hmid⟩ | ⟨mid, rfl, hmid⟩ := List.append_eq_append_iff.1 heq
  · cases mid with
    | nil =>
      cases hmid
      simp
    | cons x mid =>
      cases hmid
      exact (hlater h.split h.content h.start h'.start).elim
  · cases mid with
    | nil =>
      cases hmid
      simp
    | cons x mid =>
      cases hmid
      exact (hlater h'.split h'.content h'.start h.start).elim

/-- A token of this kind starts a line, unless a block or the input ends there. -/
def LineOver (next : TokenKind) (before : List Token) : Prop :=
  next ≠ .eof → next ≠ .dedent → openLine before = []

/-- What some tokens leave behind that stand before a token of this kind: no open line, and the
blocks that were open before them. -/
structure Settled (source : List Char) (next : TokenKind) (before u : List Token) : Prop where
  levels : next ≠ .eof → openLevels source (before ++ u) = openLevels source before
  line : LineOver next (before ++ u)

section Settled

variable {next : TokenKind} {width : Nat}

theorem openLevels_append_ofKinds (hu : OfKinds TokenKind.isContent u) :
    openLevels source (before ++ u) = openLevels source before := by
  induction u using List.reverseRecOn with
  | nil => rw [List.append_nil]
  | append_singleton u tok ih =>
    obtain ⟨hu, htok⟩ := List.forall_mem_append.1 hu
    rw [← List.append_assoc, openLevels_append_content (htok tok (List.mem_singleton_self tok))]
    exact ih hu

theorem firstKind_ne_eof (hu : OfKinds Script.beforeEnd u) (hnext : next ≠ .eof) :
    firstKind u next ≠ .eof := by
  cases u with
  | nil => exact hnext
  | cons tok u => exact of_decide_eq_true (hu tok List.mem_cons_self)

namespace Settled

theorem nil (h : LineOver next before) : Settled source next before [] := by
  constructor
  · rw [List.append_nil]
    exact fun _ => rfl
  · rw [List.append_nil]
    exact h

theorem append (hv : OfKinds Script.beforeEnd v) (h : Settled source (firstKind v next) before u)
    (h' : Settled source next (before ++ u) v) : Settled source next before (u ++ v) := by
  constructor
  · intro hnext
    rw [← List.append_assoc, h'.levels hnext, h.levels (firstKind_ne_eof hv hnext)]
  · rw [← List.append_assoc]
    exact h'.line

theorem append_content (hu : OfKinds TokenKind.isContent u)
    (h : Settled source next (before ++ u) v) : Settled source next before (u ++ v) := by
  constructor
  · intro hnext
    rw [← List.append_assoc, h.levels hnext, openLevels_append_ofKinds hu]
  · rw [← List.append_assoc]
    exact h.line

/-- A line break leaves no open line. -/
theorem newline (htok : tok.kind = .newline) : Settled source next before [tok] := by
  constructor
  · exact fun _ => openLevels_append_newline htok
  · intro _ _
    exact openLine_append_layout (by rw [htok]; rfl)

theorem of_lineEnd (hu : OfKinds TokenKind.isContent u) (hend : Script.LineEnd next v) :
    Settled source next before (u ++ v) := by
  apply append_content hu
  cases hend with
  | newline htok => exact newline htok
  | before hnext =>
    apply nil
    intro heof hdedent
    obtain hnext | hnext := hnext
    · exact absurd hnext hdedent
    · exact absurd hnext heof

/-- The end of a block leaves the blocks around it. -/
theorem of_blockEnd {front : List Token}
    (hopen : openLevels source (before ++ front) = width :: openLevels source before)
    (h : Settled source (firstKind v next) (before ++ front) u) (hend : Script.BlockEnd next v) :
    Settled source next before (front ++ (u ++ v)) := by
  cases hend with
  | dedent htok =>
    have hlevels := h.levels (by rw [firstKind_cons, htok]; decide)
    rw [hopen] at hlevels
    constructor
    · intro _
      rw [← List.append_assoc, ← List.append_assoc, openLevels_append_singleton, hlevels,
        levelsAfter, htok, List.tail_cons]
    · intro _ _
      rw [← List.append_assoc, ← List.append_assoc]
      exact openLine_append_layout (by rw [htok]; rfl)
  | input hnext =>
    constructor
    · intro heof
      exact absurd hnext heof
    · intro heof
      exact absurd hnext heof

end Settled
end Settled

section Nests

variable (hlaid : Laid source tokens) (htokens : TokensOf source .eof tokens)
include hlaid htokens

/-- An indentation opens a block that is wider than the line before it. -/
theorem exists_width_of_indent {colon newline indent : Token} (hcolon : colon.kind = .colon)
    (hnewline : newline.kind = .newline) (hindent : indent.kind = .indent)
    (h : Cut tokens before [colon, newline, indent] after) :
    ∃ width, innermost (openLevels source before) < width ∧
      openLevels source (before ++ [colon, newline, indent]) = width :: openLevels source before ∧
      LineWidth source tokens colon.span.start (innermost (openLevels source before)) := by
  have hindents : tokens = (before ++ [colon, newline]) ++ indent :: after := by
    rw [h]
    simp
  have hcontent : colon.kind.isContent = true := by
    rw [hcolon]
    rfl
  have hlevels : openLevels source (before ++ [colon, newline]) = openLevels source before := by
    rw [List.append_cons, openLevels_append_newline hnewline, openLevels_append_content hcontent]
  obtain ⟨width, hwidth, hlt⟩ := (hlaid _ _ _ hindents).indent hindent
  have heof : ∀ tok ∈ before, tok.kind ≠ .eof := by
    intro tok htok
    have hmem : tok ∈ tokens := by
      rw [h]
      exact List.mem_append_left _ htok
    exact (htokens.written tok hmem).kind_ne_eof
  refine ⟨width, hlevels ▸ hlt, ?_, before, colon, newline :: indent :: after, ⟨h, hcontent, rfl⟩,
    hlaid.width?_lineHead heof hcontent h⟩
  have hsplit : before ++ [colon, newline, indent] = (before ++ [colon, newline]) ++ [indent] := by
    simp
  rw [hsplit, openLevels_append_singleton, hlevels, levelsAfter, hindent]
  simp only [hwidth, Option.getD_some]

omit hlaid in
/-- There is no line break after the colon of a body on one line. -/
theorem not_breaksAfter {colon : Token} {a : Node} (hcolon : colon.kind = .colon)
    (hu : StartsAt u a) (h : Cut tokens before (colon :: u) after) :
    ¬ BreaksAfter tokens colon.span.start := by
  rintro ⟨before', colon', newline, after', hbreak, hnewline⟩
  obtain ⟨tok, v, rfl, htok, -⟩ := hu
  have hstands : Stands tokens before colon (tok :: (v ++ after)) colon.span.start := by
    refine ⟨h, ?_, rfl⟩
    rw [hcolon]
    rfl
  obtain ⟨-, -, heq⟩ := hstands.unique htokens hbreak
  cases heq
  rw [hnewline] at htok
  cases htok

omit htokens in
/-- A statement where a line has to start has the width of the innermost block. -/
theorem startsLine_of_startsAt {a : Node} (hu : StartsAt u a) (h : Cut tokens before u after)
    (hline : openLine before = []) : StartsLine tokens a.span.start ∧
      LineWidth source tokens a.span.start (innermost (openLevels source before)) := by
  obtain ⟨tok, v, rfl, hcontent, hstart⟩ := hu
  have hstands : Stands tokens before tok (v ++ after) a.span.start := ⟨h, hcontent, hstart.symm⟩
  have hwidth := (hlaid _ _ _ h).content hcontent hline
  refine ⟨⟨before, tok, v ++ after, hstands, hline⟩, before, tok, v ++ after, hstands, ?_⟩
  rw [lineHead, hline]
  exact hwidth

end Nests

namespace Script

/-- The lines after some tokens are in the same block as those tokens. -/
theorem Lines.openLevels_eq {next : TokenKind} {nodes : List Node} {a : Node}
    (hlines : Lines next v nodes) (h : Settled source (firstKind v next) before u)
    (ha : a ∈ nodes) : openLevels source (before ++ u) = openLevels source before := by
  apply h.levels
  cases v with
  | nil =>
    rw [hlines.nodes_eq_nil] at ha
    cases ha
  | cons tok v => exact of_decide_eq_true (hlines.beforeEnd tok List.mem_cons_self)

mutual
/-- The bodies in a statement are nested, and it leaves the open blocks as they are. -/
theorem Statement.nests (hlaid : Laid source tokens) (htokens : TokensOf source .eof tokens) :
    ∀ {next : TokenKind} {u : List Token} {a : Node} {before after},
    Statement next u a → Cut tokens before u after →
      a.Bodies (Nested source tokens) ∧ Settled source next before u
  | _, _, _, _, _, @Statement.function _ u v w _ _ _ keyword name opening hkeyword hname hopening
      hparameters htype hbody, h => by
    have hhead : OfKinds TokenKind.isContent (keyword :: name :: opening :: (u ++ v)) := by
      have htokens := hparameters.isContent.append (htype.isContent rfl)
      exact ((htokens.cons hopening rfl).cons hname rfl).cons hkeyword rfl
    have hsplit : keyword :: name :: opening :: (u ++ (v ++ w)) =
        (keyword :: name :: opening :: (u ++ v)) ++ w := by simp
    rw [hsplit] at h ⊢
    obtain ⟨hbodies, hsettled⟩ := hbody.nests hlaid htokens h.right
    refine ⟨Node.Bodies.branch (by decide) ?_, hsettled.append_content hhead⟩
    simp only [List.forall_mem_append, List.forall_mem_cons]
    refine ⟨⟨.leaf (by decide), .leaf (by decide), ?_, htype.bodies (by decide)⟩, hbodies,
      List.forall_mem_nil _⟩
    refine Node.Bodies.branch (by decide) ?_
    exact List.forall_mem_cons.2 ⟨.leaf (by decide), hparameters.bodies⟩
  | _, _, _, _, _, .returnNone hkeyword hend, h => by
    have hhead : OfKinds TokenKind.isContent [_] := OfKinds.nil.cons hkeyword rfl
    refine ⟨Node.Bodies.branch (by decide) ?_, .of_lineEnd hhead hend⟩
    exact List.forall_mem_singleton.2 (.leaf (by decide))
  | _, _, _, _, _, .returnValue hkeyword ha hend, h => by
    have hhead := ha.isContent.cons hkeyword rfl
    refine ⟨Node.Bodies.branch (by decide) ?_, .of_lineEnd hhead hend⟩
    exact List.forall_mem_cons.2 ⟨.leaf (by decide), List.forall_mem_singleton.2 ha.bodies⟩
  | _, _, _, _, _, .loop hkeyword ha hbody, h => by
    have hhead := ha.isContent.cons hkeyword rfl
    obtain ⟨hbodies, hsettled⟩ := hbody.nests hlaid htokens (h.right (u := _ :: _))
    refine ⟨Node.Bodies.branch (by decide) ?_, hsettled.append_content hhead⟩
    simp only [List.forall_mem_cons]
    exact ⟨.leaf (by decide), ha.bodies, hbodies, List.forall_mem_nil _⟩
  | _, _, _, _, _, .conditional hkeyword ha hbody hfurther, h => by
    have hhead := ha.isContent.cons hkeyword rfl
    have hparts := h.right (u := _ :: _)
    obtain ⟨hfirst, hsettled⟩ := hbody.nests hlaid htokens hparts.left
    obtain ⟨hnodes, hrest⟩ := hfurther.nests hlaid htokens hparts.right hsettled.line
    refine ⟨Node.Bodies.branch (by decide) ?_,
      (hsettled.append hfurther.beforeEnd hrest).append_content hhead⟩
    simp only [List.forall_mem_cons]
    exact ⟨.leaf (by decide), ha.bodies, hfirst, hnodes⟩
  | _, _, _, _, _, .pass hkeyword hend, h => by
    have hhead : OfKinds TokenKind.isContent [_] := OfKinds.nil.cons hkeyword rfl
    refine ⟨Node.Bodies.branch (by decide) ?_, .of_lineEnd hhead hend⟩
    exact List.forall_mem_singleton.2 (.leaf (by decide))
  | _, _, _, _, _, .assignment hname hassigned hend, h => by
    have hhead := hassigned.isContent.cons hname rfl
    refine ⟨Node.Bodies.branch (by decide) ?_, .of_lineEnd hhead hend⟩
    exact List.forall_mem_cons.2 ⟨.leaf (by decide), hassigned.bodies⟩
  | _, _, _, _, _, .expression ha hend, h => by
    refine ⟨Node.Bodies.branch (by decide) ?_, .of_lineEnd ha.isContent hend⟩
    exact List.forall_mem_singleton.2 ha.bodies

theorem Body.nests (hlaid : Laid source tokens) (htokens : TokensOf source .eof tokens) :
    ∀ {next : TokenKind} {u : List Token} {a : Node} {before after},
    Body next u a → Cut tokens before u after →
      a.Bodies (Nested source tokens) ∧ Settled source next before u
  | _, _, _, _, _, .line hcolon ha, h => by
    have hhead : OfKinds TokenKind.isContent [_] := OfKinds.nil.cons hcolon rfl
    obtain ⟨hbodies, hsettled⟩ := ha.nests hlaid htokens (h.right (u := [_]))
    -- The statement stands on the line of the colon, so there is nothing to show of the body.
    refine ⟨Node.Bodies.of_children ?_ ?_, hsettled.append_content hhead⟩
    · intro _ hbreak
      exact absurd hbreak (not_breaksAfter htokens hcolon ha.startsAt h)
    · exact List.forall_mem_cons.2 ⟨.leaf (by decide), List.forall_mem_singleton.2 hbodies⟩
  | _, _, _, before, _, @Body.block _ _ _ _ colon newline indent hcolon hnewline hindent hlines
      hend, h => by
    have hframe : Cut tokens before ([colon, newline, indent] ++ (_ ++ _)) _ := h
    obtain ⟨width, hlt, hlevels, hcolonWidth⟩ :=
      exists_width_of_indent hlaid htokens hcolon hnewline hindent hframe.left
    have hline : openLine (before ++ [colon, newline, indent]) = [] := by
      have hlayout : indent.kind.isLayout = true := by rw [hindent]; rfl
      simpa using openLine_append_layout (u := before ++ [colon, newline]) hlayout
    obtain ⟨hnodes, hsettled⟩ := hlines.nests hlaid htokens hframe.right.left fun _ _ => hline
    rw [hlevels] at hnodes
    refine ⟨Node.Bodies.of_children ?_ ?_, .of_blockEnd hlevels hsettled hend⟩
    · intro _ _
      exact ⟨_, width, hcolonWidth, hlt, fun a ha => (hnodes a ha).2⟩
    · exact List.forall_mem_cons.2 ⟨.leaf (by decide), fun a ha => (hnodes a ha).1⟩

theorem Lines.nests (hlaid : Laid source tokens) (htokens : TokensOf source .eof tokens) :
    ∀ {next : TokenKind} {u : List Token} {nodes : List Node} {before after},
    Lines next u nodes → Cut tokens before u after →
      LineOver (firstKind u next) before →
        (∀ a ∈ nodes, a.Bodies (Nested source tokens) ∧ StartsLine tokens a.span.start ∧
          LineWidth source tokens a.span.start (innermost (openLevels source before))) ∧
        Settled source next before u
  | _, _, _, _, _, .nil, h, hline => by
    exact ⟨List.forall_mem_nil _, .nil hline⟩
  | _, _, _, before, _, @Lines.blank _ _ _ newline hnewline hlines, h, hline => by
    have hopen : openLine (before ++ [newline]) = [] :=
      openLine_append_layout (by rw [hnewline]; rfl)
    obtain ⟨hnodes, hsettled⟩ := hlines.nests hlaid htokens (h.right (u := [newline]))
      fun _ _ => hopen
    rw [openLevels_append_newline hnewline] at hnodes
    exact ⟨hnodes, Settled.append hlines.beforeEnd (.newline hnewline) hsettled⟩
  | _, _, _, _, _, .statement ha hlines, h, hline => by
    obtain ⟨hbodies, hsettled⟩ := ha.nests hlaid htokens h.left
    obtain ⟨hnodes, hrest⟩ := hlines.nests hlaid htokens h.right hsettled.line
    refine ⟨List.forall_mem_cons.2 ⟨⟨hbodies, ?_⟩, ?_⟩, hsettled.append hlines.beforeEnd hrest⟩
    · -- The first token of a statement is content, and so has to start a line here.
      rw [firstKind_append] at hline
      have hopen := hline (ha.startsAt.firstKind_ne rfl) (ha.startsAt.firstKind_ne rfl)
      exact startsLine_of_startsAt hlaid ha.startsAt h.left hopen
    · -- The statements after it are in the same block, which it leaves open.
      intro b hb
      rw [← hlines.openLevels_eq hsettled hb]
      exact hnodes b hb

theorem Further.nests (hlaid : Laid source tokens) (htokens : TokensOf source .eof tokens) :
    ∀ {next : TokenKind} {u : List Token} {nodes : List Node} {before after},
    Further next u nodes → Cut tokens before u after →
      LineOver (firstKind u next) before →
        (∀ a ∈ nodes, a.Bodies (Nested source tokens)) ∧ Settled source next before u
  | _, _, _, _, _, .none _ _, h, hline => by
    exact ⟨List.forall_mem_nil _, .nil hline⟩
  | _, _, _, _, _, .alternative hkeyword ha hbody hfurther, h, hline => by
    have hhead := ha.isContent.cons hkeyword rfl
    have hparts := h.right (u := _ :: _)
    obtain ⟨hfirst, hsettled⟩ := hbody.nests hlaid htokens hparts.left
    obtain ⟨hnodes, hrest⟩ := hfurther.nests hlaid htokens hparts.right hsettled.line
    refine ⟨?_, (hsettled.append hfurther.beforeEnd hrest).append_content hhead⟩
    simp only [List.forall_mem_cons]
    exact ⟨.leaf (by decide), ha.bodies, hfirst, hnodes⟩
  | _, _, _, _, _, .otherwise hkeyword hbody, h, hline => by
    have hhead : OfKinds TokenKind.isContent [_] := OfKinds.nil.cons hkeyword rfl
    obtain ⟨hbodies, hsettled⟩ := hbody.nests hlaid htokens (h.right (u := [_]))
    refine ⟨?_, hsettled.append_content hhead⟩
    exact List.forall_mem_cons.2 ⟨.leaf (by decide), List.forall_mem_singleton.2 hbodies⟩
end

end Script

section Ends

variable {q : Position} {width : Nat}

theorem Stands.append (h : Stands u before tok after p) :
    Stands (u ++ v) before tok (after ++ v) p :=
  ⟨by rw [h.split, List.append_assoc, List.cons_append], h.content, h.start⟩

theorem StartsLine.append (h : StartsLine u p) : StartsLine (u ++ v) p := by
  obtain ⟨before, tok, after, hstands, hline⟩ := h
  exact ⟨before, tok, after ++ v, hstands.append, hline⟩

theorem LineWidth.append (h : LineWidth source u p width) : LineWidth source (u ++ v) p width := by
  obtain ⟨before, tok, after, hstands, hwidth⟩ := h
  exact ⟨before, tok, after ++ v, hstands.append, hwidth⟩

/-- The token that closes the input is no line break. -/
theorem BreaksAfter.of_append (h : BreaksAfter (u ++ [.endAt q]) p) : BreaksAfter u p := by
  obtain ⟨before, tok, newline, after, hstands, hnewline⟩ := h
  have hsplit := hstands.split
  obtain rfl | ⟨front, last, rfl⟩ := after.eq_nil_or_concat
  · have hlast : u ++ [.endAt q] = (before ++ [tok]) ++ [newline] := by simpa using hsplit
    obtain ⟨-, hlast⟩ := List.append_inj' hlast rfl
    cases hlast
    cases hnewline
  · have hlast : u ++ [.endAt q] = (before ++ tok :: newline :: front) ++ [last] := by
      simpa using hsplit
    obtain ⟨hfront, -⟩ := List.append_inj' hlast rfl
    exact ⟨before, tok, newline, front, ⟨hfront, hstands.content, hstands.start⟩, hnewline⟩

theorem Nested.append {b : Node} (h : Nested source u b) : Nested source (u ++ [.endAt q]) b := by
  intro hbreak
  obtain ⟨outer, width, houter, hlt, hstatements⟩ := h hbreak.of_append
  refine ⟨outer, width, houter.append, hlt, ?_⟩
  intro a ha
  obtain ⟨hstarts, hwidth⟩ := hstatements a ha
  exact ⟨hstarts.append, hwidth.append⟩

end Ends

/-- Indentation is nesting. In every source that is recognized, the statements at the top level
start lines without indentation; and wherever a line break follows the colon of a body, the
statements of the body start lines that all have the same width, greater than that of the line that
holds the colon. -/
theorem indentation_is_nesting {file : String} {tree : Node}
    (hsize : Text.byteSize source < UInt32.size) (htokens : tokenize file source = .ok tokens)
    (htree : recognize file tokens = .ok tree) :
    (∀ a ∈ tree.children,
      StartsLine tokens a.span.start ∧ LineWidth source tokens a.span.start 0) ∧
    tree.Bodies (Nested source tokens) := by
  have hlaid := laid_of_tokenize hsize htokens
  obtain ⟨front, q, rfl, hfront⟩ := tokensOf_of_tokenize hsize htokens
  have heof : ∀ tok ∈ front, tok.kind ≠ .eof := fun tok htok => (hfront.written tok htok).kind_ne_eof
  obtain ⟨nodes, hlines, rfl⟩ := (recognize_eq_ok_iff heof).1 htree
  have hcut : Cut front [] front [] := by simp [Cut]
  obtain ⟨hnodes, -⟩ := hlines.nests hlaid.of_append hfront hcut fun _ _ => rfl
  constructor
  · intro a ha
    obtain ⟨-, hstarts, hwidth⟩ := hnodes a ha
    exact ⟨hstarts.append, hwidth.append⟩
  · refine Node.Bodies.of_children (fun hlabel => (by cases hlabel)) ?_
    intro a ha
    exact (hnodes a ha).1.mono fun b hb => hb.append

/-- Two blocks that end at once below a body on one line, a line break between parentheses, a blank
line and a comment, and a block that the end of the source closes. -/
theorem indentation_is_nesting_blocks :
    let source := "if a: while b:\n   (x\n)\n\n   # note\n   if c:\n\t\t\t\ty\nelse:\n z".toList
    Text.byteSize source < UInt32.size ∧ ∃ tokens tree, tokenize "shell" source = .ok tokens ∧
      recognize "shell" tokens = .ok tree ∧
      tree.children.map (·.children.map Node.label) =
        [[.keyword, .variableName, .body, .keyword, .body]] ∧
      (∀ a ∈ tree.children,
        StartsLine tokens a.span.start ∧ LineWidth source tokens a.span.start 0) ∧
      tree.Bodies (Nested source tokens) := by
  intro source
  have hsize : Text.byteSize source < UInt32.size := by decide +kernel
  obtain ⟨tree, hread, hlabels⟩ := Except.exists_eq_ok_of (x := treeOf "shell" source)
    (p := fun tree => decide (tree.children.map (·.children.map Node.label) =
      [[.keyword, .variableName, .body, .keyword, .body]])) (by decide +kernel)
  obtain ⟨tokens, htokens, htree⟩ := Except.bind_eq_ok_iff.1 hread
  exact ⟨hsize, tokens, tree, htokens, htree, of_decide_eq_true hlabels,
    indentation_is_nesting hsize htokens htree⟩

end Offside
