import Offside.Proofs.Grammar.Balance
import Offside.Proofs.Grammar.Bodies
import Offside.Proofs.Scan.LogicalLine

/-! Lines that are ended, with more lines after them. Where the last line is over and all blocks are
closed, what the lines are does not depend on what comes next, as long as it takes up nothing of
them. -/
namespace Offside

/-- Whether a token of a kind takes up nothing of the lines before it, as what belongs to a
conditional or a block does. -/
def TokenKind.startsAnew (k : TokenKind) : Bool := k ∉ [kwElif, kwElse, indent]

/-- After these tokens the line is over, and no more blocks are open than before them. -/
structure Ended (u : List Token) : Prop where
  line : openLine u = []
  blocks : blocksOpened u ≤ 0

variable {tok : Token} {u v w : List Token} {k next : TokenKind} {a : Node} {nodes more : List Node}

theorem openLine_of_append (h : openLine (u ++ v) = []) : openLine v = [] := by
  rw [openLine, List.rtakeWhile_eq_nil_iff] at h ⊢
  intro hv
  have hlast := h (List.append_ne_nil_of_right_ne_nil u hv)
  rwa [List.getLast_append_of_ne_nil _ hv] at hlast

/-- Content is part of a line that is not over. -/
theorem openLine_ne_nil_of_isContent (hu : OfKinds TokenKind.isContent u) (hne : u ≠ []) :
    openLine u ≠ [] := by
  obtain ⟨front, last, rfl⟩ := u.eq_nil_or_concat'.resolve_left hne
  have hlast := hu last (by simp)
  rw [openLine_append_other (TokenKind.isLayout_of_isContent hlast)]
  simp

namespace Ended

theorem right (h : Ended (u ++ v)) (hu : 0 ≤ blocksOpened u) : Ended v := by
  refine ⟨openLine_of_append h.line, ?_⟩
  have hblocks := h.blocks
  rw [blocksOpened_append] at hblocks
  omega

theorem of_content (h : Ended (u ++ v)) (hu : OfKinds TokenKind.isContent u) : Ended v :=
  h.right (Int.le_of_eq (blocksOpened_of_isContent hu).symm)

theorem tail (h : Ended (tok :: u)) (htok : tok.kind = k) (hk : k.blockWeight = 0) : Ended u := by
  refine right (u := [tok]) h ?_
  rw [blocksOpened_cons, htok, hk]
  exact Int.le_refl 0

end Ended

namespace Script

/-- A line that is over has been ended by its own token. -/
theorem LineEnd.closes (h : LineEnd next v) (hu : OfKinds TokenKind.isContent u) (hne : u ≠ [])
    (hended : Ended (u ++ v)) : LineEnd k v := by
  cases h with
  | newline htok => exact .newline htok
  | before =>
    have hline := hended.line
    rw [List.append_nil] at hline
    exact absurd hline (openLine_ne_nil_of_isContent hu hne)

/-- A block that is closed has been closed by its own token. -/
theorem exists_of_blockEnd {indent : Token} (hindent : indent.kind = .indent) (hu : Framed u)
    (h : BlockEnd next v) (hended : Ended (indent :: (u ++ v))) :
    ∃ dedent : Token, dedent.kind = .dedent ∧ v = [dedent] := by
  cases h with
  | dedent htok => exact ⟨_, htok, rfl⟩
  | input =>
    have hblocks := hended.blocks
    have hpart := hu.blocks
    simp only [blocksOpened_cons, blocksOpened_append, blocksOpened_nil, hindent,
      TokenKind.blockWeight] at hblocks
    omega

/-- What stands before more tokens depends on what comes next only if there are no more tokens. -/
theorem closes_before {P : TokenKind → Prop} (h : P (firstKind v next)) (hended : Ended (u ++ v))
    (hclosed : Ended u → P k) : P (firstKind v k) := by
  cases v with
  | nil =>
    rw [List.append_nil] at hended
    exact hclosed hended
  | cons tok v => exact h

mutual
/-- A statement that is ended is one before other tokens too. -/
theorem Statement.closes : ∀ {next k : TokenKind} {u : List Token} {a : Node},
    Statement next u a → Ended u → k.startsAnew = true → Statement k u a
  | _, _, _, _, .function hkeyword hname hopening hparameters htype hbody, hended, hk => by
    have hended := ((hended.tail hkeyword rfl).tail hname rfl).tail hopening rfl
    have hended := (hended.of_content hparameters.isContent).of_content (htype.isContent rfl)
    exact .function hkeyword hname hopening hparameters htype (hbody.closes hended hk)
  | _, _, _, _, .returnNone hkeyword hend, hended, _ =>
    .returnNone hkeyword
      (hend.closes (OfKinds.nil.cons hkeyword rfl) (List.cons_ne_nil _ _) hended)
  | _, _, _, _, .returnValue hkeyword ha hend, hended, _ =>
    .returnValue hkeyword ha
      (hend.closes (ha.isContent.cons hkeyword rfl) (List.cons_ne_nil _ _) hended)
  | _, _, _, _, .loop hkeyword ha hbody, hended, hk => by
    have hended := (hended.tail hkeyword rfl).of_content ha.isContent
    exact .loop hkeyword ha (hbody.closes hended hk)
  | _, _, _, _, .conditional hkeyword ha hbody hfurther, hended, hk => by
    have hended := (hended.tail hkeyword rfl).of_content ha.isContent
    exact .conditional hkeyword ha
      (closes_before (P := fun k => Body k _ _) hbody hended fun hended => hbody.closes hended hk)
      (hfurther.closes (hended.right hbody.framed.blocks) hk)
  | _, _, _, _, .pass hkeyword hend, hended, _ =>
    .pass hkeyword (hend.closes (OfKinds.nil.cons hkeyword rfl) (List.cons_ne_nil _ _) hended)
  | _, _, _, _, .assignment hname h hend, hended, _ =>
    .assignment hname h
      (hend.closes (h.isContent.cons hname rfl) (List.cons_ne_nil _ _) hended)
  | _, _, _, _, .expression ha hend, hended, _ => by
    obtain ⟨tok, v, hu, -⟩ := ha.startsAt
    exact .expression ha (hend.closes ha.isContent (by simp [hu]) hended)

theorem Body.closes : ∀ {next k : TokenKind} {u : List Token} {a : Node},
    Body next u a → Ended u → k.startsAnew = true → Body k u a
  | _, _, _, _, .line hcolon ha, hended, hk =>
    .line hcolon (ha.closes (hended.tail hcolon rfl) hk)
  | _, _, _, _, .block hcolon hnewline hindent hlines hend, hended, _ => by
    have hended := (hended.tail hcolon rfl).tail hnewline rfl
    obtain ⟨dedent, hdedent, rfl⟩ := exists_of_blockEnd hindent hlines.framed hend hended
    exact .block hcolon hnewline hindent hlines (.dedent hdedent)

theorem Lines.closes : ∀ {next k : TokenKind} {u : List Token} {nodes : List Node},
    Lines next u nodes → Ended u → k.startsAnew = true → Lines k u nodes
  | _, _, _, _, .nil, _, _ => .nil
  | _, _, _, _, .blank hnewline hlines, hended, hk =>
    .blank hnewline (hlines.closes (hended.tail hnewline rfl) hk)
  | _, _, _, _, .statement ha hlines, hended, hk =>
    .statement
      (closes_before (P := fun k => Statement k _ _) ha hended fun hended => ha.closes hended hk)
      (hlines.closes (hended.right ha.framed.blocks) hk)

theorem Further.closes : ∀ {next k : TokenKind} {u : List Token} {nodes : List Node},
    Further next u nodes → Ended u → k.startsAnew = true → Further k u nodes
  | _, _, _, _, .none _ _, _, hk => by
    refine .none ?_ ?_ <;> rintro rfl <;> cases hk
  | _, _, _, _, .alternative hkeyword ha hbody hfurther, hended, hk => by
    have hended := (hended.tail hkeyword rfl).of_content ha.isContent
    exact .alternative hkeyword ha
      (closes_before (P := fun k => Body k _ _) hbody hended fun hended => hbody.closes hended hk)
      (hfurther.closes (hended.right hbody.framed.blocks) hk)
  | _, _, _, _, .otherwise hkeyword hbody, hended, hk =>
    .otherwise hkeyword (hbody.closes (hended.tail hkeyword rfl) hk)
end

/-- Lines after lines that know what comes next are lines. -/
theorem Lines.append (hv : Lines next v more) : ∀ {k : TokenKind} {u : List Token}
    {nodes : List Node}, k = firstKind v next → Lines k u nodes →
      Lines next (u ++ v) (nodes ++ more)
  | _, _, _, _, .nil => hv
  | _, _, _, hk, .blank hnewline hlines => .blank hnewline (hv.append hk hlines)
  | _, _, _, hk, .statement ha hlines => by
    subst hk
    rw [List.append_assoc]
    rw [← firstKind_append] at ha
    exact .statement ha (hv.append rfl hlines)

theorem startsAnew_of_derives {l : Level} (h : l.Derives u a) :
    (firstKind u k).startsAnew = true := by
  obtain ⟨tok, v, rfl, -⟩ := h.startsAt
  have hall : ∀ k ∈ Level.kinds, k.startsAnew = true := by decide
  exact hall _ (h.kind_mem_kinds tok List.mem_cons_self)

theorem Statement.startsAnew (h : Statement next u a) (k : TokenKind) :
    (firstKind u k).startsAnew = true := by
  cases h with
  | expression ha =>
    rw [firstKind_append]
    exact startsAnew_of_derives ha
  | function hk | returnNone hk | returnValue hk | loop hk | conditional hk | pass hk
  | assignment hk =>
    rw [firstKind_cons, hk]
    rfl

/-- Lines take up nothing of what stands before them. -/
theorem Lines.startsAnew (h : Lines next u nodes) (hnext : next.startsAnew = true) :
    (firstKind u next).startsAnew = true := by
  cases h with
  | nil => exact hnext
  | blank hnewline =>
    rw [firstKind_cons, hnewline]
    rfl
  | statement ha =>
    rw [firstKind_append]
    exact ha.startsAnew _

end Script
end Offside
