import Mathlib.Algebra.Ring.Int.Defs
import Offside.Proofs.Grammar.Content
import Offside.Proofs.Scan.Lexing

/-! What the rules of the grammar open they close: every parenthesis, and every block but those that
the end of the input closes. -/
namespace Offside

/-- What a token adds to the blocks that are open. -/
def TokenKind.blockWeight : TokenKind → Int
  | .indent => 1
  | .dedent => -1
  | _ => 0

/-- How many more blocks some tokens open than they close. -/
def blocksOpened (u : List Token) : Int := (u.map (·.kind.blockWeight)).sum

def TokenKind.isParen (k : TokenKind) : Bool := k = .openParen || k = .closeParen

variable {tok : Token} {u v : List Token} {k : TokenKind} {depth : Nat}

theorem depthAfter_of_not_paren (hk : k.isParen = false) : Scanner.depthAfter depth k = depth := by
  cases k <;> first | rfl | cases hk

@[simp] theorem blocksOpened_nil : blocksOpened [] = 0 := rfl

@[simp] theorem blocksOpened_cons (tok : Token) (u : List Token) :
    blocksOpened (tok :: u) = tok.kind.blockWeight + blocksOpened u := by
  simp [blocksOpened]

@[simp] theorem blocksOpened_append (u v : List Token) :
    blocksOpened (u ++ v) = blocksOpened u + blocksOpened v := by
  simp [blocksOpened]

theorem blocksOpened_of_isContent (hu : OfKinds TokenKind.isContent u) : blocksOpened u = 0 := by
  induction u with
  | nil => rfl
  | cons tok u ih =>
    obtain ⟨htok, hu⟩ := List.forall_mem_cons.1 hu
    have hweight : tok.kind.blockWeight = 0 := by
      generalize tok.kind = k at htok
      cases k <;> first | rfl | cases htok
    rw [blocksOpened_cons, hweight, ih hu, Int.zero_add]

/-- Tokens that close every parenthesis that they open, and no other. -/
def Balanced (u : List Token) : Prop := ∀ depth, parensAfter depth u = depth

/-- Tokens that close one more parenthesis than they open, the last of all. -/
def Closes (u : List Token) : Prop := ∀ depth, parensAfter (depth + 1) u = depth

namespace Balanced

theorem nil : Balanced [] := fun _ => rfl

theorem cons (htok : tok.kind = k) (hk : k.isParen = false) (hu : Balanced u) :
    Balanced (tok :: u) := by
  intro depth
  have hdepth : Scanner.depthAfter depth tok.kind = depth := by
    rw [htok, depthAfter_of_not_paren hk]
  change parensAfter (Scanner.depthAfter depth tok.kind) u = depth
  rw [hdepth, hu]

theorem append (hu : Balanced u) (hv : Balanced v) : Balanced (u ++ v) := by
  intro depth
  rw [parensAfter_append, hu, hv]

theorem of_closes (hopen : tok.kind = .openParen) (hu : Closes u) : Balanced (tok :: u) := by
  intro depth
  change parensAfter (Scanner.depthAfter depth tok.kind) u = depth
  rw [hopen]
  exact hu depth

end Balanced

namespace Closes

theorem close (hclose : tok.kind = .closeParen) : Closes [tok] := by
  intro depth
  change Scanner.depthAfter (depth + 1) tok.kind = depth
  rw [hclose]
  rfl

theorem append (hu : Balanced u) (hv : Closes v) : Closes (u ++ v) := by
  intro depth
  rw [parensAfter_append, hu, hv]

theorem cons (htok : tok.kind = k) (hk : k.isParen = false) (hu : Closes u) : Closes (tok :: u) :=
  append (Balanced.nil.cons htok hk) hu

end Closes

namespace Level

variable {l : Level}

theorem isParen_of_atomLabel {label : Label} (h : AtomLabel k label) : k.isParen = false := by
  cases h <;> rfl

theorem isParen_of_mem_operators (hk : k ∈ l.operators) : k.isParen = false := by
  have hall : ∀ k ∈ l.operators, k.isParen = false := by cases l <;> decide
  exact hall k hk

mutual
theorem Derives.balanced : ∀ {l : Level} {u : List Token} {a : Node}, Derives l u a → Balanced u
  | _, _, _, .tighter _ ha => ha.balanced
  | _, _, _, .operation _ hop hleft hright =>
    hleft.balanced.append (hright.balanced.cons rfl (isParen_of_mem_operators hop))
  | _, _, _, .signed hop ha => by
    have hall : ∀ k ∈ [TokenKind.plus, .dash], k.isParen = false := by decide
    exact ha.balanced.cons rfl (hall _ hop)
  | _, _, _, .call hf hopen hargs => hf.balanced.append (.of_closes hopen hargs.closes)
  | _, _, _, .atom h => Balanced.nil.cons rfl (isParen_of_atomLabel h)
  | _, _, _, .grouping hopen ha hclose => .of_closes hopen (.append ha.balanced (.close hclose))

theorem Arguments.closes : ∀ {v : List Token} {nodes : List Node}, Arguments v nodes → Closes v
  | _, _, .close hclose => .close hclose
  | _, _, .last ha hclose => .append ha.balanced (.close hclose)
  | _, _, .more ha hcomma hmore => .append ha.balanced (hmore.closes.cons hcomma rfl)
end

end Level

/-- Tokens that close what they open: every parenthesis, and no block that they have not opened. -/
structure Framed (u : List Token) : Prop where
  parens : Balanced u
  blocks : 0 ≤ blocksOpened u

namespace Framed

theorem nil : Framed [] := ⟨.nil, Int.le_refl 0⟩

theorem content (hcontent : OfKinds TokenKind.isContent u) (hu : Balanced u) : Framed u :=
  ⟨hu, Int.le_of_eq (blocksOpened_of_isContent hcontent).symm⟩

theorem append (hu : Framed u) (hv : Framed v) : Framed (u ++ v) := by
  refine ⟨hu.parens.append hv.parens, ?_⟩
  rw [blocksOpened_append]
  exact Int.add_nonneg hu.blocks hv.blocks

theorem cons (htok : tok.kind = k) (hparen : k.isParen = false) (hweight : k.blockWeight = 0)
    (hu : Framed u) : Framed (tok :: u) := by
  refine ⟨hu.parens.cons htok hparen, ?_⟩
  rw [blocksOpened_cons, htok, hweight, Int.zero_add]
  exact hu.blocks

end Framed

namespace Script

variable {next : TokenKind} {label : Label} {nodes : List Node}

theorem OptionalType.balanced (hk : k.isParen = false) (h : OptionalType k label u nodes) :
    Balanced u := by
  cases h with
  | absent => exact .nil
  | present hmark ha => exact ha.balanced.cons hmark hk

theorem Assigned.balanced (h : Assigned u nodes) : Balanced u := by
  cases h with
  | type hmark ha => exact ha.balanced.cons hmark rfl
  | value htype hmark hb => exact (htype.balanced rfl).append (hb.balanced.cons hmark rfl)

theorem Parameter.balanced (h : Parameter u nodes) : Balanced u := by
  obtain ⟨hname, htype⟩ := h
  exact (htype.balanced rfl).cons hname rfl

theorem Parameters.closes (h : Parameters u nodes) : Closes u := by
  induction h with
  | close hclose => exact .close hclose
  | last hparameter hclose => exact .append hparameter.balanced (.close hclose)
  | more hparameter hcomma _ ih => exact .append hparameter.balanced (ih.cons hcomma rfl)

theorem LineEnd.framed (h : LineEnd next u) : Framed u := by
  cases h with
  | newline htok => exact Framed.nil.cons htok rfl rfl
  | before => exact .nil

/-- An indented block closes no block but itself. -/
theorem BlockEnd.framed {indent : Token} (hindent : indent.kind = .indent) (hu : Framed u)
    (h : BlockEnd next v) : Framed (indent :: (u ++ v)) := by
  cases h with
  | dedent htok =>
    refine ⟨(hu.parens.append (Balanced.nil.cons htok rfl)).cons hindent rfl, ?_⟩
    have hblocks := hu.blocks
    simp only [blocksOpened_cons, blocksOpened_append, blocksOpened_nil, hindent, htok,
      TokenKind.blockWeight]
    omega
  | input =>
    refine ⟨(hu.parens.append .nil).cons hindent rfl, ?_⟩
    have hblocks := hu.blocks
    simp only [blocksOpened_cons, blocksOpened_append, blocksOpened_nil, hindent,
      TokenKind.blockWeight]
    omega

mutual
/-- A statement closes what it opens. -/
theorem Statement.framed : ∀ {next : TokenKind} {u : List Token} {a : Node},
    Statement next u a → Framed u
  | _, _, _, .function hkeyword hname hopening hparameters htype hbody => by
    have hhead := Framed.content (hparameters.isContent.cons hopening rfl)
      (.of_closes hopening hparameters.closes)
    have htype := Framed.content (htype.isContent rfl) (htype.balanced rfl)
    have hwhole := hhead.append (htype.append hbody.framed)
    exact (hwhole.cons hname rfl rfl).cons hkeyword rfl rfl
  | _, _, _, .returnNone hkeyword hend => hend.framed.cons hkeyword rfl rfl
  | _, _, _, .returnValue hkeyword ha hend =>
    ((Framed.content ha.isContent ha.balanced).append hend.framed).cons hkeyword rfl rfl
  | _, _, _, .loop hkeyword ha hbody =>
    ((Framed.content ha.isContent ha.balanced).append hbody.framed).cons hkeyword rfl rfl
  | _, _, _, .conditional hkeyword ha hbody hfurther => by
    have hparts := hbody.framed.append hfurther.framed
    exact ((Framed.content ha.isContent ha.balanced).append hparts).cons hkeyword rfl rfl
  | _, _, _, .pass hkeyword hend => hend.framed.cons hkeyword rfl rfl
  | _, _, _, .assignment hname h hend =>
    ((Framed.content h.isContent h.balanced).append hend.framed).cons hname rfl rfl
  | _, _, _, .expression ha hend =>
    (Framed.content ha.isContent ha.balanced).append hend.framed

theorem Body.framed : ∀ {next : TokenKind} {u : List Token} {a : Node}, Body next u a → Framed u
  | _, _, _, .line hcolon ha => ha.framed.cons hcolon rfl rfl
  | _, _, _, .block hcolon hnewline hindent hlines hend =>
    ((hend.framed hindent hlines.framed).cons hnewline rfl rfl).cons hcolon rfl rfl

theorem Lines.framed : ∀ {next : TokenKind} {u : List Token} {nodes : List Node},
    Lines next u nodes → Framed u
  | _, _, _, .nil => .nil
  | _, _, _, .blank hnewline hlines => hlines.framed.cons hnewline rfl rfl
  | _, _, _, .statement ha hlines => ha.framed.append hlines.framed

theorem Further.framed : ∀ {next : TokenKind} {u : List Token} {nodes : List Node},
    Further next u nodes → Framed u
  | _, _, _, .none _ _ => .nil
  | _, _, _, .alternative hkeyword ha hbody hfurther => by
    have hparts := hbody.framed.append hfurther.framed
    exact ((Framed.content ha.isContent ha.balanced).append hparts).cons hkeyword rfl rfl
  | _, _, _, .otherwise hkeyword hbody => hbody.framed.cons hkeyword rfl rfl
end

end Script
end Offside
