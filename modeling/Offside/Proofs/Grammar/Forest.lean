import Offside.Proofs.Grammar.Statement

/-! How the trees of the grammar are put together. A leaf is one of the tokens, a branch has parts,
and layout leaves no trace. What holds of all trees that are made so need not be proved of every
rule. -/
namespace Offside

/-- The label of the leaf that a token of a kind is, unless it is layout or closes the input. -/
def TokenKind.leafLabel? : TokenKind → Option Label
  | .number => some .number
  | .identifier => some .variableName
  | .kwTrue | .kwFalse => some .boolean
  | .kwNone => some .noneLiteral
  | .kwDef | .kwReturn | .kwIf | .kwElif | .kwElse | .kwWhile | .kwPass => some .keyword
  | .kwAnd | .kwOr | .kwIs | .equals | .notEquals | .less | .lessEquals | .greater
  | .greaterEquals | .plus | .dash | .star | .slash | .slashSlash | .percent => some .operator
  | .assignment => some .assignOp
  | .openParen => some .openParen
  | .closeParen => some .closeParen
  | .comma => some .comma
  | .colon => some .colon
  | .arrow => some .arrow
  | .newline | .indent | .dedent | .eof => none

/-- Trees that have been put together from some tokens. Each token is a leaf or layout, and each
branch has parts. -/
inductive Forest : List Token → List Node → Prop
  | nil : Forest [] []
  | layout {tok u nodes} : tok.kind.isLayout = true → Forest u nodes → Forest (tok :: u) nodes
  | leaf {tok label u nodes} : tok.kind.leafLabel? = some label → Forest u nodes →
      Forest (tok :: u) (.leaf label tok.span :: nodes)
  | branch {label u v nodes more} : nodes ≠ [] → Forest u nodes → Forest v more →
      Forest (u ++ v) (.branch label nodes :: more)

namespace TokenKind

variable {k : TokenKind} {label : Label}

theorem isContent_of_leafLabel? (h : k.leafLabel? = some label) : k.isContent = true := by
  cases k <;> first | rfl | cases h

end TokenKind

namespace Forest

variable {tok : Token} {u v : List Token} {a b : Node} {nodes more : List Node} {k : TokenKind}
  {label : Label}

theorem append (h : Forest u nodes) (hmore : Forest v more) : Forest (u ++ v) (nodes ++ more) := by
  induction h with
  | nil => exact hmore
  | layout htok _ ih => exact .layout htok ih
  | leaf htok _ ih => exact .leaf htok ih
  | branch hne hnodes _ _ ih =>
    rw [List.append_assoc]
    exact .branch hne hnodes ih

/-- Layout behind some trees is part of none. -/
theorem append_nil (h : Forest u nodes) (hv : Forest v []) : Forest (u ++ v) nodes := by
  have hwhole := h.append hv
  rwa [List.append_nil] at hwhole

/-- The leaf of a token of a known kind comes first. -/
theorem cons (htok : tok.kind = k) (hk : k.leafLabel? = some label) (h : Forest u nodes) :
    Forest (tok :: u) (.leaf label tok.span :: nodes) := .leaf (htok ▸ hk) h

theorem skip (htok : tok.kind = k) (hk : k.isLayout = true) (h : Forest u nodes) :
    Forest (tok :: u) nodes := .layout (htok ▸ hk) h

/-- Trees become the parts of one. -/
theorem tree (h : Forest u (a :: nodes)) : Forest u [.branch label (a :: nodes)] := by
  have hwhole : Forest (u ++ []) [.branch label (a :: nodes)] :=
    .branch (List.cons_ne_nil a nodes) h .nil
  rwa [List.append_nil] at hwhole

end Forest

namespace Level

theorem leafLabel?_of_mem_operators {l : Level} {k : TokenKind} (hk : k ∈ l.operators) :
    k.leafLabel? = some .operator := by
  have hall : ∀ k ∈ l.operators, k.leafLabel? = some .operator := by cases l <;> decide
  exact hall k hk

theorem AtomLabel.leafLabel? {k : TokenKind} {label : Label} (h : AtomLabel k label) :
    k.leafLabel? = some label := by
  cases h <;> rfl

mutual
/-- An expression has been put together from its tokens. -/
theorem Derives.forest : ∀ {l : Level} {u : List Token} {a : Node}, Derives l u a → Forest u [a]
  | _, _, _, .tighter _ ha => ha.forest
  | _, _, _, .operation _ hop hleft hright =>
    (hleft.forest.append (.leaf (leafLabel?_of_mem_operators hop) hright.forest)).tree
  | _, _, _, .signed hop ha => by
    have hall : ∀ k ∈ [TokenKind.plus, .dash], k.leafLabel? = some .operator := by decide
    exact (ha.forest.cons rfl (hall _ hop)).tree
  | _, _, _, .call hf hopen hargs =>
    (hf.forest.append (hargs.forest.cons hopen rfl).tree).tree
  | _, _, _, .atom h => .leaf h.leafLabel? .nil
  | _, _, _, .grouping hopen ha hclose =>
    ((ha.forest.append (Forest.nil.cons hclose rfl)).cons hopen rfl).tree

theorem Arguments.forest : ∀ {v : List Token} {nodes : List Node}, Arguments v nodes →
    Forest v nodes
  | _, _, .close hclose => Forest.nil.cons hclose rfl
  | _, _, .last ha hclose => ha.forest.append (Forest.nil.cons hclose rfl)
  | _, _, .more ha hcomma hmore => ha.forest.append (hmore.forest.cons hcomma rfl)
end

end Level

namespace Script

variable {k next : TokenKind} {label : Label} {u : List Token} {nodes : List Node}

theorem LineEnd.forest (h : LineEnd next u) : Forest u [] := by
  cases h with
  | newline htok => exact Forest.nil.skip htok rfl
  | before => exact .nil

theorem BlockEnd.forest (h : BlockEnd next u) : Forest u [] := by
  cases h with
  | dedent htok => exact Forest.nil.skip htok rfl
  | input => exact .nil

theorem OptionalType.forest (hk : k.leafLabel? = some label) (h : OptionalType k label u nodes) :
    Forest u nodes := by
  cases h with
  | absent => exact .nil
  | present hmark ha => exact (ha.forest.cons hmark hk).tree

theorem Assigned.forest (h : Assigned u nodes) : Forest u nodes := by
  cases h with
  | type hmark ha => exact (OptionalType.present hmark ha).forest rfl
  | value htype hmark hb => exact (htype.forest rfl).append (hb.forest.cons hmark rfl)

theorem Parameter.forest (h : Parameter u nodes) : Forest u nodes := by
  obtain ⟨hname, htype⟩ := h
  exact (htype.forest rfl).cons hname rfl

theorem Parameters.forest (h : Parameters u nodes) : Forest u nodes := by
  induction h with
  | close hclose => exact Forest.nil.cons hclose rfl
  | last hparameter hclose => exact hparameter.forest.append (Forest.nil.cons hclose rfl)
  | more hparameter hcomma _ ih => exact hparameter.forest.append (ih.cons hcomma rfl)

mutual
/-- A statement has been put together from its tokens. -/
theorem Statement.forest : ∀ {next : TokenKind} {u : List Token} {a : Node},
    Statement next u a → Forest u [a]
  | _, _, _, .function hkeyword hname hopening hparameters htype hbody => by
    have hlist : Forest _ [.branch .paramList _] := (hparameters.forest.cons hopening rfl).tree
    have hrest := hlist.append ((htype.forest rfl).append hbody.forest)
    exact ((hrest.cons hname rfl).cons hkeyword rfl).tree
  | _, _, _, .returnNone hkeyword hend =>
    (hend.forest.cons hkeyword rfl).tree
  | _, _, _, .returnValue hkeyword ha hend =>
    ((ha.forest.append_nil hend.forest).cons hkeyword rfl).tree
  | _, _, _, .loop hkeyword ha hbody =>
    ((ha.forest.append hbody.forest).cons hkeyword rfl).tree
  | _, _, _, .conditional hkeyword ha hbody hfurther => by
    have hparts := ha.forest.append (hbody.forest.append hfurther.forest)
    exact (hparts.cons hkeyword rfl).tree
  | _, _, _, .pass hkeyword hend =>
    (hend.forest.cons hkeyword rfl).tree
  | _, _, _, .assignment hname h hend =>
    ((h.forest.append_nil hend.forest).cons hname rfl).tree
  | _, _, _, .expression ha hend =>
    (ha.forest.append_nil hend.forest).tree

theorem Body.forest : ∀ {next : TokenKind} {u : List Token} {a : Node},
    Body next u a → Forest u [a]
  | _, _, _, .line hcolon ha => (ha.forest.cons hcolon rfl).tree
  | _, _, _, .block hcolon hnewline hindent hlines hend => by
    have hblock := (hlines.forest.append_nil hend.forest).skip hindent rfl
    exact ((hblock.skip hnewline rfl).cons hcolon rfl).tree

theorem Lines.forest : ∀ {next : TokenKind} {u : List Token} {nodes : List Node},
    Lines next u nodes → Forest u nodes
  | _, _, _, .nil => .nil
  | _, _, _, .blank hnewline hlines => hlines.forest.skip hnewline rfl
  | _, _, _, .statement ha hlines => ha.forest.append hlines.forest

theorem Further.forest : ∀ {next : TokenKind} {u : List Token} {nodes : List Node},
    Further next u nodes → Forest u nodes
  | _, _, _, .none _ _ => .nil
  | _, _, _, .alternative hkeyword ha hbody hfurther =>
    (ha.forest.append (hbody.forest.append hfurther.forest)).cons hkeyword rfl
  | _, _, _, .otherwise hkeyword hbody => hbody.forest.cons hkeyword rfl
end

end Script
end Offside
