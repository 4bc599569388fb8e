import Offside.Recognizer.Expression

/-! The expressions of the language as a grammar of levels, from the loosest operators to names and
literals. Repetitions associate to the left: a longer chain of operators is an operation whose left
operand is a shorter one. -/
namespace Offside

/-- The levels of the grammar of expressions. -/
inductive Level where
  | disjunction | conjunction | relation | sum | product | sign | invocation | atom
deriving DecidableEq, Repr

namespace Level

/-- How far a level is from the loosest. -/
def rank : Level → Nat
  | disjunction => 0
  | conjunction => 1
  | relation => 2
  | sum => 3
  | product => 4
  | sign => 5
  | invocation => 6
  | atom => 7

/-- The next tighter level. -/
def tighter? : Level → Option Level
  | disjunction => some conjunction
  | conjunction => some relation
  | relation => some sum
  | sum => some product
  | product => some sign
  | sign => some invocation
  | invocation => some atom
  | atom => none

/-- The operators between the operands of a level. -/
def operators : Level → List TokenKind
  | disjunction => [.kwOr]
  | conjunction => [.kwAnd]
  | relation => [.less, .lessEquals, .greater, .greaterEquals, .equals, .notEquals, .kwIs]
  | sum => [.plus, .dash]
  | product => [.star, .slash, .slashSlash, .percent]
  | sign | invocation | atom => []

/-- The leaf that a name or literal is. -/
inductive AtomLabel : TokenKind → Label → Prop
  | number : AtomLabel .number .number
  | identifier : AtomLabel .identifier .variableName
  | true : AtomLabel .kwTrue .boolean
  | false : AtomLabel .kwFalse .boolean
  | none : AtomLabel .kwNone .noneLiteral

mutual
/-- Tokens are an expression of a level, and this is its tree. -/
inductive Derives : Level → List Token → Node → Prop
  | tighter {l m u a} : l.tighter? = some m → Derives m u a → Derives l u a
  | operation {l m u v a b} {op : Token} : l.tighter? = some m → op.kind ∈ l.operators →
      Derives l u a → Derives m v b →
      Derives l (u ++ op :: v) (.branch .binaryExpression [a, .leaf .operator op.span, b])
  | signed {u a} {op : Token} : op.kind ∈ [TokenKind.plus, .dash] → Derives sign u a →
      Derives sign (op :: u) (.branch .unaryExpression [.leaf .operator op.span, a])
  | call {u v a nodes} {opening : Token} : Derives invocation u a → opening.kind = .openParen →
      Arguments v nodes →
      Derives invocation (u ++ opening :: v)
        (.branch .callExpression [a, .branch .argList (.leaf .openParen opening.span :: nodes)])
  | atom {label} {tok : Token} : AtomLabel tok.kind label →
      Derives atom [tok] (.leaf label tok.span)
  | grouping {u a} {opening closing : Token} : opening.kind = .openParen →
      Derives disjunction u a → closing.kind = .closeParen →
      Derives atom (opening :: (u ++ [closing])) (.branch .parenthesizedExpression
        [.leaf .openParen opening.span, a, .leaf .closeParen closing.span])

/-- The arguments of a call up to the closing parenthesis. A comma may stand after the last. -/
inductive Arguments : List Token → List Node → Prop
  | close {closing : Token} : closing.kind = .closeParen →
      Arguments [closing] [.leaf .closeParen closing.span]
  | last {u a} {closing : Token} : Derives disjunction u a → closing.kind = .closeParen →
      Arguments (u ++ [closing]) [a, .leaf .closeParen closing.span]
  | more {u v a nodes} {comma : Token} : Derives disjunction u a → comma.kind = .comma →
      Arguments v nodes → Arguments (u ++ comma :: v) (a :: .leaf .comma comma.span :: nodes)
end

/-- The power of the operators of a level, or of the parentheses of a call. -/
def power : Level → Power
  | disjunction => .disjunction
  | conjunction => .conjunction
  | relation => .relation
  | sum => .sum
  | product => .product
  | sign => .sign
  | invocation | atom => .call

/-- The level just above a power, the loosest whose operators bind tighter. -/
def above : Power → Level
  | .loosest => disjunction
  | .disjunction => conjunction
  | .conjunction => relation
  | .relation => sum
  | .sum => product
  | .product => sign
  | .sign => invocation
  | .call | .primary => atom

/-- The level of the operands of a power. After a sign another sign may come. -/
def operand : Power → Level
  | .sign => sign
  | p => above p

variable {l m : Level} {p : Power}

theorem exists_tighter (h : l.rank < atom.rank) : ∃ m, l.tighter? = some m := by
  cases l
  case atom => exact absurd h (by decide)
  all_goals exact ⟨_, rfl⟩

theorem rank_tighter (h : l.tighter? = some m) : m.rank = l.rank + 1 := by
  cases l <;> cases h <;> rfl

theorem eq_of_rank_eq (h : l.rank = m.rank) : l = m := by
  cases l <;> cases m <;> first | rfl | cases h

theorem rank_power (l : Level) : l.power.rank = min (l.rank + 1) 7 := by
  cases l <;> rfl

theorem rank_operand (hp : p ≤ .sign) : (operand p).rank = min p.rank 5 := by
  cases p
  case call => exact absurd hp (by decide)
  case primary => exact absurd hp (by decide)
  all_goals rfl

theorem power_le_power (h : l.rank ≤ m.rank) : l.power ≤ m.power := by
  change l.power.rank ≤ m.power.rank
  rw [rank_power, rank_power]
  omega

theorem le_power_operand (hp : p ≤ .sign) : p ≤ (operand p).power := by
  change p.rank ≤ (operand p).power.rank
  have : p.rank ≤ 6 := hp
  rw [rank_power, rank_operand hp]
  omega

/-- The right operand of an operator is of the level after the operator's. -/
theorem operand_power {k : TokenKind} (hk : k ∈ l.operators) :
    l.tighter? = some (operand l.power) := by
  cases l
  case sign | invocation | atom => cases hk
  all_goals rfl

theorem rank_le_of_mem_operators {k : TokenKind} (hk : k ∈ l.operators) : l.rank ≤ 4 := by
  cases l
  case sign | invocation | atom => cases hk
  all_goals decide

/-- An operator that binds no tighter than a level is of a looser level. -/
theorem le_of_mem_operators {k : TokenKind} (hk : k ∈ m.operators) (h : m.power ≤ l.power) :
    m.power ≤ .sign ∧ m.rank ≤ l.rank := by
  have hrank := rank_le_of_mem_operators hk
  change m.power.rank ≤ 6 ∧ m.rank ≤ l.rank
  change m.power.rank ≤ l.power.rank at h
  rw [rank_power, rank_power] at h
  rw [rank_power]
  omega

theorem invocation_le_of_call (h : Power.call ≤ l.power) : invocation.rank ≤ l.rank := by
  change Power.call.rank ≤ l.power.rank at h
  rw [rank_power] at h
  have : Power.call.rank = 7 := rfl
  have : invocation.rank = 6 := rfl
  omega

/-- An expression of a tighter level is one of every looser level. -/
theorem Derives.loosen {u : List Token} {a : Node} (h : Derives m u a) (hlm : l.rank ≤ m.rank) :
    Derives l u a := by
  obtain ⟨k, hk⟩ := Nat.exists_eq_add_of_le hlm
  induction k generalizing l with
  | zero =>
    have : l = m := eq_of_rank_eq (by omega)
    exact this ▸ h
  | succ k ih =>
    have hm : m.rank ≤ Level.atom.rank := by cases m <;> decide
    obtain ⟨n, hn⟩ := exists_tighter (l := l) (by omega)
    have hr := rank_tighter hn
    exact .tighter hn (ih (by omega) (by omega))

theorem AtomLabel.label_ne_unaryExpression {k : TokenKind} {label : Label} (h : AtomLabel k label) :
    label ≠ .unaryExpression := by
  cases h <;> decide

/-- A sign is not part of a tighter level, unless in parentheses. -/
theorem Derives.label_ne_unaryExpression : ∀ {l : Level} {u : List Token} {a : Node},
    Derives l u a → sign.rank < l.rank → a.label ≠ .unaryExpression
  | _, _, _, .tighter hm ha, hl =>
    have hr := rank_tighter hm
    label_ne_unaryExpression ha (by omega)
  | _, _, _, .operation .., _ => nofun
  | _, _, _, .signed .., hl => absurd hl (Nat.lt_irrefl _)
  | _, _, _, .call .., _ => nofun
  | _, _, _, .atom h, _ => h.label_ne_unaryExpression
  | _, _, _, .grouping .., _ => nofun

/-- The kinds of the tokens of expressions. -/
def kinds : List TokenKind :=
  [.number, .identifier, .kwTrue, .kwFalse, .kwNone, .openParen, .closeParen, .comma, .kwOr, .kwAnd,
    .less, .lessEquals, .greater, .greaterEquals, .equals, .notEquals, .kwIs, .plus, .dash, .star,
    .slash, .slashSlash, .percent]

theorem AtomLabel.kind_mem_kinds {k : TokenKind} {label : Label} (h : AtomLabel k label) :
    k ∈ kinds := by
  cases h <;> decide

theorem mem_kinds_of_mem_operators {k : TokenKind} (hk : k ∈ l.operators) : k ∈ kinds := by
  have hall : ∀ k ∈ l.operators, k ∈ kinds := by cases l <;> decide
  exact hall k hk

mutual
/-- An expression has no other tokens. -/
theorem Derives.kind_mem_kinds : ∀ {l : Level} {u : List Token} {a : Node}, Derives l u a →
    ∀ tok ∈ u, tok.kind ∈ kinds
  | _, _, _, .tighter _ ha => ha.kind_mem_kinds
  | _, _, _, .operation _ hop hleft hright => by
    simp only [List.forall_mem_append, List.forall_mem_cons]
    exact ⟨hleft.kind_mem_kinds, mem_kinds_of_mem_operators hop, hright.kind_mem_kinds⟩
  | _, _, _, .signed hop ha => by
    have hall : ∀ k ∈ [TokenKind.plus, .dash], k ∈ kinds := by decide
    exact List.forall_mem_cons.2 ⟨hall _ hop, ha.kind_mem_kinds⟩
  | _, _, _, .call hf hopen hargs => by
    simp only [List.forall_mem_append, List.forall_mem_cons, hopen]
    exact ⟨hf.kind_mem_kinds, by decide, hargs.kind_mem_kinds⟩
  | _, _, _, .atom h => List.forall_mem_singleton.2 h.kind_mem_kinds
  | _, _, _, .grouping hopen ha hclose => by
    simp only [List.forall_mem_append, List.forall_mem_cons, hopen, hclose]
    exact ⟨by decide, ha.kind_mem_kinds, by decide, List.forall_mem_nil _⟩

theorem Arguments.kind_mem_kinds : ∀ {v : List Token} {nodes : List Node}, Arguments v nodes →
    ∀ tok ∈ v, tok.kind ∈ kinds
  | _, _, .close hclose => by
    simp only [List.forall_mem_singleton, hclose]
    decide
  | _, _, .last ha hclose => by
    simp only [List.forall_mem_append, List.forall_mem_singleton, hclose]
    exact ⟨ha.kind_mem_kinds, by decide⟩
  | _, _, .more ha hcomma hmore => by
    simp only [List.forall_mem_append, List.forall_mem_cons, hcomma]
    exact ⟨ha.kind_mem_kinds, by decide, hmore.kind_mem_kinds⟩
end

end Level
end Offside
