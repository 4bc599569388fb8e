import Offside.Proofs.Recognizer.Expression

/-! The recognizer of expressions reads exactly the grammar of levels. After an operator of some
power has been read, the next one binds no tighter, since the right operand would have taken it; so
the operators that one expression meets come at looser and looser levels. -/
namespace Offside
open Recognizer

namespace Grammar

variable {p q : Power} {k : TokenKind} {l : Level}

theorem Continues.of_le (h : standard.Continues q k) (hpq : p ≤ q) : standard.Continues p k := by
  obtain ⟨q', rule, hop, hq⟩ := h
  exact ⟨q', rule, hop, Nat.lt_of_le_of_lt hpq hq⟩

theorem operator?_of_mem_operators (h : k ∈ l.operators) :
    standard.operator? k = some (l.power, .binary) := by
  have hall : ∀ k ∈ l.operators, standard.operator? k = some (l.power, .binary) := by
    cases l <;> decide
  exact hall k h

/-- An operator is one of a level, or the parenthesis of a call. -/
theorem operator?_cases {rule : OperatorRule} (h : standard.operator? k = some (q, rule)) :
    (rule = .binary ∧ ∃ l : Level, k ∈ l.operators ∧ q = l.power) ∨
      (rule = .call ∧ k = .openParen ∧ q = .call) := by
  cases k <;> cases h
  case kwOr => exact .inl ⟨rfl, .disjunction, by decide, rfl⟩
  case kwAnd => exact .inl ⟨rfl, .conjunction, by decide, rfl⟩
  case openParen => exact .inr ⟨rfl, rfl, rfl⟩
  case plus | dash => exact .inl ⟨rfl, .sum, by decide, rfl⟩
  case star | slash | slashSlash | percent => exact .inl ⟨rfl, .product, by decide, rfl⟩
  all_goals exact .inl ⟨rfl, .relation, by decide, rfl⟩

/-- Nothing binds tighter than the arguments of a call. -/
theorem not_continues_call : ¬ standard.Continues .call k := by
  rintro ⟨q, rule, hop, hq⟩
  obtain ⟨-, l, -, rfl⟩ | ⟨-, -, rfl⟩ := operator?_cases hop
  · exact absurd hq (by cases l <;> decide)
  · exact absurd hq (by decide)

theorem primaryLabel?_eq_some_iff {label : Label} :
    primaryLabel? k = some label ↔ Level.AtomLabel k label := by
  constructor
  · intro h
    cases k <;> cases h <;> constructor
  · rintro ⟨⟩ <;> rfl

/-- An operand is a name or literal, or starts with a sign or a parenthesis. -/
theorem operand?_cases {rule : OperandRule} (h : standard.operand? k = some rule) :
    (rule = .primary ∧ ∃ label, Level.AtomLabel k label) ∨
      (rule = .signed ∧ k ∈ [TokenKind.plus, .dash]) ∨ (rule = .grouping ∧ k = .openParen) := by
  cases k <;> cases h
  case dash | plus => exact .inr (.inl ⟨rfl, by decide⟩)
  case openParen => exact .inr (.inr ⟨rfl, rfl⟩)
  all_goals exact .inl ⟨rfl, _, by constructor⟩

section Soundness

variable {n : Nat} {s t : Stream} {a left : Node}

/-- Expressions read from less than `n` tokens are those of the grammar. -/
def SoundBelow (n : Nat) : Prop := ∀ {p : Power} {s t : Stream} {a : Node}, p ≤ .sign →
  s.length < n → standard.expression p s = .ok a t →
    ∃ u, s = t.prepend u ∧ (Level.operand p).Derives u a ∧ ¬ standard.Continues p t.kind

theorem arguments_of_soundBelow (hsound : SoundBelow n) {nodes : List Node} (hs : s.length < n)
    (h : items (do return [← standard.expression .loosest]) s = .ok nodes t) :
    ∃ v, s = t.prepend v ∧ Level.Arguments v nodes := by
  induction hk : s.length using Nat.strongRecOn generalizing s nodes with
  | ind k ih =>
    obtain ⟨hkind, rfl, rfl⟩ | ⟨-, a, s₁, comma, s₂, more, ha, hc, hm, rfl⟩ :=
      arguments_eq_ok_iff.1 h
    · exact ⟨_, Stream.eq_prepend_advance (by simp [hkind]), .close hkind⟩
    have hlt := length_lt_of_expression ha
    obtain ⟨u, hs₁, hu, -⟩ := hsound (by decide) hs ha
    obtain ⟨hkind, rfl, rfl⟩ | ⟨hkind, rfl, rfl⟩ := separator_eq_ok_iff.1 hc
    · have hle := s₁.advance_within.length_le
      obtain ⟨v, hv, hmore⟩ := ih _ (by omega) (by omega) hm rfl
      have hcomma := Stream.eq_prepend_cons (by simp [hkind]) hv
      exact ⟨u ++ s₁.current :: v, Stream.eq_prepend_trans hs₁ hcomma, .more hu hkind hmore⟩
    · obtain ⟨-, rfl, rfl⟩ | ⟨hne, -⟩ := arguments_eq_ok_iff.1 hm
      · have hclose := Stream.eq_prepend_advance (s := s₂) (by simp [hkind])
        exact ⟨u ++ [s₂.current], Stream.eq_prepend_trans hs₁ hclose, .last hu hkind⟩
      · exact absurd hkind hne

/-- What follows a left operand makes a longer expression of the level of the operator. -/
theorem continuation_of_soundBelow (hsound : SoundBelow n) (hs : s.length < n) {l : Level}
    {rule : OperatorRule} {u : List Token} (hleft : l.Derives u left)
    (hop : standard.operator? s.kind = some (q, rule)) (hq : q ≤ l.power)
    (h : continuation standard.expression q rule left s = .ok a t) :
    ∃ m v, s = t.prepend (s.current :: v) ∧ Level.Derives m (u ++ s.current :: v) a ∧
      q = m.power ∧ ¬ standard.Continues q t.kind := by
  have hkind : s.kind ≠ .eof := by
    intro hkind
    rw [hkind] at hop
    cases hop
  have hlt := Stream.length_advance_lt (Stream.atEnd_eq_false_of_kind hkind)
  obtain ⟨rfl, m, hm, rfl⟩ | ⟨rfl, hparen, rfl⟩ := operator?_cases hop
  · obtain ⟨b, hb, rfl⟩ := binary_eq_ok_iff.1 h
    obtain ⟨hsign, hml⟩ := Level.le_of_mem_operators hm hq
    obtain ⟨v, hv, hright, hend⟩ := hsound hsign (Nat.lt_trans hlt hs) hb
    exact ⟨m, v, Stream.eq_prepend_cons hkind hv,
      .operation (Level.operand_power hm) hm (hleft.loosen hml) hright, rfl, hend⟩
  · obtain ⟨nodes, hn, rfl⟩ := call_eq_ok_iff.1 h
    have hl := Level.invocation_le_of_call hq
    obtain ⟨v, hv, hargs⟩ := arguments_of_soundBelow hsound (Nat.lt_trans hlt hs) hn
    exact ⟨.invocation, v, Stream.eq_prepend_cons hkind hv, .call (hleft.loosen hl) hparen hargs,
      rfl, not_continues_call⟩

/-- What an expression goes on with is of looser and looser levels. -/
theorem continued_of_soundBelow (hsound : SoundBelow n) {p : Power} (hp : p ≤ .sign)
    (hs : s.length < n) {l : Level} {u : List Token} (hleft : l.Derives u left)
    (hl : (Level.operand p).rank ≤ l.rank) (hnext : ¬ standard.Continues l.power s.kind)
    (h : standard.continued p left s = .ok a t) :
    ∃ v, s = t.prepend v ∧ (Level.operand p).Derives (u ++ v) a ∧
      ¬ standard.Continues p t.kind := by
  induction hk : s.length using Nat.strongRecOn generalizing s l u left with
  | ind k ih =>
    obtain ⟨q, rule, longer, s₁, hop, hpq, hc, hrest⟩ | ⟨hend, rfl, rfl⟩ :=
      continued_eq_ok_iff.1 h
    · have hq : q ≤ l.power := Nat.le_of_not_lt fun hlq => hnext ⟨q, rule, hop, hlq⟩
      obtain ⟨m, v, hv, hlonger, rfl, hnext⟩ := continuation_of_soundBelow hsound hs hleft hop hq hc
      have hlen := congrArg Stream.length hv
      rw [Stream.length_prepend, List.length_cons] at hlen
      have hm : (Level.operand p).rank ≤ m.rank := by
        change p.rank < m.power.rank at hpq
        rw [Level.rank_power] at hpq
        rw [Level.rank_operand hp]
        omega
      obtain ⟨w, hw, ha, hend⟩ := ih _ (by omega) (by omega) hlonger hm hnext hrest rfl
      refine ⟨s.current :: v ++ w, Stream.eq_prepend_trans hv hw, ?_, hend⟩
      rw [← List.append_assoc]
      exact ha
    · refine ⟨[], rfl, ?_, hend⟩
      rw [List.append_nil]
      exact hleft.loosen hl

theorem operand_of_soundBelow (hsound : SoundBelow n) {rule : OperandRule} (hs : s.length ≤ n)
    (hend : s.atEnd = false) (hrule : standard.operand? s.kind = some rule)
    (h : operand standard.expression rule s = .ok a t) :
    ∃ l u, s = t.prepend u ∧ Level.Derives l u a ∧ Level.sign.rank ≤ l.rank ∧
      ¬ standard.Continues l.power t.kind := by
  have hkind : s.kind ≠ .eof := by
    intro hkind
    rw [hkind] at hrule
    cases hrule
  have hlt := Stream.length_advance_lt hend
  obtain ⟨rfl, -⟩ | ⟨rfl, hsign⟩ | ⟨rfl, hparen⟩ := operand?_cases hrule
  · obtain ⟨label, hlabel, rfl, rfl⟩ := primary_eq_ok_iff.1 h
    exact ⟨.atom, _, Stream.eq_prepend_advance hkind, .atom (primaryLabel?_eq_some_iff.1 hlabel),
      by decide, not_continues_call⟩
  · obtain ⟨b, hb, rfl⟩ := signed_eq_ok_iff.1 h
    obtain ⟨u, hu, hinner, hnext⟩ := hsound (by decide) (by omega) hb
    exact ⟨.sign, s.current :: u, Stream.eq_prepend_cons hkind hu, .signed hsign hinner, by decide,
      hnext⟩
  · obtain ⟨b, s₁, hb, hclose, rfl, rfl⟩ := grouping_eq_ok_iff.1 h
    obtain ⟨u, hu, hinner, -⟩ := hsound (by decide) (by omega) hb
    have hclosing := Stream.eq_prepend_advance (s := s₁) (by simp [hclose])
    exact ⟨.atom, s.current :: (u ++ [s₁.current]),
      Stream.eq_prepend_cons hkind (Stream.eq_prepend_trans hu hclosing),
      .grouping hparen hinner hclose, by decide, not_continues_call⟩

theorem soundBelow (n : Nat) : SoundBelow n := by
  induction n with
  | zero => exact fun _ hs => absurd hs (Nat.not_lt_zero _)
  | succ n ih =>
    intro p s t a hp hs h
    obtain ⟨hend, rule, hrule, left, s₁, ho, hc⟩ := expression_eq_ok_iff.1 h
    obtain ⟨l, u, rfl, hleft, hl, hnext⟩ :=
      operand_of_soundBelow ih (Nat.le_of_lt_succ hs) hend hrule ho
    have hlt := length_lt_of_operand hend ho
    have hrank : (Level.operand p).rank ≤ l.rank := by
      have : Level.sign.rank = 5 := rfl
      rw [Level.rank_operand hp]
      omega
    obtain ⟨v, rfl, ha, hend⟩ := continued_of_soundBelow ih hp (by omega) hleft hrank hnext hc
    exact ⟨u ++ v, (Stream.prepend_append u v).symm, ha, hend⟩

end Soundness

section Completeness

/-- Tokens of a level are read as a tree, and then what goes on after it, unless something binds
tighter than the level does. -/
def Reads (l : Level) (u : List Token) (a : Node) : Prop :=
  ∀ ⦃p : Power⦄ ⦃s t : Stream⦄ ⦃b : Node⦄, p ≤ .sign → (Level.operand p).rank ≤ l.rank →
    ¬ standard.Continues l.power s.kind → standard.continued p a s = .ok b t →
      standard.expression p (s.prepend u) = .ok b t

/-- Tokens are read as the arguments of a call. -/
def ReadsArguments (v : List Token) (nodes : List Node) : Prop :=
  ∀ s, items (do return [← standard.expression .loosest]) (s.prepend v) = .ok nodes s

variable {l m : Level} {u v : List Token} {a b : Node} {nodes : List Node} {tok closing : Token}

theorem continued_of_not_continues {s : Stream} (h : ¬ standard.Continues p s.kind) :
    standard.continued p a s = .ok a s := continued_eq_ok_iff.2 (.inr ⟨h, rfl, rfl⟩)

/-- An expression of a power ends before what does not bind tighter. -/
theorem Reads.expression {s : Stream} (h : Reads l u a) (hp : p ≤ .sign)
    (hl : (Level.operand p).rank ≤ l.rank) (hend : ¬ standard.Continues p s.kind) :
    standard.expression p (s.prepend u) = .ok a s := by
  refine h hp hl (fun hc => hend (hc.of_le ?_)) (continued_of_not_continues hend)
  exact Nat.le_trans (Level.le_power_operand hp) (Level.power_le_power hl)

theorem Reads.tighter (hm : l.tighter? = some m) (h : Reads m u a) : Reads l u a := by
  intro p s t b hp hl hnext hrest
  have hr := Level.rank_tighter hm
  have hlm : l.rank ≤ m.rank := by omega
  exact h hp (by omega) (fun hc => hnext (hc.of_le (Level.power_le_power hlm))) hrest

theorem Reads.operation (hop : tok.kind ∈ l.operators) (hleft : Reads l u a)
    (hright : Reads (Level.operand l.power) v b) :
    Reads l (u ++ tok :: v) (.branch .binaryExpression [a, .leaf .operator tok.span, b]) := by
  intro p s t c hp hl hnext hrest
  have hoperator := operator?_of_mem_operators hop
  have hpower := Level.rank_power l
  have hrank := Level.rank_le_of_mem_operators hop
  have hsign : l.power ≤ .sign := by
    change l.power.rank ≤ 6
    omega
  have hpl : p < l.power := by
    change p.rank < l.power.rank
    rw [Level.rank_operand hp] at hl
    omega
  have hb : standard.expression l.power (s.prepend v) = .ok b s :=
    hright.expression hsign (Nat.le_refl _) hnext
  have hwhole : standard.continued p a (s.prepend (tok :: v)) = .ok c t :=
    continued_eq_ok_iff.2 (.inl ⟨l.power, .binary, _, s, hoperator, hpl,
      binary_eq_ok_iff.2 ⟨b, hb, rfl⟩, hrest⟩)
  rw [Stream.prepend_append]
  refine hleft hp hl ?_ hwhole
  -- Operators of one level do not bind tighter than each other.
  rintro ⟨q, rule, hq, hlt⟩
  rw [Stream.kind_prepend_cons, hoperator] at hq
  cases hq
  exact absurd hlt (Nat.lt_irrefl _)

theorem Reads.signed (hop : tok.kind ∈ [TokenKind.plus, .dash]) (h : Reads .sign u a) :
    Reads .sign (tok :: u) (.branch .unaryExpression [.leaf .operator tok.span, a]) := by
  intro p s t b hp hl hnext hrest
  have hrule : standard.operand? tok.kind = some .signed := by
    simp only [List.mem_cons, List.not_mem_nil, or_false] at hop
    rcases hop with hop | hop <;> rw [hop] <;> rfl
  have ha : standard.expression .sign (s.prepend u) = .ok a s :=
    h.expression (by decide) (by decide) hnext
  exact expression_eq_ok_iff.2 ⟨rfl, .signed, hrule, _, s, signed_eq_ok_iff.2 ⟨a, ha, rfl⟩, hrest⟩

theorem Reads.call (hf : Reads .invocation u a) (hopen : tok.kind = .openParen)
    (hargs : ReadsArguments v nodes) : Reads .invocation (u ++ tok :: v)
      (.branch .callExpression [a, .branch .argList (.leaf .openParen tok.span :: nodes)]) := by
  intro p s t b hp hl hnext hrest
  have hoperator : standard.operator? tok.kind = some (.call, .call) := by
    rw [hopen]
    rfl
  have hwhole : standard.continued p a (s.prepend (tok :: v)) = .ok b t :=
    continued_eq_ok_iff.2 (.inl ⟨.call, .call, _, s, hoperator, Nat.lt_succ_of_le hp,
      call_eq_ok_iff.2 ⟨nodes, hargs s, rfl⟩, hrest⟩)
  rw [Stream.prepend_append]
  exact hf hp hl not_continues_call hwhole

theorem Reads.atom {label : Label} (h : Level.AtomLabel tok.kind label) :
    Reads .atom [tok] (.leaf label tok.span) := by
  intro p s t b hp hl hnext hrest
  have hlabel := primaryLabel?_eq_some_iff.2 h
  have hrule : standard.operand? tok.kind = some .primary := by
    revert h
    generalize tok.kind = k
    rintro ⟨⟩ <;> rfl
  exact expression_eq_ok_iff.2 ⟨rfl, .primary, hrule, _, s,
    primary_eq_ok_iff.2 ⟨label, hlabel, rfl, rfl⟩, hrest⟩

theorem not_continues_closeParen (hk : k = .closeParen) (p : Power) : ¬ standard.Continues p k := by
  rintro ⟨q, rule, hop, -⟩
  rw [hk] at hop
  cases hop

/-- An expression ends before a closing parenthesis. -/
theorem Reads.before_closeParen {s : Stream} (h : Reads .disjunction u a)
    (hclose : s.kind = .closeParen) : standard.expression .loosest (s.prepend u) = .ok a s :=
  h.expression (by decide) (by decide) (not_continues_closeParen hclose _)

theorem Reads.grouping (hopen : tok.kind = .openParen) (h : Reads .disjunction u a)
    (hclose : closing.kind = .closeParen) :
    Reads .atom (tok :: (u ++ [closing])) (.branch .parenthesizedExpression
      [.leaf .openParen tok.span, a, .leaf .closeParen closing.span]) := by
  intro p s t b hp hl hnext hrest
  have hrule : standard.operand? tok.kind = some .grouping := by
    rw [hopen]
    rfl
  have ha := h.before_closeParen (s := s.prepend [closing]) hclose
  rw [← Stream.prepend_append] at ha
  exact expression_eq_ok_iff.2 ⟨rfl, .grouping, hrule, _, s,
    grouping_eq_ok_iff.2 ⟨a, _, ha, hclose, rfl, rfl⟩, hrest⟩

theorem kind_ne_closeParen_of_expression {s t : Stream}
    (h : standard.expression p s = .ok a t) : s.kind ≠ .closeParen := by
  obtain ⟨-, rule, hrule, -⟩ := expression_eq_ok_iff.1 h
  intro hkind
  rw [hkind] at hrule
  cases hrule

theorem ReadsArguments.close (hclose : closing.kind = .closeParen) :
    ReadsArguments [closing] [.leaf .closeParen closing.span] :=
  fun _ => arguments_eq_ok_iff.2 (.inl ⟨hclose, rfl, rfl⟩)

theorem ReadsArguments.last (h : Reads .disjunction u a) (hclose : closing.kind = .closeParen) :
    ReadsArguments (u ++ [closing]) [a, .leaf .closeParen closing.span] := by
  intro s
  have ha := h.before_closeParen (s := s.prepend [closing]) hclose
  rw [Stream.prepend_append]
  exact arguments_eq_ok_iff.2 (.inr ⟨kind_ne_closeParen_of_expression ha, a, _, [], _, _, ha,
    separator_eq_ok_iff.2 (.inr ⟨hclose, rfl, rfl⟩), ReadsArguments.close hclose s, rfl⟩)

theorem ReadsArguments.more (h : Reads .disjunction u a) (hcomma : tok.kind = .comma)
    (hmore : ReadsArguments v nodes) :
    ReadsArguments (u ++ tok :: v) (a :: .leaf .comma tok.span :: nodes) := by
  intro s
  have hend : ¬ standard.Continues .loosest (s.prepend (tok :: v)).kind := by
    rintro ⟨q, rule, hop, -⟩
    rw [Stream.kind_prepend_cons, hcomma] at hop
    cases hop
  have ha := h.expression (by decide) (by decide) hend
  rw [Stream.prepend_append]
  exact arguments_eq_ok_iff.2 (.inr ⟨kind_ne_closeParen_of_expression ha, a, _, _, _, nodes, ha,
    separator_eq_ok_iff.2 (.inl ⟨hcomma, rfl, rfl⟩), hmore s, rfl⟩)

mutual
/-- What the grammar derives is read. -/
theorem reads_of_derives : ∀ {l : Level} {u : List Token} {a : Node}, l.Derives u a → Reads l u a
  | _, _, _, .tighter hm ha => (reads_of_derives ha).tighter hm
  | _, _, _, .operation (m := m) hm hop hleft hright => by
    have hright := reads_of_derives hright
    rw [Level.operand_power hop] at hm
    cases hm
    exact (reads_of_derives hleft).operation hop hright
  | _, _, _, .signed hop ha => (reads_of_derives ha).signed hop
  | _, _, _, .call hf hopen hargs =>
    (reads_of_derives hf).call hopen (readsArguments_of_arguments hargs)
  | _, _, _, .atom h => .atom h
  | _, _, _, .grouping hopen ha hclose => .grouping hopen (reads_of_derives ha) hclose

theorem readsArguments_of_arguments : ∀ {v : List Token} {nodes : List Node},
    Level.Arguments v nodes → ReadsArguments v nodes
  | _, _, .close hclose => .close hclose
  | _, _, .last ha hclose => .last (reads_of_derives ha) hclose
  | _, _, .more ha hcomma hmore =>
    .more (reads_of_derives ha) hcomma (readsArguments_of_arguments hmore)
end

end Completeness

/-- An expression of a power is an expression of its level before what binds no tighter. -/
theorem expression_eq_ok_iff_derives (hp : p ≤ .sign) {s t : Stream} {a : Node} :
    standard.expression p s = .ok a t ↔
      ∃ u, s = t.prepend u ∧ (Level.operand p).Derives u a ∧ ¬ standard.Continues p t.kind := by
  constructor
  · exact soundBelow (s.length + 1) hp (Nat.lt_succ_self _)
  · rintro ⟨u, rfl, ha, hend⟩
    exact (reads_of_derives ha).expression hp (Nat.le_refl _) hend

/-- The tokens alone decide the tree. -/
theorem Derives.unique {u : List Token} {a b : Node} (ha : l.Derives u a) (hb : l.Derives u b) :
    a = b := by
  let s : Stream := ⟨[], .endAt .nowhere, rfl⟩
  have hend : ¬ standard.Continues .loosest s.kind := by
    rintro ⟨q, rule, hop, -⟩
    cases hop
  have hread := (reads_of_derives ha).expression (by decide) (Nat.zero_le _) hend
  rw [(reads_of_derives hb).expression (by decide) (Nat.zero_le _) hend] at hread
  cases hread
  rfl

/-- The recognizer of expressions is the grammar of levels: it gives the tree of the expression of
its power's level that stands before what binds no tighter, and an error if there is none. There is
never more than one tree. -/
theorem expression_exact (hp : p ≤ .sign) (s : Stream) :
    (∀ (a : Node) (t : Stream), standard.expression p s = .ok a t ↔
      ∃ u, s = t.prepend u ∧ (Level.operand p).Derives u a ∧ ¬ standard.Continues p t.kind) ∧
    ((∃ e t, standard.expression p s = .error e t) ↔
      ¬ ∃ (a : Node) (t : Stream) (u : List Token), s = t.prepend u ∧
        (Level.operand p).Derives u a ∧ ¬ standard.Continues p t.kind) ∧
    ∀ (l : Level) (u : List Token) (a b : Node), l.Derives u a → l.Derives u b → a = b := by
  refine ⟨fun a t => expression_eq_ok_iff_derives hp, ?_, fun l u a b => Derives.unique⟩
  rw [EStateM.exists_eq_error_iff]
  simp only [expression_eq_ok_iff_derives hp]

/-- A product is read before a sum: of `x * y + z` what stands before the plus. -/
theorem expression_exact_product :
    let read (k : TokenKind) (i j : UInt32) : Token := ⟨k, "", ⟨⟨i, "shell"⟩, ⟨j, "shell"⟩⟩⟩
    let s : Stream := ⟨[read .identifier 0 1, read .star 2 3, read .identifier 4 5,
      read .plus 6 7, read .identifier 8 9], .endAt ⟨9, "shell"⟩, rfl⟩
    Power.sum ≤ .sign ∧ ∃ a t u, standard.expression .sum s = .ok a t ∧ t.kind = .plus ∧
      s = t.prepend u ∧ (Level.operand .sum).Derives u a := by
  intro read s
  have hp : Power.sum ≤ .sign := by decide
  obtain ⟨a, t, h, hk⟩ : ∃ a t, standard.expression .sum s = .ok a t ∧ t.kind = .plus :=
    ⟨_, _, rfl, rfl⟩
  obtain ⟨u, hu, ha, -⟩ := ((expression_exact hp s).1 a t).1 h
  exact ⟨hp, a, t, u, h, hk, hu, ha⟩

/-- After a sign another sign may come, though the level above the power of signs has none. -/
theorem operand_sign_not_above :
    let s := Stream.ofTokens "shell" [⟨.dash, "-", ⟨⟨0, "shell"⟩, ⟨1, "shell"⟩⟩⟩,
      ⟨.identifier, "x", ⟨⟨2, "shell"⟩, ⟨3, "shell"⟩⟩⟩, .endAt ⟨3, "shell"⟩]
    ¬ ∀ a t, standard.expression .sign s = .ok a t ↔
      ∃ u, s = t.prepend u ∧ (Level.above .sign).Derives u a ∧
        ¬ standard.Continues .sign t.kind := by
  intro s h
  obtain ⟨u, -, ha, -⟩ := (h _ _).1 rfl
  exact ha.label_ne_unaryExpression (by decide) rfl

end Grammar
end Offside
