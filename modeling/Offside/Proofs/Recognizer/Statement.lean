import Offside.Proofs.Recognizer.Expression
import Offside.Recognizer.Statement

/-! The recognizers of statements without bounds on their nesting, and what their successes consist
of. -/
namespace Offside
open Recognizer

namespace Grammar

variable {g : Grammar} {n : Nat}

section Agreement

variable {x x' : Recognizer Node}

theorem agree_optionalType (g : Grammar) (n : Nat) (k : TokenKind) (mark : Label) :
    AgreeBelow n (g.optionalType k mark) (g.optionalType k mark) := by
  refine .bind (fun s _ => .kind s) fun _ => .ite (.bind (.bind (fun s _ => .leaf s _) fun _ =>
    .bind (agree_expression g n _) fun _ s _ => .pure s _) fun _ s _ => .pure s _) ?_
  exact fun s _ => .pure s _

theorem agree_optionalValue (g : Grammar) (n : Nat) :
    AgreeBelow n g.optionalValue g.optionalValue := by
  refine .bind (fun s _ => .kind s) fun _ => .ite (.bind (fun s _ => .leaf s _) fun _ =>
    .bind (agree_expression g n _) fun _ s _ => .pure s _) ?_
  exact fun s _ => .pure s _

theorem agree_assignment (g : Grammar) (n : Nat) : AgreeBelow n g.assignment g.assignment := by
  refine .bind (fun s _ => .leaf s _) fun _ => .bind (agree_optionalType g n _ _) fun _ => ?_
  refine .bind (agree_optionalValue g n) fun _ => ?_
  exact .bind (fun s _ => .lineEnd s) fun _ s _ => .pure s _

theorem agree_expressionStatement (g : Grammar) (n : Nat) :
    AgreeBelow n g.expressionStatement g.expressionStatement := by
  refine .bind (agree_expression g n _) fun _ => ?_
  exact .bind (fun s _ => .lineEnd s) fun _ s _ => .pure s _

theorem agree_returnStatement (g : Grammar) (n : Nat) :
    AgreeBelow n g.returnStatement g.returnStatement := by
  refine .bind (fun s _ => .leaf s _) fun _ => .bind (fun s _ => .kind s) fun _ => ?_
  refine .ite (.bind (fun s _ => .pure s _) fun _ => ?_)
    (.bind (agree_expression g n _) fun _ => .bind (fun s _ => .pure s _) fun _ => ?_)
  all_goals exact .bind (fun s _ => .lineEnd s) fun _ s _ => .pure s _

theorem agree_passStatement (n : Nat) : AgreeBelow n passStatement passStatement :=
  .bind (fun s _ => .leaf s _) fun _ => .bind (fun s _ => .lineEnd s) fun _ s _ => .pure s _

theorem agree_parameterList (g : Grammar) (n : Nat) :
    AgreeBelow n g.parameterList g.parameterList := by
  refine .bind (fun s _ => .expectLeaf s _ _) fun _ => .bind (agree_items ?_) fun _ s _ => .pure s _
  refine .bind (fun s _ => .expectLeaf s _ _) fun _ => ?_
  exact .bind (agree_optionalType g n _ _) fun _ s _ => .pure s _

theorem agree_blockLine (h : AgreeBelow n x x') : AgreeBelow n (blockLine x) (blockLine x') := by
  refine .bind (fun s _ => .kind s) fun _ => .ite ?_ (.bind h fun _ s _ => .pure s _)
  exact .bind (fun s _ => .discard s (.advance s)) fun _ s _ => .pure s _

theorem agree_block (h : AgreeBelow n x x') : AgreeBelow n (block x) (block x') := by
  refine .bind (.repeatWhile (agree_blockLine h)) fun _ => .bind (fun s _ => .kind s) fun _ => ?_
  refine .ite (.bind (fun s _ => .discard s (.advance s)) fun _ s _ => .pure s _) ?_
  exact fun s _ => .pure s _

theorem agree_bodyRule (h : AgreeBelow n x x') : AgreeBelow n (bodyRule x) (bodyRule x') := by
  refine .bind (fun s _ => .expectLeaf s _ _) fun _ => .bind (fun s _ => .kind s) fun _ => ?_
  refine .ite (.bind (fun s _ => .discard s (.advance s)) fun _ => ?_) ?_
  · refine .bind (fun s _ => .discard s (.expect s _)) fun _ => ?_
    exact .bind (agree_block h) fun _ s _ => .pure s _
  · exact .bind h fun _ s _ => .pure s _

/-- What follows the keyword of a guarded body. -/
theorem agree_guarded_bind {β : Type} {s : Stream} {body body' : Recognizer Node}
    {f f' : List Node → Recognizer β} (hend : s.atEnd = false) (hs : s.length ≤ n)
    (h : AgreeBelow n body body') (hf : ∀ nodes, AgreeBelow n (f nodes) (f' nodes)) :
    AgreeAt s (g.guarded body >>= f) (g.guarded body' >>= f') := by
  simp only [guarded, bind_assoc, pure_bind]
  exact .leaf_bind hend hs fun _ => .bind (agree_expression g n _) fun _ => .bind h fun _ => hf _

theorem agree_guarded (h : AgreeBelow n x x') : AgreeBelow n (g.guarded x) (g.guarded x') := by
  refine .bind (fun s _ => .leaf s _) fun _ => .bind (agree_expression g n _) fun _ => ?_
  exact .bind h fun _ s _ => .pure s _

/-- The rule of statements reads a token before it calls itself. -/
theorem agree_statementBy {s : Stream} (hend : s.atEnd = false) (hs : s.length ≤ n)
    (h : AgreeBelow n x x') (rule : StatementRule) :
    AgreeAt s (g.statementBy x rule) (g.statementBy x' rule) := by
  have hbody := agree_bodyRule h
  cases rule with
  | function =>
    refine .leaf_bind hend hs fun _ => .bind (fun s _ => .expectLeaf s _ _) fun _ => ?_
    refine .bind (agree_parameterList g n) fun _ => .bind (agree_optionalType g n _ _) fun _ => ?_
    exact .bind hbody fun _ s _ => .pure s _
  | «return» => exact agree_returnStatement g _ s (Nat.lt_succ_self _)
  | loop => exact agree_guarded_bind hend hs hbody fun _ s _ => .pure s _
  | conditional =>
    refine agree_guarded_bind hend hs hbody fun _ => .bind (.repeatWhile (agree_guarded hbody)) ?_
    refine fun _ => .bind (.bind (fun s _ => .kind s) fun _ => .ite ?_ ?_) fun _ s _ => .pure s _
    · exact .bind (fun s _ => .leaf s _) fun _ => .bind hbody fun _ s _ => .pure s _
    · exact fun s _ => .pure s _
  | pass => exact agree_passStatement _ s (Nat.lt_succ_self _)
  | assignment => exact agree_assignment g _ s (Nat.lt_succ_self _)

end Agreement

/-- Rules of statements do not start at the end of the input. -/
theorem agree_statementRule (hg : g.statement? .eof = none) {f f' : Unit → Recognizer Node}
    (h : ∀ a, AgreeBelow n (f a) (f' a)) (a : Unit) :
    AgreeBelow (n + 1) (g.statementRule f a) (g.statementRule f' a) := by
  intro s hs
  refine (AgreeAt.kind s).bind fun k t ht => ?_
  cases ht
  split
  · rename_i rule hrule
    have hkind : s.kind ≠ .eof := by
      intro hkind
      rw [hkind, hg] at hrule
      cases hrule
    exact agree_statementBy (Stream.atEnd_eq_false_of_kind hkind) (Nat.le_of_lt_succ hs) (h ()) rule
  · refine (AgreeAt.nextKind s).bind fun _ t ht => ?_
    cases ht
    split
    · exact agree_assignment g _ s (Nat.lt_succ_self _)
    · exact agree_expressionStatement g _ s (Nat.lt_succ_self _)

theorem statement_eq (hg : g.statement? .eof = none) :
    g.statement = g.statementRule (fun _ => g.statement) () :=
  nest_eq (fun _ _ _ h a => agree_statementRule hg h a) ()

theorem agree_statement (hg : g.statement? .eof = none) (n : Nat) :
    AgreeBelow n g.statement g.statement :=
  nest_agree (fun _ _ _ h a => agree_statementRule hg h a) n ()

section Success

variable {s t : Stream} {a : Node} {nodes : List Node} {x : Recognizer Node} {k : TokenKind}
  {mark : Label}

theorem optionalType_eq_ok_iff : g.optionalType k mark s = .ok nodes t ↔
    (s.kind = k ∧ ∃ a, g.expression .loosest s.advance = .ok a t ∧
      nodes = [.branch .typeDef [.leaf mark s.current.span, a]]) ∨
    (s.kind ≠ k ∧ nodes = [] ∧ t = s) := by
  rw [optionalType, kind_ite_nil_eq_ok_iff, EStateM.bind_pure_eq_ok_iff]
  simp only [typeDef, leaf_bind_apply, EStateM.bind_pure_eq_ok_iff]
  constructor
  · rintro (⟨hk, _, ⟨a, ha, rfl⟩, rfl⟩ | h)
    · exact .inl ⟨hk, a, ha, rfl⟩
    · exact .inr h
  · rintro (⟨hk, a, ha, rfl⟩ | h)
    · exact .inl ⟨hk, _, ⟨a, ha, rfl⟩, rfl⟩
    · exact .inr h

theorem optionalValue_eq_ok_iff : g.optionalValue s = .ok nodes t ↔
    (s.kind = .assignment ∧ ∃ a, g.expression .loosest s.advance = .ok a t ∧
      nodes = [.leaf .assignOp s.current.span, a]) ∨
    (s.kind ≠ .assignment ∧ nodes = [] ∧ t = s) := by
  rw [optionalValue, kind_ite_nil_eq_ok_iff, leaf_bind_apply, EStateM.bind_pure_eq_ok_iff]

theorem assignment_eq_ok_iff : g.assignment s = .ok a t ↔ ∃ types s₁ value s₂,
    g.optionalType .colon .colon s.advance = .ok types s₁ ∧ g.optionalValue s₁ = .ok value s₂ ∧
      lineEnd s₂ = .ok () t ∧
        a = .branch .assignStatement (.leaf .variableName s.current.span :: types ++ value) := by
  rw [assignment, leaf_bind_apply]
  simp only [EStateM.bind_eq_ok_iff (x := g.optionalType _ _),
    EStateM.bind_eq_ok_iff (x := g.optionalValue), lineEnd_bind_pure_eq_ok_iff]
  constructor
  · rintro ⟨types, s₁, ht, value, s₂, hv, hend, rfl⟩
    exact ⟨types, s₁, value, s₂, ht, hv, hend, rfl⟩
  · rintro ⟨types, s₁, value, s₂, ht, hv, hend, rfl⟩
    exact ⟨types, s₁, ht, value, s₂, hv, hend, rfl⟩

theorem expressionStatement_eq_ok_iff : g.expressionStatement s = .ok a t ↔ ∃ value s₁,
    g.expression .loosest s = .ok value s₁ ∧ lineEnd s₁ = .ok () t ∧
      a = .branch .expressionStatement [value] := by
  rw [expressionStatement, EStateM.bind_eq_ok_iff]
  simp only [lineEnd_bind_pure_eq_ok_iff]

theorem returnStatement_eq_ok_iff : g.returnStatement s = .ok a t ↔
    (s.advance.kind.endsLine = true ∧ lineEnd s.advance = .ok () t ∧
      a = .branch .returnStatement [.leaf .keyword s.current.span]) ∨
    (s.advance.kind.endsLine = false ∧ ∃ value s₁, g.expression .loosest s.advance = .ok value s₁ ∧
      lineEnd s₁ = .ok () t ∧
        a = .branch .returnStatement [.leaf .keyword s.current.span, value]) := by
  rw [returnStatement, leaf_bind_apply, kind_bind_apply]
  cases h : s.advance.kind.endsLine with
  | true =>
    rw [if_pos rfl, pure_bind, lineEnd_bind_pure_eq_ok_iff]
    simp
  | false =>
    rw [if_neg Bool.false_ne_true, EStateM.bind_eq_ok_iff]
    simp only [pure_bind, lineEnd_bind_pure_eq_ok_iff]
    simp

theorem passStatement_eq_ok_iff : passStatement s = .ok a t ↔ lineEnd s.advance = .ok () t ∧
    a = .branch .passStatement [.leaf .keyword s.current.span] := by
  rw [passStatement, leaf_bind_apply, lineEnd_bind_pure_eq_ok_iff]

theorem parameter_eq_ok_iff : g.parameter s = .ok nodes t ↔ s.kind = .identifier ∧ ∃ types,
    g.optionalType .colon .colon s.advance = .ok types t ∧
      nodes = .leaf .variableName s.current.span :: types := by
  rw [parameter, expectLeaf_bind_eq_ok_iff, EStateM.bind_pure_eq_ok_iff]

theorem parameterList_eq_ok_iff : g.parameterList s = .ok a t ↔ s.kind = .openParen ∧ ∃ nodes,
    items g.parameter s.advance = .ok nodes t ∧
      a = .branch .paramList (.leaf .openParen s.current.span :: nodes) := by
  rw [parameterList, expectLeaf_bind_eq_ok_iff, EStateM.bind_pure_eq_ok_iff]

theorem functionDefinition_eq_ok_iff : g.functionDefinition x s = .ok a t ↔
    s.advance.kind = .identifier ∧ ∃ list s₁ types s₂ body,
      g.parameterList s.advance.advance = .ok list s₁ ∧
      g.optionalType .arrow .arrow s₁ = .ok types s₂ ∧ x s₂ = .ok body t ∧
      a = .branch .functionDefinition (.leaf .keyword s.current.span ::
        .leaf .variableName s.advance.current.span :: list :: types ++ [body]) := by
  rw [functionDefinition, leaf_bind_apply, expectLeaf_bind_eq_ok_iff, EStateM.bind_eq_ok_iff]
  simp only [EStateM.bind_eq_ok_iff (x := g.optionalType _ _), EStateM.bind_pure_eq_ok_iff]
  constructor
  · rintro ⟨hk, list, s₁, hl, types, s₂, ht, body, hb, rfl⟩
    exact ⟨hk, list, s₁, types, s₂, body, hl, ht, hb, rfl⟩
  · rintro ⟨hk, list, s₁, types, s₂, body, hl, ht, hb, rfl⟩
    exact ⟨hk, list, s₁, hl, types, s₂, ht, body, hb, rfl⟩

theorem guarded_eq_ok_iff : g.guarded x s = .ok nodes t ↔ ∃ a s₁ body,
    g.expression .loosest s.advance = .ok a s₁ ∧ x s₁ = .ok body t ∧
      nodes = [.leaf .keyword s.current.span, a, body] := by
  rw [guarded, leaf_bind_apply, EStateM.bind_eq_ok_iff]
  simp only [EStateM.bind_pure_eq_ok_iff, exists_and_left]

theorem whileStatement_eq_ok_iff : g.whileStatement x s = .ok a t ↔ ∃ nodes,
    g.guarded x s = .ok nodes t ∧ a = .branch .whileStatement nodes := by
  rw [whileStatement, EStateM.bind_pure_eq_ok_iff]

theorem optionalElse_eq_ok_iff : optionalElse x s = .ok nodes t ↔
    (s.kind = .kwElse ∧ ∃ body, x s.advance = .ok body t ∧
      nodes = [.leaf .keyword s.current.span, body]) ∨
    (s.kind ≠ .kwElse ∧ nodes = [] ∧ t = s) := by
  rw [optionalElse, kind_ite_nil_eq_ok_iff, leaf_bind_apply, EStateM.bind_pure_eq_ok_iff]

theorem blockLine_eq_ok_iff : blockLine x s = .ok nodes t ↔
    (s.kind = .newline ∧ nodes = [] ∧ t = s.advance) ∨
    (s.kind ≠ .newline ∧ ∃ a, x s = .ok a t ∧ nodes = [a]) := by
  rw [blockLine, kind_ite_eq_ok_iff, discard_advance_bind_apply, EStateM.pure_eq_ok_iff,
    EStateM.bind_pure_eq_ok_iff]
  exact or_congr_left (and_congr_right fun _ => and_congr eq_comm eq_comm)

theorem block_eq_ok_iff : block x s = .ok nodes t ↔ ∃ s₁,
    repeatWhile inBlock (blockLine x) s = .ok nodes s₁ ∧
      ((s₁.kind = .dedent ∧ t = s₁.advance) ∨ (s₁.kind ≠ .dedent ∧ t = s₁)) := by
  rw [block, EStateM.bind_eq_ok_iff]
  constructor
  · rintro ⟨nodes, s₁, hn, h⟩
    rw [kind_bind_apply] at h
    split at h
    · rename_i hk
      obtain ⟨rfl, rfl⟩ := EStateM.pure_eq_ok_iff.1 h
      exact ⟨s₁, hn, .inl ⟨hk, rfl⟩⟩
    · rename_i hk
      obtain ⟨rfl, rfl⟩ := EStateM.pure_eq_ok_iff.1 h
      exact ⟨s₁, hn, .inr ⟨hk, rfl⟩⟩
  · rintro ⟨s₁, hn, ⟨hk, rfl⟩ | ⟨hk, rfl⟩⟩
    · refine ⟨nodes, s₁, hn, ?_⟩
      rw [kind_bind_apply, if_pos hk]
      rfl
    · refine ⟨nodes, t, hn, ?_⟩
      rw [kind_bind_apply, if_neg hk]
      rfl

/-- A body is a colon with a statement on its line, or with a block on the lines after it. -/
theorem bodyRule_eq_ok_iff : bodyRule x s = .ok a t ↔ s.kind = .colon ∧
    ((s.advance.kind = .newline ∧ s.advance.advance.kind = .indent ∧ ∃ nodes,
        block x s.advance.advance.advance = .ok nodes t ∧
          a = .branch .body (.leaf .colon s.current.span :: nodes)) ∨
      (s.advance.kind ≠ .newline ∧ ∃ only, x s.advance = .ok only t ∧
        a = .branch .body [.leaf .colon s.current.span, only])) := by
  rw [bodyRule, expectLeaf_bind_eq_ok_iff, kind_ite_eq_ok_iff, discard_advance_bind_apply,
    EStateM.bind_eq_ok_iff]
  simp only [discard_eq_ok_iff, expect_eq_ok_iff, EStateM.bind_pure_eq_ok_iff]
  constructor
  · rintro ⟨hk, ⟨hn, _, _, ⟨_, hi, -, rfl⟩, nodes, hb, rfl⟩ | h⟩
    · exact ⟨hk, .inl ⟨hn, hi, nodes, hb, rfl⟩⟩
    · exact ⟨hk, .inr h⟩
  · rintro ⟨hk, ⟨hn, hi, nodes, hb, rfl⟩ | h⟩
    · exact ⟨hk, .inl ⟨hn, (), _, ⟨_, hi, rfl, rfl⟩, nodes, hb, rfl⟩⟩
    · exact ⟨hk, .inr h⟩

theorem ifStatement_eq_ok_iff : g.ifStatement x s = .ok a t ↔
    ∃ first s₁ alternatives s₂ otherwise, g.guarded x s = .ok first s₁ ∧
      repeatWhile (· = .kwElif) (g.guarded x) s₁ = .ok alternatives s₂ ∧
      optionalElse x s₂ = .ok otherwise t ∧
      a = .branch .ifStatement (first ++ alternatives ++ otherwise) := by
  rw [ifStatement, EStateM.bind_eq_ok_iff]
  simp only [EStateM.bind_eq_ok_iff (x := repeatWhile _ _), EStateM.bind_pure_eq_ok_iff]
  constructor
  · rintro ⟨first, s₁, hf, alternatives, s₂, ha, otherwise, ho, rfl⟩
    exact ⟨first, s₁, alternatives, s₂, otherwise, hf, ha, ho, rfl⟩
  · rintro ⟨first, s₁, alternatives, s₂, otherwise, hf, ha, ho, rfl⟩
    exact ⟨first, s₁, hf, alternatives, s₂, ha, otherwise, ho, rfl⟩

end Success

section Progress

variable {s t : Stream} {a : Node} {nodes : List Node} {k : TokenKind} {mark : Label}

/-- What a statement is, is said by its first token, or by the first two. -/
theorem statement_apply (s : Stream) : standard.statement s =
    match standard.statement? s.kind with
    | some rule => standard.statementBy standard.statement rule s
    | none =>
      if s.kind = .identifier && startsAssignment s.nextKind then standard.assignment s
      else standard.expressionStatement s := by
  rw [congrFun (statement_eq (g := standard) rfl) s, statementRule, kind_bind_apply]
  cases standard.statement? s.kind with
  | some rule => rfl
  | none =>
    refine (nextKind_bind_apply _).trans ?_
    split <;> rfl

theorem optionalType_within (h : g.optionalType k mark s = .ok nodes t) : t.Within s :=
  within_of_agree (fun n => agree_optionalType g n k mark) h

theorem lineEnd_within {u : Unit} (h : lineEnd s = .ok u t) : t.Within s :=
  within_of_agree (fun _ s _ => .lineEnd s) h

theorem parameterList_within (h : g.parameterList s = .ok a t) : t.Within s :=
  within_of_agree (agree_parameterList g) h

theorem assignment_within (h : g.assignment s = .ok a t) : t.Within s.advance := by
  obtain ⟨types, s₁, value, s₂, ht, hv, hend, -⟩ := assignment_eq_ok_iff.1 h
  have hw := (lineEnd_within hend).trans (within_of_agree (agree_optionalValue g) hv)
  exact hw.trans (optionalType_within ht)

theorem body_within (h : bodyRule standard.statement s = .ok a t) : t.Within s :=
  within_of_agree (fun n => agree_bodyRule (agree_statement rfl n)) h

theorem guarded_within (h : standard.guarded (bodyRule standard.statement) s = .ok nodes t) :
    t.Within s.advance := by
  obtain ⟨a, s₁, body, ha, hb, -⟩ := guarded_eq_ok_iff.1 h
  exact (body_within hb).trans (expression_within ha)

theorem statementBy_within {rule : StatementRule}
    (h : standard.statementBy standard.statement rule s = .ok a t) : t.Within s.advance := by
  cases rule with
  | function =>
    obtain ⟨-, list, s₁, types, s₂, body, hl, ht, hb, -⟩ := functionDefinition_eq_ok_iff.1 h
    have hw := (optionalType_within ht).trans (parameterList_within hl)
    exact (body_within hb).trans (hw.trans (Stream.advance_within _))
  | «return» =>
    obtain ⟨-, hend, -⟩ | ⟨-, value, s₁, hv, hend, -⟩ := returnStatement_eq_ok_iff.1 h
    · exact lineEnd_within hend
    · exact (lineEnd_within hend).trans (expression_within hv)
  | loop =>
    obtain ⟨nodes, hn, -⟩ := whileStatement_eq_ok_iff.1 h
    exact guarded_within hn
  | conditional =>
    obtain ⟨first, s₁, alternatives, s₂, otherwise, hf, ha, ho, -⟩ := ifStatement_eq_ok_iff.1 h
    have hbody := fun n => agree_bodyRule (agree_statement (g := standard) rfl n)
    have hw := within_of_agree (fun n => .repeatWhile (agree_guarded (hbody n))) ha
    refine Stream.Within.trans ?_ (hw.trans (guarded_within hf))
    obtain ⟨-, body, hb, -⟩ | ⟨-, -, rfl⟩ := optionalElse_eq_ok_iff.1 ho
    · exact (body_within hb).trans (Stream.advance_within _)
    · exact .refl _
  | pass => exact lineEnd_within (passStatement_eq_ok_iff.1 h).1
  | assignment => exact assignment_within h

/-- Layout starts no statement, and neither does the end of the input. -/
theorem kind_of_statement (h : standard.statement s = .ok a t) :
    s.kind ≠ .newline ∧ s.kind ≠ .dedent ∧ s.kind ≠ .eof := by
  have hk : (standard.statement? s.kind).isSome ∨ (standard.operand? s.kind).isSome := by
    rw [statement_apply] at h
    split at h
    · rename_i hrule
      exact .inl (by rw [hrule]; rfl)
    · split at h
      · rename_i hk
        simp only [Bool.and_eq_true, decide_eq_true_eq] at hk
        exact .inr (by rw [hk.1]; rfl)
      · obtain ⟨value, s₁, hv, -⟩ := expressionStatement_eq_ok_iff.1 h
        obtain ⟨-, rule, hrule, -⟩ := expression_eq_ok_iff.1 hv
        exact .inr (by rw [hrule]; rfl)
  refine ⟨?_, ?_, ?_⟩ <;> intro hkind <;> rw [hkind] at hk <;> exact absurd hk (by decide)

/-- A statement has at least one token. -/
theorem length_lt_of_statement (h : standard.statement s = .ok a t) : t.length < s.length := by
  have hadvance : s.kind ≠ .eof → t.Within s.advance → t.length < s.length := fun hk hw =>
    Nat.lt_of_le_of_lt hw.length_le (Stream.length_advance_lt (Stream.atEnd_eq_false_of_kind hk))
  rw [statement_apply] at h
  split at h
  · rename_i rule hrule
    refine hadvance (fun hk => ?_) (statementBy_within h)
    rw [hk] at hrule
    cases hrule
  · split at h
    · rename_i hk
      simp only [Bool.and_eq_true, decide_eq_true_eq] at hk
      exact hadvance (by simp [hk.1]) (assignment_within h)
    · obtain ⟨value, s₁, hv, hend, -⟩ := expressionStatement_eq_ok_iff.1 h
      exact Nat.lt_of_le_of_lt (lineEnd_within hend).length_le (length_lt_of_expression hv)

theorem length_lt_of_blockLine (h : blockLine standard.statement s = .ok nodes t) :
    t.length < s.length := by
  obtain ⟨hk, -, rfl⟩ | ⟨-, a, ha, -⟩ := blockLine_eq_ok_iff.1 h
  · exact Stream.length_advance_lt (Stream.atEnd_eq_false_of_kind (by simp [hk]))
  · exact length_lt_of_statement ha

end Progress

end Grammar
end Offside
