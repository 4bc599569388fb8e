import Offside.Proofs.Recognizer.Locality

/-! Statements and programs look at kinds alone, and at none after the token where they stop. The
one place that looks further ahead is a name, which may be assigned to; there the kind after the
name decides, and the name is read in either case. -/
namespace Offside
namespace Grammar
open Recognizer

variable {n : Nat} {s t : Stream} {k : TokenKind} {mark : Label}

theorem local_optionalType (hk : k ≠ .eof) (n : Nat) (mark : Label) :
    LocalBelow n (standard.optionalType k mark) (standard.optionalType k mark) := by
  intro s hs
  refine .kind_bind ?_
  split
  · rename_i hkind
    refine LocalAt.bind ?_ fun _ _ _ _ => .pure
    refine .leaf_bind (hkind ▸ hk) (Nat.le_of_lt hs) fun _ _ => ?_
    exact .bind (local_expression n _) fun _ _ _ _ => .pure
  · exact .pure

theorem local_optionalValue (n : Nat) :
    LocalBelow n standard.optionalValue standard.optionalValue := by
  intro s hs
  refine .kind_bind ?_
  split
  · rename_i hkind
    refine .leaf_bind (by simp [hkind]) (Nat.le_of_lt hs) fun _ _ => ?_
    exact .bind (local_expression n _) fun _ _ _ _ => .pure
  · exact .pure

theorem local_returnStatement (hs : s.length ≤ n) (hkind : s.kind ≠ .eof) :
    LocalAt s standard.returnStatement standard.returnStatement := by
  refine .leaf_bind hkind hs fun _ _ => .kind_bind fun _ => ?_
  refine .ite (.bind (fun _ _ => .pure) fun _ _ => ?_)
    (.bind (local_expression n _) fun _ _ => .bind (fun _ _ => .pure) fun _ _ => ?_)
  all_goals exact .bind (fun _ _ => .lineEnd) fun _ _ _ _ => .pure

theorem local_passStatement (hkind : s.kind ≠ .eof) : LocalAt s passStatement passStatement :=
  (LocalAt.leaf hkind _ _).bind fun _ _ _ _ => LocalAt.lineEnd.bind fun _ _ _ _ => .pure

theorem local_parameterList (n : Nat) :
    LocalBelow n standard.parameterList standard.parameterList := by
  refine .bind (fun _ _ => .expectLeaf (by decide) _) fun _ _ => ?_
  refine .bind (.items (fun _ _ _ => Script.length_lt_of_parameter) ?_) fun _ _ _ _ => .pure
  refine .bind (fun _ _ => .expectLeaf (by decide) _) fun _ _ => ?_
  exact .bind (local_optionalType (by decide) n _) fun _ _ _ _ => .pure

/-- What an assignment is after its name. -/
def assignmentTo (name : Node) : Recognizer Node := do
  let type ← standard.optionalType .colon .colon
  let value ← standard.optionalValue
  lineEnd
  return .branch .assignStatement (name :: type ++ value)

/-- What the statement of an expression is after its first operand. -/
def expressionFrom (left : Node) : Recognizer Node := do
  let value ← standard.continued .loosest left
  lineEnd
  return .branch .expressionStatement [value]

/-- A statement that starts with a name goes on by the kind after the name. -/
theorem statement_apply_identifier (hk : s.kind = .identifier) : standard.statement s = (do
    let name ← leaf .variableName
    if startsAssignment (← kind) then assignmentTo name else expressionFrom name) s := by
  have hprimary : primary s = leaf .variableName s := by
    rw [primary, kind_bind_apply, hk]
    rfl
  have hexpression : standard.expression .loosest s =
      (leaf .variableName >>= standard.continued .loosest) s := by
    rw [expression_apply rfl, hk]
    exact bind_apply_congr hprimary fun _ _ _ => rfl
  have hstatement : standard.statement? .identifier = none := rfl
  rw [statement_apply, hk, hstatement]
  change _ = (if startsAssignment s.nextKind then _ else _ : Recognizer Node) s.advance
  by_cases hnext : startsAssignment s.nextKind = true
  · simp only [hnext, decide_true, Bool.and_self, if_true]
    rfl
  · simp only [hnext, Bool.and_false, Bool.false_eq_true, if_false]
    exact bind_apply_congr hexpression fun _ _ _ => rfl

theorem local_assignmentTo (n : Nat) (name name' : Node) :
    LocalBelow n (assignmentTo name) (assignmentTo name') := by
  refine .bind (local_optionalType (by decide) n _) fun _ _ => ?_
  refine .bind (local_optionalValue n) fun _ _ => ?_
  exact .bind (fun _ _ => .lineEnd) fun _ _ _ _ => .pure

theorem local_named (hs : s.length ≤ n) (hkind : s.kind = .identifier) :
    LocalAt s standard.statement standard.statement := by
  have hread := fun (s' : Stream) (hs' : s'.kind = s.kind) =>
    statement_apply_identifier (hs'.trans hkind)
  refine LocalAt.congr ?_ (hread s rfl) hread
  refine .leaf_bind (by simp [hkind]) hs fun _ _ => .kind_bind fun _ => .ite ?_ ?_
  · exact local_assignmentTo n _ _
  · refine .bind (local_continued (local_expression n) _ _ _) fun _ _ => ?_
    exact .bind (fun _ _ => .lineEnd) fun _ _ _ _ => .pure

/-- Statements are followed on streams of less than `n` tokens. -/
def LocalStatements (n : Nat) : Prop := LocalBelow n standard.statement standard.statement

theorem local_blockLine (h : LocalStatements n) :
    LocalBelow n (blockLine standard.statement) (blockLine standard.statement) := by
  intro s hs
  refine .kind_bind ?_
  split
  · rename_i hkind
    refine (LocalAt.discard (.advance ?_)).bind fun _ _ _ _ => .pure
    simp [hkind]
  · exact (h s hs).bind fun _ _ _ _ => .pure

theorem local_lines (h : LocalStatements n) (goesOn : TokenKind → Bool) :
    LocalBelow n (repeatWhile goesOn (blockLine standard.statement))
      (repeatWhile goesOn (blockLine standard.statement)) :=
  .repeatWhile (fun _ _ _ => length_lt_of_blockLine) fun s hs _ => local_blockLine h s hs

theorem local_block (h : LocalStatements n) :
    LocalBelow n (block standard.statement) (block standard.statement) := by
  refine .bind (local_lines h inBlock) fun _ _ s _ => .kind_bind ?_
  split
  · rename_i hkind
    refine (LocalAt.discard (.advance ?_)).bind fun _ _ _ _ => .pure
    simp [hkind]
  · exact .pure

theorem local_body (h : LocalStatements n) :
    LocalBelow n (bodyRule standard.statement) (bodyRule standard.statement) := by
  refine .bind (fun _ _ => .expectLeaf (by decide) _) fun _ _ s hs => .kind_bind ?_
  split
  · rename_i hkind
    have hnewline : LocalAt s (discard advance) (discard advance) :=
      .discard (.advance (by simp [hkind]))
    refine hnewline.bind fun _ _ t ht => ?_
    have hle := hnewline.length_le ht
    refine LocalBelow.bind (fun _ _ => .discard (.expect (by decide))) (fun _ _ => ?_) t
      (Nat.lt_of_le_of_lt hle hs)
    exact .bind (local_block h) fun _ _ _ _ => .pure
  · exact (h s hs).bind fun _ _ _ _ => .pure

theorem local_guarded (h : LocalStatements n) (hs : s.length ≤ n) (hkind : s.kind ≠ .eof) :
    LocalAt s (standard.guarded (bodyRule standard.statement))
      (standard.guarded (bodyRule standard.statement)) := by
  refine .leaf_bind hkind hs fun _ _ => .bind (local_expression n _) fun _ _ => ?_
  exact .bind (local_body h) fun _ _ _ _ => .pure

theorem local_alternatives (h : LocalStatements n) :
    LocalBelow n (repeatWhile (· = .kwElif) (standard.guarded (bodyRule standard.statement)))
      (repeatWhile (· = .kwElif) (standard.guarded (bodyRule standard.statement))) := by
  refine .repeatWhile (fun _ _ _ => Script.length_lt_of_guarded) fun s hs helif => ?_
  replace helif : s.kind = .kwElif := by simpa using helif
  exact local_guarded h (Nat.le_of_lt hs) (by simp [helif])

theorem local_otherwise (h : LocalStatements n) :
    LocalBelow n (optionalElse (bodyRule standard.statement))
      (optionalElse (bodyRule standard.statement)) := by
  intro s hs
  refine .kind_bind ?_
  split
  · rename_i hkind
    refine .leaf_bind (by simp [hkind]) (Nat.le_of_lt hs) fun _ _ => ?_
    exact .bind (local_body h) fun _ _ _ _ => .pure
  · exact .pure

theorem local_statementBy (h : LocalStatements n) (hs : s.length ≤ n) {rule : StatementRule}
    (hrule : standard.statement? s.kind = some rule) :
    LocalAt s (standard.statementBy standard.statement rule)
      (standard.statementBy standard.statement rule) := by
  have hkind : s.kind ≠ .eof := by
    intro hkind
    rw [hkind] at hrule
    cases hrule
  cases rule with
  | function =>
    refine .leaf_bind hkind hs fun _ _ => .bind (fun _ _ => .expectLeaf (by decide) _) fun _ _ => ?_
    refine .bind (local_parameterList n) fun _ _ => ?_
    refine .bind (local_optionalType (by decide) n _) fun _ _ => ?_
    exact .bind (local_body h) fun _ _ _ _ => .pure
  | «return» => exact local_returnStatement hs hkind
  | loop => exact (local_guarded h hs hkind).bind fun _ _ _ _ => .pure
  | conditional =>
    refine (local_guarded h hs hkind).bind fun _ _ t ht => ?_
    have hlt := Script.length_lt_of_guarded ht
    refine LocalBelow.bind (local_alternatives h) (fun _ _ => ?_) t (by omega)
    exact .bind (local_otherwise h) fun _ _ _ _ => .pure
  | pass => exact local_passStatement hkind
  | assignment => exact .leaf_bind hkind hs fun _ _ => local_assignmentTo n _ _

theorem local_statement (n : Nat) : LocalStatements n := by
  induction n with
  | zero => exact fun s hs => absurd hs (Nat.not_lt_zero _)
  | succ n ih =>
    intro s hs
    by_cases hname : s.kind = .identifier
    · exact local_named (Nat.le_of_lt_succ hs) hname
    cases hrule : standard.statement? s.kind with
    | none =>
      have hread : ∀ s' : Stream, s'.kind = s.kind →
          standard.statement s' = standard.expressionStatement s' := by
        intro s' hs'
        rw [statement_apply, hs', hrule]
        simp only [hname, decide_false, Bool.false_and, Bool.false_eq_true, if_false]
      refine LocalAt.congr ?_ (hread s rfl) hread
      refine (local_expression (n + 1) _ s hs).bind fun _ _ _ _ => ?_
      exact LocalAt.lineEnd.bind fun _ _ _ _ => .pure
    | some rule =>
      have hread : ∀ s' : Stream, s'.kind = s.kind →
          standard.statement s' = standard.statementBy standard.statement rule s' := by
        intro s' hs'
        rw [statement_apply, hs', hrule]
      exact (local_statementBy ih (Nat.le_of_lt_succ hs) hrule).congr (hread s rfl) hread

/-- A program is refused at the first token that makes a difference: the run on every stream that
has the same kinds up to there stops there too. -/
theorem local_script (s : Stream) : LocalAt s standard.script standard.script :=
  local_lines (local_statement _) _ s (Nat.lt_succ_self _)

end Grammar
end Offside
