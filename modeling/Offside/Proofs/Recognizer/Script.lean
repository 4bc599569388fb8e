import Offside.Proofs.Grammar.Statement
import Offside.Proofs.Recognizer.Levels
import Offside.Proofs.Recognizer.Statement

/-! The recognizer of statements reads exactly the grammar of statements. -/
namespace Offside
open Recognizer

/-- The current token of a stream is one of those put before it, or what was current there. -/
@[simp] theorem Stream.kind_prepend {s : Stream} (u : List Token) :
    (s.prepend u).kind = firstKind u s.kind := by
  cases u <;> rfl

namespace Script
open Grammar (standard)

variable {s t : Stream} {a : Node} {nodes : List Node}

theorem eq_prepend_of_expression (h : standard.expression .loosest s = .ok a t) :
    ∃ u, s = t.prepend u ∧ Level.disjunction.Derives u a := by
  obtain ⟨u, hu, ha, -⟩ := (Grammar.expression_eq_ok_iff_derives (by decide)).1 h
  exact ⟨u, hu, ha⟩

theorem lineEnd_eq_ok_iff_lineEnd {x : Unit} :
    lineEnd s = .ok x t ↔ ∃ u, s = t.prepend u ∧ LineEnd t.kind u := by
  rw [lineEnd_eq_ok_iff]
  constructor
  · rintro (⟨hk, rfl⟩ | ⟨hk, rfl⟩)
    · exact ⟨_, Stream.eq_prepend_advance (by simp [hk]), .newline hk⟩
    · exact ⟨[], rfl, .before hk⟩
  · rintro ⟨u, rfl, hk | hk⟩
    · exact .inl ⟨hk, rfl⟩
    · exact .inr ⟨hk, rfl⟩

section Soundness

variable {n : Nat}

theorem optionalType_sound {k : TokenKind} {mark : Label} (hk : k ≠ .eof)
    (h : standard.optionalType k mark s = .ok nodes t) :
    ∃ u, s = t.prepend u ∧ OptionalType k mark u nodes := by
  obtain ⟨hkind, a, ha, rfl⟩ | ⟨-, rfl, rfl⟩ := Grammar.optionalType_eq_ok_iff.1 h
  · obtain ⟨u, hu, ha⟩ := eq_prepend_of_expression ha
    exact ⟨s.current :: u, Stream.eq_prepend_cons (hkind ▸ hk) hu, .present hkind ha⟩
  · exact ⟨[], rfl, .absent⟩

theorem parameter_sound (h : standard.parameter s = .ok nodes t) :
    ∃ u, s = t.prepend u ∧ Parameter u nodes := by
  obtain ⟨hk, types, ht, rfl⟩ := Grammar.parameter_eq_ok_iff.1 h
  obtain ⟨u, hu, ht⟩ := optionalType_sound (by decide) ht
  exact ⟨s.current :: u, Stream.eq_prepend_cons (by simp [hk]) hu, .mk hk ht⟩

theorem length_lt_of_parameter {s t : Stream} {nodes : List Node}
    (h : standard.parameter s = .ok nodes t) : t.length < s.length := by
  obtain ⟨u, rfl, ⟨-, -⟩⟩ := parameter_sound h
  simp only [Stream.length_prepend, List.length_cons]
  omega

theorem parameters_sound (h : items standard.parameter s = .ok nodes t) :
    ∃ u, s = t.prepend u ∧ Parameters u nodes := by
  induction hk : s.length using Nat.strongRecOn generalizing s nodes with
  | ind k ih =>
    obtain ⟨hkind, rfl, rfl⟩ | ⟨-, first, s₁, comma, s₂, more, hf, hc, hm, rfl⟩ :=
      (items_eq_ok_iff fun _ _ _ => length_lt_of_parameter).1 h
    · exact ⟨_, Stream.eq_prepend_advance (by simp [hkind]), .close hkind⟩
    have hlt := length_lt_of_parameter hf
    obtain ⟨u, hu, hfirst⟩ := parameter_sound hf
    obtain ⟨hkind, rfl, rfl⟩ | ⟨hkind, rfl, rfl⟩ := separator_eq_ok_iff.1 hc
    · have hle := s₁.advance_within.length_le
      obtain ⟨v, hv, hmore⟩ := ih _ (by omega) hm rfl
      have hcomma := Stream.eq_prepend_cons (by simp [hkind]) hv
      refine ⟨u ++ s₁.current :: v, Stream.eq_prepend_trans hu hcomma, ?_⟩
      rw [List.append_assoc]
      exact .more hfirst hkind hmore
    · obtain ⟨-, rfl, rfl⟩ | ⟨hne, -⟩ :=
        (items_eq_ok_iff fun _ _ _ => length_lt_of_parameter).1 hm
      · have hclose := Stream.eq_prepend_advance (s := s₂) (by simp [hkind])
        refine ⟨u ++ [s₂.current], Stream.eq_prepend_trans hu hclose, ?_⟩
        rw [List.append_nil]
        exact .last hfirst hkind
      · exact absurd hkind hne

/-- Statements read from less than `n` tokens are those of the grammar. -/
def SoundBelow (n : Nat) : Prop := ∀ {s t : Stream} {a : Node}, s.length < n →
  standard.statement s = .ok a t → ∃ u, s = t.prepend u ∧ Statement t.kind u a

theorem lines_sound (hsound : SoundBelow n) {goesOn : TokenKind → Bool} (hs : s.length < n)
    (h : repeatWhile goesOn (Grammar.blockLine standard.statement) s = .ok nodes t) :
    goesOn t.kind = false ∧ ∃ u, s = t.prepend u ∧ Lines t.kind u nodes := by
  induction hk : s.length using Nat.strongRecOn generalizing s nodes with
  | ind k ih =>
    obtain ⟨-, first, s₁, more, hf, hm, rfl⟩ | ⟨hend, rfl, rfl⟩ :=
      (repeatWhile_eq_ok_iff fun _ _ _ => Grammar.length_lt_of_blockLine).1 h
    · have hlt := Grammar.length_lt_of_blockLine hf
      obtain ⟨hend, v, hv, hmore⟩ := ih _ (by omega) (by omega) hm rfl
      refine ⟨hend, ?_⟩
      obtain ⟨hkind, rfl, rfl⟩ | ⟨-, a, ha, rfl⟩ := Grammar.blockLine_eq_ok_iff.1 hf
      · exact ⟨s.current :: v, Stream.eq_prepend_cons (by simp [hkind]) hv, .blank hkind hmore⟩
      · obtain ⟨u, hu, ha⟩ := hsound hs ha
        rw [hv, Stream.kind_prepend] at ha
        exact ⟨u ++ v, Stream.eq_prepend_trans hu hv, .statement ha hmore⟩
    · exact ⟨hend, [], rfl, .nil⟩

theorem body_sound (hsound : SoundBelow n) (hs : s.length ≤ n)
    (h : Grammar.bodyRule standard.statement s = .ok a t) :
    ∃ u, s = t.prepend u ∧ Body t.kind u a := by
  obtain ⟨hcolon, hrest⟩ := Grammar.bodyRule_eq_ok_iff.1 h
  have hkind : s.kind ≠ .eof := by simp [hcolon]
  have hlt := Stream.length_advance_lt (Stream.atEnd_eq_false_of_kind hkind)
  obtain ⟨hnewline, hindent, nodes, hb, rfl⟩ | ⟨-, only, ho, rfl⟩ := hrest
  · obtain ⟨s₁, hl, hend⟩ := Grammar.block_eq_ok_iff.1 hb
    have hle := s.advance.advance.advance_within.length_le
    have hle' := s.advance.advance_within.length_le
    obtain ⟨hover, u, hu, hl⟩ := lines_sound hsound (by omega) hl
    have hopening : ∀ {w}, s.advance.advance.advance = t.prepend w →
        s = t.prepend (s.current :: s.advance.current :: s.advance.advance.current :: w) :=
      fun hw => Stream.eq_prepend_cons hkind (Stream.eq_prepend_cons (by simp [hnewline])
        (Stream.eq_prepend_cons (by simp [hindent]) hw))
    obtain ⟨hdedent, rfl⟩ | ⟨hdedent, rfl⟩ := hend
    · have hv := Stream.eq_prepend_advance (s := s₁) (by simp [hdedent])
      refine ⟨_, hopening (Stream.eq_prepend_trans hu hv), .block hcolon hnewline hindent ?_
        (.dedent hdedent)⟩
      exact hl
    · have heof : t.kind = .eof := by simpa [Grammar.inBlock, hdedent] using hover
      refine ⟨_, hopening (Stream.eq_prepend_trans hu (v := []) rfl),
        .block hcolon hnewline hindent ?_ (.input heof)⟩
      exact hl
  · obtain ⟨u, hu, ho⟩ := hsound (by omega) ho
    exact ⟨s.current :: u, Stream.eq_prepend_cons hkind hu, .line hcolon ho⟩

theorem guarded_sound (hsound : SoundBelow n) (hkind : s.kind ≠ .eof) (hs : s.length ≤ n)
    (h : standard.guarded (Grammar.bodyRule standard.statement) s = .ok nodes t) :
    ∃ u v a body, s = t.prepend (s.current :: (u ++ v)) ∧ Level.disjunction.Derives u a ∧
      Body t.kind v body ∧ nodes = [.leaf .keyword s.current.span, a, body] := by
  obtain ⟨a, s₁, body, ha, hb, rfl⟩ := Grammar.guarded_eq_ok_iff.1 h
  have hlt := Grammar.length_lt_of_expression ha
  have hle := s.advance_within.length_le
  obtain ⟨u, hu, ha⟩ := eq_prepend_of_expression ha
  obtain ⟨v, hv, hb⟩ := body_sound hsound (by omega) hb
  exact ⟨u, v, a, body, Stream.eq_prepend_cons hkind (Stream.eq_prepend_trans hu hv), ha, hb, rfl⟩

theorem length_lt_of_guarded {s t : Stream} {nodes : List Node}
    (h : standard.guarded (Grammar.bodyRule standard.statement) s = .ok nodes t) :
    t.length < s.length := by
  obtain ⟨a, s₁, body, ha, hb, -⟩ := Grammar.guarded_eq_ok_iff.1 h
  have hlt := Grammar.length_lt_of_expression ha
  have hle := s.advance_within.length_le
  have hle' := (Grammar.body_within hb).length_le
  omega

theorem further_sound (hsound : SoundBelow n) (hs : s.length ≤ n) {s₁ : Stream}
    {alternatives otherwise : List Node}
    (ha : repeatWhile (· = .kwElif) (standard.guarded (Grammar.bodyRule standard.statement)) s =
      .ok alternatives s₁)
    (ho : Grammar.optionalElse (Grammar.bodyRule standard.statement) s₁ = .ok otherwise t) :
    ∃ w, s = t.prepend w ∧ Further t.kind w (alternatives ++ otherwise) := by
  induction hk : s.length using Nat.strongRecOn generalizing s alternatives with
  | ind k ih =>
    obtain ⟨helif, first, s₂, more, hf, hm, rfl⟩ | ⟨helif, rfl, rfl⟩ :=
      (repeatWhile_eq_ok_iff fun _ _ _ => length_lt_of_guarded).1 ha
    · replace helif : s.kind = .kwElif := by simpa using helif
      have hlt := length_lt_of_guarded hf
      obtain ⟨w, hw, hfurther⟩ := ih _ (by omega) (by omega) hm rfl
      obtain ⟨u, v, a, body, hu, hcond, hb, rfl⟩ := guarded_sound hsound (by simp [helif]) hs hf
      rw [hw, Stream.kind_prepend] at hb
      refine ⟨s.current :: (u ++ (v ++ w)), ?_, .alternative helif hcond hb hfurther⟩
      rw [← List.append_assoc]
      exact Stream.eq_prepend_trans hu hw
    · replace helif : s₁.kind ≠ .kwElif := by simpa using helif
      obtain ⟨helse, body, hb, rfl⟩ | ⟨helse, rfl, rfl⟩ := Grammar.optionalElse_eq_ok_iff.1 ho
      · have hle := s₁.advance_within.length_le
        obtain ⟨u, hu, hb⟩ := body_sound hsound (by omega) hb
        exact ⟨s₁.current :: u, Stream.eq_prepend_cons (by simp [helse]) hu, .otherwise helse hb⟩
      · exact ⟨[], rfl, .none helif helse⟩

theorem assigned_sound {types value : List Node} {s₁ : Stream}
    (hnext : Grammar.startsAssignment s.kind = true)
    (ht : standard.optionalType .colon .colon s = .ok types s₁)
    (hv : standard.optionalValue s₁ = .ok value t) :
    ∃ u, s = t.prepend u ∧ Assigned u (types ++ value) := by
  obtain ⟨hkind, b, hb, rfl⟩ | ⟨hkind, rfl, rfl⟩ := Grammar.optionalValue_eq_ok_iff.1 hv
  · obtain ⟨u, hu, ht⟩ := optionalType_sound (by decide) ht
    obtain ⟨v, hv, hb⟩ := eq_prepend_of_expression hb
    exact ⟨u ++ s₁.current :: v,
      Stream.eq_prepend_trans hu (Stream.eq_prepend_cons (by simp [hkind]) hv), .value ht hkind hb⟩
  · obtain ⟨hcolon, a, ha, rfl⟩ | ⟨hcolon, rfl, rfl⟩ := Grammar.optionalType_eq_ok_iff.1 ht
    · obtain ⟨u, hu, ha⟩ := eq_prepend_of_expression ha
      exact ⟨s.current :: u, Stream.eq_prepend_cons (by simp [hcolon]) hu, .type hcolon ha⟩
    · simp [Grammar.startsAssignment, hcolon, hkind] at hnext

theorem assignment_sound (hkind : s.kind = .identifier)
    (hnext : Grammar.startsAssignment s.nextKind = true) (h : standard.assignment s = .ok a t) :
    ∃ u, s = t.prepend u ∧ Statement t.kind u a := by
  obtain ⟨types, s₁, value, s₂, ht, hv, hend, rfl⟩ := Grammar.assignment_eq_ok_iff.1 h
  obtain ⟨u, hu, hassigned⟩ := assigned_sound (s := s.advance) hnext ht hv
  obtain ⟨v, hv, hend⟩ := lineEnd_eq_ok_iff_lineEnd.1 hend
  exact ⟨s.current :: (u ++ v),
    Stream.eq_prepend_cons (by simp [hkind]) (Stream.eq_prepend_trans hu hv),
    .assignment hkind hassigned hend⟩

theorem functionDefinition_sound (hsound : SoundBelow n) (hs : s.length ≤ n)
    (hkind : s.kind = .kwDef)
    (h : standard.functionDefinition (Grammar.bodyRule standard.statement) s = .ok a t) :
    ∃ u, s = t.prepend u ∧ Statement t.kind u a := by
  obtain ⟨hname, list, s₁, types, s₂, body, hl, ht, hb, rfl⟩ :=
    Grammar.functionDefinition_eq_ok_iff.1 h
  have hle := (Grammar.optionalType_within ht).length_le
  have hle' := (Grammar.parameterList_within hl).length_le
  have hle₁ := s.advance_within.length_le
  have hle₂ := s.advance.advance_within.length_le
  obtain ⟨hopening, nodes, hnodes, rfl⟩ := Grammar.parameterList_eq_ok_iff.1 hl
  obtain ⟨u, hu, hparameters⟩ := parameters_sound hnodes
  obtain ⟨v, hv, htypes⟩ := optionalType_sound (by decide) ht
  obtain ⟨w, hw, hbody⟩ := body_sound hsound (by omega) hb
  refine ⟨_, ?_, .function hkind hname hopening hparameters htypes hbody⟩
  exact Stream.eq_prepend_cons (by simp [hkind]) (Stream.eq_prepend_cons (by simp [hname])
    (Stream.eq_prepend_cons (by simp [hopening])
      (Stream.eq_prepend_trans hu (Stream.eq_prepend_trans hv hw))))

theorem returnStatement_sound (hkind : s.kind = .kwReturn)
    (h : standard.returnStatement s = .ok a t) : ∃ u, s = t.prepend u ∧ Statement t.kind u a := by
  have hk : s.kind ≠ .eof := by simp [hkind]
  obtain ⟨-, hend, rfl⟩ | ⟨-, value, s₁, hv, hend, rfl⟩ := Grammar.returnStatement_eq_ok_iff.1 h
  · obtain ⟨u, hu, hend⟩ := lineEnd_eq_ok_iff_lineEnd.1 hend
    exact ⟨s.current :: u, Stream.eq_prepend_cons hk hu, .returnNone hkind hend⟩
  · obtain ⟨u, hu, hv⟩ := eq_prepend_of_expression hv
    obtain ⟨v, hv', hend⟩ := lineEnd_eq_ok_iff_lineEnd.1 hend
    exact ⟨s.current :: (u ++ v), Stream.eq_prepend_cons hk (Stream.eq_prepend_trans hu hv'),
      .returnValue hkind hv hend⟩

theorem ifStatement_sound (hsound : SoundBelow n) (hs : s.length ≤ n) (hkind : s.kind = .kwIf)
    (h : standard.ifStatement (Grammar.bodyRule standard.statement) s = .ok a t) :
    ∃ u, s = t.prepend u ∧ Statement t.kind u a := by
  obtain ⟨first, s₁, alternatives, s₂, otherwise, hf, ha, ho, rfl⟩ :=
    Grammar.ifStatement_eq_ok_iff.1 h
  have hlt := length_lt_of_guarded hf
  obtain ⟨u, v, a, body, hu, hcond, hb, rfl⟩ := guarded_sound hsound (by simp [hkind]) hs hf
  obtain ⟨w, hw, hfurther⟩ := further_sound hsound (by omega) ha ho
  rw [hw, Stream.kind_prepend] at hb
  refine ⟨s.current :: (u ++ (v ++ w)), ?_, ?_⟩
  · rw [← List.append_assoc]
    exact Stream.eq_prepend_trans hu hw
  · rw [List.append_assoc]
    exact .conditional hkind hcond hb hfurther

theorem statementBy_sound (hsound : SoundBelow n) (hs : s.length ≤ n) {rule : StatementRule}
    (hrule : standard.statement? s.kind = some rule)
    (h : standard.statementBy standard.statement rule s = .ok a t) :
    ∃ u, s = t.prepend u ∧ Statement t.kind u a := by
  cases hk : s.kind <;> rw [hk] at hrule <;> cases hrule
  case kwDef => exact functionDefinition_sound hsound hs hk h
  case kwReturn => exact returnStatement_sound hk h
  case kwWhile =>
    obtain ⟨nodes, hn, rfl⟩ := Grammar.whileStatement_eq_ok_iff.1 h
    obtain ⟨u, v, a, body, hu, hcond, hb, rfl⟩ := guarded_sound hsound (by simp [hk]) hs hn
    exact ⟨_, hu, .loop hk hcond hb⟩
  case kwIf => exact ifStatement_sound hsound hs hk h
  case kwPass =>
    obtain ⟨hend, rfl⟩ := Grammar.passStatement_eq_ok_iff.1 h
    obtain ⟨u, hu, hend⟩ := lineEnd_eq_ok_iff_lineEnd.1 hend
    exact ⟨s.current :: u, Stream.eq_prepend_cons (by simp [hk]) hu, .pass hk hend⟩

theorem soundBelow (n : Nat) : SoundBelow n := by
  induction n with
  | zero => exact fun hs => absurd hs (Nat.not_lt_zero _)
  | succ n ih =>
    intro s t a hs h
    rw [Grammar.statement_apply] at h
    split at h
    · rename_i rule hrule
      exact statementBy_sound ih (Nat.le_of_lt_succ hs) hrule h
    · split at h
      · rename_i hk
        simp only [Bool.and_eq_true, decide_eq_true_eq] at hk
        exact assignment_sound hk.1 hk.2 h
      · obtain ⟨value, s₁, hv, hend, rfl⟩ := Grammar.expressionStatement_eq_ok_iff.1 h
        obtain ⟨u, hu, hv⟩ := eq_prepend_of_expression hv
        obtain ⟨v, hv', hend⟩ := lineEnd_eq_ok_iff_lineEnd.1 hend
        exact ⟨u ++ v, Stream.eq_prepend_trans hu hv', .expression hv hend⟩

end Soundness

section Completeness

variable {u v w : List Token} {next k : TokenKind} {mark : Label}

theorem not_continues_of_operator? (h : standard.operator? k = none) (p : Power) :
    ¬ standard.Continues p k := by
  rintro ⟨q, rule, hop, -⟩
  rw [h] at hop
  cases hop

theorem expression_complete (h : Level.disjunction.Derives u a)
    (hend : standard.operator? t.kind = none) :
    standard.expression .loosest (t.prepend u) = .ok a t :=
  (Grammar.expression_eq_ok_iff_derives (by decide)).2
    ⟨u, rfl, h, not_continues_of_operator? hend _⟩

theorem LineEnd.endsLine (h : LineEnd next v) : (firstKind v next).endsLine = true := by
  obtain hk | hk | hk := h
  · rw [firstKind_cons, hk]
    rfl
  · rw [firstKind_nil, hk]
    rfl
  · rw [firstKind_nil, hk]
    rfl

theorem operator?_eq_none_of_endsLine (h : k.endsLine = true) : standard.operator? k = none := by
  cases k <;> first | rfl | cases h

/-- No statement starts with a keyword where an expression can start. -/
theorem statement?_eq_none_of_operand? {rule : OperandRule} (h : standard.operand? k = some rule) :
    standard.statement? k = none := by
  cases k <;> first | rfl | cases h

theorem endsLine_eq_false_of_operand? {rule : OperandRule} (h : standard.operand? k = some rule) :
    k.endsLine = false := by
  cases k <;> first | rfl | cases h

/-- An expression is read up to the end of its line. -/
theorem expression_before_lineEnd (h : Level.disjunction.Derives u a) (hend : LineEnd t.kind v) :
    standard.expression .loosest ((t.prepend v).prepend u) = .ok a (t.prepend v) := by
  refine expression_complete h (operator?_eq_none_of_endsLine ?_)
  rw [Stream.kind_prepend]
  exact hend.endsLine

theorem startsAssignment_of_endsLine (h : k.endsLine = true) :
    Grammar.startsAssignment k = false := by
  cases k <;> first | rfl | cases h

theorem optionalType_complete (h : OptionalType k mark u nodes) (hk : t.kind ≠ k)
    (hend : standard.operator? t.kind = none) :
    standard.optionalType k mark (t.prepend u) = .ok nodes t := by
  cases h with
  | absent => exact Grammar.optionalType_eq_ok_iff.2 (.inr ⟨hk, rfl, rfl⟩)
  | present hmark ha =>
    exact Grammar.optionalType_eq_ok_iff.2 (.inl ⟨hmark, _, expression_complete ha hend, rfl⟩)

theorem parameter_complete (h : Parameter u nodes) (hk : t.kind ≠ .colon)
    (hend : standard.operator? t.kind = none) : standard.parameter (t.prepend u) = .ok nodes t := by
  obtain ⟨hname, htypes⟩ := h
  exact Grammar.parameter_eq_ok_iff.2 ⟨hname, _, optionalType_complete htypes hk hend, rfl⟩

theorem kind_of_parameter (h : Parameter u nodes) : firstKind u next = .identifier := by
  obtain ⟨hname, -⟩ := h
  exact hname

theorem parameters_complete (h : Parameters u nodes) (t : Stream) :
    items standard.parameter (t.prepend u) = .ok nodes t := by
  have hshorter : ∀ s nodes t, standard.parameter s = .ok nodes t → t.length < s.length :=
    fun _ _ _ h => length_lt_of_parameter h
  induction h generalizing t with
  | close hclose => exact (items_eq_ok_iff hshorter).2 (.inl ⟨hclose, rfl, rfl⟩)
  | @last u nodes closing hp hclose =>
    rw [Stream.prepend_append]
    refine (items_eq_ok_iff hshorter).2 (.inr ⟨?_, nodes, t.prepend [closing], [], _, _, ?_,
      separator_eq_ok_iff.2 (.inr ⟨hclose, rfl, rfl⟩),
      (items_eq_ok_iff hshorter).2 (.inl ⟨hclose, rfl, rfl⟩), ?_⟩)
    · simp [kind_of_parameter hp]
    · exact parameter_complete hp (by simp [hclose]) (by simp [hclose]; rfl)
    · rw [List.append_nil]
      rfl
  | @more u v nodes more comma hp hcomma hv ih =>
    rw [Stream.prepend_append]
    refine (items_eq_ok_iff hshorter).2 (.inr ⟨?_, nodes, t.prepend (comma :: v), _, _, more, ?_,
      separator_eq_ok_iff.2 (.inl ⟨hcomma, rfl, rfl⟩), ih t, ?_⟩)
    · simp [kind_of_parameter hp]
    · exact parameter_complete hp (by simp [hcomma]) (by simp [hcomma]; rfl)
    · rw [List.append_assoc]
      rfl

theorem assigned_complete (h : Assigned u nodes) (hend : t.kind.endsLine = true) :
    ∃ types s₁ value, standard.optionalType .colon .colon (t.prepend u) = .ok types s₁ ∧
      standard.optionalValue s₁ = .ok value t ∧ nodes = types ++ value := by
  have hoperator := operator?_eq_none_of_endsLine hend
  cases h with
  | @type u a mark hmark ha =>
    refine ⟨_, t, [], Grammar.optionalType_eq_ok_iff.2 (.inl ⟨hmark, a, ?_, rfl⟩),
      Grammar.optionalValue_eq_ok_iff.2 (.inr ⟨?_, rfl, rfl⟩), rfl⟩
    · exact expression_complete ha hoperator
    · rintro hk
      rw [hk] at hend
      cases hend
  | @value u v types b mark ht hmark hb =>
    refine ⟨types, t.prepend (mark :: v), _, ?_, Grammar.optionalValue_eq_ok_iff.2
      (.inl ⟨hmark, b, expression_complete hb hoperator, rfl⟩), rfl⟩
    rw [Stream.prepend_append]
    exact optionalType_complete ht (by simp [hmark]) (by simp [hmark]; rfl)

theorem startsAssignment_of_assigned (h : Assigned u nodes) :
    Grammar.startsAssignment (firstKind u next) = true := by
  cases h with
  | type hmark => simp [Grammar.startsAssignment, hmark]
  | value ht hmark => cases ht <;> simp [Grammar.startsAssignment, *]

/-- Tokens are read as a statement before a token of this kind. -/
def ReadsStatement (next : TokenKind) (u : List Token) (a : Node) : Prop :=
  ∀ t : Stream, t.kind = next → standard.statement (t.prepend u) = .ok a t

def ReadsBody (next : TokenKind) (u : List Token) (a : Node) : Prop :=
  ∀ t : Stream, t.kind = next → Grammar.bodyRule standard.statement (t.prepend u) = .ok a t

def ReadsLines (next : TokenKind) (u : List Token) (nodes : List Node) : Prop :=
  ∀ (t : Stream) (goesOn : TokenKind → Bool), t.kind = next → goesOn next = false →
    (∀ k, k ≠ .dedent → k ≠ .eof → goesOn k = true) →
      repeatWhile goesOn (Grammar.blockLine standard.statement) (t.prepend u) = .ok nodes t

def ReadsFurther (next : TokenKind) (u : List Token) (nodes : List Node) : Prop :=
  ∀ t : Stream, t.kind = next → ∃ alternatives s₁ otherwise,
    repeatWhile (· = .kwElif) (standard.guarded (Grammar.bodyRule standard.statement))
      (t.prepend u) = .ok alternatives s₁ ∧
    Grammar.optionalElse (Grammar.bodyRule standard.statement) s₁ = .ok otherwise t ∧
    nodes = alternatives ++ otherwise

theorem lineEnd_complete (h : LineEnd t.kind v) : lineEnd (t.prepend v) = .ok () t :=
  lineEnd_eq_ok_iff_lineEnd.2 ⟨v, rfl, h⟩

theorem readsStatement_by (rule : StatementRule)
    (hrule : standard.statement? (firstKind u next) = some rule)
    (h : ∀ t : Stream, t.kind = next →
      standard.statementBy standard.statement rule (t.prepend u) = .ok a t) :
    ReadsStatement next u a := by
  intro t ht
  rw [Grammar.statement_apply, Stream.kind_prepend, ht, hrule]
  exact h t ht

theorem readsStatement_assignment {name : Token} (hname : name.kind = .identifier)
    (h : Assigned u nodes) (hend : LineEnd next v) : ReadsStatement next (name :: (u ++ v))
      (.branch .assignStatement (.leaf .variableName name.span :: nodes)) := by
  rintro t rfl
  have hnext : (t.prepend (name :: (u ++ v))).nextKind = firstKind (u ++ v) t.kind :=
    Stream.kind_prepend _
  have hstart : Grammar.startsAssignment (t.prepend (name :: (u ++ v))).nextKind = true := by
    rw [hnext, firstKind_append]
    exact startsAssignment_of_assigned h
  obtain ⟨types, s₁, value, ht, hv, rfl⟩ := assigned_complete (t := t.prepend v) h (by
    rw [Stream.kind_prepend]
    exact hend.endsLine)
  rw [Grammar.statement_apply, Stream.kind_prepend_cons, hname]
  simp only [show standard.statement? .identifier = none from rfl, hstart, decide_true,
    Bool.and_self, if_true]
  refine Grammar.assignment_eq_ok_iff.2 ⟨types, s₁, value, _, ?_, hv, lineEnd_complete hend, rfl⟩
  rw [Stream.advance_prepend_cons, Stream.prepend_append]
  exact ht

/-- An expression is not mistaken for another statement. -/
theorem readsStatement_expression (h : Level.disjunction.Derives u a) (hend : LineEnd next v) :
    ReadsStatement next (u ++ v) (.branch .expressionStatement [a]) := by
  rintro t rfl
  have ha := expression_before_lineEnd h hend
  have hstatement := Grammar.expressionStatement_eq_ok_iff.2 ⟨a, _, ha, lineEnd_complete hend, rfl⟩
  rw [Stream.prepend_append, Grammar.statement_apply]
  obtain ⟨-, rule, hrule, -⟩ := Grammar.expression_eq_ok_iff.1 ha
  have hnone := statement?_eq_none_of_operand? hrule
  have hstart : Grammar.startsAssignment ((t.prepend v).prepend u).nextKind = false := by
    match u with
    | [] => exact absurd (Grammar.length_lt_of_expression ha) (Nat.lt_irrefl _)
    | [_] =>
      refine startsAssignment_of_endsLine (k := (t.prepend v).kind) ?_
      rw [Stream.kind_prepend]
      exact hend.endsLine
    | _ :: tok :: _ =>
      have hall : ∀ k ∈ Level.kinds, Grammar.startsAssignment k = false := by decide
      exact hall _ (h.kind_mem_kinds tok (by simp))
  simp only [hnone, hstart, Bool.and_false, Bool.false_eq_true, if_false]
  exact hstatement

theorem readsStatement_function {parameters types : List Node} {body : Node}
    {keyword name opening : Token} (hkeyword : keyword.kind = .kwDef)
    (hname : name.kind = .identifier) (hopening : opening.kind = .openParen)
    (hparameters : Parameters u parameters) (htypes : OptionalType .arrow .arrow v types)
    (hcolon : firstKind w next = .colon) (hbody : ReadsBody next w body) :
    ReadsStatement next (keyword :: name :: opening :: (u ++ (v ++ w)))
      (.branch .functionDefinition (.leaf .keyword keyword.span :: .leaf .variableName name.span ::
        .branch .paramList (.leaf .openParen opening.span :: parameters) :: types ++ [body])) := by
  refine readsStatement_by .function (by rw [firstKind_cons, hkeyword]; rfl) ?_
  rintro t rfl
  have hlist := parameters_complete hparameters ((t.prepend w).prepend v)
  have htypes : standard.optionalType .arrow .arrow ((t.prepend w).prepend v) =
      .ok types (t.prepend w) :=
    optionalType_complete htypes (by simp [hcolon]) (by simp [hcolon]; rfl)
  refine Grammar.functionDefinition_eq_ok_iff.2 ⟨hname, _, _, types, _, body,
    Grammar.parameterList_eq_ok_iff.2 ⟨hopening, parameters, ?_, rfl⟩, htypes, hbody t rfl, rfl⟩
  simp only [Stream.advance_prepend_cons, Stream.prepend_append]
  exact hlist

theorem readsStatement_returnNone {keyword : Token} (hkeyword : keyword.kind = .kwReturn)
    (hend : LineEnd next u) : ReadsStatement next (keyword :: u)
      (.branch .returnStatement [.leaf .keyword keyword.span]) := by
  refine readsStatement_by .return (by rw [firstKind_cons, hkeyword]; rfl) ?_
  rintro t rfl
  refine Grammar.returnStatement_eq_ok_iff.2 (.inl ⟨?_, lineEnd_complete hend, rfl⟩)
  rw [Stream.advance_prepend_cons, Stream.kind_prepend]
  exact hend.endsLine

theorem readsStatement_returnValue {keyword : Token} (hkeyword : keyword.kind = .kwReturn)
    (h : Level.disjunction.Derives u a) (hend : LineEnd next v) :
    ReadsStatement next (keyword :: (u ++ v))
      (.branch .returnStatement [.leaf .keyword keyword.span, a]) := by
  refine readsStatement_by .return (by rw [firstKind_cons, hkeyword]; rfl) ?_
  rintro t rfl
  have ha := expression_before_lineEnd h hend
  refine Grammar.returnStatement_eq_ok_iff.2 (.inr ⟨?_, a, _, ?_, lineEnd_complete hend, rfl⟩)
  · obtain ⟨-, rule, hrule, -⟩ := Grammar.expression_eq_ok_iff.1 ha
    rw [Stream.advance_prepend_cons, Stream.prepend_append]
    exact endsLine_eq_false_of_operand? hrule
  · rw [Stream.advance_prepend_cons, Stream.prepend_append]
    exact ha

theorem readsStatement_pass {keyword : Token} (hkeyword : keyword.kind = .kwPass)
    (hend : LineEnd next u) : ReadsStatement next (keyword :: u)
      (.branch .passStatement [.leaf .keyword keyword.span]) := by
  refine readsStatement_by .pass (by rw [firstKind_cons, hkeyword]; rfl) ?_
  rintro t rfl
  exact Grammar.passStatement_eq_ok_iff.2 ⟨lineEnd_complete hend, rfl⟩

/-- A keyword with an expression and a body after it is read. -/
theorem guarded_complete (keyword : Token) {body : Node} (h : Level.disjunction.Derives u a)
    (hcolon : firstKind v t.kind = .colon) (hbody : ReadsBody t.kind v body) :
    standard.guarded (Grammar.bodyRule standard.statement) (t.prepend (keyword :: (u ++ v))) =
      .ok [.leaf .keyword keyword.span, a, body] t := by
  refine Grammar.guarded_eq_ok_iff.2 ⟨a, t.prepend v, body, ?_, hbody t rfl, rfl⟩
  rw [Stream.advance_prepend_cons, Stream.prepend_append]
  exact expression_complete h (by simp [hcolon]; rfl)

theorem readsStatement_loop {keyword : Token} {body : Node} (hkeyword : keyword.kind = .kwWhile)
    (h : Level.disjunction.Derives u a) (hcolon : firstKind v next = .colon)
    (hbody : ReadsBody next v body) : ReadsStatement next (keyword :: (u ++ v))
      (.branch .whileStatement [.leaf .keyword keyword.span, a, body]) := by
  refine readsStatement_by .loop (by rw [firstKind_cons, hkeyword]; rfl) ?_
  rintro t rfl
  exact Grammar.whileStatement_eq_ok_iff.2 ⟨_, guarded_complete _ h hcolon hbody, rfl⟩

theorem readsStatement_conditional {keyword : Token} {body : Node}
    (hkeyword : keyword.kind = .kwIf) (h : Level.disjunction.Derives u a)
    (hcolon : firstKind v (firstKind w next) = .colon) (hbody : ReadsBody (firstKind w next) v body)
    (hfurther : ReadsFurther next w nodes) : ReadsStatement next (keyword :: (u ++ (v ++ w)))
      (.branch .ifStatement (.leaf .keyword keyword.span :: a :: body :: nodes)) := by
  refine readsStatement_by .conditional (by rw [firstKind_cons, hkeyword]; rfl) ?_
  rintro t rfl
  obtain ⟨alternatives, s₁, otherwise, ha, ho, rfl⟩ := hfurther t rfl
  have hkind : (t.prepend w).kind = firstKind w t.kind := Stream.kind_prepend w
  rw [← hkind] at hcolon hbody
  have hfirst := guarded_complete keyword h hcolon hbody
  refine Grammar.ifStatement_eq_ok_iff.2
    ⟨[.leaf .keyword keyword.span, a, body], _, alternatives, s₁, otherwise, ?_, ha, ho, rfl⟩
  rw [← List.append_assoc, ← List.cons_append, Stream.prepend_append]
  exact hfirst

theorem readsBody_line {colon : Token} (hcolon : colon.kind = .colon)
    (h : ReadsStatement next u a) :
    ReadsBody next (colon :: u) (.branch .body [.leaf .colon colon.span, a]) := by
  rintro t rfl
  have ha := h t rfl
  refine Grammar.bodyRule_eq_ok_iff.2 ⟨hcolon, .inr ⟨?_, a, ha, rfl⟩⟩
  exact (Grammar.kind_of_statement ha).1

theorem readsBody_block {colon newline indent : Token} (hcolon : colon.kind = .colon)
    (hnewline : newline.kind = .newline) (hindent : indent.kind = .indent)
    (h : ReadsLines (firstKind v next) u nodes) (hend : BlockEnd next v) :
    ReadsBody next (colon :: newline :: indent :: (u ++ v))
      (.branch .body (.leaf .colon colon.span :: nodes)) := by
  rintro t rfl
  have hover : Grammar.inBlock (firstKind v t.kind) = false := by
    obtain hk | hk := hend <;> simp [Grammar.inBlock, hk]
  have hlines := h (t.prepend v) Grammar.inBlock (Stream.kind_prepend v) hover
    fun k hdedent heof => by simp [Grammar.inBlock, hdedent, heof]
  refine Grammar.bodyRule_eq_ok_iff.2 ⟨hcolon, .inl ⟨hnewline, hindent, nodes,
    Grammar.block_eq_ok_iff.2 ⟨t.prepend v, ?_, ?_⟩, rfl⟩⟩
  · simp only [Stream.advance_prepend_cons, Stream.prepend_append]
    exact hlines
  · obtain hk | hk := hend
    · exact .inl ⟨hk, rfl⟩
    · exact .inr ⟨by simp [hk], rfl⟩

theorem repeatWhile_lines_iff {goesOn : TokenKind → Bool} :
    repeatWhile goesOn (Grammar.blockLine standard.statement) s = .ok nodes t ↔
      (goesOn s.kind = true ∧ ∃ first s₁ more,
        Grammar.blockLine standard.statement s = .ok first s₁ ∧
        repeatWhile goesOn (Grammar.blockLine standard.statement) s₁ = .ok more t ∧
        nodes = first ++ more) ∨
      (goesOn s.kind = false ∧ nodes = [] ∧ t = s) :=
  repeatWhile_eq_ok_iff fun _ _ _ => Grammar.length_lt_of_blockLine

theorem readsLines_nil : ReadsLines next [] [] := by
  rintro t goesOn rfl hover -
  exact repeatWhile_lines_iff.2 (.inr ⟨hover, rfl, rfl⟩)

theorem readsLines_blank {newline : Token} (hnewline : newline.kind = .newline)
    (h : ReadsLines next u nodes) : ReadsLines next (newline :: u) nodes := by
  rintro t goesOn rfl hover hon
  exact repeatWhile_lines_iff.2 (.inl ⟨hon _ (by simp [hnewline]) (by simp [hnewline]), [], _,
    nodes, Grammar.blockLine_eq_ok_iff.2 (.inl ⟨hnewline, rfl, rfl⟩), h t goesOn rfl hover hon,
    rfl⟩)

theorem readsLines_statement (h : ReadsStatement (firstKind v next) u a)
    (hlines : ReadsLines next v nodes) : ReadsLines next (u ++ v) (a :: nodes) := by
  rintro t goesOn rfl hover hon
  have ha := h (t.prepend v) (Stream.kind_prepend v)
  obtain ⟨hnewline, hdedent, heof⟩ := Grammar.kind_of_statement ha
  rw [Stream.prepend_append]
  exact repeatWhile_lines_iff.2 (.inl ⟨hon _ hdedent heof, [a], _, nodes,
    Grammar.blockLine_eq_ok_iff.2 (.inr ⟨hnewline, a, ha, rfl⟩), hlines t goesOn rfl hover hon,
    rfl⟩)

theorem readsFurther_none (helif : next ≠ .kwElif) (helse : next ≠ .kwElse) :
    ReadsFurther next [] [] := by
  rintro t rfl
  exact ⟨[], t, [], (repeatWhile_eq_ok_iff fun _ _ _ => length_lt_of_guarded).2
    (.inr ⟨decide_eq_false helif, rfl, rfl⟩),
    Grammar.optionalElse_eq_ok_iff.2 (.inr ⟨helse, rfl, rfl⟩), rfl⟩

theorem readsFurther_alternative {keyword : Token} {body : Node}
    (hkeyword : keyword.kind = .kwElif) (h : Level.disjunction.Derives u a)
    (hcolon : firstKind v (firstKind w next) = .colon) (hbody : ReadsBody (firstKind w next) v body)
    (hfurther : ReadsFurther next w nodes) : ReadsFurther next (keyword :: (u ++ (v ++ w)))
      (.leaf .keyword keyword.span :: a :: body :: nodes) := by
  rintro t rfl
  obtain ⟨alternatives, s₁, otherwise, ha, ho, rfl⟩ := hfurther t rfl
  have hkind : (t.prepend w).kind = firstKind w t.kind := Stream.kind_prepend w
  rw [← hkind] at hcolon hbody
  have hfirst := guarded_complete keyword h hcolon hbody
  refine ⟨[.leaf .keyword keyword.span, a, body] ++ alternatives, s₁, otherwise,
    (repeatWhile_eq_ok_iff fun _ _ _ => length_lt_of_guarded).2
      (.inl ⟨by simp [hkeyword], _, _, alternatives, ?_, ha, rfl⟩), ho, rfl⟩
  rw [← List.append_assoc, ← List.cons_append, Stream.prepend_append]
  exact hfirst

theorem readsFurther_otherwise {keyword : Token} {body : Node} (hkeyword : keyword.kind = .kwElse)
    (hbody : ReadsBody next u body) :
    ReadsFurther next (keyword :: u) [.leaf .keyword keyword.span, body] := by
  rintro t rfl
  exact ⟨[], _, _, (repeatWhile_eq_ok_iff fun _ _ _ => length_lt_of_guarded).2
    (.inr ⟨by simp [hkeyword], rfl, rfl⟩),
    Grammar.optionalElse_eq_ok_iff.2 (.inl ⟨hkeyword, body, hbody t rfl, rfl⟩), rfl⟩

theorem firstKind_of_body {body : Node} (h : Body next u body) (k : TokenKind) :
    firstKind u k = .colon := by
  cases h with
  | line hcolon => exact hcolon
  | block hcolon => exact hcolon

mutual
/-- What the grammar derives is read. -/
theorem readsStatement : ∀ {next : TokenKind} {u : List Token} {a : Node},
    Statement next u a → ReadsStatement next u a
  | _, _, _, .function hkeyword hname hopening hparameters htypes hbody =>
    readsStatement_function hkeyword hname hopening hparameters htypes (firstKind_of_body hbody _)
      (readsBody hbody)
  | _, _, _, .returnNone hkeyword hend => readsStatement_returnNone hkeyword hend
  | _, _, _, .returnValue hkeyword h hend => readsStatement_returnValue hkeyword h hend
  | _, _, _, .loop hkeyword h hbody =>
    readsStatement_loop hkeyword h (firstKind_of_body hbody _) (readsBody hbody)
  | _, _, _, .conditional hkeyword h hbody hfurther =>
    readsStatement_conditional hkeyword h (firstKind_of_body hbody _) (readsBody hbody)
      (readsFurther hfurther)
  | _, _, _, .pass hkeyword hend => readsStatement_pass hkeyword hend
  | _, _, _, .assignment hname h hend => readsStatement_assignment hname h hend
  | _, _, _, .expression h hend => readsStatement_expression h hend

theorem readsBody : ∀ {next : TokenKind} {u : List Token} {a : Node},
    Body next u a → ReadsBody next u a
  | _, _, _, .line hcolon h => readsBody_line hcolon (readsStatement h)
  | _, _, _, .block hcolon hnewline hindent h hend =>
    readsBody_block hcolon hnewline hindent (readsLines h) hend

theorem readsLines : ∀ {next : TokenKind} {u : List Token} {nodes : List Node},
    Lines next u nodes → ReadsLines next u nodes
  | _, _, _, .nil => readsLines_nil
  | _, _, _, .blank hnewline h => readsLines_blank hnewline (readsLines h)
  | _, _, _, .statement h hlines => readsLines_statement (readsStatement h) (readsLines hlines)

theorem readsFurther : ∀ {next : TokenKind} {u : List Token} {nodes : List Node},
    Further next u nodes → ReadsFurther next u nodes
  | _, _, _, .none helif helse => readsFurther_none helif helse
  | _, _, _, .alternative hkeyword h hbody hfurther =>
    readsFurther_alternative hkeyword h (firstKind_of_body hbody _) (readsBody hbody)
      (readsFurther hfurther)
  | _, _, _, .otherwise hkeyword hbody => readsFurther_otherwise hkeyword (readsBody hbody)
end

end Completeness

/-- The statements of a script are lines of the grammar before the end of the input. -/
theorem script_eq_ok_iff : standard.script s = .ok nodes t ↔
    t.kind = .eof ∧ ∃ u, s = t.prepend u ∧ Lines .eof u nodes := by
  constructor
  · intro h
    obtain ⟨hover, u, hu, hl⟩ := lines_sound (soundBelow _) (Nat.lt_succ_self _) h
    have heof : t.kind = .eof := by simpa using hover
    rw [heof] at hl
    exact ⟨heof, u, hu, hl⟩
  · rintro ⟨heof, u, rfl, hl⟩
    exact readsLines hl t _ heof (by simp) fun k _ hk => by simpa using hk

end Script
end Offside
