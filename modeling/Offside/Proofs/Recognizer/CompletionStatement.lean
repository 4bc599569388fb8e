import Offside.Proofs.Recognizer.Completion
import Offside.Proofs.Recognizer.LocalStatement

/-! A recognizer of statements that fails has read the beginning of a statement, which can be
completed so that it ends with the input. -/
namespace Offside
namespace Script
open Grammar (standard)
open Recognizer

section Ends

variable {k next : TokenKind} {u : List Token}

/-- What ends before a token of some kind may end before it, or at the end of the input. -/
def MayEnd (k next : TokenKind) : Prop := k = next ∨ k = .eof

theorem MayEnd.firstKind (h : MayEnd k next) (u : List Token) :
    MayEnd (firstKind u k) (firstKind u next) := by
  cases u with
  | nil => exact h
  | cons tok u => exact .inl rfl

theorem LineEnd.mayEnd (hk : MayEnd k next) (h : LineEnd next u) : LineEnd k u := by
  obtain htok | hnext := h
  · exact .newline htok
  · obtain rfl | rfl := hk
    · exact .before hnext
    · exact .before (.inr rfl)

theorem BlockEnd.mayEnd (hk : MayEnd k next) (h : BlockEnd next u) : BlockEnd k u := by
  obtain htok | hnext := h
  · exact .dedent htok
  · obtain rfl | rfl := hk
    · exact .input hnext
    · exact .input rfl

mutual
/-- The input may end after a statement, whatever comes after it. -/
theorem Statement.mayEnd : ∀ {k next : TokenKind} {u : List Token} {a : Node}, MayEnd k next →
    Statement next u a → Statement k u a
  | _, _, _, _, hk, .function hkeyword hname hopening hparameters htypes hbody =>
    .function hkeyword hname hopening hparameters htypes (hbody.mayEnd hk)
  | _, _, _, _, hk, .returnNone hkeyword hend => .returnNone hkeyword (hend.mayEnd hk)
  | _, _, _, _, hk, .returnValue hkeyword h hend => .returnValue hkeyword h (hend.mayEnd hk)
  | _, _, _, _, hk, .loop hkeyword h hbody => .loop hkeyword h (hbody.mayEnd hk)
  | _, _, _, _, hk, .conditional hkeyword h hbody hfurther =>
    .conditional hkeyword h (hbody.mayEnd (hk.firstKind _)) (hfurther.mayEnd hk)
  | _, _, _, _, hk, .pass hkeyword hend => .pass hkeyword (hend.mayEnd hk)
  | _, _, _, _, hk, .assignment hname h hend => .assignment hname h (hend.mayEnd hk)
  | _, _, _, _, hk, .expression h hend => .expression h (hend.mayEnd hk)

theorem Body.mayEnd : ∀ {k next : TokenKind} {u : List Token} {a : Node}, MayEnd k next →
    Body next u a → Body k u a
  | _, _, _, _, hk, .line hcolon h => .line hcolon (h.mayEnd hk)
  | _, _, _, _, hk, .block hcolon hnewline hindent h hend =>
    .block hcolon hnewline hindent (h.mayEnd (hk.firstKind _)) (hend.mayEnd hk)

theorem Lines.mayEnd : ∀ {k next : TokenKind} {u : List Token} {nodes : List Node}, MayEnd k next →
    Lines next u nodes → Lines k u nodes
  | _, _, _, _, _, .nil => .nil
  | _, _, _, _, hk, .blank hnewline h => .blank hnewline (h.mayEnd hk)
  | _, _, _, _, hk, .statement h hlines =>
    .statement (h.mayEnd (hk.firstKind _)) (hlines.mayEnd hk)

theorem Further.mayEnd : ∀ {k next : TokenKind} {u : List Token} {nodes : List Node},
    MayEnd k next → Further next u nodes → Further k u nodes
  | _, _, _, _, .inl rfl, h => h
  | _, _, _, _, .inr rfl, .none _ _ => .none (by decide) (by decide)
  | _, _, _, _, .inr rfl, .alternative hkeyword h hbody hfurther =>
    .alternative hkeyword h (hbody.mayEnd (MayEnd.firstKind (.inr rfl) _))
      (hfurther.mayEnd (.inr rfl))
  | _, _, _, _, .inr rfl, .otherwise hkeyword hbody =>
    .otherwise hkeyword (hbody.mayEnd (.inr rfl))
end

end Ends

variable {n : Nat} {s t : Stream} {e : Error} {k : TokenKind} {label : Label} {u v : List Token}

/-- Where nothing need be put, what is put goes on with the current kind, or the input ends. -/
theorem exists_next {P : List Token → Prop} (h : Completable P s t) (hnil : P []) :
    ∃ u w, s = t.prepend u ∧ P (u ++ w) ∧ MayEnd (firstKind (u ++ w) .eof) s.kind := by
  obtain ⟨u, w, rfl, hw⟩ := h
  cases u with
  | nil => exact ⟨[], [], rfl, hnil, .inr rfl⟩
  | cons tok u => exact ⟨tok :: u, w, rfl, hw, .inl rfl⟩

section Simple

/-- Tokens are a token and an expression after it. -/
def IsMarked (mark : Token) (v : List Token) : Prop :=
  ∃ u a, v = mark :: u ∧ Level.disjunction.Derives u a

/-- Tokens are a statement at the end of the input. -/
def IsStatement (u : List Token) : Prop := ∃ a, Statement .eof u a

theorem lineEnd_eq_error (h : lineEnd s = .error e t) : t = s := by
  unfold lineEnd at h
  rw [kind_bind_apply] at h
  cases hk : s.kind <;> rw [hk] at h <;> cases h <;> rfl

theorem lineEnd_nil : LineEnd .eof [] := .before (.inr rfl)

theorem completable_expression (h : standard.expression .loosest s = .error e t) :
    Completable Level.disjunction.Reads s t := Grammar.completable_of_expression (by decide) h

theorem completable_marked (hs : s.kind ≠ .eof)
    (h : standard.expression .loosest s.advance = .error e t) :
    Completable (IsMarked s.current) s t := by
  refine (completable_expression h).cons hs ?_
  rintro v ⟨a, ha⟩
  exact ⟨v, a, rfl, ha⟩

/-- A type fails in the expression after its mark. -/
theorem completable_optionalType (hk : k ≠ .eof)
    (h : standard.optionalType k label s = .error e t) :
    s.kind = k ∧ Completable (IsMarked s.current) s t := by
  rw [Grammar.optionalType, kind_bind_apply] at h
  split at h
  · rename_i hkind
    have htype := of_leaf_bind_eq_error (EStateM.of_bind_pure_eq_error h)
    exact ⟨hkind, completable_marked (hkind ▸ hk) (EStateM.of_bind_pure_eq_error htype)⟩
  · cases h

theorem completable_optionalValue (h : standard.optionalValue s = .error e t) :
    s.kind = .assignment ∧ Completable (IsMarked s.current) s t := by
  rw [Grammar.optionalValue, kind_bind_apply] at h
  split at h
  · rename_i hkind
    have hvalue := EStateM.of_bind_pure_eq_error (of_leaf_bind_eq_error h)
    exact ⟨hkind, completable_marked (by simp [hkind]) hvalue⟩
  · cases h

theorem completable_parameter (h : standard.parameter s = .error e t) :
    Completable (fun v => ∃ nodes, Parameter v nodes) s t := by
  obtain hname | ⟨name, s₁, hname, hrest⟩ := EStateM.bind_eq_error_iff.1 h
  · obtain rfl := expectLeaf_eq_error hname
    exact .here (w := [.ofKind .identifier]) ⟨_, .mk rfl .absent⟩
  · obtain ⟨hkind, -, rfl⟩ := expectLeaf_eq_ok_iff.1 hname
    obtain ⟨hcolon, htype⟩ :=
      completable_optionalType (by decide) (EStateM.of_bind_pure_eq_error hrest)
    refine htype.cons (by simp [hkind]) ?_
    rintro _ ⟨u, a, rfl, ha⟩
    exact ⟨_, .mk hkind (.present hcolon ha)⟩

theorem completable_parameters (h : items standard.parameter s = .error e t) :
    Completable (fun v => ∃ nodes, Parameters v nodes) s t := by
  refine completable_items (P := fun v => ∃ nodes, Parameter v nodes)
    (fun _ _ _ => length_lt_of_parameter) ?_ ?_ ?_ ?_ (Nat.lt_succ_self _) h
  · intro s nodes t hread
    obtain ⟨u, hu, hparameter⟩ := parameter_sound hread
    exact ⟨u, hu, nodes, hparameter⟩
  · intro s e t _ hfail
    exact completable_parameter hfail
  · rintro u closing ⟨nodes, hu⟩ hclose
    exact ⟨_, .last hu hclose⟩
  · rintro u v comma ⟨nodes, hu⟩ hcomma ⟨more, hv⟩
    exact ⟨_, .more hu hcomma hv⟩

theorem completable_assignmentTo {name : Node} (hnext : Grammar.startsAssignment s.kind = true)
    (h : Grammar.assignmentTo name s = .error e t) :
    Completable (fun v => ∃ nodes, Assigned v nodes) s t := by
  obtain htype | ⟨types, s₁, htype, hrest⟩ := EStateM.bind_eq_error_iff.1 h
  · obtain ⟨hcolon, htype⟩ := completable_optionalType (by decide) htype
    refine htype.mono ?_
    rintro _ ⟨u, a, rfl, ha⟩
    exact ⟨_, .type hcolon ha⟩
  obtain hvalue | ⟨value, s₂, hvalue, hend⟩ := EStateM.bind_eq_error_iff.1 hrest
  · obtain ⟨hassign, hvalue⟩ := completable_optionalValue hvalue
    obtain ⟨u, hu, htypes⟩ := optionalType_sound (by decide) htype
    refine hvalue.prepend hu ?_
    rintro _ ⟨v, b, rfl, hb⟩
    exact ⟨_, .value htypes hassign hb⟩
  · obtain rfl := lineEnd_eq_error (EStateM.of_bind_pure_eq_error hend)
    obtain ⟨u, hu, hassigned⟩ := assigned_sound hnext htype hvalue
    exact ⟨u, [], hu, _, by rwa [List.append_nil]⟩

theorem completable_assignment (hkind : s.kind = .identifier)
    (hnext : Grammar.startsAssignment s.nextKind = true) (h : standard.assignment s = .error e t) :
    Completable IsStatement s t := by
  have hassigned := completable_assignmentTo (s := s.advance) hnext (of_leaf_bind_eq_error h)
  refine hassigned.cons (by simp [hkind]) ?_
  rintro v ⟨nodes, hv⟩
  have hstatement := Statement.assignment hkind hv lineEnd_nil
  rw [List.append_nil] at hstatement
  exact ⟨_, hstatement⟩

theorem completable_expressionStatement (h : standard.expressionStatement s = .error e t) :
    Completable IsStatement s t := by
  have hwhole : ∀ {v a}, Level.disjunction.Derives v a → IsStatement v := by
    intro v a ha
    have hstatement := Statement.expression ha lineEnd_nil
    rw [List.append_nil] at hstatement
    exact ⟨_, hstatement⟩
  obtain hvalue | ⟨value, s₁, hvalue, hend⟩ := EStateM.bind_eq_error_iff.1 h
  · exact (completable_expression hvalue).mono fun v ⟨a, ha⟩ => hwhole ha
  · obtain rfl := lineEnd_eq_error (EStateM.of_bind_pure_eq_error hend)
    obtain ⟨u, hu, ha⟩ := eq_prepend_of_expression hvalue
    exact ⟨u, [], hu, by rw [List.append_nil]; exact hwhole ha⟩

theorem completable_returnStatement (hkind : s.kind = .kwReturn)
    (h : standard.returnStatement s = .error e t) : Completable IsStatement s t := by
  have hs : s.kind ≠ .eof := by simp [hkind]
  have hwhole : ∀ {v a}, Level.disjunction.Derives v a → IsStatement (s.current :: v) := by
    intro v a ha
    have hstatement := Statement.returnValue hkind ha lineEnd_nil
    rw [List.append_nil] at hstatement
    exact ⟨_, hstatement⟩
  have hrest := of_leaf_bind_eq_error h
  rw [kind_bind_apply] at hrest
  split at hrest
  · obtain hpure | ⟨_, _, hpure, hend⟩ := EStateM.bind_eq_error_iff.1 hrest
    · cases hpure
    obtain ⟨rfl, rfl⟩ := EStateM.pure_eq_ok_iff.1 hpure
    obtain rfl := lineEnd_eq_error (EStateM.of_bind_pure_eq_error hend)
    exact ⟨[s.current], [], Stream.eq_prepend_advance hs, _, .returnNone hkind lineEnd_nil⟩
  · obtain hvalue | ⟨a, s₁, hvalue, hend⟩ := EStateM.bind_eq_error_iff.1 hrest
    · exact (completable_expression hvalue).cons hs fun v ⟨a, ha⟩ => hwhole ha
    obtain hpure | ⟨_, _, hpure, hend⟩ := EStateM.bind_eq_error_iff.1 hend
    · cases hpure
    obtain ⟨rfl, rfl⟩ := EStateM.pure_eq_ok_iff.1 hpure
    obtain rfl := lineEnd_eq_error (EStateM.of_bind_pure_eq_error hend)
    obtain ⟨u, hu, ha⟩ := eq_prepend_of_expression hvalue
    refine ⟨s.current :: u, [], Stream.eq_prepend_cons hs hu, ?_⟩
    rw [List.append_nil]
    exact hwhole ha

theorem completable_passStatement (hkind : s.kind = .kwPass)
    (h : Grammar.passStatement s = .error e t) : Completable IsStatement s t := by
  obtain rfl := lineEnd_eq_error (EStateM.of_bind_pure_eq_error (of_leaf_bind_eq_error h))
  exact ⟨[s.current], [], Stream.eq_prepend_advance (by simp [hkind]), _, .pass hkind lineEnd_nil⟩

end Simple

section Nested

/-- Tokens are a body, some lines, or the rest of a conditional at the end of the input. -/
def IsBody (u : List Token) : Prop := ∃ a, Body .eof u a
def AreLines (u : List Token) : Prop := ∃ nodes, Lines .eof u nodes
def IsFurther (u : List Token) : Prop := ∃ nodes, Further .eof u nodes

/-- The shortest body. -/
def shortBody : List Token := [.ofKind .colon, .ofKind .kwPass]

theorem isBody_shortBody : IsBody shortBody := ⟨_, .line rfl (.pass rfl lineEnd_nil)⟩

theorem isFurther_nil : IsFurther [] := ⟨_, .none (by decide) (by decide)⟩

/-- Of less than `n` tokens, those before a failure begin a statement. -/
def CompletableBelow (n : Nat) : Prop := ∀ {s t : Stream} {e : Error}, s.length < n →
  standard.statement s = .error e t → Completable IsStatement s t

theorem completable_blockLine (hbelow : CompletableBelow n) (hs : s.length < n)
    (h : Grammar.blockLine standard.statement s = .error e t) : Completable AreLines s t := by
  rw [Grammar.blockLine, kind_bind_apply] at h
  split at h
  · cases h
  · refine (hbelow hs (EStateM.of_bind_pure_eq_error h)).mono ?_
    rintro v ⟨a, ha⟩
    have hlines := Lines.statement (v := []) ha .nil
    rw [List.append_nil] at hlines
    exact ⟨_, hlines⟩

theorem completable_lines (hbelow : CompletableBelow n) {goesOn : TokenKind → Bool}
    (hs : s.length < n)
    (h : repeatWhile goesOn (Grammar.blockLine standard.statement) s = .error e t) :
    Completable AreLines s t := by
  induction hk : s.length using Nat.strongRecOn generalizing s with
  | ind k ih =>
    rw [repeatWhile_eq fun _ _ _ => Grammar.length_lt_of_blockLine, kind_bind_apply] at h
    split at h
    · obtain hfirst | ⟨first, s₁, hfirst, hrest⟩ := EStateM.bind_eq_error_iff.1 h
      · exact completable_blockLine hbelow hs hfirst
      have hlt := Grammar.length_lt_of_blockLine hfirst
      have hmore := ih _ (by omega) (by omega) (EStateM.of_bind_pure_eq_error hrest) rfl
      obtain ⟨hkind, -, rfl⟩ | ⟨-, a, hread, -⟩ := Grammar.blockLine_eq_ok_iff.1 hfirst
      · refine hmore.cons (by simp [hkind]) ?_
        rintro v ⟨nodes, hv⟩
        exact ⟨_, .blank hkind hv⟩
      · obtain ⟨u, hu, ha⟩ := soundBelow n hs hread
        obtain ⟨v, w, hv, ⟨nodes, hlines⟩, hnext⟩ := exists_next hmore ⟨_, .nil⟩
        refine ⟨u ++ v, w, Stream.eq_prepend_trans hu hv, a :: nodes, ?_⟩
        rw [List.append_assoc]
        exact .statement (ha.mayEnd hnext) hlines
    · cases h

theorem completable_body (hbelow : CompletableBelow n) (hs : s.length ≤ n)
    (h : Grammar.bodyRule standard.statement s = .error e t) : Completable IsBody s t := by
  obtain hfail | ⟨colon, s₁, hread, hrest⟩ := EStateM.bind_eq_error_iff.1 h
  · obtain rfl := expectLeaf_eq_error hfail
    exact .here isBody_shortBody
  obtain ⟨hcolon, -, rfl⟩ := expectLeaf_eq_ok_iff.1 hread
  have hkind : s.kind ≠ .eof := by simp [hcolon]
  have hlt := Stream.length_advance_lt (Stream.atEnd_eq_false_of_kind hkind)
  rw [kind_bind_apply] at hrest
  split at hrest
  · rename_i hnewline
    have hblock : ∀ {u nodes} {indent : Token}, indent.kind = .indent → Lines .eof u nodes →
        IsBody (s.current :: s.advance.current :: indent :: u) := by
      intro u nodes indent hindent hlines
      have hbody := Body.block (v := []) hcolon hnewline hindent hlines (.input rfl)
      rw [List.append_nil] at hbody
      exact ⟨_, hbody⟩
    have hopening : s = s.advance.advance.prepend [s.current, s.advance.current] :=
      Stream.eq_prepend_cons hkind (Stream.eq_prepend_advance (by simp [hnewline]))
    have hindented := of_discard_advance_bind_eq_error hrest
    obtain hfail | ⟨_, s₂, hread, hlines⟩ := EStateM.bind_eq_error_iff.1 hindented
    · obtain rfl := expect_eq_error (EStateM.of_bind_pure_eq_error hfail)
      exact ⟨_, [.ofKind .indent], hopening, hblock rfl .nil⟩
    obtain ⟨_, hread⟩ := discard_eq_ok_iff.1 hread
    obtain ⟨hindent, -, rfl⟩ := expect_eq_ok_iff.1 hread
    have hle := s.advance.advance.advance_within.length_le
    have hle' := s.advance.advance_within.length_le
    obtain hfail | ⟨nodes, s₃, -, hend⟩ :=
      EStateM.bind_eq_error_iff.1 (EStateM.of_bind_pure_eq_error hlines)
    · have hbody : Completable (fun v => IsBody (s.current :: s.advance.current :: v))
          s.advance.advance t := by
        refine (completable_lines hbelow (by omega) hfail).cons (by simp [hindent]) ?_
        rintro v ⟨nodes, hv⟩
        exact hblock hindent hv
      exact hbody.prepend hopening fun _ hv => hv
    · rw [kind_bind_apply] at hend
      split at hend <;> cases hend
  · refine (hbelow (by omega) (EStateM.of_bind_pure_eq_error hrest)).cons hkind ?_
    rintro v ⟨a, ha⟩
    exact ⟨_, .line hcolon ha⟩

/-- A keyword, an expression and a body. -/
def IsGuarded (keyword : Token) (v : List Token) : Prop :=
  ∃ u w a body, v = keyword :: (u ++ w) ∧ Level.disjunction.Derives u a ∧ Body .eof w body

theorem completable_guarded (hbelow : CompletableBelow n) (hs : s.length ≤ n)
    (hkind : s.kind ≠ .eof)
    (h : standard.guarded (Grammar.bodyRule standard.statement) s = .error e t) :
    Completable (IsGuarded s.current) s t := by
  obtain hfail | ⟨a, s₁, hread, hrest⟩ := EStateM.bind_eq_error_iff.1 (of_leaf_bind_eq_error h)
  · obtain ⟨body, hbody⟩ := isBody_shortBody
    refine (completable_marked hkind hfail).close shortBody ?_
    rintro _ ⟨u, a, rfl, ha⟩
    exact ⟨u, shortBody, a, body, rfl, ha, hbody⟩
  · have hlt := Grammar.length_lt_of_expression hread
    have hle := s.advance_within.length_le
    obtain ⟨u, hu, ha⟩ := eq_prepend_of_expression hread
    have hbody := completable_body hbelow (by omega) (EStateM.of_bind_pure_eq_error hrest)
    refine hbody.prepend (Stream.eq_prepend_cons hkind hu) ?_
    rintro w ⟨body, hw⟩
    exact ⟨u, w, a, body, rfl, ha, hw⟩

/-- After a part of a conditional the rest can be completed. -/
theorem completable_alternative (hs : s.length ≤ n) (helif : s.kind = .kwElif) {first : List Node}
    {s₁ : Stream}
    (hfirst : standard.guarded (Grammar.bodyRule standard.statement) s = .ok first s₁)
    (h : Completable IsFurther s₁ t) : Completable IsFurther s t := by
  obtain ⟨u, v, a, body, hu, ha, hbody, -⟩ :=
    guarded_sound (soundBelow n) (by simp [helif]) hs hfirst
  obtain ⟨w, x, hw, ⟨nodes, hfurther⟩, hnext⟩ := exists_next h isFurther_nil
  refine ⟨_, x, Stream.eq_prepend_trans hu hw, ?_⟩
  have hpart := Further.alternative helif ha (hbody.mayEnd hnext) hfurther
  exact ⟨_, by simpa using hpart⟩

theorem completable_alternatives (hbelow : CompletableBelow n) (hs : s.length ≤ n)
    (h : repeatWhile (· = .kwElif) (standard.guarded (Grammar.bodyRule standard.statement)) s =
      .error e t) : Completable IsFurther s t := by
  induction hk : s.length using Nat.strongRecOn generalizing s with
  | ind k ih =>
    rw [repeatWhile_eq fun _ _ _ => length_lt_of_guarded, kind_bind_apply] at h
    split at h
    · rename_i helif
      replace helif : s.kind = .kwElif := by simpa using helif
      obtain hfail | ⟨first, s₁, hfirst, hrest⟩ := EStateM.bind_eq_error_iff.1 h
      · refine (completable_guarded hbelow hs (by simp [helif]) hfail).mono ?_
        rintro _ ⟨u, v, a, body, rfl, ha, hbody⟩
        have hpart := Further.alternative (w := []) helif ha hbody (.none (by decide) (by decide))
        rw [List.append_nil] at hpart
        exact ⟨_, hpart⟩
      · have hlt := length_lt_of_guarded hfirst
        have hmore := ih _ (by omega) (by omega) (EStateM.of_bind_pure_eq_error hrest) rfl
        exact completable_alternative hs helif hfirst hmore
    · cases h

theorem completable_otherwise (hbelow : CompletableBelow n) (hs : s.length ≤ n)
    (h : Grammar.optionalElse (Grammar.bodyRule standard.statement) s = .error e t) :
    Completable IsFurther s t := by
  rw [Grammar.optionalElse, kind_bind_apply] at h
  split at h
  · rename_i helse
    have hle := s.advance_within.length_le
    have hbody := EStateM.of_bind_pure_eq_error (of_leaf_bind_eq_error h)
    refine (completable_body hbelow (by omega) hbody).cons (by simp [helse]) ?_
    rintro v ⟨body, hv⟩
    exact ⟨_, .otherwise helse hv⟩
  · cases h

/-- What is completed after alternatives that have been read. -/
theorem completable_after_alternatives (hs : s.length ≤ n) {alternatives : List Node} {s₁ : Stream}
    (hread : repeatWhile (· = .kwElif) (standard.guarded (Grammar.bodyRule standard.statement)) s =
      .ok alternatives s₁) (h : Completable IsFurther s₁ t) : Completable IsFurther s t := by
  induction hk : s.length using Nat.strongRecOn generalizing s alternatives with
  | ind k ih =>
    obtain ⟨helif, first, s₂, more, hfirst, hmore, -⟩ | ⟨-, -, rfl⟩ :=
      (repeatWhile_eq_ok_iff fun _ _ _ => length_lt_of_guarded).1 hread
    · have hlt := length_lt_of_guarded hfirst
      have hrest := ih _ (by omega) (by omega) hmore rfl
      exact completable_alternative hs (by simpa using helif) hfirst hrest
    · exact h

theorem completable_ifStatement (hbelow : CompletableBelow n) (hs : s.length ≤ n)
    (hkind : s.kind = .kwIf)
    (h : standard.ifStatement (Grammar.bodyRule standard.statement) s = .error e t) :
    Completable IsStatement s t := by
  obtain hfail | ⟨first, s₁, hfirst, hrest⟩ := EStateM.bind_eq_error_iff.1 h
  · refine (completable_guarded hbelow hs (by simp [hkind]) hfail).mono ?_
    rintro _ ⟨u, v, a, body, rfl, ha, hbody⟩
    have hwhole := Statement.conditional (w := []) hkind ha hbody (.none (by decide) (by decide))
    rw [List.append_nil] at hwhole
    exact ⟨_, hwhole⟩
  have hlt := length_lt_of_guarded hfirst
  have hfurther : Completable IsFurther s₁ t := by
    obtain hfail | ⟨alternatives, s₂, hread, hlast⟩ := EStateM.bind_eq_error_iff.1 hrest
    · exact completable_alternatives hbelow (by omega) hfail
    · have hwithin := (Grammar.local_alternatives (Grammar.local_statement n) s₁ (by omega))
      have hle := hwithin.length_le hread
      have hotherwise := EStateM.of_bind_pure_eq_error hlast
      exact completable_after_alternatives (n := n) (by omega) hread
        (completable_otherwise hbelow (by omega) hotherwise)
  obtain ⟨u, v, a, body, hu, ha, hbody, -⟩ :=
    guarded_sound (soundBelow n) (by simp [hkind]) hs hfirst
  obtain ⟨w, x, hw, ⟨nodes, hnodes⟩, hnext⟩ := exists_next hfurther isFurther_nil
  refine ⟨_, x, Stream.eq_prepend_trans hu hw, ?_⟩
  have hwhole := Statement.conditional hkind ha (hbody.mayEnd hnext) hnodes
  exact ⟨_, by simpa using hwhole⟩

/-- A result type and a body. -/
def IsResult (v : List Token) : Prop :=
  ∃ x y types body, v = x ++ y ∧ OptionalType .arrow .arrow x types ∧ Body .eof y body

theorem isResult_shortBody : IsResult shortBody := by
  obtain ⟨body, hbody⟩ := isBody_shortBody
  exact ⟨[], shortBody, [], body, rfl, .absent, hbody⟩

theorem completable_result (hbelow : CompletableBelow n) (hs : s.length ≤ n) {α : Type}
    {f : List Node → Node → α}
    (h : (do
      let types ← standard.optionalType .arrow .arrow
      let body ← Grammar.bodyRule standard.statement
      return f types body) s = .error e t) : Completable IsResult s t := by
  obtain hfail | ⟨types, s₁, hread, hrest⟩ := EStateM.bind_eq_error_iff.1 h
  · obtain ⟨body, hbody⟩ := isBody_shortBody
    obtain ⟨harrow, htype⟩ := completable_optionalType (by decide) hfail
    refine htype.close shortBody ?_
    rintro _ ⟨u, a, rfl, ha⟩
    exact ⟨_, _, _, body, rfl, .present harrow ha, hbody⟩
  · have hle := (Grammar.optionalType_within hread).length_le
    obtain ⟨u, hu, htypes⟩ := optionalType_sound (by decide) hread
    refine (completable_body hbelow (by omega) (EStateM.of_bind_pure_eq_error hrest)).prepend hu ?_
    rintro v ⟨body, hbody⟩
    exact ⟨u, v, types, body, rfl, htypes, hbody⟩

theorem completable_functionDefinition (hbelow : CompletableBelow n) (hs : s.length ≤ n)
    (hkind : s.kind = .kwDef)
    (h : standard.functionDefinition (Grammar.bodyRule standard.statement) s = .error e t) :
    Completable IsStatement s t := by
  have hk : s.kind ≠ .eof := by simp [hkind]
  have hwhole : ∀ (name opening : Token) {v w parameters}, name.kind = .identifier →
      opening.kind = .openParen → Parameters v parameters → IsResult w →
      IsStatement (s.current :: name :: opening :: (v ++ w)) := by
    rintro name opening v _ parameters hname hopening hv ⟨x, y, types, body, rfl, htypes, hbody⟩
    exact ⟨_, .function hkind hname hopening hv htypes hbody⟩
  have hempty : Parameters [.ofKind .closeParen] _ := .close rfl
  obtain hfail | ⟨name, s₁, hread, hrest⟩ := EStateM.bind_eq_error_iff.1 (of_leaf_bind_eq_error h)
  · obtain rfl := expectLeaf_eq_error hfail
    exact ⟨[s.current], _, Stream.eq_prepend_advance hk,
      hwhole (.ofKind .identifier) (.ofKind .openParen) rfl rfl hempty isResult_shortBody⟩
  obtain ⟨hname, -, rfl⟩ := expectLeaf_eq_ok_iff.1 hread
  have hnamed : s = s.advance.advance.prepend [s.current, s.advance.current] :=
    Stream.eq_prepend_cons hk (Stream.eq_prepend_advance (by simp [hname]))
  have hopened : s.advance.advance.kind = .openParen → s = s.advance.advance.advance.prepend
      [s.current, s.advance.current, s.advance.advance.current] := fun hopening =>
    Stream.eq_prepend_cons hk (Stream.eq_prepend_cons (by simp [hname])
      (Stream.eq_prepend_advance (by simp [hopening])))
  obtain hlist | ⟨list, s₂, hlist, hrest⟩ := EStateM.bind_eq_error_iff.1 hrest
  · obtain hfail | ⟨opening, s₂, hread, hitems⟩ := EStateM.bind_eq_error_iff.1 hlist
    · obtain rfl := expectLeaf_eq_error hfail
      exact ⟨[s.current, s.advance.current], _, hnamed,
        hwhole _ (.ofKind .openParen) hname rfl hempty isResult_shortBody⟩
    · obtain ⟨hopening, -, rfl⟩ := expectLeaf_eq_ok_iff.1 hread
      have hparameters := completable_parameters (EStateM.of_bind_pure_eq_error hitems)
      have hsignature : Completable
          (fun v => ∃ u parameters, v = u ++ shortBody ∧ Parameters u parameters) _ t :=
        hparameters.close shortBody fun u ⟨parameters, hu⟩ => ⟨u, parameters, rfl, hu⟩
      refine hsignature.prepend (hopened hopening) ?_
      rintro _ ⟨u, parameters, rfl, hu⟩
      exact hwhole _ _ (v := u) hname hopening hu isResult_shortBody
  · have hle₂ := (Grammar.parameterList_within hlist).length_le
    have hle₁ := s.advance.advance_within.length_le
    have hle := s.advance_within.length_le
    obtain ⟨hopening, nodes, hnodes, -⟩ := Grammar.parameterList_eq_ok_iff.1 hlist
    obtain ⟨u, hu, hparameters⟩ := parameters_sound hnodes
    have hresult := completable_result hbelow (by omega) hrest
    refine hresult.prepend (Stream.eq_prepend_trans (hopened hopening) hu) ?_
    intro w hw
    exact hwhole _ _ hname hopening hparameters hw

theorem completable_statementBy (hbelow : CompletableBelow n) (hs : s.length ≤ n)
    {rule : StatementRule} (hrule : standard.statement? s.kind = some rule)
    (h : standard.statementBy standard.statement rule s = .error e t) :
    Completable IsStatement s t := by
  cases hk : s.kind <;> rw [hk] at hrule <;> cases hrule
  case kwDef => exact completable_functionDefinition hbelow hs hk h
  case kwReturn => exact completable_returnStatement hk h
  case kwWhile =>
    have hfail := EStateM.of_bind_pure_eq_error h
    refine (completable_guarded hbelow hs (by simp [hk]) hfail).mono ?_
    rintro _ ⟨u, v, a, body, rfl, ha, hbody⟩
    exact ⟨_, .loop hk ha hbody⟩
  case kwIf => exact completable_ifStatement hbelow hs hk h
  case kwPass => exact completable_passStatement hk h

theorem completableBelow (n : Nat) : CompletableBelow n := by
  induction n with
  | zero => exact fun hs => absurd hs (Nat.not_lt_zero _)
  | succ n ih =>
    intro s t e hs h
    rw [Grammar.statement_apply] at h
    split at h
    · rename_i rule hrule
      exact completable_statementBy ih (Nat.le_of_lt_succ hs) hrule h
    · split at h
      · rename_i hk
        simp only [Bool.and_eq_true, decide_eq_true_eq] at hk
        exact completable_assignment hk.1 hk.2 h
      · exact completable_expressionStatement h

/-- The tokens before a failure begin a program. -/
theorem completable_of_script (h : standard.script s = .error e t) : Completable AreLines s t :=
  completable_lines (completableBelow _) (Nat.lt_succ_self _) h

end Nested

end Script
end Offside
