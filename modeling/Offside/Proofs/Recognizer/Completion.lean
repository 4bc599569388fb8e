import Offside.Proofs.Recognizer.Locality

/-! A recognizer of expressions that fails has read the beginning of an expression. Whatever is
still missing can be put after it: a name for an operand, a parenthesis to close what is open. -/
namespace Offside

/-- A token of a kind, as it may be put where one is missing. -/
def Token.ofKind (k : TokenKind) : Token := ⟨k, "", .point .nowhere⟩

@[simp] theorem Token.kind_ofKind (k : TokenKind) : (ofKind k).kind = k := rfl

/-- What leads from one place of a stream to another can be completed to tokens with a property. -/
def Completable (P : List Token → Prop) (s t : Stream) : Prop := ∃ u w, s = t.prepend u ∧ P (u ++ w)

namespace Completable

variable {P Q : List Token → Prop} {r s t : Stream} {v w : List Token}

theorem here (h : P w) : Completable P s s := ⟨[], w, rfl, h⟩

/-- Complete tokens may be read before what is completed. -/
theorem prepend (h : Completable P r t) (hs : s = r.prepend v) (hP : ∀ w, P w → Q (v ++ w)) :
    Completable Q s t := by
  obtain ⟨u, w, hr, hw⟩ := h
  refine ⟨v ++ u, w, Stream.eq_prepend_trans hs hr, ?_⟩
  rw [List.append_assoc]
  exact hP _ hw

theorem cons (h : Completable P s.advance t) (hs : s.kind ≠ .eof)
    (hP : ∀ w, P w → Q (s.current :: w)) : Completable Q s t :=
  h.prepend (Stream.eq_prepend_advance hs) hP

/-- More may be put after what completes some tokens. -/
theorem close (h : Completable P s t) (w : List Token) (hP : ∀ v, P v → Q (v ++ w)) :
    Completable Q s t := by
  obtain ⟨u, v, hs, hv⟩ := h
  refine ⟨u, v ++ w, hs, ?_⟩
  rw [← List.append_assoc]
  exact hP _ hv

theorem mono (h : Completable P s t) (hP : ∀ v, P v → Q v) : Completable Q s t := by
  obtain ⟨u, w, hs, hw⟩ := h
  exact ⟨u, w, hs, hP _ hw⟩

end Completable

namespace Recognizer

variable {s t : Stream} {e : Error}

/-- A leaf does not fail. -/
theorem of_leaf_bind_eq_error {α : Type} {label : Label} {f : Node → Recognizer α}
    (h : (leaf label >>= f) s = .error e t) :
    f (.leaf label s.current.span) s.advance = .error e t := h

theorem of_discard_advance_bind_eq_error {α : Type} {f : Unit → Recognizer α}
    (h : (discard advance >>= f) s = .error e t) : f () s.advance = .error e t := h

theorem expect_eq_error {k : TokenKind} (h : expect k s = .error e t) : t = s := by
  unfold expect at h
  split at h
  · cases h
  · cases h
    rfl

theorem expectLeaf_eq_error {k : TokenKind} {label : Label}
    (h : expectLeaf k label s = .error e t) : t = s :=
  expect_eq_error (EStateM.of_bind_pure_eq_error h)

theorem separator_eq_error {e : Error} (h : separator s = .error e t) : t = s := by
  unfold separator at h
  rw [kind_bind_apply] at h
  cases hk : s.kind <;> rw [hk] at h <;> cases h <;> rfl

/-- A list in parentheses that fails can be completed if its items can. -/
theorem completable_items {n : Nat} {item : Recognizer (List Node)} {P R : List Token → Prop}
    (hitem : ∀ s nodes t, item s = .ok nodes t → t.length < s.length)
    (hread : ∀ {s nodes t}, item s = .ok nodes t → ∃ u, s = t.prepend u ∧ P u)
    (hfail : ∀ {s e t}, s.length < n → item s = .error e t → Completable P s t)
    (hlast : ∀ {u} {closing : Token}, P u → closing.kind = .closeParen → R (u ++ [closing]))
    (hmore : ∀ {u v} {comma : Token}, P u → comma.kind = .comma → R v → R (u ++ comma :: v))
    (hs : s.length < n) (h : items item s = .error e t) : Completable R s t := by
  induction hk : s.length using Nat.strongRecOn generalizing s with
  | ind k ih =>
    rw [items_eq hitem] at h
    split at h
    · cases h
    obtain hfirst | ⟨first, s₁, hfirst, hrest⟩ := EStateM.bind_eq_error_iff.1 h
    · exact (hfail hs hfirst).close [.ofKind .closeParen] fun v hv => hlast hv rfl
    have hlt := hitem _ _ _ hfirst
    obtain ⟨u, hu, hP⟩ := hread hfirst
    obtain hseparator | ⟨comma, s₂, hcomma, htail⟩ := EStateM.bind_eq_error_iff.1 hrest
    · obtain rfl := separator_eq_error hseparator
      exact ⟨u, [.ofKind .closeParen], hu, hlast hP rfl⟩
    have hitems := EStateM.of_bind_pure_eq_error htail
    obtain ⟨hkind, -, rfl⟩ | ⟨hkind, -, rfl⟩ := separator_eq_ok_iff.1 hcomma
    · have hle := s₁.advance_within.length_le
      have hlist : Completable (fun v => R (u ++ v)) s₁ t :=
        (ih _ (by omega) (by omega) hitems rfl).cons (by simp [hkind])
          fun v hv => hmore hP hkind hv
      exact hlist.prepend hu fun _ hv => hv
    · rw [items_eq hitem, if_pos hkind] at hitems
      cases hitems

end Recognizer

namespace Level

variable {l m : Level} {u v : List Token}

/-- Tokens are an expression of a level. -/
def Reads (l : Level) (u : List Token) : Prop := ∃ a, l.Derives u a

theorem Reads.loosen (h : m.Reads u) (hlm : l.rank ≤ m.rank) : l.Reads u := by
  obtain ⟨a, ha⟩ := h
  exact ⟨a, ha.loosen hlm⟩

/-- A name is an expression. -/
theorem reads_name (l : Level) : l.Reads [.ofKind .identifier] := by
  have hname : atom.Derives [.ofKind .identifier] _ := .atom .identifier
  exact ⟨_, hname.loosen (by cases l <;> decide)⟩

end Level

namespace Grammar
open Recognizer

variable {n : Nat} {p q : Power} {s t : Stream} {e : Error} {left : Node}

/-- Of less than `n` tokens, those before a failure begin an expression. -/
def CompletableBelow (n : Nat) : Prop := ∀ {p : Power} {s t : Stream} {e : Error}, p ≤ .sign →
  s.length < n → standard.expression p s = .error e t → Completable (Level.operand p).Reads s t

theorem completable_arguments (hbelow : CompletableBelow n) (hs : s.length < n)
    (h : items (do return [← standard.expression .loosest]) s = .error e t) :
    Completable (fun v => ∃ nodes, Level.Arguments v nodes) s t := by
  refine completable_items (P := Level.disjunction.Reads) length_lt_of_argument ?_ ?_ ?_ ?_ hs h
  · intro s nodes t hread
    obtain ⟨a, hread, -⟩ := argument_eq_ok_iff.1 hread
    obtain ⟨u, hu, ha⟩ := Script.eq_prepend_of_expression hread
    exact ⟨u, hu, a, ha⟩
  · intro s e t hs hfail
    exact hbelow (by decide) hs (EStateM.of_bind_pure_eq_error hfail)
  · rintro u closing ⟨a, ha⟩ hclose
    exact ⟨_, .last ha hclose⟩
  · rintro u v comma ⟨a, ha⟩ hcomma ⟨nodes, hv⟩
    exact ⟨_, .more ha hcomma hv⟩

/-- What fails after a left operand begins a longer expression of the level of the operator. -/
theorem completable_continuation (hbelow : CompletableBelow n) (hs : s.length < n) {l : Level}
    {rule : OperatorRule} {u : List Token} (hleft : l.Derives u left)
    (hop : standard.operator? s.kind = some (q, rule)) (hq : q ≤ l.power)
    (h : continuation standard.expression q rule left s = .error e t) :
    Completable (fun v => ∃ m : Level, q = m.power ∧ m.Reads (u ++ v)) s t := by
  have hkind := kind_ne_eof_of_operator? hop
  have hlt := Stream.length_advance_lt (Stream.atEnd_eq_false_of_kind hkind)
  obtain ⟨rfl, m, hm, rfl⟩ | ⟨rfl, hparen, rfl⟩ := operator?_cases hop
  · have hright := EStateM.of_bind_pure_eq_error (of_leaf_bind_eq_error h)
    obtain ⟨hsign, hml⟩ := Level.le_of_mem_operators hm hq
    refine (hbelow hsign (Nat.lt_trans hlt hs) hright).cons hkind ?_
    rintro v ⟨b, hb⟩
    exact ⟨m, rfl, _, .operation (Level.operand_power hm) hm (hleft.loosen hml) hb⟩
  · have hitems := EStateM.of_bind_pure_eq_error (of_leaf_bind_eq_error h)
    refine (completable_arguments hbelow (Nat.lt_trans hlt hs) hitems).cons hkind ?_
    rintro v ⟨nodes, hv⟩
    exact ⟨.invocation, rfl, _, .call (hleft.loosen (Level.invocation_le_of_call hq)) hparen hv⟩

/-- What fails after a left operand begins a longer expression. -/
theorem completable_continued (hbelow : CompletableBelow n) (hp : p ≤ .sign) (hs : s.length < n)
    {l : Level} {u : List Token} (hleft : l.Derives u left)
    (hl : (Level.operand p).rank ≤ l.rank) (hnext : ¬ standard.Continues l.power s.kind)
    (h : standard.continued p left s = .error e t) :
    Completable (fun v => (Level.operand p).Reads (u ++ v)) s t := by
  induction hk : s.length using Nat.strongRecOn generalizing s l u left with
  | ind k ih =>
    rw [continued_apply] at h
    cases hop : standard.operator? s.kind with
    | none =>
      rw [hop] at h
      cases h
    | some entry =>
      obtain ⟨q, rule⟩ := entry
      rw [hop] at h
      simp only at h
      split at h
      · rename_i hpq
        have hq : q ≤ l.power := Nat.le_of_not_lt fun hlq => hnext ⟨q, rule, hop, hlq⟩
        have hrank : ∀ {m : Level}, q = m.power → (Level.operand p).rank ≤ m.rank := by
          rintro m rfl
          change p.rank < m.power.rank at hpq
          rw [Level.rank_power] at hpq
          rw [Level.rank_operand hp]
          omega
        obtain hfail | ⟨longer, s₁, hlonger, hrest⟩ := EStateM.bind_eq_error_iff.1 h
        · refine (completable_continuation hbelow hs hleft hop hq hfail).mono ?_
          rintro v ⟨m, hm, hv⟩
          exact hv.loosen (hrank hm)
        · obtain ⟨m, v, hv, hlonger, hm, hnext⟩ :=
            continuation_of_soundBelow (soundBelow n) hs hleft hop hq hlonger
          have hlen := congrArg Stream.length hv
          rw [Stream.length_prepend, List.length_cons] at hlen
          rw [hm] at hnext
          refine (ih _ (by omega) (by omega) hlonger (hrank hm) hnext hrest rfl).prepend hv ?_
          intro w hw
          rwa [List.append_assoc] at hw
      · cases h

theorem completable_operand (hbelow : CompletableBelow n) {rule : OperandRule} (hs : s.length ≤ n)
    (hrule : standard.operand? s.kind = some rule)
    (h : operand standard.expression rule s = .error e t) :
    Completable (fun v => ∃ l : Level, Level.sign.rank ≤ l.rank ∧ l.Reads v) s t := by
  have hkind : s.kind ≠ .eof := by
    intro hkind
    rw [hkind] at hrule
    cases hrule
  have hlt := Stream.length_advance_lt (Stream.atEnd_eq_false_of_kind hkind)
  obtain ⟨rfl, label, hlabel⟩ | ⟨rfl, hsign⟩ | ⟨rfl, hparen⟩ := operand?_cases hrule
  · rw [operand, primary, kind_bind_apply, primaryLabel?_eq_some_iff.2 hlabel] at h
    cases h
  · have hinner := EStateM.of_bind_pure_eq_error (of_leaf_bind_eq_error h)
    refine (hbelow (by decide) (Nat.lt_of_lt_of_le hlt hs) hinner).cons hkind ?_
    rintro v ⟨b, hb⟩
    exact ⟨.sign, Nat.le_refl _, _, .signed hsign hb⟩
  · have hgroup : ∀ {v a} {closing : Token}, Level.disjunction.Derives v a →
        closing.kind = .closeParen → ∃ l : Level, Level.sign.rank ≤ l.rank ∧
          l.Reads (s.current :: (v ++ [closing])) := fun ha hclose =>
      ⟨.atom, by decide, _, .grouping hparen ha hclose⟩
    obtain hinner | ⟨b, s₁, hread, hrest⟩ := EStateM.bind_eq_error_iff.1 (of_leaf_bind_eq_error h)
    · have hclosed := (hbelow (by decide) (Nat.lt_of_lt_of_le hlt hs) hinner).cons hkind
        (Q := fun v => ∃ u a, v = s.current :: u ∧ Level.disjunction.Derives u a)
        fun v hv => ⟨v, hv.choose, rfl, hv.choose_spec⟩
      refine hclosed.close [.ofKind .closeParen] ?_
      rintro _ ⟨v, a, rfl, ha⟩
      exact hgroup ha rfl
    · obtain ⟨u, hu, hb⟩ := Script.eq_prepend_of_expression hread
      obtain rfl := expectLeaf_eq_error (EStateM.of_bind_pure_eq_error hrest)
      exact ⟨s.current :: u, [.ofKind .closeParen], Stream.eq_prepend_cons hkind hu, hgroup hb rfl⟩

theorem completableBelow (n : Nat) : CompletableBelow n := by
  induction n with
  | zero => exact fun _ hs => absurd hs (Nat.not_lt_zero _)
  | succ n ih =>
    intro p s t e hp hs h
    rw [expression_apply rfl] at h
    cases hrule : standard.operand? s.kind with
    | none =>
      rw [hrule] at h
      cases h
      exact .here (Level.reads_name _)
    | some rule =>
      have hrank : ∀ {l : Level}, Level.sign.rank ≤ l.rank → (Level.operand p).rank ≤ l.rank := by
        intro l hl
        have : Level.sign.rank = 5 := rfl
        rw [Level.rank_operand hp]
        omega
      rw [hrule] at h
      obtain hfail | ⟨left, s₁, hleft, hrest⟩ := EStateM.bind_eq_error_iff.1 h
      · refine (completable_operand ih (Nat.le_of_lt_succ hs) hrule hfail).mono ?_
        rintro v ⟨l, hl, hv⟩
        exact hv.loosen (hrank hl)
      · have hend : s.atEnd = false := by
          refine Stream.atEnd_eq_false_of_kind fun hkind => ?_
          rw [hkind] at hrule
          cases hrule
        have hlt := length_lt_of_operand hend hleft
        obtain ⟨l, u, hu, hl, hsign, hnext⟩ :=
          operand_of_soundBelow (soundBelow n) (Nat.le_of_lt_succ hs) hend hrule hleft
        have hrest := completable_continued ih hp (by omega) hl (hrank hsign) hnext hrest
        exact hrest.prepend hu fun _ hv => hv

/-- The tokens before a failure begin an expression. -/
theorem completable_of_expression (hp : p ≤ .sign) (h : standard.expression p s = .error e t) :
    Completable (Level.operand p).Reads s t :=
  completableBelow (s.length + 1) hp (Nat.lt_succ_self _) h

end Grammar
end Offside
