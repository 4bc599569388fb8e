import Offside.Proofs.Grammar.Content
import Offside.Proofs.Recognizer.Script

/-! What a recognizer looks at. It sees the kinds of tokens alone, and those only up to the token at
which it stops; and where it refuses, it refuses that token. So a run on one stream is followed by
the run on every stream with the same kinds up to there. The end of the input is never passed. -/
namespace Offside

theorem firstKind_congr {u v : List Token} (h : u.map Token.kind = v.map Token.kind)
    (next : TokenKind) : firstKind u next = firstKind v next := by
  unfold firstKind
  rw [← List.head?_map, h, List.head?_map]

namespace Stream

variable {r s t s' t' : Stream} {u v : List Token}

theorem prepend_cancel (h : t.prepend u = t.prepend v) : u = v :=
  List.append_cancel_right (congrArg Stream.upcoming h)

/-- Only tokens before the end of the input stand between a place of a stream and a later one. -/
def Passes (s t : Stream) : Prop := ∃ u, s = t.prepend u ∧ OfKinds Script.beforeEnd u

theorem Passes.refl (s : Stream) : s.Passes s := ⟨[], rfl, .nil⟩

theorem Passes.trans (hs : s.Passes r) (hr : r.Passes t) : s.Passes t := by
  obtain ⟨u, hu, hukinds⟩ := hs
  obtain ⟨v, hv, hvkinds⟩ := hr
  exact ⟨u ++ v, eq_prepend_trans hu hv, hukinds.append hvkinds⟩

theorem Passes.advance (hs : s.kind ≠ .eof) : s.Passes s.advance :=
  ⟨[s.current], eq_prepend_advance hs, OfKinds.nil.cons rfl (decide_eq_true hs)⟩

/-- The same kinds come up from one place of a stream to another as between two places of another
stream, and at the later places. -/
def SameTo (s t s' t' : Stream) : Prop :=
  ∃ u u', s = t.prepend u ∧ s' = t'.prepend u' ∧ u'.map Token.kind = u.map Token.kind ∧
    t'.kind = t.kind

theorem SameTo.kind_eq (h : s.SameTo t s' t') : s'.kind = s.kind := by
  obtain ⟨u, u', rfl, rfl, hu, ht⟩ := h
  rw [kind_prepend, kind_prepend, ht, firstKind_congr hu]

/-- A place on the way has one that corresponds to it. -/
theorem SameTo.cut (h : s.SameTo t s' t') (hs : s = r.prepend u) (hr : r = t.prepend v) :
    ∃ r', s.SameTo r s' r' ∧ r.SameTo t r' t' := by
  obtain ⟨w, w', hw, rfl, hkinds, ht⟩ := h
  rw [hs, hr, ← prepend_append] at hw
  obtain rfl := prepend_cancel hw
  obtain ⟨u', v', rfl, hu, hv⟩ := List.map_eq_append_iff.1 (hkinds.trans List.map_append)
  have hlater : r.SameTo t (t'.prepend v') t' := ⟨v, v', hr, rfl, hv, ht⟩
  exact ⟨_, ⟨u, u', hs, prepend_append _ _, hu, hlater.kind_eq⟩, hlater⟩

theorem SameTo.eq_of_here (h : s.SameTo s s' t') : s' = t' := by
  obtain ⟨u, u', hu, rfl, hkinds, -⟩ := h
  have hnil : [] = u := prepend_cancel (t := s) hu
  rw [← hnil] at hkinds
  rw [List.map_eq_nil_iff.1 hkinds]
  rfl

theorem SameTo.advance_eq (hs : s.kind ≠ .eof) (h : s.SameTo s.advance s' t') :
    s'.advance = t' := by
  obtain ⟨u, u', hu, rfl, hkinds, -⟩ := h
  have hone := (eq_prepend_advance hs).symm.trans hu
  rw [← prepend_cancel hone] at hkinds
  obtain ⟨tok, rest, rfl, -, hrest⟩ := List.map_eq_cons_iff.1 hkinds
  rw [List.map_eq_nil_iff.1 hrest]
  rfl

end Stream

namespace Recognizer

variable {α β : Type}

/-- An error that refuses the current token. -/
def Refuses (t : Stream) (e : Error) : Prop :=
  e.position = t.position ∧ (e.cause = .unexpectedToken (describe t.current) ∨
    ∃ k : TokenKind, e.cause = .wrongToken t.current.value ("expected " ++ k.name))

/-- A run ends at a place in the same way as another. -/
def Follows (t' : Stream) : EStateM.Result Error Stream α → EStateM.Result Error Stream α → Prop
  | .ok _ _, result => ∃ a, result = .ok a t'
  | .error _ _, result => ∃ e, result = .error e t'

/-- A run ends at a place in the same way as another, and fails for a cause of the same name. -/
def Repeats (t' : Stream) : EStateM.Result Error Stream α → EStateM.Result Error Stream α → Prop
  | .ok _ _, result => ∃ a, result = .ok a t'
  | .error e _, result => ∃ e', result = .error e' t' ∧ e'.cause.name = e.cause.name

theorem Repeats.follows {t' : Stream} {r r' : EStateM.Result Error Stream α}
    (h : Repeats t' r r') : Follows t' r r' := by
  cases r with
  | ok a t => exact h
  | error e t =>
    obtain ⟨e', he', -⟩ := h
    exact ⟨e', he'⟩

/-- A recognizer goes on from a stream or refuses its current token, and another one repeats this on
every stream with the same kinds. -/
structure LocalAt (s : Stream) (x x' : Recognizer α) : Prop where
  passes : s.Passes (rest (x s))
  refuses : ∀ e t, x s = .error e t → Refuses t e
  repeats : ∀ s' t', s.SameTo (rest (x s)) s' t' → Repeats t' (x s) (x' s')

/-- A recognizer is followed by another on every stream of less than `n` tokens. -/
def LocalBelow (n : Nat) (x x' : Recognizer α) : Prop := ∀ s, s.length < n → LocalAt s x x'

variable {n : Nat} {s t : Stream} {x x' y y' : Recognizer α} {f f' : α → Recognizer β} {a a' : α}

theorem LocalAt.follows (h : LocalAt s x x') (s' t' : Stream) (hs : s.SameTo (rest (x s)) s' t') :
    Follows t' (x s) (x' s') := (h.repeats s' t' hs).follows

theorem LocalAt.within (h : LocalAt s x x') : ∃ u, s = (rest (x s)).prepend u := by
  obtain ⟨u, hu, -⟩ := h.passes
  exact ⟨u, hu⟩

theorem LocalAt.within_ok (h : LocalAt s x x') (ha : x s = .ok a t) : ∃ u, s = t.prepend u := by
  have hw := h.within
  rwa [ha] at hw

theorem LocalAt.length_le (h : LocalAt s x x') (ha : x s = .ok a t) : t.length ≤ s.length := by
  obtain ⟨u, rfl⟩ := h.within_ok ha
  rw [Stream.length_prepend]
  exact Nat.le_add_left _ _

/-- What a recognizer does is known by what equal ones do. -/
theorem LocalAt.congr (h : LocalAt s y y') (hx : x s = y s)
    (hx' : ∀ s', s'.kind = s.kind → x' s' = y' s') : LocalAt s x x' := by
  obtain ⟨hpasses, hrefuses, hrepeats⟩ := h
  rw [← hx] at hpasses hrefuses hrepeats
  refine ⟨hpasses, hrefuses, fun s' t' hsame => ?_⟩
  rw [hx' s' hsame.kind_eq]
  exact hrepeats s' t' hsame

theorem LocalAt.bind (hx : LocalAt s x x')
    (hf : ∀ a a' t, x s = .ok a t → LocalAt t (f a) (f' a')) : LocalAt s (x >>= f) (x' >>= f') := by
  cases h : x s with
  | error e t =>
    have hrun := EStateM.bind_apply_of_error (f := f) h
    obtain ⟨hpasses, hrefuses, hrepeats⟩ := hx
    rw [h] at hpasses hrefuses hrepeats
    refine ⟨?_, ?_, ?_⟩ <;> rw [hrun]
    · exact hpasses
    · rintro _ _ ⟨⟩
      exact hrefuses e t rfl
    · intro s' t' hsame
      obtain ⟨e', he', hname⟩ := hrepeats s' t' hsame
      exact ⟨e', EStateM.bind_apply_of_error he', hname⟩
  | ok a t =>
    have hrun := EStateM.bind_apply_of_ok (f := f) h
    obtain ⟨u, hu⟩ := hx.within_ok h
    have hpasses := hx.passes
    have hrepeats := hx.repeats
    rw [h] at hpasses hrepeats
    obtain ⟨v, hv⟩ := (hf a a t h).within
    refine ⟨?_, ?_, ?_⟩ <;> rw [hrun]
    · exact hpasses.trans (hf a a t h).passes
    · exact (hf a a t h).refuses
    · intro s' t' hsame
      obtain ⟨r', hbefore, hafter⟩ := hsame.cut hu hv
      obtain ⟨a', ha'⟩ := hrepeats s' r' hbefore
      rw [EStateM.bind_apply_of_ok ha']
      exact (hf a a' t h).repeats r' t' hafter

theorem LocalBelow.bind (hx : LocalBelow n x x') (hf : ∀ a a', LocalBelow n (f a) (f' a')) :
    LocalBelow n (x >>= f) (x' >>= f') := fun s hs => (hx s hs).bind fun a a' t h =>
  hf a a' t (Nat.lt_of_le_of_lt ((hx s hs).length_le h) hs)

/-- Only the current kind is looked at. -/
theorem LocalAt.kind_bind {f f' : TokenKind → Recognizer β}
    (h : LocalAt s (f s.kind) (f' s.kind)) : LocalAt s (kind >>= f) (kind >>= f') := by
  refine h.congr rfl fun s' hkind => ?_
  rw [kind_bind_apply, hkind]

theorem LocalBelow.kind_bind {f f' : TokenKind → Recognizer β}
    (h : ∀ k, LocalBelow n (f k) (f' k)) : LocalBelow n (kind >>= f) (kind >>= f') :=
  fun s hs => .kind_bind (h s.kind s hs)

theorem LocalBelow.ite {c : Prop} [Decidable c] (hx : LocalBelow n x x') (hy : LocalBelow n y y') :
    LocalBelow n (if c then x else y) (if c then x' else y') := by
  split
  · exact hx
  · exact hy

theorem LocalAt.of_rest_eq (hrest : rest (x s) = s)
    (hrefuses : ∀ e t, x s = .error e t → Refuses t e)
    (hx' : ∀ s', s'.kind = s.kind → Repeats s' (x s) (x' s')) : LocalAt s x x' := by
  refine ⟨by rw [hrest]; exact .refl s, hrefuses, fun s' t' hsame => ?_⟩
  have hkind := hsame.kind_eq
  rw [hrest] at hsame
  obtain rfl := hsame.eq_of_here
  exact hx' s' hkind

theorem LocalAt.pure : LocalAt s (pure a) (pure a') :=
  .of_rest_eq rfl (fun _ _ => nofun) fun _ _ => ⟨a', rfl⟩

theorem LocalAt.unexpected : LocalAt s (unexpected : Recognizer α) unexpected := by
  refine .of_rest_eq rfl ?_ fun _ _ => ⟨_, rfl, rfl⟩
  rintro e t ⟨⟩
  exact ⟨rfl, .inl rfl⟩

theorem LocalAt.advance (hs : s.kind ≠ .eof) : LocalAt s advance advance := by
  refine ⟨.advance hs, fun _ _ => nofun, fun s' t' hsame => ?_⟩
  obtain rfl := hsame.advance_eq hs
  exact ⟨_, rfl⟩

theorem LocalAt.leaf (hs : s.kind ≠ .eof) (label label' : Label) :
    LocalAt s (leaf label) (leaf label') :=
  (LocalAt.advance hs).bind fun _ _ _ _ => .pure

theorem LocalAt.discard (h : LocalAt s x x') : LocalAt s (discard x) (discard x') :=
  h.bind fun _ _ _ _ => .pure

theorem LocalAt.expect {k : TokenKind} (hk : k ≠ .eof) : LocalAt s (expect k) (expect k) := by
  by_cases hkind : s.kind = k
  · refine (LocalAt.advance (hkind ▸ hk)).congr (if_pos hkind) fun s' hs' => ?_
    exact if_pos (hs'.trans hkind)
  · have hrefuse : ∀ s' : Stream, s'.kind = s.kind → Recognizer.expect k s' =
        .error ⟨.wrongToken s'.current.value ("expected " ++ k.name), s'.position⟩ s' :=
      fun s' hs' => if_neg (hs' ▸ hkind)
    refine .of_rest_eq ?_ ?_ ?_
    · rw [hrefuse s rfl]
      rfl
    · intro e t h
      rw [hrefuse s rfl] at h
      cases h
      exact ⟨rfl, .inr ⟨k, rfl⟩⟩
    · intro s' hs'
      rw [hrefuse s rfl, hrefuse s' hs']
      exact ⟨_, rfl, rfl⟩

theorem LocalAt.expectLeaf {k : TokenKind} (hk : k ≠ .eof) (label : Label) :
    LocalAt s (expectLeaf k label) (expectLeaf k label) :=
  (LocalAt.expect hk).bind fun _ _ _ _ => .pure

theorem LocalAt.lineEnd : LocalAt s lineEnd lineEnd := by
  refine .kind_bind ?_
  split
  · rename_i hk
    exact .discard (.advance (by simp [hk]))
  · exact .pure
  · exact .pure
  · exact .unexpected

/-- A rule that reads a token first goes on from shorter streams. -/
theorem LocalAt.leaf_bind {label : Label} {f f' : Node → Recognizer β} (hs : s.kind ≠ .eof)
    (hn : s.length ≤ n) (hf : ∀ node node', LocalBelow n (f node) (f' node')) :
    LocalAt s (Recognizer.leaf label >>= f) (Recognizer.leaf label >>= f') := by
  refine (LocalAt.leaf hs label label).bind fun node node' t h => hf node node' t ?_
  cases h
  have hend := Stream.atEnd_eq_false_of_kind hs
  exact Nat.lt_of_lt_of_le (Stream.length_advance_lt hend) hn

/-- A repetition is followed if its steps are where it goes on. -/
theorem LocalBelow.repeatWhile {goesOn : TokenKind → Bool} {step : Recognizer (List Node)}
    (hstep : ∀ s nodes t, step s = .ok nodes t → t.length < s.length)
    (h : ∀ s, s.length < n → goesOn s.kind = true → LocalAt s step step) :
    LocalBelow n (repeatWhile goesOn step) (repeatWhile goesOn step) := by
  intro s hs
  induction hk : s.length using Nat.strongRecOn generalizing s with
  | ind k ih =>
    rw [repeatWhile_eq hstep]
    refine .kind_bind ?_
    split
    · rename_i hon
      refine (h s hs hon).bind fun nodes _ t ht => ?_
      have hlt := hstep s nodes t ht
      exact (ih t.length (by omega) t (by omega) rfl).bind fun _ _ _ _ => .pure
    · exact .pure

theorem LocalAt.separator : LocalAt s separator separator := by
  refine .kind_bind ?_
  split
  · rename_i hcomma
    exact (LocalAt.leaf (by simp [hcomma]) _ _).bind fun _ _ _ _ => .pure
  · exact .pure
  · exact .unexpected

theorem LocalBelow.items {item : Recognizer (List Node)}
    (hitem : ∀ s nodes t, item s = .ok nodes t → t.length < s.length) (h : LocalBelow n item item) :
    LocalBelow n (items item) (items item) := by
  intro s hs
  induction hk : s.length using Nat.strongRecOn generalizing s with
  | ind k ih =>
    by_cases hclose : s.kind = .closeParen
    · have hread : ∀ s' : Stream, s'.kind = s.kind → Recognizer.items item s' =
          (do return [← Recognizer.leaf .closeParen] : Recognizer (List Node)) s' := by
        intro s' hs'
        rw [items_eq hitem, if_pos (hs'.trans hclose)]
        rfl
      refine LocalAt.congr ?_ (hread s rfl) hread
      exact (LocalAt.leaf (by simp [hclose]) _ _).bind fun _ _ _ _ => .pure
    · have hread : ∀ s' : Stream, s'.kind = s.kind → Recognizer.items item s' = (do
          let first ← item
          let comma ← Recognizer.separator
          return first ++ comma ++ (← Recognizer.items item)) s' := by
        intro s' hs'
        rw [items_eq hitem, if_neg (hs' ▸ hclose)]
      refine LocalAt.congr ?_ (hread s rfl) hread
      refine (h s hs).bind fun first _ t ht => LocalAt.separator.bind fun comma _ r hr => ?_
      have hlt := hitem s first t ht
      have hle := LocalAt.separator.length_le hr
      exact (ih r.length (by omega) r (by omega) rfl).bind fun _ _ _ _ => .pure

end Recognizer

namespace Grammar
open Recognizer

variable {n : Nat} {p q : Power} {s t : Stream} {left left' : Node}

/-- Expressions are followed on streams of less than `n` tokens. -/
def LocalExpressions (n : Nat) : Prop :=
  ∀ p, LocalBelow n (standard.expression p) (standard.expression p)

theorem local_arguments (h : LocalExpressions n) :
    LocalBelow n (items (do return [← standard.expression .loosest]))
      (items (do return [← standard.expression .loosest])) :=
  .items length_lt_of_argument (.bind (h _) fun _ _ _ _ => .pure)

theorem local_continuation (h : LocalExpressions n) (hs : s.length ≤ n) (hkind : s.kind ≠ .eof)
    (q : Power) (rule : OperatorRule) : LocalAt s (continuation standard.expression q rule left)
      (continuation standard.expression q rule left') := by
  cases rule with
  | binary => exact .leaf_bind hkind hs fun _ _ => .bind (h q) fun _ _ _ _ => .pure
  | call => exact .leaf_bind hkind hs fun _ _ => .bind (local_arguments h) fun _ _ _ _ => .pure

theorem kind_ne_eof_of_operator? {k : TokenKind} {entry : Power × OperatorRule}
    (h : standard.operator? k = some entry) : k ≠ .eof := by
  rintro rfl
  cases h

theorem local_continued (h : LocalExpressions n) (p : Power) (left left' : Node) :
    LocalBelow n (standard.continued p left) (standard.continued p left') := by
  intro s hs
  induction hk : s.length using Nat.strongRecOn generalizing s left left' with
  | ind k ih =>
    cases hop : standard.operator? s.kind with
    | none =>
      have hread : ∀ (node : Node) (s' : Stream), s'.kind = s.kind →
          standard.continued p node s' = (pure node : Recognizer Node) s' := by
        intro node s' hs'
        rw [continued_apply, hs', hop]
        rfl
      exact LocalAt.pure.congr (hread left s rfl) (hread left')
    | some entry =>
      obtain ⟨q, rule⟩ := entry
      by_cases hp : p < q
      · have hread : ∀ (node : Node) (s' : Stream), s'.kind = s.kind →
            standard.continued p node s' =
              (continuation standard.expression q rule node >>= standard.continued p) s' := by
          intro node s' hs'
          rw [continued_apply, hs', hop]
          simp only [hp, if_true]
        refine LocalAt.congr ?_ (hread left s rfl) (hread left')
        have hkind := kind_ne_eof_of_operator? hop
        refine (local_continuation h (Nat.le_of_lt hs) hkind q rule).bind fun a a' t ht => ?_
        have hlt := length_lt_of_extension left s a t
          (extension_eq_ok_iff.2 (.inl ⟨q, rule, a, hop, hp, ht, rfl⟩))
        exact ih t.length (by omega) a a' t (by omega) rfl
      · have hread : ∀ (node : Node) (s' : Stream), s'.kind = s.kind →
            standard.continued p node s' = (pure node : Recognizer Node) s' := by
          intro node s' hs'
          rw [continued_apply, hs', hop]
          simp only [hp, if_false]
          rfl
        exact LocalAt.pure.congr (hread left s rfl) (hread left')

theorem local_operand (h : LocalExpressions n) (hs : s.length ≤ n) (hkind : s.kind ≠ .eof)
    (rule : OperandRule) :
    LocalAt s (operand standard.expression rule) (operand standard.expression rule) := by
  cases rule with
  | primary =>
    refine .kind_bind ?_
    split
    · exact .leaf hkind _ _
    · exact .unexpected
  | signed => exact .leaf_bind hkind hs fun _ _ => .bind (h _) fun _ _ _ _ => .pure
  | grouping =>
    refine .leaf_bind hkind hs fun _ _ => .bind (h _) fun _ _ => ?_
    exact .bind (fun _ _ => .expectLeaf (by decide) _) fun _ _ _ _ => .pure

theorem local_expression (n : Nat) : LocalExpressions n := by
  induction n with
  | zero => exact fun _ s hs => absurd hs (Nat.not_lt_zero _)
  | succ n ih =>
    intro p s hs
    cases hrule : standard.operand? s.kind with
    | none =>
      have hread : ∀ s' : Stream, s'.kind = s.kind →
          standard.expression p s' = unexpected s' := by
        intro s' hs'
        rw [expression_apply rfl, hs', hrule]
      exact LocalAt.unexpected.congr (hread s rfl) hread
    | some rule =>
      have hread : ∀ s' : Stream, s'.kind = s.kind → standard.expression p s' =
          (operand standard.expression rule >>= standard.continued p) s' := by
        intro s' hs'
        rw [expression_apply rfl, hs', hrule]
      have hkind : s.kind ≠ .eof := by
        intro hkind
        rw [hkind] at hrule
        cases hrule
      refine LocalAt.congr ?_ (hread s rfl) hread
      refine (local_operand ih (Nat.le_of_lt_succ hs) hkind rule).bind fun a a' t ht => ?_
      have hlt := length_lt_of_operand (Stream.atEnd_eq_false_of_kind hkind) ht
      exact local_continued ih p a a' t (by omega)

end Grammar
end Offside
