import Offside.Proofs.Success
import Offside.Recognizer

/-! Recursive rules read tokens. Two recognizers agree below a bound if they do the same on every
stream that is shorter and never go back in it. A rule that reads a token before it calls itself
does on streams up to a length what its parts do on shorter ones; so the bounds on nesting and
repetition are never met, and the recursive equations of rules and repetitions hold without them. -/
namespace Offside

namespace Stream

/-- The number of tokens before the final one. -/
def length (s : Stream) : Nat := s.upcoming.length

/-- What is left of a stream after some of its tokens. -/
def Within (t s : Stream) : Prop := t.upcoming <:+ s.upcoming ∧ t.final = s.final

theorem Within.refl (s : Stream) : s.Within s := ⟨List.suffix_refl _, rfl⟩

theorem Within.trans {s t u : Stream} (h : u.Within t) (h' : t.Within s) : u.Within s :=
  ⟨h.1.trans h'.1, h.2.trans h'.2⟩

theorem Within.length_le {s t : Stream} (h : t.Within s) : t.length ≤ s.length := h.1.length_le

theorem advance_within (s : Stream) : s.advance.Within s := ⟨List.tail_suffix _, rfl⟩

theorem length_advance_lt {s : Stream} (h : s.atEnd = false) : s.advance.length < s.length := by
  have hpos : 0 < s.upcoming.length := by
    rw [List.length_pos_iff]
    exact List.isEmpty_eq_false_iff.1 h
  simp only [length, upcoming_advance, List.length_tail]
  omega

theorem atEnd_eq_false_of_kind {s : Stream} (h : s.kind ≠ .eof) : s.atEnd = false := by
  rw [← Bool.not_eq_true]
  exact fun he => h (kind_eq_eof_of_atEnd he)

end Stream

namespace Recognizer

variable {α β : Type}

/-- What is left of the stream after a run, successful or not. -/
def rest : EStateM.Result Error Stream α → Stream
  | .ok _ s | .error _ s => s

/-- Two recognizers do the same on a stream and do not go back in it. -/
def AgreeAt (s : Stream) (r r' : Recognizer α) : Prop := r s = r' s ∧ (rest (r s)).Within s

/-- Two recognizers do the same on every stream of less than `n` tokens. -/
def AgreeBelow (n : Nat) (r r' : Recognizer α) : Prop := ∀ s, s.length < n → AgreeAt s r r'

theorem AgreeAt.bind {s : Stream} {x x' : Recognizer α} {f f' : α → Recognizer β}
    (hx : AgreeAt s x x') (hf : ∀ a t, x s = .ok a t → AgreeAt t (f a) (f' a)) :
    AgreeAt s (x >>= f) (x' >>= f') := by
  obtain ⟨heq, hw⟩ := hx
  change EStateM.bind x f s = EStateM.bind x' f' s ∧ (rest (EStateM.bind x f s)).Within s
  unfold EStateM.bind
  rw [← heq]
  cases h : x s with
  | error e t =>
    rw [h] at hw
    exact ⟨rfl, hw⟩
  | ok a t =>
    rw [h] at hw
    obtain ⟨heq', hw'⟩ := hf a t h
    exact ⟨heq', hw'.trans hw⟩

theorem AgreeBelow.bind {n : Nat} {x x' : Recognizer α} {f f' : α → Recognizer β}
    (hx : AgreeBelow n x x') (hf : ∀ a, AgreeBelow n (f a) (f' a)) :
    AgreeBelow n (x >>= f) (x' >>= f') := by
  intro s hs
  refine (hx s hs).bind fun a t h => hf a t ?_
  have hw := (hx s hs).2
  rw [h] at hw
  exact Nat.lt_of_le_of_lt hw.length_le hs

/-- A recognizer that agrees with itself leaves a part of the stream. -/
theorem within_of_agree {r : Recognizer α} (hr : ∀ n, AgreeBelow n r r) {s t : Stream} {a : α}
    (h : r s = .ok a t) : t.Within s := by
  have hw := (hr (s.length + 1) s (Nat.lt_succ_self _)).2
  rwa [h] at hw

section Steps

variable (s : Stream)

theorem AgreeAt.pure (a : α) : AgreeAt s (pure a) (pure a) := ⟨rfl, .refl s⟩
theorem AgreeAt.kind : AgreeAt s kind kind := ⟨rfl, .refl s⟩
theorem AgreeAt.nextKind : AgreeAt s nextKind nextKind := ⟨rfl, .refl s⟩
theorem AgreeAt.atEnd : AgreeAt s atEnd atEnd := ⟨rfl, .refl s⟩
theorem AgreeAt.advance : AgreeAt s advance advance := ⟨rfl, s.advance_within⟩
theorem AgreeAt.unexpected : AgreeAt s (unexpected : Recognizer α) unexpected := ⟨rfl, .refl s⟩
theorem AgreeAt.leaf (label : Label) : AgreeAt s (leaf label) (leaf label) :=
  ⟨rfl, s.advance_within⟩

theorem AgreeAt.expect (k : TokenKind) : AgreeAt s (expect k) (expect k) := by
  refine ⟨rfl, ?_⟩
  unfold Recognizer.expect
  split
  · exact s.advance_within
  · exact .refl s

theorem AgreeAt.expectLeaf (k : TokenKind) (label : Label) :
    AgreeAt s (expectLeaf k label) (expectLeaf k label) :=
  (AgreeAt.expect s k).bind fun _ t _ => .pure t _

theorem AgreeAt.discard {x : Recognizer α} (h : AgreeAt s x x) :
    AgreeAt s (discard x) (discard x) :=
  h.bind fun _ t _ => .pure t _

theorem AgreeAt.lineEnd : AgreeAt s lineEnd lineEnd := by
  refine (AgreeAt.kind s).bind fun k t _ => ?_
  split
  · exact .discard t (.advance t)
  · exact .pure t ()
  · exact .pure t ()
  · exact .unexpected t

end Steps

/-- A rule that reads a token first may go on with what agrees on shorter streams. -/
theorem AgreeAt.leaf_bind {s : Stream} {n : Nat} {label : Label} {f f' : Node → Recognizer α}
    (hs : s.atEnd = false) (hn : s.length ≤ n) (hf : ∀ node, AgreeBelow n (f node) (f' node)) :
    AgreeAt s (Recognizer.leaf label >>= f) (Recognizer.leaf label >>= f') := by
  refine (AgreeAt.leaf s label).bind fun node t h => hf node t ?_
  cases h
  exact Nat.lt_of_lt_of_le (Stream.length_advance_lt hs) hn

theorem AgreeBelow.ite {n : Nat} {c : Prop} [Decidable c] {x x' y y' : Recognizer α}
    (hx : AgreeBelow n x x') (hy : AgreeBelow n y y') :
    AgreeBelow n (if c then x else y) (if c then x' else y') := by
  split
  · exact hx
  · exact hy

theorem AgreeBelow.repeatWhile {n : Nat} {goesOn : TokenKind → Bool}
    {step step' : Recognizer (List Node)} (h : AgreeBelow n step step') :
    AgreeBelow n (repeatWhile goesOn step) (repeatWhile goesOn step') := by
  have hmost : ∀ k, AgreeBelow n (repeatAtMost goesOn step k) (repeatAtMost goesOn step' k) := by
    intro k
    induction k with
    | zero => exact fun s _ => .pure s []
    | succ k ih =>
      refine .bind (fun s _ => .kind s) fun k => ?_
      refine .ite (.bind h fun nodes => .bind ih fun more => ?_) ?_
      · exact fun s _ => .pure s _
      · exact fun s _ => .pure s _
  exact fun s hs => hmost (s.upcoming.length + 1) s hs

theorem AgreeBelow.extend {n : Nat} {step step' : Node → Recognizer (Option Node)}
    (h : ∀ node, AgreeBelow n (step node) (step' node)) (node : Node) :
    AgreeBelow n (extend step node) (extend step' node) := by
  have hmost : ∀ k node, AgreeBelow n (extendAtMost step k node) (extendAtMost step' k node) := by
    intro k
    induction k with
    | zero => exact fun node s _ => .pure s node
    | succ k ih =>
      intro node
      refine .bind (h node) fun longer => ?_
      cases longer with
      | none => exact fun s _ => .pure s node
      | some longer => exact ih longer
  exact fun s hs => hmost (s.upcoming.length + 1) node s hs

/-- A recursive rule whose parts agree on longer and longer streams obeys its equation. -/
theorem nest_eq {rule : (α → Recognizer β) → α → Recognizer β}
    (hrule : ∀ n f f', (∀ a, AgreeBelow n (f a) (f' a)) →
      ∀ a, AgreeBelow (n + 1) (rule f a) (rule f' a)) (a : α) :
    nest rule a = rule (nest rule) a := by
  have hmost : ∀ k m n, k ≤ m → k ≤ n → ∀ a,
      AgreeBelow k (nestAtMost rule m a) (nestAtMost rule n a) := by
    intro k
    induction k with
    | zero => exact fun m n _ _ a s hs => absurd hs (Nat.not_lt_zero _)
    | succ k ih =>
      intro m n hm hn a
      obtain ⟨m, rfl⟩ := Nat.exists_eq_add_of_le' (Nat.le_trans (Nat.succ_pos k) hm)
      obtain ⟨n, rfl⟩ := Nat.exists_eq_add_of_le' (Nat.le_trans (Nat.succ_pos k) hn)
      exact hrule k _ _ (ih m n (Nat.le_of_succ_le_succ hm) (Nat.le_of_succ_le_succ hn)) a
  have hnest : ∀ k a, AgreeBelow k (nestAtMost rule k a) (nest rule a) := fun k a s hs =>
    hmost (s.length + 1) k (s.length + 1) hs (Nat.le_refl _) a s (Nat.lt_succ_self _)
  funext s
  exact (hrule s.length _ _ (hnest s.length) a s (Nat.lt_succ_self _)).1

theorem nest_agree {rule : (α → Recognizer β) → α → Recognizer β}
    (hrule : ∀ n f f', (∀ a, AgreeBelow n (f a) (f' a)) →
      ∀ a, AgreeBelow (n + 1) (rule f a) (rule f' a)) (n : Nat) (a : α) :
    AgreeBelow n (nest rule a) (nest rule a) := by
  induction n generalizing a with
  | zero => exact fun s hs => absurd hs (Nat.not_lt_zero _)
  | succ n ih =>
    rw [nest_eq hrule]
    exact hrule n _ _ ih a

theorem bind_apply_congr {x x' : Recognizer α} {f f' : α → Recognizer β} {s : Stream}
    (hx : x s = x' s) (hf : ∀ a t, x s = .ok a t → f a t = f' a t) :
    (x >>= f) s = (x' >>= f') s := by
  change EStateM.bind x f s = EStateM.bind x' f' s
  unfold EStateM.bind
  rw [← hx]
  cases h : x s with
  | error e t => rfl
  | ok a t => exact hf a t h

section Repetition

variable {goesOn : TokenKind → Bool} {step : Recognizer (List Node)}
  {longer : Node → Recognizer (Option Node)}

/-- Repetitions whose steps read tokens do not depend on a bound above the number of tokens. -/
theorem repeatAtMost_congr (hstep : ∀ s nodes t, step s = .ok nodes t → t.length < s.length) :
    ∀ {m n : Nat} {s : Stream}, s.length < m → s.length < n →
      repeatAtMost goesOn step m s = repeatAtMost goesOn step n s := by
  intro m
  induction m with
  | zero => exact fun hs => absurd hs (Nat.not_lt_zero _)
  | succ m ih =>
    intro n s hm hn
    obtain ⟨n, rfl⟩ := Nat.exists_eq_add_of_le' (Nat.lt_of_le_of_lt (Nat.zero_le _) hn)
    refine bind_apply_congr rfl fun k t hk => ?_
    cases hk
    split
    · refine bind_apply_congr rfl fun nodes t h => bind_apply_congr ?_ fun _ _ _ => rfl
      have hlt := hstep s nodes t h
      exact ih (by omega) (by omega)
    · rfl

theorem repeatWhile_eq (hstep : ∀ s nodes t, step s = .ok nodes t → t.length < s.length) :
    repeatWhile goesOn step = (do
      if goesOn (← kind) then
        let nodes ← step
        return nodes ++ (← repeatWhile goesOn step)
      else return []) := by
  funext s
  refine bind_apply_congr rfl fun k t hk => ?_
  cases hk
  split
  · refine bind_apply_congr rfl fun nodes t h => bind_apply_congr ?_ fun _ _ _ => rfl
    exact repeatAtMost_congr hstep (hstep s nodes t h) (Nat.lt_succ_self _)
  · rfl

/-- Extensions whose steps read tokens do not depend on a bound above the number of tokens. -/
theorem extendAtMost_congr
    (hstep : ∀ node s l t, longer node s = .ok (some l) t → t.length < s.length) :
    ∀ {m n : Nat} {node : Node} {s : Stream}, s.length < m → s.length < n →
      extendAtMost longer m node s = extendAtMost longer n node s := by
  intro m
  induction m with
  | zero => exact fun hs => absurd hs (Nat.not_lt_zero _)
  | succ m ih =>
    intro n node s hm hn
    obtain ⟨n, rfl⟩ := Nat.exists_eq_add_of_le' (Nat.lt_of_le_of_lt (Nat.zero_le _) hn)
    refine bind_apply_congr rfl fun l t h => ?_
    cases l with
    | none => rfl
    | some l =>
      have hlt := hstep node s l t h
      exact ih (by omega) (by omega)

theorem extend_eq
    (hstep : ∀ node s l t, longer node s = .ok (some l) t → t.length < s.length) (node : Node) :
    extend longer node = (do
      match ← longer node with
      | none => return node
      | some l => extend longer l) := by
  funext s
  refine bind_apply_congr rfl fun l t h => ?_
  cases l with
  | none => rfl
  | some l => exact extendAtMost_congr hstep (hstep node s l t h) (Nat.lt_succ_self _)

end Repetition

end Recognizer
end Offside
