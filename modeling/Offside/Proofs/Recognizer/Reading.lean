import Offside.Proofs.Recognizer.Agreement

/-! What the small recognizers read. A stream that some tokens stand before is the view through
which a success is stated: the recognizer takes these tokens away and leaves the rest. -/
namespace Offside

namespace Stream

/-- A stream with more tokens before it. -/
def prepend (u : List Token) (s : Stream) : Stream := { s with upcoming := u ++ s.upcoming }

variable {s t : Stream}

theorem prepend_append (u v : List Token) : s.prepend (u ++ v) = (s.prepend v).prepend u := by
  simp [prepend]

@[simp] theorem kind_prepend_cons (tok : Token) (u : List Token) :
    (s.prepend (tok :: u)).kind = tok.kind := rfl

@[simp] theorem advance_prepend_cons (tok : Token) (u : List Token) :
    (s.prepend (tok :: u)).advance = s.prepend u := rfl

@[simp] theorem length_prepend (u : List Token) : (s.prepend u).length = u.length + s.length := by
  simp [length, prepend]

/-- Before the end a stream is its current token and what comes after it. -/
theorem eq_prepend_advance (h : s.kind ≠ .eof) : s = s.advance.prepend [s.current] := by
  obtain ⟨upcoming, final, hf⟩ := s
  cases upcoming with
  | nil => exact absurd hf h
  | cons tok rest => rfl

theorem eq_prepend_cons {u : List Token} (hk : s.kind ≠ .eof) (h : s.advance = t.prepend u) :
    s = t.prepend (s.current :: u) := by
  have hs := eq_prepend_advance hk
  rw [h, ← prepend_append] at hs
  exact hs

theorem eq_prepend_trans {r : Stream} {u v : List Token} (hr : s = r.prepend u)
    (ht : r = t.prepend v) : s = t.prepend (u ++ v) := by
  rw [hr, ht, prepend_append]

end Stream

namespace Recognizer

variable {s t : Stream}

theorem kind_bind_apply {α : Type} (f : TokenKind → Recognizer α) :
    (kind >>= f) s = f s.kind s := rfl

theorem nextKind_bind_apply {α : Type} (f : TokenKind → Recognizer α) :
    (nextKind >>= f) s = f s.nextKind s := rfl

theorem atEnd_bind_apply {α : Type} (f : Bool → Recognizer α) :
    (atEnd >>= f) s = f s.atEnd s := rfl

theorem leaf_bind_apply {α : Type} {label : Label} (f : Node → Recognizer α) :
    (leaf label >>= f) s = f (.leaf label s.current.span) s.advance := rfl

theorem discard_advance_bind_apply {α : Type} (f : Unit → Recognizer α) :
    (discard advance >>= f) s = f () s.advance := rfl

/-- What is read depends on the current kind. -/
theorem kind_ite_eq_ok_iff {α : Type} {k : TokenKind} {x y : Recognizer α} {a : α} :
    (kind >>= fun l => if l = k then x else y) s = .ok a t ↔
      (s.kind = k ∧ x s = .ok a t) ∨ (s.kind ≠ k ∧ y s = .ok a t) := by
  rw [kind_bind_apply]
  by_cases h : s.kind = k <;> simp [h]

/-- What may be absent is read when its first kind stands there. -/
theorem kind_ite_nil_eq_ok_iff {k : TokenKind} {x : Recognizer (List Node)} {nodes : List Node} :
    (kind >>= fun l => if l = k then x else pure []) s = .ok nodes t ↔
      (s.kind = k ∧ x s = .ok nodes t) ∨ (s.kind ≠ k ∧ nodes = [] ∧ t = s) := by
  rw [kind_ite_eq_ok_iff, EStateM.pure_eq_ok_iff]
  exact or_congr_right (and_congr_right fun _ => and_congr eq_comm eq_comm)

theorem unexpected_ne_ok {α : Type} {a : α} : unexpected s ≠ .ok a t := nofun

theorem advance_eq_ok_iff {tok : Token} :
    advance s = .ok tok t ↔ tok = s.current ∧ t = s.advance := by
  unfold advance
  simp [eq_comm]

theorem discard_eq_ok_iff {α : Type} {x : Recognizer α} {u : Unit} :
    discard x s = .ok u t ↔ ∃ a, x s = .ok a t := by
  rw [show discard x = x >>= fun _ => pure () from rfl, EStateM.bind_eq_ok_iff]
  simp

theorem leaf_eq_ok_iff {label : Label} {n : Node} :
    leaf label s = .ok n t ↔ n = .leaf label s.current.span ∧ t = s.advance := by
  change EStateM.Result.ok _ _ = _ ↔ _
  simp [eq_comm]

theorem expect_eq_ok_iff {k : TokenKind} {tok : Token} :
    expect k s = .ok tok t ↔ s.kind = k ∧ tok = s.current ∧ t = s.advance := by
  unfold expect
  split
  · rename_i h
    simp [h, advance_eq_ok_iff]
  · rename_i h
    simp [h, refuse]

theorem expectLeaf_eq_ok_iff {k : TokenKind} {label : Label} {n : Node} :
    expectLeaf k label s = .ok n t ↔
      s.kind = k ∧ n = .leaf label s.current.span ∧ t = s.advance := by
  simp only [expectLeaf, EStateM.bind_pure_eq_ok_iff, expect_eq_ok_iff]
  constructor
  · rintro ⟨_, ⟨hk, rfl, rfl⟩, rfl⟩
    exact ⟨hk, rfl, rfl⟩
  · rintro ⟨hk, rfl, rfl⟩
    exact ⟨_, ⟨hk, rfl, rfl⟩, rfl⟩

theorem expectLeaf_bind_eq_ok_iff {α : Type} {k : TokenKind} {label : Label}
    {f : Node → Recognizer α} {a : α} : (expectLeaf k label >>= f) s = .ok a t ↔
      s.kind = k ∧ f (.leaf label s.current.span) s.advance = .ok a t := by
  simp only [EStateM.bind_eq_ok_iff, expectLeaf_eq_ok_iff]
  constructor
  · rintro ⟨_, _, ⟨hk, rfl, rfl⟩, h⟩
    exact ⟨hk, h⟩
  · rintro ⟨hk, h⟩
    exact ⟨_, _, ⟨hk, rfl, rfl⟩, h⟩

/-- A statement whose line is over has been read. -/
theorem lineEnd_bind_pure_eq_ok_iff {α : Type} {a b : α} :
    (lineEnd >>= fun _ => pure b) s = .ok a t ↔ lineEnd s = .ok () t ∧ a = b := by
  rw [EStateM.bind_pure_eq_ok_iff]
  constructor
  · rintro ⟨_, h⟩
    exact h
  · exact fun h => ⟨(), h⟩

theorem lineEnd_eq_ok_iff {u : Unit} : lineEnd s = .ok u t ↔
    (s.kind = .newline ∧ t = s.advance) ∨ ((s.kind = .dedent ∨ s.kind = .eof) ∧ t = s) := by
  unfold lineEnd
  rw [kind_bind_apply]
  cases h : s.kind <;>
    simp [discard_eq_ok_iff, advance_eq_ok_iff, unexpected_ne_ok, @eq_comm _ s t]

/-- A repetition is over, or makes a step and goes on. -/
theorem repeatWhile_eq_ok_iff {goesOn : TokenKind → Bool} {step : Recognizer (List Node)}
    {nodes : List Node} (hstep : ∀ s nodes t, step s = .ok nodes t → t.length < s.length) :
    repeatWhile goesOn step s = .ok nodes t ↔
      (goesOn s.kind = true ∧ ∃ first s₁ more, step s = .ok first s₁ ∧
        repeatWhile goesOn step s₁ = .ok more t ∧ nodes = first ++ more) ∨
      (goesOn s.kind = false ∧ nodes = [] ∧ t = s) := by
  conv => lhs; rw [repeatWhile_eq hstep]
  rw [kind_bind_apply]
  cases goesOn s.kind with
  | true =>
    simp only [if_true, EStateM.bind_eq_ok_iff, EStateM.pure_eq_ok_iff, true_and,
      Bool.true_eq_false, false_and, or_false]
    constructor
    · rintro ⟨first, s₁, hf, more, _, hm, rfl, rfl⟩
      exact ⟨first, s₁, more, hf, hm, rfl⟩
    · rintro ⟨first, s₁, more, hf, hm, rfl⟩
      exact ⟨first, s₁, hf, more, t, hm, rfl, rfl⟩
  | false =>
    simp only [Bool.false_eq_true, if_false, EStateM.pure_eq_ok_iff, false_and, false_or, true_and]
    exact and_congr eq_comm eq_comm

end Recognizer
end Offside
