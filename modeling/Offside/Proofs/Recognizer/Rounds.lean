import Mathlib.Logic.Function.Iterate
import Offside.Proofs.Recognizer.Locality

/-! Loops and recursive rules without bounds. A loop is described by its rounds alone; if each round
reads a token, there is a last one, and the repetitions and extensions of recognizers are these
loops. The nesting of a recursive rule is no deeper than there are tokens. -/
namespace Offside
namespace Recognizer

variable {α β : Type} {e : Error} {s t : Stream} {m n : Nat}

/-- The rounds of a loop that carries a value. A round gives the next value, or ends the loop with
the value that it has, or refuses a token. -/
inductive Rounds (round : β → Recognizer (Option β)) :
    Nat → β → Stream → EStateM.Result Error Stream β → Prop
  | done {b s t} : round b s = .ok none t → Rounds round 0 b s (.ok b t)
  | refused {b s e t} : round b s = .error e t → Rounds round 0 b s (.error e t)
  | next {n b b' s t r} : round b s = .ok (some b') t → Rounds round n b' t r →
      Rounds round (n + 1) b s r

/-- A loop whose rounds pass tokens before the end of the input, and at least one where the loop
goes on. -/
structure Consuming (round : β → Recognizer (Option β)) : Prop where
  passes (b : β) (s : Stream) : s.Passes (rest (round b s))
  length_lt {b b' : β} {s t : Stream} : round b s = .ok (some b') t → t.length < s.length

/-- A loop ends with a result, after no more rounds than there are tokens that it passes. -/
def Ends (round : β → Recognizer (Option β)) (b : β) (s : Stream)
    (r : EStateM.Result Error Stream β) : Prop :=
  ∃ n, Rounds round n b s r ∧ n + (rest r).length ≤ s.length

namespace Rounds

variable {round : β → Recognizer (Option β)} {b : β} {r r' : EStateM.Result Error Stream β}

/-- A loop runs in one way. -/
theorem unique (h : Rounds round m b s r) (h' : Rounds round n b s r') : m = n ∧ r = r' := by
  induction h generalizing n with
  | done hround =>
    cases h' with
    | done hround' =>
      cases hround.symm.trans hround'
      exact ⟨rfl, rfl⟩
    | refused hround' => cases hround.symm.trans hround'
    | next hround' _ => cases hround.symm.trans hround'
  | refused hround =>
    cases h' with
    | done hround' => cases hround.symm.trans hround'
    | refused hround' =>
      cases hround.symm.trans hround'
      exact ⟨rfl, rfl⟩
    | next hround' _ => cases hround.symm.trans hround'
  | next hround _ ih =>
    cases h' with
    | done hround' => cases hround.symm.trans hround'
    | refused hround' => cases hround.symm.trans hround'
    | next hround' hmore =>
      cases hround.symm.trans hround'
      obtain ⟨rfl, rfl⟩ := ih hmore
      exact ⟨rfl, rfl⟩

theorem length_le (hround : Consuming round) (h : Rounds round n b s r) :
    n + (rest r).length ≤ s.length := by
  induction h with
  | @done b s t h | @refused b s e t h =>
    obtain ⟨u, hu, -⟩ := hround.passes b s
    rw [h] at hu
    rw [Nat.zero_add, hu, Stream.length_prepend]
    exact Nat.le_add_left _ _
  | next h _ ih =>
    have hlt := hround.length_lt h
    omega

end Rounds

section Loops

variable {round : β → Recognizer (Option β)} {goesOn : TokenKind → Bool}
  {step : Recognizer (List Node)} {acc : List Node}

/-- A loop whose rounds read tokens comes to its last round. -/
theorem Consuming.exists_rounds (hround : Consuming round) (b : β) (s : Stream) :
    ∃ n r, Rounds round n b s r := by
  induction hlength : s.length using Nat.strongRecOn generalizing b s with
  | ind k ih =>
    cases h : round b s with
    | error e t => exact ⟨0, _, .refused h⟩
    | ok next t =>
      cases next with
      | none => exact ⟨0, _, .done h⟩
      | some b' =>
        have hlt := hround.length_lt h
        obtain ⟨n, r, hmore⟩ := ih t.length (hlength ▸ hlt) b' t rfl
        exact ⟨n + 1, r, .next h hmore⟩

theorem Consuming.ends (hround : Consuming round) {b : β} {s : Stream}
    {r : EStateM.Result Error Stream β} (h : ∀ n r', Rounds round n b s r' → r' = r) :
    Ends round b s r := by
  obtain ⟨n, r', hrounds⟩ := hround.exists_rounds b s
  obtain rfl := h n r' hrounds
  exact ⟨n, hrounds, hrounds.length_le hround⟩

/-- A round that collects nodes while the current kind allows it. -/
def collect (goesOn : TokenKind → Bool) (step : Recognizer (List Node)) (acc : List Node) :
    Recognizer (Option (List Node)) := do
  if goesOn (← kind) then return some (acc ++ (← step)) else return none

theorem collect_eq_none_iff :
    collect goesOn step acc s = .ok none t ↔ goesOn s.kind = false ∧ s = t := by
  rw [collect, kind_bind_apply]
  split
  · rename_i hon
    rw [EStateM.bind_pure_eq_ok_iff]
    simp [hon]
  · rename_i hoff
    simp [hoff]

theorem collect_eq_some_iff {acc' : List Node} : collect goesOn step acc s = .ok (some acc') t ↔
    goesOn s.kind = true ∧ ∃ nodes, step s = .ok nodes t ∧ acc' = acc ++ nodes := by
  rw [collect, kind_bind_apply]
  split
  · rename_i hon
    rw [EStateM.bind_pure_eq_ok_iff]
    simp [hon]
  · rename_i hoff
    simp [hoff]

theorem of_collect_eq_error (h : collect goesOn step acc s = .error e t) :
    goesOn s.kind = true ∧ step s = .error e t := by
  rw [collect, kind_bind_apply] at h
  split at h
  · rename_i hon
    exact ⟨hon, EStateM.of_bind_pure_eq_error h⟩
  · cases h

theorem Consuming.collect (hstep : ∀ s : Stream, goesOn s.kind = true → LocalAt s step step)
    (hlt : ∀ s nodes t, step s = .ok nodes t → t.length < s.length) :
    Consuming (collect goesOn step) where
  passes acc s := by
    have hlocal : LocalAt s (Recognizer.collect goesOn step acc)
        (Recognizer.collect goesOn step acc) := by
      refine .kind_bind ?_
      split
      · rename_i hon
        exact (hstep s hon).bind fun _ _ _ _ => .pure
      · exact .pure
    exact hlocal.passes
  length_lt {acc acc' s t} h := by
    obtain ⟨-, nodes, hnodes, -⟩ := collect_eq_some_iff.1 h
    exact hlt s nodes t hnodes

theorem repeatWhile_apply
    (hlt : ∀ s nodes t, step s = .ok nodes t → t.length < s.length) (s : Stream) :
    repeatWhile goesOn step s = if goesOn s.kind then (do
      let nodes ← step
      return nodes ++ (← repeatWhile goesOn step)) s else .ok [] s := by
  conv => lhs; rw [repeatWhile_eq hlt]
  rw [kind_bind_apply]
  split <;> rfl

/-- A repetition is a loop that collects nodes. -/
theorem Rounds.eq_repeatWhile {r : EStateM.Result Error Stream (List Node)}
    (hlt : ∀ s nodes t, step s = .ok nodes t → t.length < s.length)
    (h : Rounds (collect goesOn step) n acc s r) :
    r = (do return acc ++ (← repeatWhile goesOn step) : Recognizer (List Node)) s := by
  induction h with
  | @done acc s t h =>
    obtain ⟨hoff, rfl⟩ := collect_eq_none_iff.1 h
    have hempty : repeatWhile goesOn step s = .ok [] s := by
      rw [repeatWhile_apply hlt, if_neg (by simp [hoff])]
    rw [EStateM.bind_apply_of_ok hempty, List.append_nil]
    rfl
  | @refused acc s e t h =>
    obtain ⟨hon, hfails⟩ := of_collect_eq_error h
    have hrefused : repeatWhile goesOn step s = .error e t := by
      rw [repeatWhile_apply hlt, if_pos hon]
      exact EStateM.bind_apply_of_error hfails
    rw [EStateM.bind_apply_of_error hrefused]
  | @next n acc acc' s t r h _ ih =>
    obtain ⟨hon, nodes, hnodes, rfl⟩ := collect_eq_some_iff.1 h
    have hgoes : repeatWhile goesOn step s =
        (do return nodes ++ (← repeatWhile goesOn step) : Recognizer (List Node)) t := by
      rw [repeatWhile_apply hlt, if_pos hon, EStateM.bind_apply_of_ok hnodes]
    rw [ih]
    cases hmore : repeatWhile goesOn step t with
    | error e u =>
      rw [EStateM.bind_apply_of_error hmore] at hgoes ⊢
      rw [EStateM.bind_apply_of_error hgoes]
    | ok more u =>
      rw [EStateM.bind_apply_of_ok hmore] at hgoes ⊢
      rw [EStateM.bind_apply_of_ok hgoes, List.append_assoc]

theorem ends_repeatWhile (hstep : ∀ s : Stream, goesOn s.kind = true → LocalAt s step step)
    (hlt : ∀ s nodes t, step s = .ok nodes t → t.length < s.length) (s : Stream) :
    Ends (collect goesOn step) [] s (repeatWhile goesOn step s) := by
  refine (Consuming.collect hstep hlt).ends fun n r hrounds => ?_
  rw [hrounds.eq_repeatWhile hlt]
  exact congrFun (id_map (repeatWhile goesOn step)) s

/-- An extension is a loop. -/
theorem Rounds.eq_extend {longer : Node → Recognizer (Option Node)} {node : Node}
    {r : EStateM.Result Error Stream Node}
    (hlt : ∀ node s l t, longer node s = .ok (some l) t → t.length < s.length)
    (h : Rounds longer n node s r) : r = extend longer node s := by
  induction h with
  | done h =>
    rw [extend_eq hlt, EStateM.bind_apply_of_ok h]
    rfl
  | refused h => rw [extend_eq hlt, EStateM.bind_apply_of_error h]
  | next h _ ih => rw [extend_eq hlt, EStateM.bind_apply_of_ok h, ih]

end Loops

/-! ### The nesting of a rule -/

section Nesting

variable {rule : (α → Recognizer β) → α → Recognizer β}

/-- What stands at the bottom of a nested rule is not reached. -/
theorem iterate_agree (hrule : ∀ n f f', (∀ a, AgreeBelow n (f a) (f' a)) →
    ∀ a, AgreeBelow (n + 1) (rule f a) (rule f' a)) (n : Nat) (f f' : α → Recognizer β) (a : α) :
    AgreeBelow n (rule^[n] f a) (rule^[n] f' a) := by
  induction n generalizing a with
  | zero => exact fun s hs => absurd hs (Nat.not_lt_zero _)
  | succ n ih =>
    rw [Function.iterate_succ_apply', Function.iterate_succ_apply']
    exact hrule n _ _ ih a

theorem nestAtMost_eq_iterate (n : Nat) :
    nestAtMost rule n = rule^[n] fun _ => unexpected := by
  induction n with
  | zero => rfl
  | succ n ih =>
    rw [Function.iterate_succ_apply', ← ih]
    rfl

/-- A rule that is nested as deep as there are tokens is nested deep enough. -/
theorem iterate_eq_nest (hrule : ∀ n f f', (∀ a, AgreeBelow n (f a) (f' a)) →
    ∀ a, AgreeBelow (n + 1) (rule f a) (rule f' a)) (hn : s.length < n) (f : α → Recognizer β)
    (a : α) : rule^[n] f a s = nest rule a s := by
  obtain ⟨k, rfl⟩ := Nat.exists_eq_add_of_le hn
  -- The further nesting is only another bottom, which is not reached.
  rw [nest, nestAtMost_eq_iterate, Function.iterate_add_apply]
  exact (iterate_agree hrule _ _ _ a s (Nat.lt_succ_self _)).1

end Nesting
end Recognizer
end Offside
