import Offside.Proofs.Recognizer.FirstRefusal
import Offside.Proofs.Recognizer.Rounds

/-! The recognizer goes forward and comes to an end, whatever tokens it is given. Places in the
input are counted in tokens: a run never goes back, passes no token that closes the input, and moves
on where it succeeds; so all of its loops and recursive rules end. -/
namespace Offside

namespace Stream

variable {s t : Stream} {u : List Token}

/-- The stream after its first `n` tokens. -/
def after (s : Stream) (n : Nat) : Stream := { s with upcoming := s.upcoming.drop n }

theorem after_add (s : Stream) (m n : Nat) : s.after (m + n) = (s.after m).after n := by
  simp [after]

theorem after_length_of_prepend (h : s = t.prepend u) : s.after u.length = t := by
  rw [h]
  simp [after, prepend]

theorem advance_after (s : Stream) (n : Nat) : (s.after n).advance = s.after (n + 1) := by
  simp [after, advance]

theorem current_after (s : Stream) (n : Nat) :
    (s.after n).current = s.upcoming[n]?.getD s.final := by
  rw [current, List.headD_eq_head?_getD, after, List.head?_drop]

theorem nextKind_after (s : Stream) (n : Nat) : (s.after n).nextKind = (s.after (n + 1)).kind := by
  rw [← advance_after]
  rfl

theorem getElem?_tokens_of_lt {n : Nat} (h : n < s.length) : s.tokens[n]? = s.upcoming[n]? :=
  List.getElem?_append_left h

theorem getElem?_upcoming_of_le {n : Nat} (h : s.length ≤ n) : s.upcoming[n]? = none :=
  List.getElem?_eq_none h

theorem getElem?_tokens_length (s : Stream) : s.tokens[s.length]? = some s.final :=
  List.getElem?_concat_length

/-- The current token at a place, which beyond the last one is the last one. -/
theorem getElem?_min_tokens (s : Stream) (n : Nat) :
    s.tokens[min n (s.tokens.length - 1)]? = some (s.after n).current := by
  have hlength : s.tokens.length - 1 = s.length := by simp [tokens, length]
  rw [current_after, hlength]
  by_cases hn : n < s.length
  · rw [Nat.min_eq_left (Nat.le_of_lt hn), getElem?_tokens_of_lt hn, List.getElem?_eq_getElem hn]
    rfl
  · rw [Nat.min_eq_right (Nat.le_of_not_lt hn), getElem?_tokens_length,
      getElem?_upcoming_of_le (Nat.le_of_not_lt hn)]
    rfl

/-- The kind at a place, which beyond the last token is that of the end of the input. -/
theorem kind_after (s : Stream) (n : Nat) :
    (s.after n).kind = (s.tokens[n]?.map Token.kind).getD .eof := by
  rw [kind, current_after]
  obtain hn | rfl | hn := Nat.lt_trichotomy n s.length
  · rw [getElem?_tokens_of_lt hn, List.getElem?_eq_getElem hn]
    rfl
  · rw [getElem?_tokens_length, getElem?_upcoming_of_le (Nat.le_refl _)]
    rfl
  · have htokens : s.tokens[n]? = none := by
      refine List.getElem?_eq_none ?_
      rw [tokens, List.length_append]
      exact hn
    rw [htokens, getElem?_upcoming_of_le (Nat.le_of_lt hn)]
    exact s.kind_final

end Stream

namespace Recognizer

variable {α : Type} {x : Recognizer α} {input : Stream} {pos : Nat}

/-- From a place of the input a recognizer stops at the same place or a later one. No token between
them closes the input, and where it succeeds there is at least one. -/
def Moves (input : Stream) (pos : Nat) (x : Recognizer α) : Prop :=
  ∃ next, pos ≤ next ∧ rest (x (input.after pos)) = input.after next ∧
    (∀ i, pos ≤ i → i < next → ∃ tok, input.tokens[i]? = some tok ∧ tok.kind ≠ .eof) ∧
    ∀ a t, x (input.after pos) = .ok a t → pos < next

theorem moves_of_passes (hpasses : (input.after pos).Passes (rest (x (input.after pos))))
    (hlt : ∀ a t, x (input.after pos) = .ok a t → t.length < (input.after pos).length) :
    Moves input pos x := by
  obtain ⟨u, hu, hkinds⟩ := hpasses
  refine ⟨pos + u.length, Nat.le_add_right _ _, ?_, fun i hle hlt => ?_, fun a t h => ?_⟩
  · rw [Stream.after_add, Stream.after_length_of_prepend hu]
  · have hi : i - pos < u.length := by omega
    have hupcoming : input.upcoming[i]? = some u[i - pos] := by
      have hdrop := congrArg (fun s : Stream => s.upcoming[i - pos]?) hu
      simp only [Stream.after, Stream.prepend, List.getElem?_drop, List.getElem?_append_left hi,
        List.getElem?_eq_getElem hi] at hdrop
      rwa [Nat.add_sub_cancel' hle] at hdrop
    refine ⟨u[i - pos], ?_, of_decide_eq_true (hkinds _ (List.getElem_mem hi))⟩
    rw [Stream.getElem?_tokens_of_lt (List.getElem?_eq_some_iff.1 hupcoming).1, hupcoming]
  · have hshorter := hlt a t h
    rw [h] at hu
    rw [hu, Stream.length_prepend] at hshorter
    change t.length < u.length + t.length at hshorter
    omega

/-- An item of a list in parentheses and its comma. -/
def listed (item : Recognizer (List Node)) : Recognizer (List Node) := do
  let nodes ← item
  return nodes ++ (← separator)

/-- The items of a list are read by a loop. -/
example (item : Recognizer (List Node)) : items item = (do
    let nodes ← repeatWhile (· ≠ .closeParen) (listed item)
    return nodes ++ [← leaf .closeParen]) := rfl

/-- The loop that repeats a step ends. -/
def LoopEnds (goesOn : TokenKind → Bool) (step : Recognizer (List Node)) (s : Stream) : Prop :=
  Ends (collect goesOn step) [] s (repeatWhile goesOn step s)

theorem listed_loopEnds {item : Recognizer (List Node)} (hitem : ∀ s, LocalAt s item item)
    (hlt : ∀ s nodes t, item s = .ok nodes t → t.length < s.length) (s : Stream) :
    LoopEnds (· ≠ .closeParen) (listed item) s := by
  refine ends_repeatWhile (fun s _ => ?_) (fun s nodes t h => ?_) s
  · exact (hitem s).bind fun _ _ _ _ => LocalAt.separator.bind fun _ _ _ _ => .pure
  · obtain ⟨first, r, hfirst, hmore⟩ := EStateM.bind_eq_ok_iff.1 h
    obtain ⟨comma, hcomma, -⟩ := EStateM.bind_pure_eq_ok_iff.1 hmore
    exact Nat.lt_of_le_of_lt (LocalAt.separator.length_le hcomma) (hlt s first r hfirst)

end Recognizer

namespace Grammar
open Recognizer

variable {s t : Stream} {a : Node} {p : Power} {left : Node}

theorem localAt_expression (p : Power) (s : Stream) :
    LocalAt s (standard.expression p) (standard.expression p) :=
  local_expression _ p s (Nat.lt_succ_self _)

theorem localAt_statement (s : Stream) : LocalAt s standard.statement standard.statement :=
  local_statement _ s (Nat.lt_succ_self _)

theorem localAt_body (s : Stream) : LocalAt s standard.body standard.body :=
  local_body (local_statement _) s (Nat.lt_succ_self _)

theorem localAt_blockLine (s : Stream) :
    LocalAt s (blockLine standard.statement) (blockLine standard.statement) :=
  local_blockLine (local_statement _) s (Nat.lt_succ_self _)

/-- A body has at least its colon. -/
theorem length_lt_of_body (h : standard.body s = .ok a t) : t.length < s.length := by
  obtain ⟨hcolon, hbody⟩ := bodyRule_eq_ok_iff.1 h
  have hlt := Stream.length_advance_lt (s := s) (Stream.atEnd_eq_false_of_kind (by simp [hcolon]))
  refine Nat.lt_of_le_of_lt (Stream.Within.length_le ?_) hlt
  obtain ⟨-, -, nodes, hblock, -⟩ | ⟨-, only, honly, -⟩ := hbody
  · have hwithin := within_of_agree (fun n => agree_block (agree_statement rfl n)) hblock
    exact hwithin.trans ((Stream.advance_within _).trans (Stream.advance_within _))
  · exact within_of_agree (agree_statement rfl) honly

theorem consuming_extension (p : Power) :
    Consuming (standard.extension standard.expression p) where
  passes left s := by
    have hlocal : LocalAt s (standard.extension standard.expression p left)
        (standard.extension standard.expression p left) := by
      refine .kind_bind ?_
      split
      · exact .pure
      · rename_i next rule hop
        split
        · have hkind := kind_ne_eof_of_operator? hop
          refine LocalAt.bind ?_ fun _ _ _ _ => .pure
          exact local_continuation (local_expression _) (Nat.le_refl _) hkind next rule
        · exact .pure
    exact hlocal.passes
  length_lt h := length_lt_of_extension _ _ _ _ h

/-- The loops and the recursive rules that can run from a stream come to an end. A rule that is
nested deeper than there are tokens does the same whatever stands at the bottom. -/
structure Terminates (s : Stream) : Prop where
  script : LoopEnds (· ≠ .eof) (blockLine standard.statement) s
  block : LoopEnds inBlock (blockLine standard.statement) s
  arguments : LoopEnds (· ≠ .closeParen) (listed do return [← standard.expression .loosest]) s
  parameters : LoopEnds (· ≠ .closeParen) (listed standard.parameter) s
  alternatives : LoopEnds (· = .kwElif) (standard.guarded standard.body) s
  operators (p : Power) (left : Node) :
    Ends (standard.extension standard.expression p) left s
      (extend (standard.extension standard.expression p) left s)
  expression (p : Power) (n : Nat) (bottom : Power → Recognizer Node) :
    s.length < n → standard.expressionRule^[n] bottom p s = standard.expression p s
  statement (n : Nat) (bottom : Unit → Recognizer Node) :
    s.length < n → standard.statementRule^[n] bottom () s = standard.statement s

theorem terminates (s : Stream) : Terminates s where
  script := ends_repeatWhile (fun s _ => localAt_blockLine s) (fun _ _ _ => length_lt_of_blockLine) s
  block := ends_repeatWhile (fun s _ => localAt_blockLine s) (fun _ _ _ => length_lt_of_blockLine) s
  arguments := by
    refine listed_loopEnds (fun s => ?_) length_lt_of_argument s
    exact (localAt_expression _ s).bind fun _ _ _ _ => .pure
  parameters := by
    refine listed_loopEnds (fun s => ?_) (fun _ _ _ => Script.length_lt_of_parameter) s
    refine (LocalAt.expectLeaf (by decide) _).bind fun _ _ t _ => ?_
    refine LocalAt.bind ?_ fun _ _ _ _ => .pure
    exact local_optionalType (by decide) _ _ t (Nat.lt_succ_self _)
  alternatives := by
    refine ends_repeatWhile (fun s helif => ?_) (fun _ _ _ => Script.length_lt_of_guarded) s
    replace helif : s.kind = .kwElif := of_decide_eq_true helif
    exact local_guarded (local_statement _) (Nat.le_refl _) (by simp [helif])
  operators p left :=
    (consuming_extension p).ends fun n r hrounds => hrounds.eq_extend length_lt_of_extension
  expression p n bottom hn := iterate_eq_nest (fun _ _ _ h => agree_expressionRule h) hn bottom p
  statement n bottom hn :=
    iterate_eq_nest (fun _ _ _ h => agree_statementRule rfl h) hn bottom ()

end Grammar

open Recognizer Grammar

/-- The recognizer always goes forward and comes to an end. For all tokens, with the one that closes
the input, and at every place among them: the current token and its kind agree; an expression, a
statement and a body stop where they start or later, pass no token that closes the input, and at
least one token where they succeed; and every loop and every recursive rule ends. -/
theorem recognizer_progress (file : String) (tokens : List Token) (pos : Nat) :
    let input := Stream.ofTokens file tokens
    let all := closed file tokens
    input.tokens = all ∧
    (∃ tok, all[min pos (all.length - 1)]? = some tok ∧ (input.after pos).current = tok ∧
      (all[pos]?.map Token.kind).getD .eof = tok.kind ∧ (input.after pos).kind = tok.kind) ∧
    (input.after pos).nextKind = (all[pos + 1]?.map Token.kind).getD .eof ∧
    (input.after pos).advance = input.after (pos + 1) ∧
    (∀ p, Moves input pos (standard.expression p)) ∧
    Moves input pos standard.statement ∧
    Moves input pos standard.body ∧
    Terminates (input.after pos) := by
  intro input all
  have htokens : input.tokens = all := Stream.tokens_ofTokens file tokens
  rw [← htokens]
  refine ⟨rfl, ⟨_, input.getElem?_min_tokens pos, rfl, (input.kind_after pos).symm, rfl⟩, ?_,
    input.advance_after pos, fun p => ?_, ?_, ?_, terminates _⟩
  · rw [Stream.nextKind_after, Stream.kind_after]
  · exact moves_of_passes (localAt_expression p _).passes fun _ _ => length_lt_of_expression
  · exact moves_of_passes (localAt_statement _).passes fun _ _ => length_lt_of_statement
  · exact moves_of_passes (localAt_body _).passes fun _ _ => length_lt_of_body

end Offside
