import Offside.Proofs.Grammar.Content
import Offside.Proofs.Recognizer.Script

/-! The recognizer of programs reads exactly the scripts of the grammar, whatever tokens it is given.
Tokens after the first one that closes the input do not matter, and where none does, the input ends
after the last token. -/
namespace Offside

/-- The tokens of an input, which are those before the first one that closes it. -/
def beforeEnd (tokens : List Token) : List Token :=
  tokens.takeWhile fun tok => Script.beforeEnd tok.kind

/-- The tokens from the first one on that closes the input. -/
def fromEnd (tokens : List Token) : List Token :=
  tokens.dropWhile fun tok => Script.beforeEnd tok.kind

/-- Where an input ends: at the first token that closes it, or else after its last token. -/
def endPosition (file : String) (tokens : List Token) : Position :=
  match fromEnd tokens with
  | tok :: _ => tok.span.start
  | [] => (tokens.getLast?.map (·.span.stop)).getD ⟨0, file⟩

theorem beforeEnd_append_fromEnd (tokens : List Token) :
    beforeEnd tokens ++ fromEnd tokens = tokens := List.takeWhile_append_dropWhile

theorem ofKinds_beforeEnd (tokens : List Token) :
    OfKinds Script.beforeEnd (beforeEnd tokens) := List.all_eq_true.1 List.all_takeWhile

theorem firstKind_fromEnd (tokens : List Token) : firstKind (fromEnd tokens) .eof = .eof := by
  have h := List.head?_dropWhile_not (fun tok : Token => Script.beforeEnd tok.kind) tokens
  unfold firstKind fromEnd
  split at h
  · rename_i tok htok
    rw [htok]
    simpa [Script.beforeEnd] using h
  · rename_i hnone
    rw [hnone]
    rfl

/-- The tokens of an input are known by where it ends. -/
theorem beforeEnd_append {u v : List Token} (hu : OfKinds Script.beforeEnd u)
    (hv : firstKind v .eof = .eof) : beforeEnd (u ++ v) = u ∧ fromEnd (u ++ v) = v := by
  have hstop : Script.beforeEnd .eof = false := rfl
  unfold beforeEnd fromEnd
  rw [List.takeWhile_append_of_pos hu, List.dropWhile_append_of_pos hu]
  cases v with
  | nil => simp
  | cons tok v =>
    rw [firstKind_cons] at hv
    simp [hv, hstop]

namespace Stream

variable {s t : Stream}

theorem kind_eq_firstKind (s : Stream) : s.kind = firstKind s.upcoming .eof := by
  unfold kind current
  cases s.upcoming with
  | nil => exact s.kind_final
  | cons tok rest => rfl

/-- A stream of some tokens consists of those of the input, and of what stands where it ends. -/
theorem ofTokens_eq_prepend (file : String) (tokens : List Token) :
    ∃ t : Stream, ofTokens file tokens = t.prepend (beforeEnd tokens) ∧ t.kind = .eof ∧
      t.position = endPosition file tokens := by
  unfold ofTokens endPosition
  split
  · rename_i hlast
    rw [List.getLast?_eq_none_iff.1 hlast]
    exact ⟨⟨[], .endAt ⟨0, file⟩, rfl⟩, rfl, rfl, rfl⟩
  · rename_i last hlast
    split
    · rename_i hkind
      obtain ⟨front, rfl⟩ := List.getLast?_eq_some_iff.1 hlast
      have hfront := beforeEnd_append_fromEnd front
      have hstop : firstKind (fromEnd front ++ [last]) .eof = .eof := by
        rw [firstKind_append, firstKind_cons, hkind]
        exact firstKind_fromEnd front
      obtain ⟨hbefore, hfrom⟩ := beforeEnd_append (ofKinds_beforeEnd front) hstop
      rw [← List.append_assoc, hfront] at hbefore hfrom
      refine ⟨⟨fromEnd front, last, hkind⟩, ?_, ?_, ?_⟩
      · simp only [prepend, hbefore, hfront, List.dropLast_concat]
      · rw [kind_eq_firstKind]
        exact firstKind_fromEnd front
      · rw [hfrom]
        unfold position current
        cases fromEnd front <;> rfl
    · refine ⟨⟨fromEnd tokens, .endAt last.span.stop, rfl⟩, ?_, ?_, ?_⟩
      · simp only [prepend, beforeEnd_append_fromEnd]
      · rw [kind_eq_firstKind]
        exact firstKind_fromEnd tokens
      · rw [hlast]
        unfold position current
        cases fromEnd tokens <;> rfl

end Stream

namespace Script

variable {s t : Stream} {nodes : List Node}

/-- The statements of a stream are the lines before the first token that closes the input. -/
theorem script_prepend_eq_ok_iff {u : List Token} {rest : Stream}
    (hu : OfKinds beforeEnd u) (ht : t.kind = .eof) :
    Grammar.standard.script (t.prepend u) = .ok nodes rest ↔ rest = t ∧ Lines .eof u nodes := by
  rw [script_eq_ok_iff]
  constructor
  · rintro ⟨hrest, v, hv, hlines⟩
    rw [Stream.kind_eq_firstKind] at ht hrest
    have hfinal : t.final = rest.final := by
      change (t.prepend u).final = (rest.prepend v).final
      rw [hv]
    have hupcoming : u ++ t.upcoming = v ++ rest.upcoming := congrArg Stream.upcoming hv
    obtain ⟨hu, hut⟩ := beforeEnd_append hu ht
    obtain ⟨hv, hvr⟩ := beforeEnd_append hlines.beforeEnd hrest
    rw [hupcoming] at hu hut
    rw [hu] at hv
    rw [hut] at hvr
    subst hv
    refine ⟨?_, hlines⟩
    cases t
    cases rest
    simp only [Stream.mk.injEq]
    exact ⟨hvr.symm, hfinal.symm⟩
  · rintro ⟨rfl, hlines⟩
    exact ⟨ht, u, rfl, hlines⟩

end Script

/-- A tree is recognized where the tokens of the input are lines of the grammar. -/
theorem recognize_eq_ok_iff_lines {file : String} {tokens : List Token} {n : Node} :
    recognize file tokens = .ok n ↔ ∃ nodes, Script.Lines .eof (beforeEnd tokens) nodes ∧
      n = ⟨.script, ⟨⟨0, file⟩, endPosition file tokens⟩, nodes⟩ := by
  obtain ⟨t, htokens, ht, hposition⟩ := Stream.ofTokens_eq_prepend file tokens
  have hscript : ∀ nodes rest,
      Grammar.standard.script (t.prepend (beforeEnd tokens)) = .ok nodes rest ↔
        rest = t ∧ Script.Lines .eof (beforeEnd tokens) nodes := fun nodes rest =>
    Script.script_prepend_eq_ok_iff (ofKinds_beforeEnd tokens) ht
  rw [recognize, htokens]
  constructor
  · intro h
    split at h
    · rename_i nodes rest hrun
      obtain ⟨rfl, hlines⟩ := (hscript nodes rest).1 hrun
      cases h
      rw [hposition]
      exact ⟨nodes, hlines, rfl⟩
    · cases h
  · rintro ⟨nodes, hlines, rfl⟩
    rw [(hscript nodes t).2 ⟨rfl, hlines⟩, ← hposition]

/-- The recognizer accepts exactly the scripts of the grammar. For all tokens, it gives a tree
exactly if those of the input are lines of the grammar before the end; the tree is that of their
derivation, and there is only one. -/
theorem recognize_exact (file : String) (tokens : List Token) :
    (∀ n, recognize file tokens = .ok n ↔ ∃ nodes, Script.Lines .eof (beforeEnd tokens) nodes ∧
      n = ⟨.script, ⟨⟨0, file⟩, endPosition file tokens⟩, nodes⟩) ∧
    ∀ nodes nodes', Script.Lines .eof (beforeEnd tokens) nodes →
      Script.Lines .eof (beforeEnd tokens) nodes' → nodes = nodes' := by
  refine ⟨fun n => recognize_eq_ok_iff_lines, ?_⟩
  intro nodes nodes' h h'
  have hn : recognize file tokens = .ok _ := recognize_eq_ok_iff_lines.2 ⟨nodes, h, rfl⟩
  have hn' : recognize file tokens = .ok _ := recognize_eq_ok_iff_lines.2 ⟨nodes', h', rfl⟩
  rw [hn, Except.ok.injEq, Node.mk.injEq] at hn'
  exact hn'.2.2

end Offside
