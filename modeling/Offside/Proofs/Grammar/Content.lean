import Offside.Proofs.Grammar.Forest

/-! The kinds of the tokens that the rules of the grammar take up. Expressions, types and parameters
are content of a line; layout tokens only end simple statements and frame blocks, and the token that
closes the input is in none of the rules. -/
namespace Offside

/-- All of some tokens are of allowed kinds. -/
def OfKinds (allowed : TokenKind → Bool) (u : List Token) : Prop :=
  ∀ tok ∈ u, allowed tok.kind = true

namespace OfKinds

variable {allowed : TokenKind → Bool} {k : TokenKind} {tok : Token} {u v : List Token}

theorem nil : OfKinds allowed [] := List.forall_mem_nil _

theorem cons (htok : tok.kind = k) (hk : allowed k = true) (hu : OfKinds allowed u) :
    OfKinds allowed (tok :: u) := by
  intro t ht
  obtain rfl | ht := List.mem_cons.1 ht
  · rw [htok]
    exact hk
  · exact hu t ht

theorem append (hu : OfKinds allowed u) (hv : OfKinds allowed v) : OfKinds allowed (u ++ v) := by
  intro t ht
  obtain ht | ht := List.mem_append.1 ht
  · exact hu t ht
  · exact hv t ht

end OfKinds

theorem Level.isContent_of_mem_kinds {k : TokenKind} (hk : k ∈ Level.kinds) :
    k.isContent = true := by
  have hall : ∀ k ∈ Level.kinds, k.isContent = true := by decide
  exact hall k hk

theorem Level.Derives.isContent {l : Level} {u : List Token} {a : Node} (h : l.Derives u a) :
    OfKinds TokenKind.isContent u :=
  fun tok htok => isContent_of_mem_kinds (h.kind_mem_kinds tok htok)

namespace Script

variable {k : TokenKind} {label : Label} {u : List Token} {nodes : List Node}

theorem OptionalType.isContent (hk : k.isContent = true) (h : OptionalType k label u nodes) :
    OfKinds TokenKind.isContent u := by
  cases h with
  | absent => exact .nil
  | present hmark ha => exact ha.isContent.cons hmark hk

theorem Assigned.isContent (h : Assigned u nodes) : OfKinds TokenKind.isContent u := by
  cases h with
  | type hmark ha => exact ha.isContent.cons hmark rfl
  | value htype hmark hb => exact (htype.isContent rfl).append (hb.isContent.cons hmark rfl)

theorem Parameter.isContent (h : Parameter u nodes) : OfKinds TokenKind.isContent u := by
  obtain ⟨hname, htype⟩ := h
  exact (htype.isContent rfl).cons hname rfl

theorem Parameters.isContent (h : Parameters u nodes) : OfKinds TokenKind.isContent u := by
  induction h with
  | close hclose => exact OfKinds.nil.cons hclose rfl
  | last hparameter hclose => exact hparameter.isContent.append (OfKinds.nil.cons hclose rfl)
  | more hparameter hcomma _ ih => exact hparameter.isContent.append (ih.cons hcomma rfl)

/-- The kinds of the tokens before the one that closes the input. -/
def beforeEnd (k : TokenKind) : Bool := k ≠ .eof

end Script

/-- What trees are put together from does not close the input. -/
theorem Forest.beforeEnd {u : List Token} {nodes : List Node} (h : Forest u nodes) :
    OfKinds Script.beforeEnd u := by
  induction h with
  | nil => exact .nil
  | layout htok _ ih =>
    refine ih.cons rfl (decide_eq_true ?_)
    rintro heof
    rw [heof] at htok
    cases htok
  | leaf htok _ ih =>
    have hcontent := TokenKind.isContent_of_leafLabel? htok
    exact ih.cons rfl (decide_eq_true (TokenKind.ne_of_isContent hcontent rfl))
  | branch _ _ _ ihnodes ihmore => exact ihnodes.append ihmore

namespace Script

variable {next : TokenKind} {u : List Token} {nodes : List Node}

theorem Lines.beforeEnd (h : Lines next u nodes) : OfKinds beforeEnd u := h.forest.beforeEnd

theorem Further.beforeEnd (h : Further next u nodes) : OfKinds beforeEnd u := h.forest.beforeEnd

end Script
end Offside
