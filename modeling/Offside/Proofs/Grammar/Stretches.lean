import Offside.Proofs.Grammar.Bodies
import Offside.Proofs.Scan.Places

/-! Where the parts of a tree of the grammar stand. A leaf stands on the content token that it is,
and every branch has parts, so each part of the tree stands on a stretch of the source. -/
namespace Offside

variable {file : String} {source : List Char}

/-- Each part of a tree stands on a stretch of a source. -/
def Node.Stretches (file : String) (source : List Char) (n : Node) : Prop :=
  ∀ b : Node, b.PartOf n → b.span.IsStretch file source

namespace Node.Stretches

variable {label : Label} {nodes : List Node} {n c : Node}

theorem leaf {span : Span} (h : span.IsStretch file source) :
    (leaf label span).Stretches file source := by
  intro b hb
  cases hb with
  | self => exact h
  | child hc => cases hc

/-- A branch goes from the start of its first part to the end of its last. -/
theorem branch (hne : nodes ≠ []) (h : ∀ c ∈ nodes, c.Stretches file source) :
    (branch label nodes).Stretches file source := by
  intro b hb
  cases hb with
  | self =>
    obtain ⟨first, rest, rfl⟩ := List.exists_cons_of_ne_nil hne
    have hfirst := h first List.mem_cons_self _ .self
    have hlast := h _ (List.getLast_mem hne) _ .self
    exact ⟨hfirst.1, hlast.2⟩
  | child hc hb => exact h _ hc b hb

theorem of_partOf (h : n.Stretches file source) (hc : c.PartOf n) : c.Stretches file source :=
  fun b hb => h b (hb.trans hc)

end Node.Stretches

/-- The content among some tokens stands on stretches of a source. -/
def OnStretches (file : String) (source : List Char) (u : List Token) : Prop :=
  ∀ tok ∈ u, tok.kind.isContent = true → tok.span.IsStretch file source

namespace OnStretches

variable {tok : Token} {u v : List Token}

theorem append (h : OnStretches file source (u ++ v)) :
    OnStretches file source u ∧ OnStretches file source v := List.forall_mem_append.1 h

theorem tail (h : OnStretches file source (tok :: u)) : OnStretches file source u :=
  (List.forall_mem_cons.1 h).2

end OnStretches

/-- Each part of some trees stands on a stretch of the source. -/
theorem Forest.stretches {u : List Token} {nodes : List Node} (h : Forest u nodes)
    (hu : OnStretches file source u) : ∀ c ∈ nodes, c.Stretches file source := by
  induction h with
  | nil => exact List.forall_mem_nil _
  | layout _ _ ih => exact ih hu.tail
  | leaf htok _ ih =>
    have hspan := hu _ List.mem_cons_self (TokenKind.isContent_of_leafLabel? htok)
    exact List.forall_mem_cons.2 ⟨.leaf hspan, ih hu.tail⟩
  | branch hne _ _ ihnodes ihmore =>
    obtain ⟨hnodes, hmore⟩ := hu.append
    exact List.forall_mem_cons.2 ⟨.branch hne (ihnodes hnodes), ihmore hmore⟩

end Offside
