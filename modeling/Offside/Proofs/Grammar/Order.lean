import Offside.Proofs.Grammar.Stretches

/-! The order of the parts of a tree. The tokens of a source stand one after the other, so the parts
of every branch do, between the ends of the branch. -/
namespace Offside

namespace SpansBetween

variable {i j k l : Nat} {u : List Span}

theorem widen (h : SpansBetween i j u) (hi : k ≤ i) (hj : j ≤ l) : SpansBetween k l u := by
  have hfront : SpansBetween k j ([] ++ u) := append (u := []) hi h
  have hback := hfront.append (v := []) hj
  rwa [List.nil_append, List.append_nil] at hback

/-- Spans stand between the start of the first and the end of the last. -/
theorem head_getLast (hne : u ≠ []) (h : SpansBetween i j u) :
    SpansBetween (u.head hne).start.offset.toNat (u.getLast hne).stop.offset.toNat u := by
  have hstop : ∀ {i : Nat}, SpansBetween i j u →
      SpansBetween i (u.getLast hne).stop.offset.toNat u := by
    intro i h
    rw [← List.dropLast_concat_getLast hne] at h
    obtain ⟨k, hfront, hk, hlast, -⟩ := h.of_append
    have hclosed := hfront.append (v := [u.getLast hne]) ⟨hk, hlast, Nat.le_refl _⟩
    rwa [List.dropLast_concat_getLast] at hclosed
  cases u with
  | nil => exact absurd rfl hne
  | cons s u => exact hstop ⟨Nat.le_refl _, h.2⟩

end SpansBetween

/-- Spans that stand one after the other wherever the outer ones do. -/
def SpansWithin (inner outer : List Span) : Prop :=
  ∀ i j, SpansBetween i j outer → SpansBetween i j inner

namespace SpansWithin

variable {xs ys as bs : List Span} {s : Span}

theorem refl (xs : List Span) : SpansWithin xs xs := fun _ _ h => h

theorem nil : SpansWithin [] as := fun _ _ h => h.le

theorem append (hx : SpansWithin xs as) (hy : SpansWithin ys bs) :
    SpansWithin (xs ++ ys) (as ++ bs) := by
  intro i j h
  obtain ⟨k, ha, hb⟩ := h.of_append
  exact (hx i k ha).append (hy k j hb)

theorem of_between (h : SpansBetween s.start.offset.toNat s.stop.offset.toNat xs) :
    SpansWithin xs [s] := fun _ _ ⟨hi, _, hj⟩ => h.widen hi hj

/-- The stretch from the first span to the last. -/
theorem hull (hne : xs ≠ []) : SpansWithin [⟨(xs.head hne).start, (xs.getLast hne).stop⟩] xs := by
  intro i j h
  obtain ⟨hi, -, -⟩ := h.of_mem (List.head_mem hne)
  obtain ⟨-, -, hj⟩ := h.of_mem (List.getLast_mem hne)
  exact ⟨hi, (h.head_getLast hne).le, hj⟩

end SpansWithin

theorem Node.spanOf_eq {nodes : List Node} (hne : nodes.map Node.span ≠ []) :
    spanOf nodes =
      ⟨((nodes.map Node.span).head hne).start, ((nodes.map Node.span).getLast hne).stop⟩ := by
  cases nodes with
  | nil => exact absurd rfl hne
  | cons first rest => rw [spanOf, List.getLast_map, List.head_map, List.head_cons]

/-- A node that has a width, with its parts in order between its ends. -/
structure Node.Encloses (n : Node) : Prop where
  start_lt_stop : n.span.start.offset.toNat < n.span.stop.offset.toNat
  parts : SpansBetween n.span.start.offset.toNat n.span.stop.offset.toNat (n.children.map Node.span)

/-- Each part of a tree encloses its own parts. -/
def Node.Nested (n : Node) : Prop := ∀ b : Node, b.PartOf n → b.Encloses

namespace Node.Nested

variable {label : Label} {nodes : List Node} {n c : Node}

theorem child (h : n.Nested) (hc : c ∈ n.children) : c.Nested := fun b hb => h b (.child hc hb)

theorem leaf {span : Span} (h : span.start.offset.toNat < span.stop.offset.toNat) :
    (leaf label span).Nested := by
  intro b hb
  cases hb with
  | self => exact ⟨h, Nat.le_of_lt h⟩
  | child hc => cases hc

theorem branch {i j : Nat} (hne : nodes ≠ []) (hbetween : SpansBetween i j (nodes.map Node.span))
    (h : ∀ c ∈ nodes, c.Nested) : (branch label nodes).Nested := by
  intro b hb
  cases hb with
  | self =>
    have hspans : nodes.map Node.span ≠ [] := mt List.map_eq_nil_iff.1 hne
    have hparts := hbetween.head_getLast hspans
    rw [← congrArg Span.start (spanOf_eq hspans), ← congrArg Span.stop (spanOf_eq hspans)] at hparts
    refine ⟨?_, hparts⟩
    obtain ⟨first, rest, rfl⟩ := List.exists_cons_of_ne_nil hne
    have hfirst := (h first List.mem_cons_self first .self).start_lt_stop
    exact Nat.lt_of_lt_of_le hfirst hparts.2.2.le
  | child hc hb => exact h _ hc b hb

end Node.Nested

/-- Trees stand in the order of their tokens, and so do the parts of each. -/
theorem Forest.nested {u : List Token} {nodes : List Node} {i j : Nat} (h : Forest u nodes)
    (hu : ∀ tok ∈ u, tok.kind.isContent = true →
      tok.span.start.offset.toNat < tok.span.stop.offset.toNat)
    (hbetween : TokensBetween i j u) :
    SpansBetween i j (nodes.map Node.span) ∧ ∀ c ∈ nodes, c.Nested := by
  induction h generalizing i j with
  | nil => exact ⟨hbetween, List.forall_mem_nil _⟩
  | layout _ _ ih =>
    obtain ⟨hi, htok, hrest⟩ := hbetween
    obtain ⟨hnodes, hnested⟩ := ih (List.forall_mem_cons.1 hu).2 hrest
    exact ⟨hnodes.widen (Nat.le_trans hi htok) (Nat.le_refl j), hnested⟩
  | leaf htok _ ih =>
    obtain ⟨hi, hle, hrest⟩ := hbetween
    obtain ⟨hwidth, hurest⟩ := List.forall_mem_cons.1 hu
    obtain ⟨hnodes, hnested⟩ := ih hurest hrest
    have hleaf := hwidth (TokenKind.isContent_of_leafLabel? htok)
    exact ⟨⟨hi, hle, hnodes⟩, List.forall_mem_cons.2 ⟨.leaf hleaf, hnested⟩⟩
  | @branch label u v nodes more hne _ _ ihnodes ihmore =>
    obtain ⟨k, hbu, hbv⟩ := hbetween.of_append
    obtain ⟨huu, huv⟩ := List.forall_mem_append.1 hu
    obtain ⟨hnodes, hnested⟩ := ihnodes huu hbu
    obtain ⟨hmore, hnestedmore⟩ := ihmore huv hbv
    have hbranch : (Node.branch label nodes).Nested := .branch hne hnodes hnested
    have hspans : nodes.map Node.span ≠ [] := mt List.map_eq_nil_iff.1 hne
    have hhull := SpansWithin.hull hspans i k hnodes
    rw [← Node.spanOf_eq hspans] at hhull
    exact ⟨hhull.append hmore, List.forall_mem_cons.2 ⟨hbranch, hnestedmore⟩⟩

end Offside
