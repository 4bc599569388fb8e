import Offside.Program
import Offside.Proofs.Grammar.Order

/-! The statements, branches and expressions of a program, and where they stand in its source: each
on a stretch of it, within the one around it and apart from those beside it. -/
namespace Offside

/-- A part of a program that stands somewhere. -/
inductive Phrase where
  | statement (s : Stmt Span)
  | branch (b : Branch Span)
  | expression (e : Expr Span)

namespace Phrase

def span : Phrase → Span
  | statement s => s.note
  | branch b => b.span
  | expression e => e.note

/-- What a phrase is put together from, in the order of its source. -/
def children : Phrase → List Phrase
  | statement (.assign _ value _) | statement (.declare _ _ value _)
  | statement (.expression value _) | statement (.return value _) => [expression value]
  | statement (.function _ _ _ body _) => body.map statement
  | statement (.conditional first alternatives otherwise _) =>
    branch first :: (alternatives.map branch ++ otherwise.map statement)
  | statement (.loop condition body _) => expression condition :: body.map statement
  | statement (.pass _) => []
  | branch b => expression b.condition :: b.body.map statement
  | expression (.binary _ lhs rhs _) => [expression lhs, expression rhs]
  | expression (.call _ arguments _) => arguments.map expression
  | expression _ => []

/-- A phrase is part of itself and of those around it. -/
inductive PartOf (x : Phrase) : Phrase → Prop
  | self : PartOf x x
  | child {y z} : y ∈ z.children → PartOf x y → PartOf x z

/-- A name stands on its own text, and a call starts with that of its function. -/
def Spelled (source : List Char) : Phrase → Prop
  | expression (.ident name span) =>
    Text.slice? source span.start.offset.toNat span.stop.offset.toNat = some name.toList
  | expression (.call function _ span) => ∃ rest,
    Text.slice? source span.start.offset.toNat span.stop.offset.toNat =
      some (function.toList ++ rest)
  | _ => True

/-- A phrase that stands on a stretch of a source, with its children within it, in order and apart
from each other. -/
structure Placed (file : String) (source : List Char) (x : Phrase) : Prop where
  start : x.span.start.IsCut file source
  stop : x.span.stop.IsCut file source
  start_lt_stop : x.span.start.offset.toNat < x.span.stop.offset.toNat
  stop_le : x.span.stop.offset.toNat ≤ Text.byteSize source
  inside : ∀ y ∈ x.children, x.span.start.offset.toNat ≤ y.span.start.offset.toNat ∧
    y.span.stop.offset.toNat ≤ x.span.stop.offset.toNat
  inOrder : x.children.Pairwise fun y z => y.span.stop.offset.toNat ≤ z.span.start.offset.toNat
  spelled : x.Spelled source

end Phrase

/-- A tree whose parts all stand on stretches of a source, in order. -/
structure Node.Placed (file : String) (source : List Char) (n : Node) : Prop where
  stretches : n.Stretches file source
  nested : n.Nested

theorem Node.Placed.child {file : String} {source : List Char} {n c : Node}
    (h : n.Placed file source) (hc : c ∈ n.children) : c.Placed file source :=
  ⟨h.stretches.of_partOf (.child hc .self), h.nested.child hc⟩

/-- Phrases in a row where some trees stand, with all their parts at the right places. -/
structure LaidOut (file : String) (source : List Char) (nodes : List Node) (xs : List Phrase) :
    Prop where
  within : SpansWithin (xs.map Phrase.span) (nodes.map Node.span)
  placed : ∀ x ∈ xs, ∀ y : Phrase, y.PartOf x → y.Placed file source

namespace LaidOut

variable {file : String} {source : List Char} {label : Label} {n : Node} {nodes more : List Node}
  {x : Phrase} {xs ys : List Phrase}

theorem nil : LaidOut file source nodes [] := ⟨.nil, List.forall_mem_nil _⟩

theorem append (hx : LaidOut file source nodes xs) (hy : LaidOut file source more ys) :
    LaidOut file source (nodes ++ more) (xs ++ ys) := by
  refine ⟨?_, List.forall_mem_append.2 ⟨hx.placed, hy.placed⟩⟩
  rw [List.map_append, List.map_append]
  exact hx.within.append hy.within

theorem cons (hx : LaidOut file source [n] xs) (hy : LaidOut file source nodes ys) :
    LaidOut file source (n :: nodes) (xs ++ ys) := by
  have happend := hx.append hy
  rwa [List.singleton_append] at happend

/-- A node that stands for nothing. -/
theorem skip (h : LaidOut file source nodes xs) : LaidOut file source (n :: nodes) xs := cons .nil h

/-- A branch that stands for what its parts do. -/
theorem inner (hn : (Node.branch label nodes).Nested) (h : LaidOut file source nodes xs) :
    LaidOut file source [.branch label nodes] xs :=
  ⟨.of_between (h.within _ _ (hn _ .self).parts), h.placed⟩

/-- A phrase whose children stand where the trees between its ends do. -/
theorem single (hspan : x.span.IsStretch file source)
    (hlt : x.span.start.offset.toNat < x.span.stop.offset.toNat)
    (hchildren : LaidOut file source nodes x.children)
    (hbetween : SpansBetween x.span.start.offset.toNat x.span.stop.offset.toNat
      (nodes.map Node.span)) (hspelled : x.Spelled source)
    (hwithin : SpansWithin [x.span] (more.map Node.span)) : LaidOut file source more [x] := by
  refine ⟨hwithin, List.forall_mem_singleton.2 ?_⟩
  intro y hy
  cases hy with
  | self =>
    have hparts := hchildren.within _ _ hbetween
    constructor
    · exact hspan.1.isCut
    · exact hspan.2
    · exact hlt
    · exact hspan.2.offset_le
    · intro z hz
      obtain ⟨hfrom, -, hto⟩ := hparts.of_mem (List.mem_map_of_mem hz)
      exact ⟨hfrom, hto⟩
    · exact List.pairwise_map.1 hparts.pairwise
    · exact hspelled
  | child hc hy => exact hchildren.placed _ hc y hy

/-- A phrase that stands where its tree does. -/
theorem phrase (hn : n.Placed file source) (hspan : x.span = n.span)
    (hchildren : LaidOut file source n.children x.children) (hspelled : x.Spelled source) :
    LaidOut file source [n] [x] := by
  have hstretch := hn.stretches n .self
  obtain ⟨hlt, hparts⟩ := hn.nested n .self
  have hwithin : SpansWithin [n.span] [n.span] := .refl _
  rw [← hspan] at hstretch hlt hparts
  refine .single hstretch hlt hchildren hparts hspelled ?_
  rw [hspan]
  exact hwithin

/-- A branch stands from its keyword to the end of its body. -/
theorem branch {keyword a b : Node} {e : Expr Span} {body : List (Stmt Span)} {i j : Nat}
    (kind : BranchKind) (hkeyword : keyword.Placed file source) (hb : b.Placed file source)
    (hbetween : SpansBetween i j [keyword.span, a.span, b.span])
    (hcondition : LaidOut file source [a] [.expression e])
    (hbody : LaidOut file source [b] (body.map .statement)) :
    LaidOut file source [keyword, a, b]
      [.branch ⟨kind, e, body, ⟨keyword.span.start, b.span.stop⟩⟩] := by
  have hends := hbetween.head_getLast (List.cons_ne_nil _ _)
  have hwidth := (hkeyword.nested keyword .self).start_lt_stop
  have hchildren : LaidOut file source [keyword, a, b] (.expression e :: body.map .statement) :=
    (hcondition.cons hbody).skip
  refine .single ⟨?_, ?_⟩ ?_ hchildren hends trivial (.hull (List.cons_ne_nil _ _))
  · exact (hkeyword.stretches keyword .self).1
  · exact (hb.stretches b .self).2
  · exact Nat.lt_of_lt_of_le hwidth hends.2.2.le

end LaidOut
end Offside
