import Offside.Tree

/-! A place in a tree from which the neighbouring nodes can be reached. A cursor knows which child
its node is and the cursor on the enclosing node; the siblings are looked up there. -/
namespace Offside

structure Cursor where
  source : List Char
  node : Node
  /-- Which child of the enclosing node this is, counted from zero. -/
  index : Nat
  /-- The cursor on the enclosing node. -/
  parent? : Option Cursor

namespace Cursor

def root (n : Node) (source : List Char) : Cursor := ⟨source, n, 0, none⟩

def label (c : Cursor) : Label := c.node.label

def span (c : Cursor) : Span := c.node.span

/-- The source text that the node covers. -/
def text (c : Cursor) : String := c.node.text c.source

def first? (c : Cursor) : Option Cursor :=
  c.node.children.head?.map fun child => ⟨c.source, child, 0, some c⟩

def next? (c : Cursor) : Option Cursor := do
  let parent ← c.parent?
  let sibling ← parent.node.children[c.index + 1]?
  return ⟨c.source, sibling, c.index + 1, some parent⟩

/-- The number of the siblings from the node on. -/
def ahead (c : Cursor) : Nat :=
  match c.parent? with
  | none => 0
  | some parent => parent.node.children.length - c.index

theorem ahead_lt_of_next? {c d : Cursor} (h : c.next? = some d) : d.ahead < c.ahead := by
  obtain ⟨parent, hparent, hsibling⟩ := Option.bind_eq_some_iff.1 h
  obtain ⟨sibling, hindex, hd⟩ := Option.bind_eq_some_iff.1 hsibling
  cases hd
  obtain ⟨hlt, -⟩ := List.getElem?_eq_some_iff.1 hindex
  simp only [ahead, hparent]
  omega

/-- The cursor and those that are reached from it by going on to the next sibling. -/
def onward (c : Cursor) : List Cursor :=
  match _h : c.next? with
  | none => [c]
  | some d => c :: d.onward
termination_by c.ahead
decreasing_by exact ahead_lt_of_next? _h

/-- The cursors on a node's children, from first to last. -/
def children (c : Cursor) : List Cursor :=
  match c.first? with
  | none => []
  | some d => d.onward

end Cursor
end Offside
