import Offside.Position
import Offside.Text.Bytes
import Offside.Tree.Label

/-! Concrete trees: labelled nodes with the span of source they cover. -/
namespace Offside

/-- The source text in a span, empty if it is no stretch of the source. -/
def Span.text (source : List Char) (s : Span) : String :=
  String.ofList ((Text.slice? source s.start.offset.toNat s.stop.offset.toNat).getD [])

structure Node where
  label : Label
  span : Span
  children : List Node
deriving Inhabited

namespace Node

def leaf (label : Label) (span : Span) : Node := ⟨label, span, []⟩

/-- The span from the first node's start to the last one's end. -/
def spanOf : List Node → Span
  | [] => .point .nowhere
  | first :: rest => ⟨first.span.start, ((first :: rest).getLast (by simp)).span.stop⟩

/-- A node that covers its children. -/
def branch (label : Label) (children : List Node) : Node := ⟨label, spanOf children, children⟩

/-- The source text that a node covers. -/
def text (source : List Char) (n : Node) : String := n.span.text source

@[simp] theorem children_leaf (label : Label) (span : Span) : (leaf label span).children = [] := rfl

@[simp] theorem children_branch (label : Label) (children : List Node) :
    (branch label children).children = children := rfl

end Node
end Offside
