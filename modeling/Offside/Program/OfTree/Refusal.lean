import Offside.Error
import Offside.Tree

/-! What is wrong with a node that has no meaning: it is of another label than needed, has the wrong
text, or ends too early. -/
namespace Offside.Node

/-- Refuses a node in whose place another part is needed. -/
def unexpected (n : Node) (expected : String) : Except Error α :=
  .error ⟨.unexpectedNode expected n.label.name, n.span.start⟩

/-- Refuses a node of the given label without parts. -/
def isEmpty (label : Label) (span : Span) (expected : String) : Except Error α :=
  .error ⟨.unexpectedNode expected ("empty " ++ label.name), span.start⟩

/-- Refuses a node of the given label whose parts end with this one. -/
def endsWith (label : Label) (last : Node) (expected : String) : Except Error α :=
  .error ⟨.unexpectedNode expected ("end of " ++ label.name), last.span.stop⟩

/-- Refuses a node of any other label, where a part that is called `expected` is needed. -/
def requireAs (n : Node) (label : Label) (expected : String) : Except Error Unit :=
  if n.label = label then .ok () else n.unexpected expected

/-- Refuses a node of any other label. -/
def require (n : Node) (label : Label) : Except Error Unit := n.requireAs label label.name

/-- Refuses a node with any other text. -/
def requireText (source : List Char) (n : Node) (text : String) : Except Error Unit :=
  if n.text source = text then .ok ()
  else .error ⟨.unexpectedKeyword text (n.text source), n.span.start⟩

end Offside.Node
