import Offside.Program.OfTree.Stmt
import Offside.Recognizer.Statement
import Offside.Scan
import Offside.Typing.Program

/-! From the text of a program to its tree, its statements, and its statements with their types. -/
namespace Offside

/-- The tree of a source. -/
def treeOf (file : String) (source : List Char) : Except Error Node := do
  recognize file (← tokenize file source)

/-- The statements of a source. -/
def programOf (file : String) (source : List Char) : Except Error (Program Span) := do
  (← treeOf file source).toProgram source

/-- The statements of a source with their types. -/
def typedProgramOf (file : String) (source : List Char) : Except Error (Program Typed) := do
  Program.check (← programOf file source)

end Offside
