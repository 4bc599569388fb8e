import Offside.FrontEnd
import Offside.Proofs.Program.OfGrammar
import Offside.Proofs.Recognizer.Program

/-! The statements of a source are those of the lines that its tokens are. -/
namespace Offside

variable {file : String} {source : List Char} {u : List Token} {p : Program Span}

theorem recognize_eq_ok_iff {q : Position} {n : Node} (hu : ∀ tok ∈ u, tok.kind ≠ .eof) :
    recognize file (u ++ [.endAt q]) = .ok n ↔
      ∃ nodes, Script.Lines .eof u nodes ∧ n = ⟨.script, ⟨⟨0, file⟩, q⟩, nodes⟩ := by
  have hfront : OfKinds Script.beforeEnd u := fun tok htok => decide_eq_true (hu tok htok)
  obtain ⟨hbefore, hfrom⟩ := beforeEnd_append (v := [.endAt q]) hfront rfl
  rw [recognize_eq_ok_iff_lines, hbefore, endPosition, hfrom]
  rfl

theorem Script.Lines.statementsOf_eq : ∀ {next : TokenKind} {u : List Token} {nodes : List Node},
    Script.Lines next u nodes →
      Node.statementsOf source nodes = nodes.mapM (Node.toStmt source)
  | _, _, _, .statement ha hlines => by
    rw [Node.statementsOf, if_neg ha.label_ne_colon, List.mapM_cons, hlines.statementsOf_eq]
  | _, _, _, .blank _ hlines => hlines.statementsOf_eq
  | _, _, _, .nil => rfl

/-- The tree of a script stands for what its lines do. -/
theorem Script.Lines.toProgram_eq {next : TokenKind} {nodes : List Node} {span : Span}
    (h : Script.Lines next u nodes) :
    Node.toProgram source ⟨.script, span, nodes⟩ = Node.statementsOf source nodes :=
  h.statementsOf_eq.symm

/-- The tokens and the lines that a tree has been read from. -/
theorem lines_of_treeOf {n : Node} (hsize : Text.byteSize source < UInt32.size)
    (h : treeOf file source = .ok n) :
    ∃ front q nodes, tokenize file source = .ok (front ++ [.endAt q]) ∧
      TokensOf source .eof front ∧ Script.Lines .eof front nodes ∧
      n = ⟨.script, ⟨⟨0, file⟩, q⟩, nodes⟩ := by
  obtain ⟨tokens, htokens, hn⟩ := Except.bind_eq_ok_iff.1 h
  obtain ⟨front, q, rfl, hfront⟩ := tokensOf_of_tokenize hsize htokens
  obtain ⟨nodes, hlines, hnode⟩ :=
    (recognize_eq_ok_iff fun tok htok => (hfront.written tok htok).kind_ne_eof).1 hn
  exact ⟨front, q, nodes, htokens, hfront, hlines, hnode⟩

/-- A program is read where the tokens are lines whose trees stand for its statements. -/
theorem programOf_eq_ok_iff {q : Position} (hu : ∀ tok ∈ u, tok.kind ≠ .eof)
    (htokens : tokenize file source = .ok (u ++ [.endAt q])) :
    programOf file source = .ok p ↔
      ∃ nodes, Script.Lines .eof u nodes ∧ Node.statementsOf source nodes = .ok p := by
  have htree : treeOf file source = recognize file (u ++ [.endAt q]) := by
    rw [treeOf, htokens]
    rfl
  simp only [programOf, htree, Except.bind_eq_ok_iff, recognize_eq_ok_iff hu]
  constructor
  · rintro ⟨_, ⟨nodes, hlines, rfl⟩, hp⟩
    exact ⟨nodes, hlines, hlines.toProgram_eq.symm.trans hp⟩
  · rintro ⟨nodes, hlines, hp⟩
    exact ⟨_, ⟨nodes, hlines, rfl⟩, hlines.toProgram_eq.trans hp⟩

/-- The tokens and the trees that a program has been read from. -/
theorem lines_of_programOf (hsize : Text.byteSize source < UInt32.size)
    (h : programOf file source = .ok p) :
    ∃ front q nodes, tokenize file source = .ok (front ++ [.endAt q]) ∧
      TokensOf source .eof front ∧ Script.Lines .eof front nodes ∧
      Node.statementsOf source nodes = .ok p := by
  obtain ⟨tree, htree, hp⟩ := Except.bind_eq_ok_iff.1 h
  obtain ⟨front, q, nodes, htokens, hfront, hlines, rfl⟩ := lines_of_treeOf hsize htree
  exact ⟨front, q, nodes, htokens, hfront, hlines, hlines.toProgram_eq.symm.trans hp⟩

end Offside
