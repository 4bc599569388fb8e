import Offside.Proofs.FrontEnd
import Offside.Proofs.Program.Faults
import Offside.Proofs.Recognizer.FirstRefusal
import Offside.Proofs.Scan.Errors
import Offside.Proofs.Typing.Errors

/-! Each stage refuses a source for reasons of its own. The tree that a source has stands for a
program unless a part of it is at fault, so nothing is left to say about its shape. -/
namespace Offside

variable {file : String} {source : List Char} {e : Error}

theorem cause_of_recognize {tokens : List Token} (h : recognize file tokens = .error e) :
    (∃ token, e.cause = .unexpectedToken token) ∨
      ∃ token message, e.cause = .wrongToken token message := by
  obtain ⟨tok, -, -, hcause⟩ := refused_of_recognize h
  exact hcause.imp (fun h => ⟨_, h⟩) fun ⟨_, h⟩ => ⟨_, _, h⟩

/-- A tree without a meaning has a part that is at fault. -/
theorem faulty_of_toProgram {n : Node} (hsize : Text.byteSize source < UInt32.size)
    (hn : treeOf file source = .ok n) (h : n.toProgram source = .error e) :
    n.Faulty source e := by
  obtain ⟨front, q, nodes, -, hfront, hlines, rfl⟩ := lines_of_treeOf hsize hn
  rw [hlines.toProgram_eq] at h
  obtain ⟨c, hc, hfaulty⟩ := faulty_of_lines hlines hfront h
  exact .child hc hfaulty

/-- No stage fails with an error of another. What a source's tree stands for fails only with a fault
of one of its parts. -/
theorem stage_errors :
    (∀ file source e, tokenize file source = .error e →
      (∃ token, e.cause = .unrecognisedToken token) ∨ e.cause = .inconsistentIndentation) ∧
    (∀ file tokens e, recognize file tokens = .error e →
      (∃ token, e.cause = .unexpectedToken token) ∨
        ∃ token message, e.cause = .wrongToken token message) ∧
    (∀ file source n e, Text.byteSize source < UInt32.size → treeOf file source = .ok n →
      n.toProgram source = .error e → n.Faulty source e) ∧
    ∀ (program : Program Span) e, program.check = .error e →
      e.cause.errorClass = .typing ∨ e.cause.errorClass = .naming := by
  refine ⟨?tokens, ?tree, ?meaning, ?types⟩
  case tokens =>
    intro file source e h
    obtain ⟨p, -, -, hrefused⟩ := stops_of_tokenize h
    cases hrefused with
    | character => exact .inl ⟨_, rfl⟩
    | indentation => exact .inr rfl
  case tree => exact fun file tokens e h => cause_of_recognize h
  case meaning => exact fun file source n e hsize hn h => faulty_of_toProgram hsize hn h
  case types =>
    intro program e h
    obtain ⟨span, -, htyping⟩ := Program.isTypingIn_of_check h
    exact htyping.errorClass

/-- Each stage has sources, tokens or programs to refuse. -/
theorem stage_errors_quotient :
    let source := "f(1 + x, 2 / 3)\n".toList
    let closing : Token := ⟨.closeParen, ")", .point ⟨0, "shell"⟩⟩
    let place : Span := .point ⟨4, "shell"⟩
    let program : Program Span := [.expression (.ident "x" place) place]
    (∃ e, tokenize "shell" "x = 1 ? 2\n".toList = .error e ∧
      ((∃ token, e.cause = .unrecognisedToken token) ∨ e.cause = .inconsistentIndentation)) ∧
    (∃ e, recognize "shell" [closing] = .error e ∧
      ((∃ token, e.cause = .unexpectedToken token) ∨
        ∃ token message, e.cause = .wrongToken token message)) ∧
    (∃ n e, Text.byteSize source < UInt32.size ∧ treeOf "shell" source = .ok n ∧
      n.toProgram source = .error e ∧ n.Faulty source e) ∧
    ∃ e, program.check = .error e ∧
      (e.cause.errorClass = .typing ∨ e.cause.errorClass = .naming) := by
  intro source closing place program
  obtain ⟨htokens, htree, hmeaning, htypes⟩ := stage_errors
  obtain ⟨e₁, he₁⟩ : ∃ e, tokenize "shell" "x = 1 ? 2\n".toList = .error e :=
    Except.exists_eq_error (by decide +kernel)
  obtain ⟨e₂, he₂⟩ : ∃ e, recognize "shell" [closing] = .error e :=
    Except.exists_eq_error (by decide +kernel)
  have hsize : Text.byteSize source < UInt32.size := by decide +kernel
  obtain ⟨n, hn⟩ : ∃ n, treeOf "shell" source = .ok n :=
    Except.exists_eq_ok (by decide +kernel)
  obtain ⟨e₃, he₃⟩ : ∃ e, n.toProgram source = .error e := by
    obtain ⟨e, he⟩ : ∃ e, programOf "shell" source = .error e :=
      Except.exists_eq_error (by decide +kernel)
    rw [programOf, hn] at he
    exact ⟨e, he⟩
  obtain ⟨e₄, he₄⟩ : ∃ e, program.check = .error e :=
    Except.exists_eq_error (by decide +kernel)
  exact ⟨⟨e₁, he₁, htokens _ _ e₁ he₁⟩, ⟨e₂, he₂, htree _ _ e₂ he₂⟩,
    ⟨n, e₃, hsize, hn, he₃, hmeaning _ _ n e₃ hsize hn he₃⟩, ⟨e₄, he₄, htypes _ e₄ he₄⟩⟩

end Offside
