import Offside.Proofs.Program.OfSpelling
import Offside.Proofs.Scan.Canonical

/-! The programs that can be read are, notes and spans apart, those that can be written: each
program that is read can be written, and each that can be written is read from its canonical text.
-/
namespace Offside

variable {α : Type} {file : String}

/-- A program that can be written is read from its canonical text. -/
theorem programOf_text {p : Program α} (h : Stmt.allWellFormed p = true)
    (hsize : Text.byteSize p.text < UInt32.size) :
    ∃ q, programOf file p.text = .ok q ∧ Stmt.allBare q = Stmt.allBare p := by
  obtain ⟨tokens, last, htokens, hspelling⟩ := tokenize_text file h
  obtain ⟨front, place, heq, hfront⟩ := tokensOf_of_tokenize hsize htokens
  obtain ⟨rfl, -⟩ := List.append_inj' heq rfl
  obtain ⟨nodes, q, hlines, hq, hbare⟩ := areReadFrom_of_statements .eof h
    ⟨hspelling, hfront.written⟩ (by decide) (by decide)
  have hread := (programOf_eq_ok_iff (p := q)
    (fun tok htok => (hfront.written tok htok).kind_ne_eof) htokens).2 ⟨nodes, hlines, hq⟩
  exact ⟨q, hread, hbare⟩

example : Program.text [Stmt.loop (.ident "b" ()) [.assign "n" (.number (-1) ()) ()] ()] =
    "while b:\n    n = -1\n".toList := by decide

/-- Exactly the programs that can be written are read, up to their spans. -/
theorem programOf_exact (file : String) :
    (∀ (source : List Char) (p : Program Span), Text.byteSize source < UInt32.size →
      programOf file source = .ok p → Stmt.allWellFormed p = true) ∧
    (∀ (α : Type) (p : Program α), Stmt.allWellFormed p = true →
      Text.byteSize p.text < UInt32.size →
        ∃ q, programOf file p.text = .ok q ∧ Stmt.allBare q = Stmt.allBare p) :=
  ⟨fun _ _ hsize h => allWellFormed_of_programOf hsize h, fun _ _ h hsize => programOf_text h hsize⟩

/-- A loop around an assignment of a negative number, as it is written and read. -/
theorem programOf_exact_loop : ∃ q, programOf "shell"
      (Program.text [Stmt.loop (.ident "b" ()) [.assign "n" (.number (-1) ()) ()] ()]) = .ok q ∧
    Stmt.allBare q = [Stmt.loop (.ident "b" ()) [.assign "n" (.number (-1) ()) ()] ()] ∧
    Stmt.allWellFormed q = true := by
  have hsize : Text.byteSize (Program.text
      [Stmt.loop (.ident "b" ()) [.assign "n" (.number (-1) ()) ()] ()]) < UInt32.size := by
    decide
  obtain ⟨q, hq, hbare⟩ := (programOf_exact "shell").2 Unit _ (by decide) hsize
  exact ⟨q, hq, hbare, (programOf_exact "shell").1 _ q hsize hq⟩

end Offside
