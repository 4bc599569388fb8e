import Offside.Proofs.Typing.Program

/-! What the checker gives is the program that it was given, with types noted in it. The types
forgotten, every part is as it was: the places, the kinds of branches, the parameters and the stated
types. -/
namespace Offside

namespace Program

/-- Checking only adds types. A program comes out of the checker as it went in, once its types are
forgotten; and checked again it gets the same types. -/
theorem check_only_annotates {program : Program Span} {ts : Program Typed}
    (h : program.check = .ok ts) : ts.untyped = program ∧ ts.untyped.check = .ok ts := by
  have huntyped := (notes_of_check h).1
  constructor
  · exact huntyped
  · rw [huntyped]
    exact h

/-- The places of a program and the kinds of its branches are kept even where no source has them. -/
theorem check_only_annotates_branches :
    let span (i j : UInt32) : Span := ⟨⟨i, "shell"⟩, ⟨j, "shell"⟩⟩
    let program : Program Span := [
      .function "f" [⟨"a", .int⟩] .bool
        [.return (.binary .greater (.ident "a" (span 9 8)) (.number 0 (span 7 7)) (span 6 9))
          (span 5 5)] (span 4 3),
      .loop (.call "f" [.number 1 (span 1 2)] (span 2 1))
        [.conditional ⟨.alternative, .boolean true (span 3 3), [.pass (span 0 1)], span 4 4⟩
          [⟨.first, .boolean false (span 1 1), [], span 2 2⟩]
          [.declare "x" .bool (.boolean true (span 8 9)) (span 7 9)] (span 6 6)] (span 5 0)]
    ∃ ts, program.check = .ok ts ∧ ts.untyped = program ∧ ts.untyped.check = .ok ts := by
  intro span program
  obtain ⟨ts, hts⟩ : ∃ ts, program.check = .ok ts := Except.exists_eq_ok (by decide +kernel)
  exact ⟨ts, hts, check_only_annotates hts⟩

end Program
end Offside
