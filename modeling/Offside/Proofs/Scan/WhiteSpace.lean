import Offside.Proofs.Scan.Seam

/-! White space while parentheses are open. Line breaks are white space there as well, so it does
not matter where one piece of it ends and the next starts. -/
namespace Offside

namespace Lexeme

variable {c : Char}

/-- White space starts with a line break or with blank text. -/
theorem exists_first?_of_isWhite (hc : isWhite c = true) (rest : List Char) :
    ∃ v, (first? (c :: rest) = some (.lineBreak v) ∨ first? (c :: rest) = some (.blank v)) ∧
      ∀ d ∈ v, isWhite d = true := by
  obtain rfl | ⟨rfl, after, rfl⟩ | ⟨-, hfeed, hreturn⟩ | ⟨hblank, -, hfeed⟩ := start_cases c rest
  · exact ⟨['\n'], .inl rfl, List.forall_mem_singleton.2 rfl⟩
  · exact ⟨['\r', '\n'], .inl rfl,
      List.forall_mem_cons.2 ⟨rfl, List.forall_mem_singleton.2 rfl⟩⟩
  · have hblank : isBlank c = true := by simpa [isWhite, hfeed] using hc
    have hfirst : first? (c :: rest) = some (.blank (c :: rest.takeWhile isBlank)) := by
      rw [first?_eq_inLine? hfeed hreturn, inLine?, if_pos hblank]
    refine ⟨_, .inr hfirst, List.forall_mem_cons.2 ⟨hc, fun d hd => ?_⟩⟩
    exact isWhite_of_isBlank (List.all_eq_true.1 List.all_takeWhile d hd)
  · simp [isWhite, hblank, hfeed] at hc

end Lexeme

namespace Scanner

variable {s : Scanner} {w rest : List Char}

/-- While parentheses are open, all white space ahead is passed over. -/
theorem run_skip_takeWhile_isWhite (hdepth : 0 < s.depth) :
    s.run = run { s with place := s.place.skip (s.place.rest.takeWhile isWhite).length } := by
  induction hlength : s.place.rest.length using Nat.strong_induction_on generalizing s with
  | _ n ih =>
  cases hrest : s.place.rest with
  | nil => rfl
  | cons c rest =>
    by_cases hc : isWhite c = true
    · obtain ⟨v, hfirst, hwhite⟩ := Lexeme.exists_first?_of_isWhite hc rest
      rw [← hrest] at hfirst
      have hstep : s.Step [] { s with place := s.place.skip v.length } := by
        obtain hbreak | hblank := hfirst
        · exact .joined hbreak hdepth
        · exact .blank hblank
      obtain ⟨after, hafter⟩ : v <+: s.place.rest := by
        obtain hbreak | hblank := hfirst
        · exact Lexeme.value_prefix_of_first? hbreak
        · exact Lexeme.value_prefix_of_first? hblank
      have hlt : (s.place.skip v.length).rest.length < n :=
        hlength ▸ length_lt_of_step (step_eq_ok_iff.2 hstep)
      have hnext := ih _ hlt (s := { s with place := s.place.skip v.length }) hdepth rfl
      rw [run_of_step_nil hstep, hnext]
      simp only [Place.skip_skip]
      rw [← hrest, ← hafter, Place.rest_skip_length hafter.symm,
        List.takeWhile_append_of_pos hwhite, List.length_append]
    · rw [List.takeWhile_cons_of_neg hc]
      rfl

/-- While parentheses are open, the scanner goes on behind any white space. -/
theorem run_of_isWhite (hdepth : 0 < s.depth) (hs : s.place.rest = w ++ rest)
    (hw : ∀ c ∈ w, isWhite c = true) :
    s.run = run { s with place := s.place.skip w.length } := by
  rw [run_skip_takeWhile_isWhite hdepth,
    run_skip_takeWhile_isWhite (s := { s with place := s.place.skip w.length }) hdepth]
  simp only [Place.skip_skip]
  rw [Place.rest_skip_length hs, hs, List.takeWhile_append_of_pos hw, List.length_append]

end Scanner
end Offside
