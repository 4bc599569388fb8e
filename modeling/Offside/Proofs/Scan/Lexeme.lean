import Offside.Proofs.Token

/-! What lexemes are made of: a token's text is one that its kind can have, and stands at the front
of what is read. -/
namespace Offside

namespace Lexeme

variable {text v : List Char} {k : TokenKind} {c : Char} {rest : List Char} {l : Lexeme}

theorem value_prefix_of_symbol? (h : symbol? text = some l) : l.value <+: text := by
  obtain ⟨k, hk, hl⟩ := Option.bind_eq_some_iff.1 h
  obtain ⟨s, hs, rfl⟩ := Option.map_eq_some_iff.1 hl
  have hstarts := List.find?_some hk
  simp only [startsWith, hs] at hstarts
  exact List.isPrefixOf_iff_prefix.1 hstarts

theorem value_prefix_of_inLine? (h : inLine? c rest = some l) : l.value <+: c :: rest := by
  unfold inLine? at h
  repeat' split at h
  all_goals first
    | exact value_prefix_of_symbol? h
    | (cases h; exact List.cons_prefix_cons.2 ⟨rfl, List.takeWhile_prefix _⟩)

/-- A lexeme stands at the front of the text. -/
theorem value_prefix_of_first? (h : first? text = some l) : l.value <+: text := by
  unfold first? at h
  split at h
  · cases h
  · cases h
    exact ⟨_, rfl⟩
  · cases h
    exact ⟨_, rfl⟩
  · exact value_prefix_of_inLine? h

theorem symbol?_eq_some (h : symbol? text = some l) :
    ∃ k ∈ TokenKind.symbols, ∃ s, k.text? = some s ∧ l = .token k s.toList := by
  obtain ⟨k, hk, hl⟩ := Option.bind_eq_some_iff.1 h
  obtain ⟨s, hs, rfl⟩ := Option.map_eq_some_iff.1 hl
  exact ⟨k, List.mem_of_find?_eq_some hk, s, hs, rfl⟩

theorem isContent_of_symbol? (h : symbol? text = some (.token k v)) :
    k.isContent = true ∧ k.spells (String.ofList v) = true := by
  obtain ⟨k', hk, s, hs, hl⟩ := symbol?_eq_some h
  cases hl
  have hall : ∀ k ∈ TokenKind.symbols, k.isContent = true := by decide
  exact ⟨hall k hk, by rw [String.ofList_toList]; exact TokenKind.spells_of_text? hs⟩

theorem isContent_wordKind {word : List Char} (hstart : isWordStart c = true)
    (hrest : rest.all isWordPart = true) (hword : word = c :: rest) :
    (wordKind word).isContent = true ∧ (wordKind word).spells (String.ofList word) = true := by
  unfold wordKind
  cases h : TokenKind.keyword? (String.ofList word) with
  | none =>
    refine ⟨rfl, ?_⟩
    have hisWord : TokenKind.isWord (String.ofList word) = true := by
      simp only [TokenKind.isWord, String.toList_ofList, hword, hstart, hrest, Bool.and_self]
    simp only [Option.getD_none, TokenKind.spells, TokenKind.isName, hisWord, h, Bool.true_and]
    rfl
  | some k =>
    have hall : ∀ k ∈ TokenKind.keywords, k.isContent = true := by decide
    exact ⟨hall k (TokenKind.mem_keywords_of_keyword? h),
      TokenKind.spells_of_text? (TokenKind.text?_of_keyword? h)⟩

theorem isContent_of_inLine? (h : inLine? c rest = some (.token k v)) :
    k.isContent = true ∧ k.spells (String.ofList v) = true := by
  unfold inLine? at h
  split at h
  · cases h
  split at h
  · cases h
  split at h
  · rename_i hstart
    cases h
    exact isContent_wordKind hstart (List.all_takeWhile) rfl
  split at h
  · rename_i hdigit
    cases h
    refine ⟨rfl, ?_⟩
    simp [TokenKind.spells, TokenKind.isDigits, hdigit]
  · exact isContent_of_symbol? h

/-- A token that is read has a text of its kind. -/
theorem isContent_of_first? (h : first? text = some (.token k v)) :
    k.isContent = true ∧ k.spells (String.ofList v) = true := by
  unfold first? at h
  split at h
  · cases h
  · cases h
  · cases h
  · exact isContent_of_inLine? h

/-- Only white space and comments are no tokens. -/
theorem head_of_not_token (h : first? (c :: rest) = some l) (hl : ∀ k v, l ≠ .token k v) :
    c = '\n' ∨ isBlank c = true ∨ c = '#' := by
  unfold first? at h
  split at h
  · cases h
  · rename_i heq
    cases heq
    exact .inl rfl
  · rename_i heq
    cases heq
    exact .inr (.inl rfl)
  · rename_i heq
    cases heq
    unfold inLine? at h
    split at h
    · rename_i hblank
      exact .inr (.inl hblank)
    split at h
    · rename_i hcomment
      exact .inr (.inr hcomment)
    split at h
    · cases h
      exact absurd rfl (hl _ _)
    split at h
    · cases h
      exact absurd rfl (hl _ _)
    · obtain ⟨k, -, s, -, rfl⟩ := symbol?_eq_some h
      exact absurd rfl (hl _ _)

/-- A line break is a line feed, alone or with a carriage return before it. -/
theorem lineBreak_cases (h : first? text = some (.lineBreak v)) :
    v = ['\n'] ∨ v = ['\r', '\n'] := by
  unfold first? at h
  split at h
  · cases h
  · cases h
    exact .inl rfl
  · cases h
    exact .inr rfl
  · unfold inLine? at h
    repeat' split at h
    all_goals first
      | cases h
      | (obtain ⟨k, -, s, -, hl⟩ := symbol?_eq_some h; cases hl)

/-- A line break ends with a line feed. -/
theorem exists_of_first?_lineBreak (h : first? text = some (.lineBreak v)) :
    ∃ w, v = w ++ ['\n'] := by
  obtain rfl | rfl := lineBreak_cases h
  · exact ⟨[], rfl⟩
  · exact ⟨['\r'], rfl⟩

end Lexeme
end Offside
