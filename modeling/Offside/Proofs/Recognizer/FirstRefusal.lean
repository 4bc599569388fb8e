import Offside.Proofs.Recognizer.CompletionStatement
import Offside.Proofs.Recognizer.Program

/-! A program that is refused is refused at the first token that makes it impossible: the tokens
before it begin some program, and no program begins with these kinds and that of the token. -/
namespace Offside

/-- Tokens with the one that closes the input, which is put after the last one where it is missing.
-/
def closed (file : String) (tokens : List Token) : List Token :=
  match tokens.getLast? with
  | none => [.endAt ⟨0, file⟩]
  | some last => if last.kind = .eof then tokens else tokens ++ [.endAt last.span.stop]

namespace Stream

variable {s : Stream}

/-- All tokens of a stream that are still to come, the final one included. -/
def tokens (s : Stream) : List Token := s.upcoming ++ [s.final]

theorem tokens_ofTokens (file : String) (tokens : List Token) :
    (ofTokens file tokens).tokens = closed file tokens := by
  cases hlast : tokens.getLast? with
  | none =>
    simp only [ofTokens, closed, hlast]
    rfl
  | some last =>
    by_cases hkind : last.kind = .eof
    · obtain ⟨front, rfl⟩ := List.getLast?_eq_some_iff.1 hlast
      simp only [ofTokens, closed, hlast, hkind, dif_pos, if_true, Stream.tokens,
        List.dropLast_concat]
    · simp only [ofTokens, closed, hlast, hkind, dif_neg, not_false_eq_true, if_false]
      rfl

theorem tokens_prepend (u : List Token) (s : Stream) : (s.prepend u).tokens = u ++ s.tokens :=
  List.append_assoc _ _ _

/-- The current token comes first. -/
theorem exists_tokens_eq_cons (s : Stream) : ∃ after, s.tokens = s.current :: after := by
  obtain ⟨upcoming, final, hfinal⟩ := s
  cases upcoming with
  | nil => exact ⟨[], rfl⟩
  | cons tok upcoming => exact ⟨upcoming ++ [final], rfl⟩

theorem exists_prepend_of_tokens {u v : List Token} {tok : Token} (h : s.tokens = u ++ tok :: v) :
    ∃ t : Stream, s = t.prepend u ∧ t.current = tok := by
  obtain ⟨upcoming, final, hfinal⟩ := s
  obtain ⟨w, rfl, hw⟩ | ⟨w, rfl, hw⟩ := List.append_eq_append_iff.1 h
  · cases w with
    | nil =>
      cases hw
      exact ⟨⟨[], _, hfinal⟩, by simp [prepend], rfl⟩
    | cons other w => simp at hw
  · refine ⟨⟨w, final, hfinal⟩, rfl, ?_⟩
    cases w with
    | nil =>
      cases hw
      rfl
    | cons other w =>
      cases hw
      rfl

end Stream

variable {file : String} {tokens : List Token} {e : Error}

theorem recognize_eq_error_iff : recognize file tokens = .error e ↔
    ∃ rest, Grammar.standard.script (.ofTokens file tokens) = .error e rest := by
  unfold recognize
  cases Grammar.standard.script (.ofTokens file tokens) with
  | ok nodes rest => simp
  | error e' rest => simp

/-- A refusal is that of one of the tokens. -/
theorem refused_of_recognize (h : recognize file tokens = .error e) :
    ∃ tok ∈ closed file tokens, e.position = tok.span.start ∧
      (e.cause = .unexpectedToken (Recognizer.describe tok) ∨
        ∃ k : TokenKind, e.cause = .wrongToken tok.value ("expected " ++ k.name)) := by
  obtain ⟨rest, hrun⟩ := recognize_eq_error_iff.1 h
  have hlocal := Grammar.local_script (.ofTokens file tokens)
  obtain ⟨u, hu⟩ := hlocal.within
  obtain ⟨after, hafter⟩ := rest.exists_tokens_eq_cons
  refine ⟨rest.current, ?_, hlocal.refuses e rest hrun⟩
  rw [hrun] at hu
  rw [← Stream.tokens_ofTokens, hu, Stream.tokens_prepend]
  refine List.mem_append_right u ?_
  change rest.current ∈ rest.tokens
  rw [hafter]
  exact List.mem_cons_self

/-- Lines of the grammar are a program. -/
theorem exists_recognize_of_areLines (file : String) (h : Script.AreLines tokens) :
    ∃ n, recognize file tokens = .ok n := by
  obtain ⟨nodes, hlines⟩ := h
  have hall := (beforeEnd_append (v := []) hlines.beforeEnd rfl).1
  rw [List.append_nil] at hall
  exact ⟨_, recognize_eq_ok_iff_lines.2 ⟨nodes, by rwa [hall], rfl⟩⟩

/-- A program is refused at the first token that makes it impossible. The tokens before the one that
is current then can be completed to a program, and whatever has the same kinds up to that token is
refused. -/
theorem refused_at_first_impossible (h : recognize file tokens = .error e) :
    ∃ before tok after rest, closed file tokens = before ++ tok :: after ∧
      Grammar.standard.script (.ofTokens file tokens) = .error e rest ∧
      rest.tokens = tok :: after ∧ e.position = tok.span.start ∧
      (∃ more n, recognize file (before ++ more) = .ok n) ∧
      ∀ file' others, (before ++ [tok]).map Token.kind <+: (closed file' others).map Token.kind →
        ∀ n, recognize file' others ≠ .ok n := by
  obtain ⟨rest, hrun⟩ := recognize_eq_error_iff.1 h
  obtain ⟨u, w, hu, hlines⟩ := Script.completable_of_script hrun
  obtain ⟨after, hafter⟩ := rest.exists_tokens_eq_cons
  have hlocal := Grammar.local_script (.ofTokens file tokens)
  obtain ⟨hposition, -⟩ := hlocal.refuses e rest hrun
  refine ⟨u, rest.current, after, rest, ?_, hrun, hafter, hposition,
    ⟨w, exists_recognize_of_areLines file hlines⟩, ?_⟩
  · rw [← Stream.tokens_ofTokens, hu, Stream.tokens_prepend, hafter]
  · intro file' others hprefix n hn
    obtain ⟨more, hmore⟩ := hprefix
    rw [List.map_append, ← Stream.tokens_ofTokens] at hmore
    obtain ⟨v, later, hothers, hv, -⟩ := List.map_eq_append_iff.1 hmore.symm
    obtain ⟨v, v', rfl, hkinds, hv'⟩ := List.map_eq_append_iff.1 hv
    obtain ⟨tok, v', rfl, htok, hnil⟩ := List.map_eq_cons_iff.1 hv'
    obtain rfl := List.map_eq_nil_iff.1 hnil
    rw [List.append_assoc] at hothers
    obtain ⟨t, ht, hcurrent⟩ := Stream.exists_prepend_of_tokens hothers
    have hkind : t.kind = rest.kind := by
      rw [Stream.kind, hcurrent, htok]
      rfl
    have hfollows := hlocal.follows (.ofTokens file' others) t
    rw [hrun] at hfollows
    obtain ⟨e', he'⟩ := hfollows ⟨u, v, hu, ht, hkinds, hkind⟩
    rw [recognize_eq_error_iff.2 ⟨t, he'⟩] at hn
    cases hn

/-- In `if x pass` the colon is missing: `if x` begins a program, and `if x pass` does not. -/
theorem refused_at_first_impossible_colon :
    let read (k : TokenKind) (i j : UInt32) : Token := ⟨k, "", ⟨⟨i, "shell"⟩, ⟨j, "shell"⟩⟩⟩
    let tokens := [read .kwIf 0 2, read .identifier 3 4, read .kwPass 5 9, read .newline 9 9,
      read .kwPass 10 14]
    ∃ e, recognize "shell" tokens = .error e ∧
      ∃ before tok after rest, closed "shell" tokens = before ++ tok :: after ∧
        Grammar.standard.script (.ofTokens "shell" tokens) = .error e rest ∧
        rest.tokens = tok :: after ∧ e.position = tok.span.start ∧
        (∃ more n, recognize "shell" (before ++ more) = .ok n) ∧
        ∀ file' others, (before ++ [tok]).map Token.kind <+:
          (closed file' others).map Token.kind → ∀ n, recognize file' others ≠ .ok n := by
  intro read tokens
  obtain ⟨e, he⟩ : ∃ e, recognize "shell" tokens = .error e :=
    Except.exists_eq_error (by decide +kernel)
  exact ⟨e, he, refused_at_first_impossible he⟩

end Offside
