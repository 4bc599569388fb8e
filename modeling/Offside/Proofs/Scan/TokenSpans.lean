import Offside.Proofs.Scan.Lexing
import Offside.Proofs.Scan.Places

/-! The spans of a source's tokens are exact. Content stands on the very bytes that are its text,
layout tokens and the end of the input have no width, and no token starts before the one in front of
it has ended. Whether a word is a name or a keyword is up to the reserved words alone. -/
namespace Offside

namespace TokenKind

variable {k : TokenKind} {s : String}

/-- The words of a source are its names and keywords. -/
theorem isWord_iff_of_spells (hk : k.isContent = true) (h : k.spells s = true) :
    isWord s = true ↔ k = .identifier ∨ k ∈ keywords := by
  cases k with
  | identifier => exact ⟨fun _ => .inl rfl, fun _ => (Lexeme.isWord_of_isName h).1⟩
  | number =>
    -- A text cannot start with a digit and with a letter.
    refine ⟨fun hword => ?_, fun h => absurd h (by decide)⟩
    obtain ⟨c, cs, hs, hstart, -⟩ := Lexeme.exists_of_isWord hword
    obtain ⟨d, ds, hd, hdigit, -⟩ := Lexeme.exists_of_isDigits h
    obtain ⟨rfl, -⟩ := List.cons.inj (hs.symm.trans hd)
    rw [Lexeme.not_isWordStart_of_isDigit hdigit] at hstart
    cases hstart
  | eof | newline | indent | dedent => cases hk
  | _ =>
    obtain rfl := eq_of_spells_of_text? rfl h
    decide

/-- A word has the kind of the reserved word that it is, and otherwise is a name. -/
theorem eq_of_isWord (hk : k.isContent = true) (h : k.spells s = true) (hword : isWord s = true) :
    k = (keyword? s).getD .identifier := by
  obtain rfl | hkeyword := (isWord_iff_of_spells hk h).1 hword
  · rw [(Lexeme.isWord_of_isName h).2]
    rfl
  · have hall : ∀ k ∈ keywords, k.text?.bind keyword? = some k := by decide
    obtain ⟨t, ht, hreserved⟩ := Option.bind_eq_some_iff.1 (hall k hkeyword)
    obtain rfl := eq_of_spells_of_text? ht h
    rw [hreserved]
    rfl

end TokenKind

/-- A token that stands in a source just where its span says. -/
structure Token.Exact (file : String) (source : List Char) (tok : Token) : Prop where
  start : tok.span.start.IsCut file source
  stop : tok.span.stop.IsCut file source
  start_le_stop : tok.span.start.offset.toNat ≤ tok.span.stop.offset.toNat
  stop_le : tok.span.stop.offset.toNat ≤ Text.byteSize source
  /-- Content has at least one byte, and its bytes are its text. -/
  content : tok.kind.isContent = true →
    tok.span.start.offset.toNat < tok.span.stop.offset.toNat ∧
      Text.slice? source tok.span.start.offset.toNat tok.span.stop.offset.toNat =
        some tok.value.toList
  /-- Layout and the end of the input have no width. -/
  noWidth : tok.kind.isContent = false → tok.span.start = tok.span.stop
  /-- A word has the kind that the reserved words give it, or is a name. -/
  word : tok.kind.isContent = true →
    (TokenKind.isWord tok.value = true ↔ tok.kind = .identifier ∨ tok.kind ∈ TokenKind.keywords) ∧
      (TokenKind.isWord tok.value = true →
        tok.kind = (TokenKind.keyword? tok.value).getD .identifier)

variable {file : String} {source : List Char} {tok : Token} {tokens : List Token} {p : Place}

theorem Token.Exact.of_point {k : TokenKind} {value : String}
    (hsize : Text.byteSize source < UInt32.size) (hp : p.In file source)
    (hk : k.isContent = false) : Token.Exact file source ⟨k, value, .point p.position⟩ := by
  have hcut := hp.isCut hsize
  constructor
  · exact hcut
  · exact hcut
  · exact Nat.le_refl _
  · exact hcut.offset_le
  · exact fun hcontent => absurd hcontent (by simp [hk])
  · exact fun _ => rfl
  · exact fun hcontent => absurd hcontent (by simp [hk])

theorem Scanner.Emits.exact (hsize : Text.byteSize source < UInt32.size)
    (h : Emits file source tok) : tok.Exact file source := by
  have hwritten := h.written hsize
  cases h with
  | @layout p k hp hk =>
    refine .of_point hsize hp ?_
    cases k <;> first | rfl | cases hk
  | @content p k value hp hl =>
    have hcontent := (Lexeme.isContent_of_first? hl).1
    have hstop := (hp.skip value.length).isCut hsize
    have hlt := hwritten.start_lt_stop hcontent
    constructor
    · exact hp.isCut hsize
    · exact hstop
    · exact Nat.le_of_lt hlt
    · exact hstop.offset_le
    · intro _
      have hslice := hp.slice?_span hsize (Lexeme.value_prefix_of_first? hl)
      rw [String.toList_ofList]
      exact ⟨hlt, hslice⟩
    · exact fun hother => absurd hcontent (by simp [hother])
    · intro _
      have hspelled := hwritten.spelled
      exact ⟨TokenKind.isWord_iff_of_spells hcontent hspelled,
        TokenKind.eq_of_isWord hcontent hspelled⟩

/-- Token spans are exact. Every token of a source stands just where its span says, under the name
of the source, and none starts before those in front of it have ended. -/
theorem token_spans_exact (hsize : Text.byteSize source < UInt32.size)
    (h : tokenize file source = .ok tokens) :
    (∀ tok ∈ tokens, tok.Exact file source) ∧
      tokens.Pairwise fun a b => a.span.stop.offset.toNat ≤ b.span.start.offset.toNat := by
  refine ⟨?_, (tokensBetween_of_tokenize hsize h).pairwise⟩
  obtain ⟨front, p, rfl, hp, hfront⟩ := emits_of_tokenize h
  refine List.forall_mem_append.2 ⟨fun tok htok => (hfront tok htok).exact hsize, ?_⟩
  exact List.forall_mem_singleton.2 (.of_point hsize hp rfl)

/-- Characters of several bytes in a comment, an operator of two, a keyword and names that start
like one. -/
theorem token_spans_exact_words :
    let source := "# é€\nif iff <= _in:\n\tx1 = (a -\n b)".toList
    Text.byteSize source < UInt32.size ∧ ∃ tokens, tokenize "shell" source = .ok tokens ∧
      tokens.map Token.spelling = [(.kwIf, "if"), (.identifier, "iff"), (.lessEquals, "<="),
        (.identifier, "_in"), (.colon, ":"), (.newline, ""), (.indent, ""), (.identifier, "x1"),
        (.assignment, "="), (.openParen, "("), (.identifier, "a"), (.dash, "-"),
        (.identifier, "b"), (.closeParen, ")"), (.newline, ""), (.dedent, ""), (.eof, "EOF")] ∧
      (∀ tok ∈ tokens, tok.Exact "shell" source) ∧
      tokens.Pairwise fun a b => a.span.stop.offset.toNat ≤ b.span.start.offset.toNat := by
  intro source
  have hsize : Text.byteSize source < UInt32.size := by decide +kernel
  obtain ⟨tokens, htokens, hspelling⟩ := Except.exists_eq_ok_of (x := tokenize "shell" source)
    (p := fun tokens => decide (tokens.map Token.spelling = [(.kwIf, "if"), (.identifier, "iff"),
      (.lessEquals, "<="), (.identifier, "_in"), (.colon, ":"), (.newline, ""), (.indent, ""),
      (.identifier, "x1"), (.assignment, "="), (.openParen, "("), (.identifier, "a"), (.dash, "-"),
      (.identifier, "b"), (.closeParen, ")"), (.newline, ""), (.dedent, ""), (.eof, "EOF")]))
    (by decide +kernel)
  exact ⟨hsize, tokens, htokens, of_decide_eq_true hspelling, token_spans_exact hsize htokens⟩

end Offside
