import Offside.Proofs.Scan.Lexing
import Offside.Proofs.Scan.Span

/-! What every source's tokens are like: they have the text that they stand on, spelled as their
kind wants, an indentation is followed by the content of its line, and the parentheses that they
leave open are those that the scanner takes for open. -/
namespace Offside

/-- A token of a source before the final one: its text is that of its span, and one of its kind. -/
structure Token.Written (source : List Char) (tok : Token) : Prop where
  text : tok.span.text source = tok.value
  spelled : tok.kind.spells tok.value = true
  kind_ne_eof : tok.kind ≠ .eof

theorem Token.Written.value_eq {source : List Char} {tok : Token} {t : String}
    (h : tok.Written source) (ht : tok.kind.text? = some t) : tok.value = t :=
  TokenKind.eq_of_spells_of_text? ht h.spelled

theorem Token.Written.text_eq {source : List Char} {tok : Token} {k : TokenKind} {t : String}
    (h : tok.Written source) (hk : tok.kind = k) (ht : k.text? = some t) :
    tok.span.text source = t :=
  h.text.trans (h.value_eq (hk ▸ ht))

/-- A token that has a text starts before it ends. -/
theorem Token.Written.start_lt_stop {source : List Char} {tok : Token} (h : tok.Written source)
    (hcontent : tok.kind.isContent = true) :
    tok.span.start.offset.toNat < tok.span.stop.offset.toNat := by
  have hvalue := TokenKind.ne_empty_of_spells hcontent h.spelled
  refine Nat.lt_of_not_le fun hle => hvalue ?_
  rw [← h.text, Span.text, Text.slice?]
  split
  · have hzero : tok.span.stop.offset.toNat - tok.span.start.offset.toNat = 0 := by omega
    rw [hzero]
    cases Text.dropBytes? tok.span.start.offset.toNat source <;> simp [Text.takeBytes?]
  · rfl

namespace Place

/-- Whether a character comes next that is the content of its line. -/
def AtContent (p : Place) : Prop :=
  ∃ c rest, p.rest = c :: rest ∧ endsContent c = false ∧ isIndentation c = false

theorem rest_content (p : Place) : p.content.rest = p.rest.dropWhile isIndentation := by
  have hsplit := List.takeWhile_append_dropWhile (p := isIndentation) (l := p.rest)
  calc p.content.rest = p.rest.drop (p.rest.takeWhile isIndentation).length := rfl
    _ = (p.rest.takeWhile isIndentation ++ p.rest.dropWhile isIndentation).drop
          (p.rest.takeWhile isIndentation).length := by rw [hsplit]
    _ = p.rest.dropWhile isIndentation := List.drop_left

/-- A line is entered where its content starts. -/
theorem atContent_of_lineStart {p q : Place} {width : Nat} (h : p.lineStart = (q, some width)) :
    q.AtContent := by
  fun_induction Place.lineStart p with
  | case1 p hrest => cases h
  | case2 p c rest hrest hc ih => exact ih h
  | case3 p c rest hrest hc =>
    cases h
    refine ⟨c, rest, hrest, by simpa using hc, ?_⟩
    rw [rest_content] at hrest
    have hhead := List.head_dropWhile_not isIndentation (l := p.rest) (by simp [hrest])
    simpa [hrest] using hhead

theorem AtContent.token_of_first? {p : Place} {l : Lexeme} (hp : p.AtContent)
    (h : Lexeme.first? p.rest = some l) : ∃ k v, l = .token k v := by
  obtain ⟨c, rest, hrest, hends, hindent⟩ := hp
  refine Classical.byContradiction fun hno => ?_
  rw [hrest] at h
  obtain rfl | hblank | rfl := Lexeme.head_of_not_token h fun k v hkv => hno ⟨k, v, hkv⟩
  · cases hends
  · simp only [Lexeme.isBlank, endsContent, isIndentation, Bool.or_eq_true,
      Bool.or_eq_false_iff, decide_eq_true_eq, decide_eq_false_iff_not] at hblank hends hindent
    obtain (hc | hc) | hc := hblank
    · exact hindent.1 hc
    · exact hindent.2 hc
    · exact hends.1.2 hc
  · cases hends

end Place

namespace Scanner

variable {file : String} {source : List Char} {tokens more : List Token} {s s' : Scanner}

/-- The content of a line starts with a token. -/
theorem Step.token_of_atContent (hs : s.place.AtContent) (h : s.Step tokens s') :
    ∃ tok, tokens = [tok] ∧ tok.kind.isContent = true := by
  cases h with
  | joined hl => obtain ⟨k, v, hkv⟩ := hs.token_of_first? hl; cases hkv
  | broken hl => obtain ⟨k, v, hkv⟩ := hs.token_of_first? hl; cases hkv
  | blank hl => obtain ⟨k, v, hkv⟩ := hs.token_of_first? hl; cases hkv
  | token hl => exact ⟨_, rfl, (Lexeme.isContent_of_first? hl).1⟩

/-- Where an indentation has been emitted last, the content of a line comes next. -/
def Leads (tokens : List Token) (s : Scanner) : Prop :=
  (∀ next : TokenKind, next.isContent = true → IndentsLead next tokens) ∧
    (s.place.AtContent ∨ ∀ next, IndentsLead next tokens)

theorem indentsLead_of_forall {next : TokenKind} (h : ∀ tok ∈ tokens, tok.kind ≠ .indent) :
    IndentsLead next tokens := by
  induction tokens with
  | nil => trivial
  | cons tok rest ih =>
    obtain ⟨htok, hrest⟩ := List.forall_mem_cons.1 h
    exact ⟨fun hk => absurd hk htok, ih hrest⟩

theorem leads_of_forall (h : ∀ tok ∈ tokens, tok.kind ≠ .indent) : Leads tokens s :=
  ⟨fun _ _ => indentsLead_of_forall h, .inr fun _ => indentsLead_of_forall h⟩

theorem Enters.leads (h : s.Enters tokens s') : Leads tokens s' := by
  cases h with
  | ended => exact leads_of_forall (List.forall_mem_nil _)
  | wider hline =>
    exact ⟨fun next hnext => ⟨fun _ => hnext, trivial⟩, .inl (Place.atContent_of_lineStart hline)⟩
  | level =>
    refine leads_of_forall fun tok htok => ?_
    rw [List.eq_of_mem_replicate htok]
    exact (by decide : TokenKind.dedent ≠ .indent)

theorem Leads.append (hnext : ∀ next, IndentsLead next tokens) (hmore : Leads more s') :
    Leads (tokens ++ more) s' :=
  ⟨fun next hn => indentsLead_append.2 ⟨hnext _, hmore.1 next hn⟩,
    hmore.2.imp_right fun hm next => indentsLead_append.2 ⟨hnext _, hm next⟩⟩

theorem Step.leads (h : s.Step tokens s') : Leads tokens s' := by
  cases h with
  | joined => exact leads_of_forall (List.forall_mem_nil _)
  | broken _ _ hentered =>
    obtain ⟨n, hn⟩ := s.endLine_eq_replicate
    have hend : ∀ next, IndentsLead next s.endLine := by
      intro next
      refine indentsLead_of_forall fun tok htok => ?_
      rw [hn] at htok
      rw [List.eq_of_mem_replicate htok]
      exact (by decide : TokenKind.newline ≠ .indent)
    exact .append hend hentered.leads
  | blank => exact leads_of_forall (List.forall_mem_nil _)
  | token hl =>
    refine leads_of_forall fun tok htok => ?_
    cases List.mem_singleton.1 htok
    rintro rfl
    exact absurd (Lexeme.isContent_of_first? hl).1 (by decide)

theorem Reaches.leads (h : Reaches file source tokens s) : Leads tokens s := by
  induction h with
  | start hentered => exact hentered.leads
  | step hbefore hstep ih =>
    obtain hcontent | hall := ih.2
    · obtain ⟨tok, rfl, htok⟩ := hstep.token_of_atContent hcontent
      have hkind : tok.kind ≠ .indent := by
        intro hk
        rw [hk] at htok
        cases htok
      have hlast : ∀ next, IndentsLead next [tok] := fun next =>
        ⟨fun hk => absurd hk hkind, trivial⟩
      have hwhole : ∀ next, IndentsLead next (_ ++ [tok]) := fun next =>
        indentsLead_append.2 ⟨ih.1 _ htok, hlast next⟩
      exact ⟨fun next _ => hwhole next, .inr hwhole⟩
    · exact .append hall hstep.leads

theorem isLayout_of_replicate {k : TokenKind} (hk : k.isLayout = true) (p : Position) (n : Nat) :
    ∀ tok ∈ List.replicate n (Token.layout k p), tok.kind.isLayout = true := by
  intro tok htok
  rw [List.eq_of_mem_replicate htok]
  exact hk

theorem isLayout_endLine (s : Scanner) : ∀ tok ∈ s.endLine, tok.kind.isLayout = true := by
  obtain ⟨n, hn⟩ := s.endLine_eq_replicate
  rw [hn]
  exact isLayout_of_replicate rfl _ _

theorem Enters.isLayout (h : s.Enters tokens s') : ∀ tok ∈ tokens, tok.kind.isLayout = true := by
  cases h with
  | ended => exact List.forall_mem_nil _
  | wider => exact isLayout_of_replicate rfl _ 1
  | level => exact isLayout_of_replicate rfl _ _

theorem Enters.depth (h : s.Enters tokens s') : s'.depth = s.depth := by cases h <;> rfl

theorem Step.parens (hs : parensAfter 0 tokens = s.depth) (h : s.Step more s') :
    parensAfter 0 (tokens ++ more) = s'.depth := by
  rw [parensAfter_append, hs]
  cases h with
  | joined => rfl
  | broken _ _ hentered =>
    rw [parensAfter_append, parensAfter_of_layout s.isLayout_endLine,
      parensAfter_of_layout hentered.isLayout, hentered.depth]
  | blank => rfl
  | token => rfl

/-- The parentheses that are open are those that the tokens so far leave open. -/
theorem Reaches.parens (h : Reaches file source tokens s) : parensAfter 0 tokens = s.depth := by
  induction h with
  | start hentered =>
    rw [parensAfter_of_layout hentered.isLayout, hentered.depth]
    rfl
  | step _ hstep ih => exact hstep.parens ih

/-- What the scanner emits at the places of a source: layout tokens, and tokens of the characters
that come next. -/
inductive Emits (file : String) (source : List Char) : Token → Prop
  | layout {p : Place} {k} : p.In file source → k.isLayout = true →
      Emits file source (.layout k p.position)
  | content {p : Place} {k value} : p.In file source →
      Lexeme.first? p.rest = some (.token k value) →
      Emits file source ⟨k, String.ofList value, p.span value.length⟩

theorem emits_replicate {p : Place} {k : TokenKind} {n : Nat} (hp : p.In file source)
    (hk : k.isLayout = true) :
    ∀ tok ∈ List.replicate n (Token.layout k p.position), Emits file source tok := by
  intro tok htok
  rw [List.eq_of_mem_replicate htok]
  exact .layout hp hk

theorem emits_endLine (hs : s.place.In file source) : ∀ tok ∈ s.endLine, Emits file source tok := by
  obtain ⟨n, hn⟩ := s.endLine_eq_replicate
  rw [hn]
  exact emits_replicate hs rfl

theorem Enters.emits (hs : s.place.In file source) (h : s.Enters tokens s') :
    ∀ tok ∈ tokens, Emits file source tok := by
  have hplace := h.place_in hs
  cases h with
  | ended => exact List.forall_mem_nil _
  | wider => exact List.forall_mem_singleton.2 (.layout hplace rfl)
  | level => exact emits_replicate hplace rfl

theorem Step.emits (hs : s.place.In file source) (h : s.Step tokens s') :
    ∀ tok ∈ tokens, Emits file source tok := by
  cases h with
  | joined => exact List.forall_mem_nil _
  | broken _ _ hentered =>
    exact List.forall_mem_append.2 ⟨emits_endLine hs, hentered.emits (hs.skip _)⟩
  | blank => exact List.forall_mem_nil _
  | token hl => exact List.forall_mem_singleton.2 (.content hs hl)

theorem Reaches.emits (h : Reaches file source tokens s) :
    ∀ tok ∈ tokens, Emits file source tok := by
  induction h with
  | start hentered => exact hentered.emits (Place.In.front file source)
  | step hbefore hstep ih => exact List.forall_mem_append.2 ⟨ih, hstep.emits hbefore.place⟩

theorem Emits.written {tok : Token} (hsize : Text.byteSize source < UInt32.size)
    (h : Emits file source tok) : tok.Written source := by
  cases h with
  | @layout p k hp hk =>
    refine ⟨(hp.text_span hsize (v := []) (List.nil_prefix)).trans rfl, ?_, ?_⟩
    · cases k <;> first | rfl | cases hk
    · rintro rfl
      cases hk
  | content hp hl =>
    obtain ⟨hcontent, hspelled⟩ := Lexeme.isContent_of_first? hl
    refine ⟨hp.text_span hsize (Lexeme.value_prefix_of_first? hl), hspelled, ?_⟩
    rintro rfl
    cases hcontent

end Scanner

/-- Tokens of a source in a row, before a token of some kind. -/
structure TokensOf (source : List Char) (next : TokenKind) (tokens : List Token) : Prop where
  written : ∀ tok ∈ tokens, tok.Written source
  indentsLead : IndentsLead next tokens
  inOrder : ∃ i j, TokensBetween i j tokens

namespace TokensOf

variable {source : List Char} {next : TokenKind} {u v : List Token} {tok : Token}

theorem append (h : TokensOf source next (u ++ v)) :
    TokensOf source (firstKind v next) u ∧ TokensOf source next v := by
  obtain ⟨hu, hv⟩ := List.forall_mem_append.1 h.written
  obtain ⟨hlu, hlv⟩ := indentsLead_append.1 h.indentsLead
  obtain ⟨i, k, hik⟩ := h.inOrder
  obtain ⟨j, hij, hjk⟩ := hik.of_append
  exact ⟨⟨hu, hlu, i, j, hij⟩, ⟨hv, hlv, j, k, hjk⟩⟩

theorem tail (h : TokensOf source next (tok :: u)) : TokensOf source next u :=
  (append (u := [tok]) h).2

theorem head (h : TokensOf source next (tok :: u)) : tok.Written source :=
  h.written tok List.mem_cons_self

/-- A token that has a text starts before those after it. -/
theorem start_lt (h : TokensOf source next (tok :: u)) (hcontent : tok.kind.isContent = true)
    {other : Token} (hother : other ∈ u) :
    tok.span.start.offset.toNat < other.span.start.offset.toNat := by
  obtain ⟨i, j, -, -, hrest⟩ := h.inOrder
  calc tok.span.start.offset.toNat < tok.span.stop.offset.toNat := h.head.start_lt_stop hcontent
    _ ≤ other.span.start.offset.toNat := (hrest.of_mem hother).1

end TokensOf

/-- The tokens of a source are its own, and one that closes them. -/
theorem tokensOf_of_tokenize {file : String} {source : List Char} {tokens : List Token}
    (hsize : Text.byteSize source < UInt32.size) (h : tokenize file source = .ok tokens) :
    ∃ front p, tokens = front ++ [.endAt p] ∧ TokensOf source .eof front := by
  obtain ⟨front, last, hlast, hrest, rfl⟩ := reaches_of_tokenize h
  have hplace := hlast.place
  obtain ⟨n, hn⟩ := last.endLine_eq_replicate
  refine ⟨front ++ (last.endLine ++
    List.replicate (last.levels.length - 1) (.layout .dedent last.place.position)),
    last.place.position, by simp [Scanner.finish], ?_, ?_, ?_⟩
  · refine List.forall_mem_append.2 ⟨fun tok htok => (hlast.emits tok htok).written hsize,
      List.forall_mem_append.2 ⟨fun tok htok => ?_, fun tok htok => ?_⟩⟩
    · exact (Scanner.emits_endLine hplace tok htok).written hsize
    · exact (Scanner.emits_replicate hplace rfl tok htok).written hsize
  · obtain ⟨c, rest, hcontent, -⟩ | hleads := hlast.leads.2
    · rw [hrest] at hcontent
      cases hcontent
    · refine indentsLead_append.2 ⟨hleads _, Scanner.indentsLead_of_forall ?_⟩
      rw [hn]
      refine List.forall_mem_append.2 ⟨fun tok htok => ?_, fun tok htok => ?_⟩
      · rw [List.eq_of_mem_replicate htok]
        exact (by decide : TokenKind.newline ≠ .indent)
      · rw [List.eq_of_mem_replicate htok]
        exact (by decide : TokenKind.dedent ≠ .indent)
  · obtain ⟨k, hfinish, -⟩ := (Scanner.tokensBetween_finish hsize hplace).of_append
    exact ⟨0, k, (hlast.tokensBetween hsize).append hfinish⟩

/-- The content of a source has the text that it stands on. -/
theorem text_of_tokenize {file : String} {source : List Char} {tokens : List Token}
    (hsize : Text.byteSize source < UInt32.size) (h : tokenize file source = .ok tokens) :
    ∀ tok ∈ tokens, tok.kind.isContent = true → tok.span.text source = tok.value := by
  obtain ⟨front, p, rfl, hfront⟩ := tokensOf_of_tokenize hsize h
  refine List.forall_mem_append.2 ⟨fun tok htok _ => (hfront.written tok htok).text, ?_⟩
  exact List.forall_mem_singleton.2 nofun

end Offside
