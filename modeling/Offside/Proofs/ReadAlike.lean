import Offside.Proofs.FrontEnd
import Offside.Proofs.Program.AlikeStatement
import Offside.Proofs.Recognizer.FirstRefusal
import Offside.Proofs.Scan.Moved
import Offside.Proofs.Typing.Relocation

/-! Two sources whose tokens are alike are accepted alike. Their programs and the types in these
differ in their places only, or they are refused for causes of one name, at places that are taken
for the same. -/
namespace Offside

variable {v w : View} {file : String} {tokens tokens' : List Token} {e : Error}

/-- Tokens that are alike and start at places that are taken for the same. -/
structure Token.PlacedAlike (v w : View) (tok tok' : Token) : Prop extends
    Token.Alike v w tok tok' where
  start : v.place tok.span.start = w.place tok'.span.start

/-- Tokens of one spelling on spans that are taken for the same. -/
structure Token.SpelledAlike (v w : View) (tok tok' : Token) : Prop where
  spelling : tok'.spelling = tok.spelling
  span : tok.span.Alike v w tok'.span

/-- The same tokens elsewhere are spelled alike. -/
theorem spelledAlike_map {source source' : List Char} {f : Position → Position} {u : List Token} :
    List.Forall₂ (Token.SpelledAlike ⟨source, f⟩ ⟨source', id⟩) u (u.map (Token.map f)) :=
  List.forall₂_map_right_iff.2 (List.forall₂_same.2 fun _ _ => ⟨rfl, rfl⟩)

/-- Tokens of one spelling are alike if their text is the one they stand on. -/
theorem placedAlike_of_spelledAlike {u u' : List Token}
    (hu : ∀ tok ∈ u, tok.kind.isContent = true → tok.span.text v.source = tok.value)
    (hu' : ∀ tok ∈ u', tok.kind.isContent = true → tok.span.text w.source = tok.value)
    (h : List.Forall₂ (Token.SpelledAlike v w) u u') :
    List.Forall₂ (Token.PlacedAlike v w) u u' := by
  induction h with
  | nil => exact .nil
  | @cons tok tok' u u' htok _ ih =>
    obtain ⟨hhead, htail⟩ := List.forall_mem_cons.1 hu
    obtain ⟨hhead', htail'⟩ := List.forall_mem_cons.1 hu'
    obtain ⟨hkind, hvalue⟩ := Prod.mk.inj htok.spelling
    refine .cons ⟨⟨hkind, fun hcontent => ?_, fun _ => htok.span⟩, htok.span.start⟩
      (ih htail htail')
    rw [hhead hcontent, hhead' (hkind ▸ hcontent), hvalue]

theorem map_kind_of_placedAlike {u u' : List Token}
    (h : List.Forall₂ (Token.PlacedAlike v w) u u') : u'.map Token.kind = u.map Token.kind := by
  induction h with
  | nil => rfl
  | cons h _ ih => simp only [List.map_cons, h.kind, ih]

theorem closed_append_endAt (file : String) (u : List Token) (q : Position) :
    closed file (u ++ [.endAt q]) = u ++ [.endAt q] := by
  simp [closed, Token.endAt]

/-- Tokens of the same kinds are refused at the same token, for a cause of the same name. -/
theorem recognize_eq_error_of_alike (h : recognize file tokens = .error e)
    (halike : List.Forall₂ (Token.PlacedAlike v w) (closed file tokens) (closed file tokens')) :
    ∃ e', recognize file tokens' = .error e' ∧ e.Alike v w e' := by
  obtain ⟨rest, hrun⟩ := recognize_eq_error_iff.1 h
  have hlocal := Grammar.local_script (.ofTokens file tokens)
  obtain ⟨u, hu⟩ := hlocal.within
  have hrepeats := hlocal.repeats (.ofTokens file tokens')
  rw [hrun] at hu hrepeats
  obtain ⟨after, hafter⟩ := rest.exists_tokens_eq_cons
  have htokens : closed file tokens = u ++ rest.current :: after := by
    rw [← Stream.tokens_ofTokens, hu, Stream.tokens_prepend, ← hafter]
    rfl
  rw [htokens] at halike
  obtain ⟨u', later, htokens', hbefore, hlater⟩ := exists_append_of_forall₂ halike
  obtain ⟨tok', after', rfl, hcurrent, -⟩ := exists_cons_of_forall₂ hlater
  rw [← Stream.tokens_ofTokens] at htokens'
  obtain ⟨t, ht, hcurrent'⟩ := Stream.exists_prepend_of_tokens htokens'
  have hkind : t.kind = rest.kind := by
    rw [Stream.kind, hcurrent']
    exact hcurrent.kind
  obtain ⟨e', he', hname⟩ := hrepeats t ⟨u, u', hu, ht, map_kind_of_placedAlike hbefore, hkind⟩
  obtain ⟨hposition, -⟩ := hlocal.refuses e rest hrun
  obtain ⟨hposition', -⟩ := (Grammar.local_script _).refuses e' t he'
  refine ⟨e', recognize_eq_error_iff.2 ⟨t, he'⟩, hname, ?_⟩
  rw [hposition, hposition', Stream.position, Stream.position, hcurrent']
  exact hcurrent.start

theorem treeOf_of_tokenize {source : List Char} (h : tokenize file source = .ok tokens) :
    treeOf file source = recognize file tokens := by
  rw [treeOf, h]
  rfl

theorem treeOf_of_tokenize_error {source : List Char} (h : tokenize file source = .error e) :
    treeOf file source = .error e := by
  rw [treeOf, h]
  rfl

theorem programOf_of_treeOf_error {source : List Char} (h : treeOf file source = .error e) :
    programOf file source = .error e := by
  rw [programOf, h]
  rfl

/-- A program is what its lines stand for. -/
theorem programOf_eq_statementsOf {source : List Char} {u : List Token} {q : Position}
    {nodes : List Node} (hu : ∀ tok ∈ u, tok.kind ≠ .eof)
    (htokens : tokenize file source = .ok (u ++ [.endAt q])) (hlines : Script.Lines .eof u nodes) :
    programOf file source = Node.statementsOf source nodes := by
  have htree : recognize file (u ++ [.endAt q]) = _ :=
    (recognize_eq_ok_iff hu).2 ⟨nodes, hlines, rfl⟩
  rw [← treeOf_of_tokenize htokens] at htree
  rw [programOf, htree, ← hlines.toProgram_eq]
  rfl

/-- Sources with tokens that are spelled alike have programs that are alike. -/
theorem programOf_alike (hv : Text.byteSize v.source < UInt32.size)
    (hw : Text.byteSize w.source < UInt32.size)
    (h : Except.Alike (List.Forall₂ (Token.SpelledAlike v w)) (Error.Alike v w)
      (tokenize file v.source) (tokenize file w.source)) :
    StmtsReadAlike v w (programOf file v.source) (programOf file w.source) := by
  cases htokens : tokenize file v.source with
  | error e =>
    rw [htokens] at h
    obtain ⟨e', htokens', he⟩ := h.exists_error
    rw [programOf_of_treeOf_error (treeOf_of_tokenize_error htokens),
      programOf_of_treeOf_error (treeOf_of_tokenize_error htokens')]
    exact .error he
  | ok tokens =>
    rw [htokens] at h
    obtain ⟨tokens', htokens', hspelled⟩ := h.exists_ok
    have halike := placedAlike_of_spelledAlike (text_of_tokenize hv htokens)
      (text_of_tokenize hw htokens') hspelled
    obtain ⟨u, q, rfl, hu⟩ := tokensOf_of_tokenize hv htokens
    obtain ⟨u', q', rfl, hu'⟩ := tokensOf_of_tokenize hw htokens'
    have heof := fun tok htok => (hu.written tok htok).kind_ne_eof
    have heof' := fun tok htok => (hu'.written tok htok).kind_ne_eof
    cases hnode : recognize file (u ++ [.endAt q]) with
    | error e =>
      rw [← closed_append_endAt file u, ← closed_append_endAt file u'] at halike
      obtain ⟨e', hnode', he⟩ := recognize_eq_error_of_alike hnode halike
      rw [← treeOf_of_tokenize htokens] at hnode
      rw [← treeOf_of_tokenize htokens'] at hnode'
      rw [programOf_of_treeOf_error hnode, programOf_of_treeOf_error hnode']
      exact .error he
    | ok n =>
      obtain ⟨nodes, hlines, -⟩ := (recognize_eq_ok_iff heof).1 hnode
      obtain ⟨us, rest, heq, hfront, hend⟩ := exists_append_of_forall₂ halike
      obtain ⟨tok, rfl, -⟩ := exists_singleton_of_forall₂ hend
      obtain ⟨rfl, -⟩ := List.append_inj' heq rfl
      obtain ⟨nodes', hlines', -, hread⟩ :=
        lines_alike hlines hu.written (hfront.imp fun _ _ h => h.toAlike)
      rw [programOf_eq_statementsOf heof htokens hlines,
        programOf_eq_statementsOf heof' htokens' hlines']
      exact hread

/-- Programs that differ in their places only are checked alike. -/
theorem check_alike {p p' : Program Span} (h : Program.Alike v w p p') :
    Except.Alike (fun t t' => Program.moveTyped v.place t = Program.moveTyped w.place t')
      (Error.Alike v w) p.check p'.check := by
  have hp := Program.check_moved (h := v.place) p
  have hp' := Program.check_moved (h := w.place) p'
  unfold Program.Alike at h
  rw [h] at hp
  cases hcheck : p.check with
  | ok t =>
    rw [hcheck] at hp
    obtain ⟨t₁, hmoved, rfl⟩ := hp.exists_ok
    cases hcheck' : p'.check with
    | ok t' =>
      rw [hcheck', hmoved] at hp'
      cases hp' with
      | ok ht => exact .ok ht
    | error e' =>
      rw [hcheck', hmoved] at hp'
      cases hp'
  | error e =>
    rw [hcheck] at hp
    obtain ⟨e₁, hmoved, rfl⟩ := hp.exists_error
    cases hcheck' : p'.check with
    | ok t' =>
      rw [hcheck', hmoved] at hp'
      cases hp'
    | error e' =>
      rw [hcheck', hmoved] at hp'
      cases hp' with
      | error he =>
        have hcause := congrArg Error.cause he
        exact .error ⟨congrArg Cause.name hcause.symm, congrArg Error.position he⟩

/-- Sources with tokens that are spelled alike have typed programs that are alike. -/
theorem typedProgramOf_alike (hv : Text.byteSize v.source < UInt32.size)
    (hw : Text.byteSize w.source < UInt32.size)
    (h : Except.Alike (List.Forall₂ (Token.SpelledAlike v w)) (Error.Alike v w)
      (tokenize file v.source) (tokenize file w.source)) :
    Except.Alike (fun t t' => Program.moveTyped v.place t = Program.moveTyped w.place t')
      (Error.Alike v w) (typedProgramOf file v.source) (typedProgramOf file w.source) :=
  (programOf_alike hv hw h).bind fun _ _ hp => check_alike hp

end Offside
