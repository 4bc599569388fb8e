import Offside.Proofs.Caret
import Offside.Proofs.Grammar.Stretches
import Offside.Proofs.Program.Places
import Offside.Proofs.StageErrors

/-! Errors point into the source. The scanner stops at a character, the recognizer at the start of a
token, and the parts that the later stages complain about stand on stretches of the source. A line
of the source shows the error, but not so far to the right that the caret cannot be drawn. -/
namespace Offside

variable {file : String} {source : List Char} {e : Error}

theorem Fault.isCut {n : Node} (h : Fault source n e) (hn : n.Stretches file source) :
    e.position.IsCut file source := by
  have hstart : ∀ c ∈ n.children, c.span.start.IsCut file source := fun c hc =>
    (hn c (.child hc .self)).1.isCut
  have hstop : ∀ c ∈ n.children, c.span.stop.IsCut file source := fun c hc =>
    (hn c (.child hc .self)).2
  cases h with
  | untypedParameter hlacks =>
    obtain ⟨hpair, -, -⟩ := hlacks
    exact hstart _ (hpair.subset List.mem_cons_self)
  | missingValue => exact hstop _ (by simp)
  | unknownType => exact hstart _ (by simp)
  | unknownOperator => exact hstart _ (by simp)
  | signWithoutNumber => exact hstart _ (by simp)
  | signedOutOfRange => exact (hn _ .self).1.isCut
  | numberOutOfRange => exact (hn _ .self).1.isCut
  | namelessCall => exact hstart _ (by simp)

theorem Fault.errorClass {n : Node} (h : Fault source n e) :
    e.cause.errorClass = .structural := by
  cases h with
  | untypedParameter hlacks =>
    cases hlacks
    rfl
  | _ => rfl

theorem errorClass_of_recognize {tokens : List Token} (h : recognize file tokens = .error e) :
    e.cause.errorClass = .lexical := by
  obtain ⟨token, hcause⟩ | ⟨token, message, hcause⟩ := cause_of_recognize h
  · rw [hcause]
    rfl
  · rw [hcause]
    rfl

section

variable (hsize : Text.byteSize source < UInt32.size)
include hsize

/-- Each part of the lines of a source stands on a stretch of it. -/
theorem stretches_of_lines {front : List Token} {q : Position} {nodes : List Node}
    (htokens : tokenize file source = .ok (front ++ [.endAt q]))
    (hlines : Script.Lines .eof front nodes) : ∀ c ∈ nodes, c.Stretches file source :=
  hlines.forest.stretches (isStretch_of_tokenize hsize htokens)

/-- The recognizer stops where a token starts. -/
theorem isCut_of_recognize {tokens : List Token} (htokens : tokenize file source = .ok tokens)
    (h : recognize file tokens = .error e) : e.position.IsCut file source := by
  obtain ⟨tok, htok, hposition, -⟩ := refused_of_recognize h
  obtain ⟨front, q, rfl, -⟩ := tokensOf_of_tokenize hsize htokens
  have hclosed : closed file (front ++ [.endAt q]) = front ++ [.endAt q] := by
    simp [closed, Token.endAt]
  rw [hclosed] at htok
  rw [hposition]
  exact isCut_of_tokenize hsize htokens tok htok

theorem isCut_of_toProgram {n : Node} (hn : treeOf file source = .ok n)
    (h : n.toProgram source = .error e) :
    e.position.IsCut file source ∧ e.cause.errorClass = .structural := by
  obtain ⟨front, q, nodes, htokens, hfront, hlines, rfl⟩ := lines_of_treeOf hsize hn
  rw [hlines.toProgram_eq] at h
  obtain ⟨c, hc, part, hpart, hfault⟩ := faulty_of_lines hlines hfront h
  have hstretches := stretches_of_lines hsize htokens hlines c hc
  exact ⟨hfault.isCut (hstretches.of_partOf hpart), hfault.errorClass⟩

theorem isCharacter_of_check {p : Program Span} (hp : programOf file source = .ok p)
    (h : p.check = .error e) : e.position.IsCharacter file source := by
  obtain ⟨front, q, nodes, htokens, hfront, hlines, hstatements⟩ := lines_of_programOf hsize hp
  obtain ⟨s, hs, htyping⟩ := Program.isTypingIn_of_check h
  obtain ⟨c, hc, b, hb, rfl⟩ := spansOf_of_lines hlines hfront hstatements s hs
  rw [htyping.position]
  exact (stretches_of_lines hsize htokens hlines c hc b hb).1

/-- An error of the scanner or the checker stands where a character starts. One of the recognizer,
or about what a tree stands for, may stand at the end of the source. -/
theorem isCharacter_or_isCut (h : typedProgramOf file source = .error e) :
    e.position.IsCharacter file source ∨
      e.position.IsCut file source ∧ tokenize file source ≠ .error e ∧
        e.cause.errorClass ≠ .typing ∧ e.cause.errorClass ≠ .naming := by
  obtain hprogram | ⟨p, hp, hcheck⟩ := Except.bind_eq_error_iff.1 h
  · obtain htree | ⟨n, hn, hmeaning⟩ := Except.bind_eq_error_iff.1 hprogram
    · obtain htokens | ⟨tokens, htokens, hrecognize⟩ := Except.bind_eq_error_iff.1 htree
      · exact .inl (isCharacter_of_tokenize hsize htokens)
      · have hclass := errorClass_of_recognize hrecognize
        refine .inr ⟨isCut_of_recognize hsize htokens hrecognize, ?_, ?_⟩
        · rw [htokens]
          exact nofun
        · rw [hclass]
          exact ⟨nofun, nofun⟩
    · obtain ⟨hcut, hclass⟩ := isCut_of_toProgram hsize hn hmeaning
      obtain ⟨tokens, htokens, -⟩ := Except.bind_eq_ok_iff.1 hn
      refine .inr ⟨hcut, ?_, ?_⟩
      · rw [htokens]
        exact nofun
      · rw [hclass]
        exact ⟨nofun, nofun⟩
  · exact .inl (isCharacter_of_check hsize hp hcheck)

end

/-- The report on an error at a byte of a source ends with a caret below the byte's line. -/
theorem report?_eq_of_lineAt? {l : Text.Line}
    (hl : Text.lineAt? source e.position.offset.toNat = some l)
    (hcaret : Error.caretColumn l + 1 < UInt16.size) :
    ∃ above, e.report? source = some (String.ofList
      (above ++ '|' :: ' ' :: List.replicate (Error.caretColumn l) '-' ++ ['^', '\n'])) := by
  let number := (toString l.number).toList
  rw [Error.report?_of_lt hl hcaret]
  refine ⟨[e.headline.toList, ("-> " ++ e.position.file).toList, Error.bar l,
    number ++ [' ', '|', ' '] ++ Error.shownLine l.text].flatMap (· ++ ['\n']) ++
      List.replicate (number.length + 1) ' ', ?_⟩
  simp [Error.bar, number]

/-- Every error stands in the source, under the name of the source: it lies between two characters
or at an end, and where it is about spelling, types or names a line of the source holds it. That
line is shown with a caret if the width of the caret is one of 16 bits, and else there is no
report. -/
theorem error_in_source (file : Option String)
    (hsize : Text.byteSize source < UInt32.size)
    (h : typedProgramOf (file.getD Position.defaultFile) source = .error e) :
    e.position.file = file.getD Position.defaultFile ∧
    (file ≠ some Position.nowhere.file → e.position.file ≠ Position.nowhere.file) ∧
    e.position.offset.toNat ≤ Text.byteSize source ∧
    (∃ before after, source = before ++ after ∧
      e.position.offset.toNat = Text.byteSize before) ∧
    (tokenize (file.getD Position.defaultFile) source = .error e ∨
        e.cause.errorClass = .typing ∨ e.cause.errorClass = .naming →
      e.position.offset.toNat < Text.byteSize source ∧
      ∃ l : Text.Line, Text.lineAt? source e.position.offset.toNat = some l ∧
        l.IsAt source e.position.offset.toNat ∧
        (Error.caretColumn l + 1 < UInt16.size →
          ∃ above, e.report? source = some (String.ofList
            (above ++ '|' :: ' ' :: List.replicate (Error.caretColumn l) '-' ++ ['^', '\n']))) ∧
        (UInt16.size ≤ Error.caretColumn l + 1 → e.report? source = none)) := by
  have hplace := isCharacter_or_isCut hsize h
  have hcut : e.position.IsCut (file.getD Position.defaultFile) source := by
    obtain hcharacter | ⟨hcut, -⟩ := hplace
    · exact hcharacter.isCut
    · exact hcut
  refine ⟨hcut.1, ?named, hcut.offset_le, hcut.2, ?shown⟩
  case named =>
    intro hfile hnowhere
    rw [hcut.1] at hnowhere
    cases file with
    | none => exact absurd hnowhere (by decide)
    | some name => exact hfile (congrArg some hnowhere)
  case shown =>
    intro hclass
    have hlt : e.position.offset.toNat < Text.byteSize source := by
      obtain hcharacter | ⟨-, htokens, htyping, hnaming⟩ := hplace
      · exact hcharacter.offset_lt
      · obtain hscanned | hchecked | hchecked := hclass
        · exact absurd hscanned htokens
        · exact absurd hchecked htyping
        · exact absurd hchecked hnaming
    obtain ⟨l, hl⟩ := Text.exists_lineAt? hlt
    exact ⟨hlt, l, hl, Text.lineAt?_eq_some_iff.1 hl, report?_eq_of_lineAt? hl,
      Error.report?_of_le hl⟩

/-- Operands of two types, below a comment whose characters are of several bytes. -/
theorem error_in_source_operands :
    let source := "# é€\nx = 1\nif True:\n  y = 2 * (x + None)\n".toList
    Text.byteSize source < UInt32.size ∧
    ∃ e, typedProgramOf ((none : Option String).getD Position.defaultFile) source = .error e ∧
      e.cause.errorClass = .typing ∧
      e.position.file = (none : Option String).getD Position.defaultFile ∧
      e.position.file ≠ Position.nowhere.file ∧
      e.position.offset.toNat ≤ Text.byteSize source ∧
      (∃ before after, source = before ++ after ∧
        e.position.offset.toNat = Text.byteSize before) ∧
      e.position.offset.toNat < Text.byteSize source ∧
      ∃ l : Text.Line, Text.lineAt? source e.position.offset.toNat = some l ∧
        l.IsAt source e.position.offset.toNat ∧
        Error.caretColumn l + 1 < UInt16.size ∧
        ∃ above, e.report? source = some (String.ofList
          (above ++ '|' :: ' ' :: List.replicate (Error.caretColumn l) '-' ++ ['^', '\n'])) := by
  intro source
  have hsize : Text.byteSize source < UInt32.size := by decide +kernel
  obtain ⟨e, he, hknown⟩ : ∃ e,
      typedProgramOf ((none : Option String).getD Position.defaultFile) source = .error e ∧
        decide (e.cause.errorClass = .typing ∧
          (Text.lineAt? source e.position.offset.toNat).all
            (Error.caretColumn · + 1 < UInt16.size)) = true :=
    Except.exists_eq_error_of (by decide +kernel)
  obtain ⟨htyping, hnear⟩ := of_decide_eq_true hknown
  obtain ⟨hfile, hnamed, hle, hcut, hshown⟩ := error_in_source none hsize he
  obtain ⟨hlt, l, hl, hat, hreport, -⟩ := hshown (.inr (.inl htyping))
  have hcaret : Error.caretColumn l + 1 < UInt16.size := by
    rw [hl, Option.all_some] at hnear
    exact of_decide_eq_true hnear
  exact ⟨hsize, e, he, htyping, hfile, hnamed nofun, hle, hcut, hlt, l, hl, hat, hcaret,
    hreport hcaret⟩

/-- A name and blanks are read up to what is no blank. -/
theorem lexes_blanks (n : Nat) :
    Lexes ('x' :: ' ' :: List.replicate n ' ') [(.identifier, "x")] ['?'] := by
  have hblank :
      (List.replicate n ' ' ++ ['?']).takeWhile Lexeme.isBlank = List.replicate n ' ' := by
    rw [List.takeWhile_append_of_pos fun c hc => by rw [List.eq_of_mem_replicate hc]; rfl]
    exact List.append_nil _
  refine .name (s := "x") (t := ' ' :: List.replicate n ' ') (by decide) rfl ?_
  have hfirst : Lexeme.first? (' ' :: List.replicate n ' ' ++ ['?']) =
      some (.blank (' ' :: List.replicate n ' ')) := by
    calc Lexeme.first? (' ' :: (List.replicate n ' ' ++ ['?']))
        = some (.blank (' ' :: (List.replicate n ' ' ++ ['?']).takeWhile Lexeme.isBlank)) := rfl
      _ = _ := by rw [hblank]
  have hread : Lexes (' ' :: List.replicate n ' ' ++ []) [] ['?'] := .blank hfirst .nil
  rwa [List.append_nil] at hread

/-- Behind a name and blanks, a character that starts no token has no report from some column on. -/
theorem report?_behind_blanks {n : Nat} (hwide : UInt16.size ≤ n + 3) (hn : n + 3 < UInt32.size) :
    let source := 'x' :: ' ' :: List.replicate n ' ' ++ ['?']
    Text.byteSize source < UInt32.size ∧
    ∃ e, typedProgramOf Position.defaultFile source = .error e ∧
      tokenize Position.defaultFile source = .error e ∧
      e.position.offset.toNat < Text.byteSize source ∧ e.report? source = none := by
  intro source
  let before := 'x' :: ' ' :: List.replicate n ' '
  have hmem : ∀ c ∈ before, c = 'x' ∨ c = ' ' := by
    intro c hc
    obtain rfl | hc := List.mem_cons.1 hc
    · exact .inl rfl
    · exact .inr (List.eq_of_mem_replicate (n := n + 1) hc)
  have hbefore : Text.byteSize before = n + 2 := by
    have hone : ∀ c ∈ before, c.utf8Size = 1 := fun c hc => by obtain rfl | rfl := hmem c hc <;> rfl
    rw [Text.byteSize_eq_length_iff.2 hone]
    simp [before]
  have hsource : Text.byteSize source = n + 3 := by
    change Text.byteSize (before ++ ['?']) = n + 3
    rw [Text.byteSize_append, hbefore]
    rfl
  have htokens := tokenize_of_lexes (lexes_blanks n) ⟨'x', _, rfl, by decide⟩ rfl
    Position.defaultFile
  let e : Error := ⟨.unrecognisedToken "?", (Text.byteSize before).toUInt32, Position.defaultFile⟩
  have hposition : e.position.offset.toNat = Text.byteSize ([] ++ before) :=
    UInt32.toNat_ofNat_of_lt (by omega)
  refine ⟨hsource ▸ hn, e, ?stopped, htokens, ?inside, ?unshown⟩
  case stopped =>
    rw [typedProgramOf, programOf, treeOf, htokens]
    rfl
  case inside =>
    rw [hposition, List.nil_append, hbefore, hsource]
    exact Nat.lt_succ_self _
  case unshown =>
    have hfeed : '\n' ∉ before := fun hc => by cases hmem _ hc <;> contradiction
    obtain ⟨more, hline, hcolumn, -⟩ :=
      Error.caretColumn_append hfeed (rfl : Text.isBlank '?' = false) (.inl rfl) hposition []
    have hnotSpace : before.dropWhile (· = ' ') = before := List.dropWhile_cons_of_neg (by decide)
    refine Error.report?_of_le hline ?_
    rw [hcolumn, hnotSpace, hbefore]
    exact hwide

/-- The caret would stand in column 65536, so the error is not shown, though a byte of the source is
at its position. -/
theorem no_report_behind_blanks :
    let source := 'x' :: ' ' :: List.replicate 65533 ' ' ++ ['?']
    Text.byteSize source < UInt32.size ∧
    ∃ e, typedProgramOf Position.defaultFile source = .error e ∧
      tokenize Position.defaultFile source = .error e ∧
      e.position.offset.toNat < Text.byteSize source ∧ e.report? source = none :=
  report?_behind_blanks (by decide) (by decide)

end Offside
