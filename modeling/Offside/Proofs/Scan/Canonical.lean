import Offside.Proofs.Program.Canonical

/-! The scanner reads the canonical text of a program as the tokens that it is made of. -/
namespace Offside

open Lexeme

variable {α : Type}

section Texts

variable {rest : List Char} {k : TokenKind} {s : String}

theorem Lexes.single (hfirst : first? (s.toList ++ rest) = some (.token k s.toList)) :
    Lexes s.toList [(k, s)] rest := by
  have hwhole := Lexes.fixed (t := []) hfirst .nil
  rwa [List.append_nil] at hwhole

/-- A minus before digits is no arrow. -/
theorem first?_minus (hs : TokenKind.isDigits s = true) :
    first? ("-".toList ++ (s.toList ++ rest)) = some (.token .dash "-".toList) := by
  obtain ⟨c, cs, hs, hdigit, -⟩ := exists_of_isDigits hs
  have hc : ('>' == c) = false := by
    refine beq_false_of_ne ?_
    rintro rfl
    exact absurd hdigit (by decide)
  have harrow : startsWith ('-' :: c :: (cs ++ rest)) .arrow = false := by
    change (true && (('>' == c) && true)) = false
    rw [hc]
    rfl
  have hsymbol : TokenKind.symbols.find? (startsWith ('-' :: c :: (cs ++ rest))) = some .dash := by
    rw [TokenKind.symbols, List.find?_cons_of_neg (by rw [harrow]; exact Bool.false_ne_true)]
    rfl
  rw [hs]
  change symbol? ('-' :: c :: (cs ++ rest)) = _
  rw [symbol?, hsymbol]
  rfl

theorem lexes_integerText (n : Int) (hrest : endsWord rest = true) :
    Lexes (integerText n).toList (integerSpellings n) rest := by
  cases n with
  | ofNat n => exact .single (first?_digits (TokenKind.isDigits_repr n) hrest)
  | negSucc n =>
    rw [integerText, String.toList_append]
    have hdigits := TokenKind.isDigits_repr (n + 1)
    exact .fixed (first?_minus hdigits) (.single (first?_digits hdigits hrest))

theorem first?_operator (op : Operator) (rest : List Char) :
    first? (op.symbol.toList ++ ' ' :: rest) = some (.token op.kind op.symbol.toList) := by
  cases op <;> rfl

theorem leading_operator (op : Operator) : Leading op.symbol.toList := by
  have hall : ∀ op ∈ Operator.all, (op.symbol.toList.head?.any startsContent) = true := by decide
  have hop := hall op op.mem_all
  cases hlist : op.symbol.toList with
  | nil =>
    rw [hlist] at hop
    cases hop
  | cons c cs =>
    rw [hlist] at hop
    exact ⟨c, cs, rfl, hop⟩

end Texts

section Expressions

variable {rest : List Char}

theorem leading_integerText (n : Int) : Leading (integerText n).toList := by
  cases n with
  | ofNat n => exact leading_of_isDigits (TokenKind.isDigits_repr n)
  | negSucc n =>
    rw [integerText, String.toList_append]
    exact ⟨'-', _, rfl, rfl⟩

theorem Expr.leading_text {e : Expr α} (h : e.wellFormed = true) : Leading e.text.toList := by
  cases e with
  | number value => exact leading_integerText value.toInt
  | boolean value =>
    cases value with
    | true => exact leading_of_isWord (s := "True") rfl
    | false => exact leading_of_isWord (s := "False") rfl
  | noneLiteral => exact leading_of_isWord (s := "None") rfl
  | ident => exact leading_of_isName h
  | binary =>
    simp only [Expr.text, String.toList_append, List.append_assoc]
    exact ⟨'(', _, rfl, rfl⟩
  | call =>
    simp only [Expr.wellFormed, Bool.and_eq_true] at h
    simp only [Expr.text, String.toList_append, List.append_assoc]
    exact (leading_of_isName h.1).append _

theorem Expr.leading_argumentsText {e : Expr α} (h : e.wellFormed = true) (es : List (Expr α)) :
    Leading (Expr.argumentsText (e :: es)).toList := by
  cases es <;> simp only [Expr.argumentsText, String.toList_append, List.append_assoc] <;>
    exact (Expr.leading_text h).append _

mutual
/-- The text of an expression is read up to where its last word ends. -/
theorem Expr.lexes_text : ∀ {e : Expr α} {rest : List Char}, e.wellFormed = true →
    endsWord rest = true → Lexes e.text.toList e.spellings rest
  | .number value _, _, _, hrest => lexes_integerText value.toInt hrest
  | .boolean true _, _, _, hrest => .single (s := "True") (first?_word rfl hrest)
  | .boolean false _, _, _, hrest => .single (s := "False") (first?_word rfl hrest)
  | .noneLiteral _, _, _, hrest => .single (s := "None") (first?_word rfl hrest)
  | .ident name _, _, h, hrest => .single (first?_name h hrest)
  | .binary op lhs rhs _, _, h, _ => by
    simp only [Expr.wellFormed, Bool.and_eq_true] at h
    simp only [Expr.text, String.toList_append, List.append_assoc]
    refine .fixed rfl (.append (Expr.lexes_text h.1 rfl) (.space ?_ (.fixed (first?_operator op _)
      (.space ?_ (.append (Expr.lexes_text h.2 rfl) (.single rfl))))))
    · exact ((leading_operator op).append _).append _
    · exact ((Expr.leading_text h.2).append _).append _
  | .call function arguments _, _, h, _ => by
    simp only [Expr.wellFormed, Bool.and_eq_true] at h
    simp only [Expr.text, String.toList_append, List.append_assoc]
    exact .name h.1 rfl (.fixed rfl (Expr.lexes_argumentsText arguments h.2))

theorem Expr.lexes_argumentsText : ∀ (es : List (Expr α)) {rest : List Char},
    Expr.allWellFormed es = true →
      Lexes (Expr.argumentsText es).toList (Expr.argumentsSpellings es) rest
  | [], _, _ => .single (s := ")") rfl
  | [e], _, h => by
    simp only [Expr.allWellFormed, Bool.and_eq_true] at h
    simp only [Expr.argumentsText, String.toList_append]
    exact .append (Expr.lexes_text h.1 rfl) (.single rfl)
  | e :: next :: more, _, h => by
    simp only [Expr.allWellFormed, Bool.and_eq_true] at h
    simp only [Expr.argumentsText, String.toList_append, List.append_assoc]
    exact .append (Expr.lexes_text h.1 rfl) (.fixed rfl (.space
      ((Expr.leading_argumentsText h.2.1 more).append _)
      (Expr.lexes_argumentsText (next :: more) (Bool.and_eq_true _ _ ▸ h.2))))
end

theorem depthAfterAll_append (depth : Nat) (ss ts : List Spelling) :
    depthAfterAll depth (ss ++ ts) = depthAfterAll (depthAfterAll depth ss) ts := List.foldl_append

theorem depthAfterAll_cons (depth : Nat) (s : Spelling) (ss : List Spelling) :
    depthAfterAll depth (s :: ss) = depthAfterAll (Scanner.depthAfter depth s.1) ss := rfl

theorem depthAfter_operator (op : Operator) (depth : Nat) :
    Scanner.depthAfter depth op.kind = depth := by
  cases op <;> rfl

mutual
/-- The parentheses of an expression are closed in it. -/
theorem Expr.balanced : ∀ (e : Expr α) (depth : Nat), depthAfterAll depth e.spellings = depth
  | .number value _, depth => by
    unfold Expr.spellings
    cases value.toInt <;> rfl
  | .boolean true _, _ | .boolean false _, _ | .noneLiteral _, _ | .ident _ _, _ => rfl
  | .binary op lhs rhs _, depth => by
    simp only [Expr.spellings, depthAfterAll_cons, depthAfterAll_append, depthAfter_operator,
      Expr.balanced lhs, Expr.balanced rhs]
    rfl
  | .call _ arguments _, depth => by
    simp only [Expr.spellings, depthAfterAll_cons]
    exact Expr.arguments_balanced arguments depth

theorem Expr.arguments_balanced : ∀ (es : List (Expr α)) (depth : Nat),
    depthAfterAll (depth + 1) (Expr.argumentsSpellings es) = depth
  | [], _ => rfl
  | [e], depth => by
    simp only [Expr.argumentsSpellings, depthAfterAll_append, Expr.balanced e]
    rfl
  | e :: next :: more, depth => by
    simp only [Expr.argumentsSpellings, depthAfterAll_append, depthAfterAll_cons, Expr.balanced e]
    exact Expr.arguments_balanced (next :: more) depth
end

end Expressions

section Heads

variable {rest : List Char} {name : String} {value : Expr α} {type : Ty}
  {parameters : List Parameter}

theorem Ty.isName_name (h : type.isDeclarable = true) : TokenKind.isName type.name = true := by
  cases type with
  | int | bool => decide
  | none => exact absurd h (by decide)

theorem Parameter.leading_text {p : Parameter} (h : p.wellFormed = true) :
    Leading p.text.toList := by
  simp only [Parameter.wellFormed, Bool.and_eq_true] at h
  simp only [Parameter.text, String.toList_append, List.append_assoc]
  exact (leading_of_isName h.1).append _

theorem Parameter.leading_listText {p : Parameter} (h : p.wellFormed = true)
    (parameters : List Parameter) : Leading (Parameter.listText (p :: parameters)).toList := by
  cases parameters <;>
    simp only [Parameter.listText, String.toList_append, List.append_assoc] <;>
    exact (Parameter.leading_text h).append _

theorem Parameter.lexes_text {p : Parameter} (h : p.wellFormed = true)
    (hrest : endsWord rest = true) : Lexes p.text.toList p.typedSpellings rest := by
  simp only [Parameter.wellFormed, Bool.and_eq_true] at h
  have htype := Ty.isName_name h.2
  simp only [Parameter.text, String.toList_append, List.append_assoc]
  exact .name h.1 rfl (.fixed rfl (.space ((leading_of_isName htype).append _)
    (.single (first?_name htype hrest))))

theorem Parameter.lexes_listText : ∀ {parameters : List Parameter} {rest : List Char},
    parameters.all Parameter.wellFormed = true →
      Lexes (Parameter.listText parameters).toList (Parameter.listSpellings parameters) rest
  | [], _, _ => .single (s := ")") rfl
  | [p], _, h => by
    simp only [List.all_cons, Bool.and_eq_true] at h
    simp only [Parameter.listText, String.toList_append]
    exact .append (Parameter.lexes_text h.1 rfl) (.single rfl)
  | p :: next :: more, _, h => by
    rw [List.all_cons, Bool.and_eq_true] at h
    have hnext := List.all_eq_true.1 h.2 next (List.mem_cons_self)
    simp only [Parameter.listText, String.toList_append, List.append_assoc]
    exact .append (Parameter.lexes_text h.1 rfl) (.fixed rfl (.space
      ((Parameter.leading_listText hnext more).append _) (Parameter.lexes_listText h.2)))

theorem Parameter.balanced : ∀ (parameters : List Parameter) (depth : Nat),
    depthAfterAll (depth + 1) (Parameter.listSpellings parameters) = depth
  | [], _ => rfl
  | [_], _ => rfl
  | _ :: next :: more, depth => Parameter.balanced (next :: more) depth

theorem Ty.lexes_resultText (type : Ty) (hrest : endsWord rest = true) :
    Lexes type.resultText.toList type.resultSpellings rest := by
  have hwritten : ∀ s : String, TokenKind.isName s = true →
      Lexes (" " ++ "->" ++ " " ++ s).toList [(.arrow, "->"), (.identifier, s)] rest := by
    intro s hs
    simp only [String.toList_append, List.append_assoc]
    exact .space ⟨'-', _, rfl, rfl⟩ (.fixed rfl (.space ((leading_of_isName hs).append _)
      (.single (first?_name hs hrest))))
  cases type with
  | int => exact hwritten "int" (by decide)
  | bool => exact hwritten "bool" (by decide)
  | none => exact .nil

theorem Ty.balanced (type : Ty) (depth : Nat) :
    depthAfterAll depth type.resultSpellings = depth := by
  cases type <;> rfl

open Line (ReadAs)

theorem readAs_assign (hname : TokenKind.isName name = true) (hvalue : value.wellFormed = true) :
    ReadAs (name ++ " " ++ "=" ++ " " ++ value.text)
      ((.identifier, name) :: (.assignment, "=") :: value.spellings) where
  lexes rest := by
    simp only [String.toList_append, List.append_assoc]
    exact .name hname rfl (.space ⟨'=', _, rfl, rfl⟩ (.fixed rfl (.space
      ((Expr.leading_text hvalue).append _) (Expr.lexes_text hvalue rfl))))
  leading := by
    simp only [String.toList_append, List.append_assoc]
    exact (leading_of_isName hname).append _
  ne_nil := List.cons_ne_nil _ _
  balanced := value.balanced 0

theorem readAs_declare (hname : TokenKind.isName name = true) (htype : type.isDeclarable = true)
    (hvalue : value.wellFormed = true) :
    ReadAs (name ++ ":" ++ " " ++ type.name ++ " " ++ "=" ++ " " ++ value.text)
      ((.identifier, name) :: (.colon, ":") :: (.identifier, type.name) :: (.assignment, "=") ::
        value.spellings) where
  lexes rest := by
    have htype' := Ty.isName_name htype
    simp only [String.toList_append, List.append_assoc]
    exact .name hname rfl (.fixed rfl (.space (((leading_of_isName htype').append _).append _)
      (.name htype' rfl (.space ⟨'=', _, rfl, rfl⟩ (.fixed rfl (.space
        ((Expr.leading_text hvalue).append _) (Expr.lexes_text hvalue rfl)))))))
  leading := by
    simp only [String.toList_append, List.append_assoc]
    exact (leading_of_isName hname).append _
  ne_nil := List.cons_ne_nil _ _
  balanced := value.balanced 0

theorem Expr.spellings_ne_nil (e : Expr α) : e.spellings ≠ [] := by
  cases e with
  | number value =>
    unfold Expr.spellings
    cases value.toInt <;> exact List.cons_ne_nil _ _
  | boolean value => cases value <;> exact List.cons_ne_nil _ _
  | _ => exact List.cons_ne_nil _ _

theorem readAs_expression (hvalue : value.wellFormed = true) :
    ReadAs value.text value.spellings where
  lexes _ := Expr.lexes_text hvalue rfl
  leading := Expr.leading_text hvalue
  ne_nil := value.spellings_ne_nil
  balanced := value.balanced 0

theorem readAs_return (hvalue : value.wellFormed = true) :
    ReadAs ("return" ++ " " ++ value.text) ((.kwReturn, "return") :: value.spellings) where
  lexes rest := by
    simp only [String.toList_append, List.append_assoc]
    exact .fixed rfl (.space ((Expr.leading_text hvalue).append _) (Expr.lexes_text hvalue rfl))
  leading := by
    simp only [String.toList_append, List.append_assoc]
    exact (leading_of_isWord (s := "return") rfl).append _
  ne_nil := List.cons_ne_nil _ _
  balanced := value.balanced 0

theorem readAs_pass : ReadAs "pass" [(.kwPass, "pass")] where
  lexes _ := .single rfl
  leading := leading_of_isWord rfl
  ne_nil := List.cons_ne_nil _ _
  balanced := rfl

theorem readAs_else : ReadAs ("else" ++ ":") [(.kwElse, "else"), (.colon, ":")] where
  lexes _ := by
    rw [String.toList_append]
    exact .fixed rfl (.single rfl)
  leading := by
    rw [String.toList_append]
    exact (leading_of_isWord (s := "else") rfl).append _
  ne_nil := List.cons_ne_nil _ _
  balanced := rfl

/-- The head of a loop or a branch. -/
theorem readAs_guard {k : TokenKind} {keyword : String} (hword : TokenKind.isWord keyword = true)
    (hkind : wordKind keyword.toList = k) (hdepth : Scanner.depthAfter 0 k = 0)
    (hvalue : value.wellFormed = true) :
    ReadAs (keyword ++ " " ++ value.text ++ ":")
      ((k, keyword) :: (value.spellings ++ [(.colon, ":")])) where
  lexes rest := by
    simp only [String.toList_append, List.append_assoc]
    refine .fixed ?_ (.space (((Expr.leading_text hvalue).append _).append _)
      (.append (Expr.lexes_text hvalue rfl) (.single rfl)))
    rw [← hkind]
    exact first?_word hword rfl
  leading := by
    simp only [String.toList_append, List.append_assoc]
    exact (leading_of_isWord hword).append _
  ne_nil := List.cons_ne_nil _ _
  balanced := by
    rw [depthAfterAll_cons, depthAfterAll_append, hdepth, value.balanced]
    rfl

theorem readAs_function (type : Ty) (hname : TokenKind.isName name = true)
    (hparameters : parameters.all Parameter.wellFormed = true) :
    ReadAs ("def" ++ " " ++ name ++ "(" ++ Parameter.listText parameters ++ type.resultText ++ ":")
      ((.kwDef, "def") :: (.identifier, name) :: (.openParen, "(") ::
        (Parameter.listSpellings parameters ++ (type.resultSpellings ++ [(.colon, ":")]))) where
  lexes rest := by
    simp only [String.toList_append, List.append_assoc]
    exact .fixed rfl (.space (((leading_of_isName hname).append _).append _) (.name hname rfl
      (.fixed rfl (.append (Parameter.lexes_listText hparameters)
        (.append (Ty.lexes_resultText type rfl) (.single rfl))))))
  leading := by
    simp only [String.toList_append, List.append_assoc]
    exact (leading_of_isWord (s := "def") rfl).append _
  ne_nil := List.cons_ne_nil _ _
  balanced := by
    simp only [depthAfterAll_cons, depthAfterAll_append]
    have hclosed := Parameter.balanced parameters 0
    change depthAfterAll (depthAfterAll (depthAfterAll (0 + 1) _) _) _ = 0
    rw [hclosed, type.balanced]
    rfl

end Heads

section Blocks

open Line

variable {depth : Nat} {content : String} {lines : List Line} {more : List Spelling}
  {body : List (Stmt α)}

theorem Stmt.branchLines_eq_cons (b : Branch α) (depth : Nat) :
    ∃ content lines, Stmt.branchLines depth b = ⟨depth, content⟩ :: lines := by
  cases b
  exact ⟨_, _, rfl⟩

theorem Stmt.lines_eq_cons (st : Stmt α) (depth : Nat) :
    ∃ content lines, st.lines depth = ⟨depth, content⟩ :: lines := by
  cases st with
  | conditional first =>
    obtain ⟨content, lines, hlines⟩ := Stmt.branchLines_eq_cons first depth
    rw [Stmt.lines, hlines]
    exact ⟨content, _, rfl⟩
  | _ => exact ⟨_, _, rfl⟩

theorem shallow_allLines (body : List (Stmt α)) (h : Shallow depth lines) :
    Shallow depth (Stmt.allLines depth body ++ lines) := by
  cases body with
  | nil => exact h
  | cons st rest =>
    obtain ⟨content, first, hfirst⟩ := st.lines_eq_cons depth
    rw [Stmt.allLines, hfirst]
    rintro _ ⟨⟩
    exact Nat.le_refl depth

theorem shallow_branchesLines (branches : List (Branch α)) (h : Shallow depth lines) :
    Shallow depth (Stmt.branchesLines depth branches ++ lines) := by
  cases branches with
  | nil => exact h
  | cons b rest =>
    obtain ⟨content, first, hfirst⟩ := Stmt.branchLines_eq_cons b depth
    rw [Stmt.branchesLines, hfirst]
    rintro _ ⟨⟩
    exact Nat.le_refl depth

theorem shallow_succ (h : Shallow depth lines) : Shallow (depth + 1) lines := fun l hl =>
  Nat.le_succ_of_le (h l hl)

/-- A head and the lines of its block. -/
theorem layout_block (ss : List Spelling) (hread : ReadAs content (ss ++ [(.colon, ":")]))
    (hbody : body ≠ [])
    (h : Layout (widths (depth + 1)) (Stmt.allLines (depth + 1) body ++ lines)
      (Stmt.allSpellings body ++ (.dedent, "") :: more)) :
    Layout (widths depth) (⟨depth, content⟩ :: (Stmt.allLines (depth + 1) body ++ lines))
      (ss ++ (blockSpellings (Stmt.allSpellings body) ++ more)) := by
  cases body with
  | nil => exact absurd rfl hbody
  | cons st rest =>
    obtain ⟨content', first, hfirst⟩ := st.lines_eq_cons (depth + 1)
    have hinner := h
    rw [Stmt.allLines, hfirst] at hinner ⊢
    have hwhole := Layout.same hread hinner.opens
    simpa [blockSpellings] using hwhole

/-- The head and the block for no condition, if there is one. -/
theorem layout_otherwise (hmore : Layout (widths depth) lines more)
    (h : Layout (widths (depth + 1)) (Stmt.allLines (depth + 1) body ++ lines)
      (Stmt.allSpellings body ++ (.dedent, "") :: more)) :
    Layout (widths depth)
      ((if body.isEmpty then []
        else ⟨depth, "else" ++ ":"⟩ :: Stmt.allLines (depth + 1) body) ++ lines)
      ((if body.isEmpty then []
        else (.kwElse, "else") :: blockSpellings (Stmt.allSpellings body)) ++ more) := by
  cases body with
  | nil => exact hmore
  | cons st rest =>
    exact layout_block [(.kwElse, "else")] readAs_else (List.cons_ne_nil _ _) h

theorem shallow_otherwise (body : List (Stmt α)) (h : Shallow depth lines) :
    Shallow depth ((if body.isEmpty then []
      else ⟨depth, "else" ++ ":"⟩ :: Stmt.allLines (depth + 1) body) ++ lines) := by
  cases body with
  | nil => exact h
  | cons st rest =>
    rintro _ ⟨⟩
    exact Nat.le_refl depth

theorem readAs_branch {kind : BranchKind} {condition : Expr α}
    (h : condition.wellFormed = true) :
    ReadAs (kind.keyword ++ " " ++ condition.text ++ ":")
      ((kind.keywordKind, kind.keyword) :: (condition.spellings ++ [(.colon, ":")])) := by
  cases kind with
  | first => exact readAs_guard rfl rfl rfl h
  | alternative => exact readAs_guard rfl rfl rfl h

mutual
/-- The lines of a statement have its tokens, whatever lines of its block or of outer ones
follow. -/
theorem layout_statement : ∀ {st : Stmt α} {depth : Nat} {lines : List Line} {more : List Spelling},
    st.wellFormed = true → Shallow depth lines → Layout (widths depth) lines more →
      Layout (widths depth) (st.lines depth ++ lines) (st.spellings ++ more)
  | .assign name value _, _, _, _, h, _, hmore => by
    simp only [Stmt.wellFormed, Bool.and_eq_true] at h
    have hwhole := Layout.same (readAs_assign h.1 h.2) hmore
    simpa [Stmt.lines, Stmt.spellings] using hwhole
  | .declare name type value _, _, _, _, h, _, hmore => by
    simp only [Stmt.wellFormed, Bool.and_eq_true] at h
    have hwhole := Layout.same (readAs_declare h.1.1 h.1.2 h.2) hmore
    simpa [Stmt.lines, Stmt.spellings] using hwhole
  | .expression value _, _, _, _, h, _, hmore => by
    have hwhole := Layout.same (readAs_expression h) hmore
    simpa [Stmt.lines, Stmt.spellings] using hwhole
  | .function name parameters returns body _, _, _, _, h, hlines, hmore => by
    simp only [Stmt.wellFormed, Bool.and_eq_true] at h
    obtain ⟨⟨⟨hname, hparameters⟩, hne⟩, hbody⟩ := h
    have hinner := layout_all hbody (shallow_succ hlines) (hmore.closes hlines)
    have hwhole := layout_block ((.kwDef, "def") :: (.identifier, name) ::
      (.openParen, "(") :: (Parameter.listSpellings parameters ++ returns.resultSpellings))
      (by simpa using readAs_function returns hname hparameters) (by simpa using hne) hinner
    simpa [Stmt.lines, Stmt.spellings] using hwhole
  | .return value _, _, _, _, h, _, hmore => by
    have hwhole := Layout.same (readAs_return h) hmore
    simpa [Stmt.lines, Stmt.spellings] using hwhole
  | .conditional first alternatives otherwise _, depth, _, _, h, hlines, hmore => by
    simp only [Stmt.wellFormed, Bool.and_eq_true] at h
    obtain ⟨⟨hfirst, halternatives⟩, hotherwise⟩ := h
    have hinner := layout_all hotherwise (shallow_succ hlines) (hmore.closes hlines)
    have hlast := layout_otherwise hmore hinner
    have hshallow := shallow_otherwise otherwise hlines
    have hmiddle := layout_branches halternatives hshallow hlast
    have hwhole := layout_branch hfirst (shallow_branchesLines alternatives hshallow) hmiddle
    simp only [Stmt.lines, Stmt.spellings, List.append_assoc]
    exact hwhole
  | .loop condition body _, _, _, _, h, hlines, hmore => by
    simp only [Stmt.wellFormed, Bool.and_eq_true] at h
    obtain ⟨⟨hcondition, hne⟩, hbody⟩ := h
    have hinner := layout_all hbody (shallow_succ hlines) (hmore.closes hlines)
    have hwhole := layout_block ((.kwWhile, "while") :: condition.spellings)
      (by simpa using readAs_guard (k := .kwWhile) rfl rfl rfl hcondition) (by simpa using hne)
      hinner
    simpa [Stmt.lines, Stmt.spellings] using hwhole
  | .pass _, _, _, _, _, _, hmore => by
    have hwhole := Layout.same readAs_pass hmore
    simpa [Stmt.lines, Stmt.spellings] using hwhole

theorem layout_all : ∀ {sts : List (Stmt α)} {depth : Nat} {lines : List Line}
    {more : List Spelling}, Stmt.allWellFormed sts = true → Shallow depth lines →
      Layout (widths depth) lines more →
      Layout (widths depth) (Stmt.allLines depth sts ++ lines) (Stmt.allSpellings sts ++ more)
  | [], _, _, _, _, _, hmore => hmore
  | st :: rest, _, _, _, h, hlines, hmore => by
    simp only [Stmt.allWellFormed, Bool.and_eq_true] at h
    have hrest := layout_all h.2 hlines hmore
    have hwhole := layout_statement h.1 (shallow_allLines rest hlines) hrest
    simp only [Stmt.allLines, Stmt.allSpellings, List.append_assoc]
    exact hwhole

theorem layout_branch : ∀ {b : Branch α} {kind : BranchKind} {depth : Nat} {lines : List Line}
    {more : List Spelling}, Stmt.branchWellFormed kind b = true → Shallow depth lines →
      Layout (widths depth) lines more →
      Layout (widths depth) (Stmt.branchLines depth b ++ lines) (Stmt.branchSpellings b ++ more)
  | ⟨kind, condition, body, _⟩, _, _, _, _, h, hlines, hmore => by
    simp only [Stmt.branchWellFormed, Bool.and_eq_true] at h
    obtain ⟨⟨⟨-, hcondition⟩, hne⟩, hbody⟩ := h
    have hinner := layout_all hbody (shallow_succ hlines) (hmore.closes hlines)
    have hwhole := layout_block ((kind.keywordKind, kind.keyword) :: condition.spellings)
      (readAs_branch hcondition) (by simpa using hne) hinner
    simpa [Stmt.branchLines, Stmt.branchSpellings] using hwhole

theorem layout_branches : ∀ {branches : List (Branch α)} {depth : Nat} {lines : List Line}
    {more : List Spelling}, Stmt.branchesWellFormed branches = true → Shallow depth lines →
      Layout (widths depth) lines more →
      Layout (widths depth) (Stmt.branchesLines depth branches ++ lines)
        (Stmt.branchesSpellings branches ++ more)
  | [], _, _, _, _, _, hmore => hmore
  | b :: rest, _, _, _, h, hlines, hmore => by
    simp only [Stmt.branchesWellFormed, Bool.and_eq_true] at h
    have hrest := layout_branches h.2 hlines hmore
    have hwhole := layout_branch h.1 (shallow_branchesLines rest hlines) hrest
    simp only [Stmt.branchesLines, Stmt.branchesSpellings, List.append_assoc]
    exact hwhole
end

end Blocks

/-- The tokens of the canonical text are those that it is made of. -/
theorem tokenize_text (file : String) {p : Program α} (h : Stmt.allWellFormed p = true) :
    ∃ tokens q, tokenize file p.text = .ok (tokens ++ [.endAt q]) ∧
      tokens.map Token.spelling = Stmt.allSpellings p := by
  have hlayout : Line.Layout (Line.widths 0) (Stmt.allLines 0 p ++ [])
      (Stmt.allSpellings p ++ []) := layout_all h (by rintro _ ⟨⟩) .nil
  rw [List.append_nil, List.append_nil] at hlayout
  rw [tokenize_eq_runLine]
  exact Scanner.runLine_of_layout hlayout rfl rfl rfl

end Offside
