import Offside.Proofs.FrontEnd
import Offside.Proofs.Grammar.Subexpressions
import Offside.Proofs.Recognizer.Lossless

/-! Number literals. The digits of a literal and a sign directly before them are two tokens and two
leaves of the tree; together they stand for the number that they write in decimal, as long as it
fits into 64 bits. -/
namespace Offside

namespace Text

/-- The number that digits write, with a sign or without. -/
def signedValue (sign digits : String) : Int :=
  if sign = "-" then -(Nat.ofDigitChars 10 digits.toList 0 : Nat)
  else (Nat.ofDigitChars 10 digits.toList 0 : Nat)

/-- The numbers of 64 bits, from `-2 ^ 63` to `2 ^ 63 - 1`. -/
def Fits (v : Int) : Prop := -9223372036854775808 ≤ v ∧ v ≤ 9223372036854775807

instance (v : Int) : Decidable (Fits v) := inferInstanceAs (Decidable (_ ∧ _))

variable {cs : List Char} {v : Int} {sign digits : String}

theorem fits_iff : Fits v ↔ Int64.minValue.toInt ≤ v ∧ v ≤ Int64.maxValue.toInt := by
  rw [Int64.toInt_minValue, Int64.toInt_maxValue]
  exact Iff.rfl

theorem natural?_of_isDigits (h : TokenKind.isDigits digits = true) :
    natural? digits.toList = some (Nat.ofDigitChars 10 digits.toList 0) := by
  simp only [TokenKind.isDigits, Bool.and_eq_true, decide_eq_true_eq] at h
  exact if_pos h

/-- Digits with a sign or without are read as the number that they write. -/
theorem integer?_signed (hsign : sign ∈ ["", "+", "-"]) (h : TokenKind.isDigits digits = true) :
    integer? (sign ++ digits).toList = some (signedValue sign digits) := by
  have hdigits := natural?_of_isDigits h
  simp only [List.mem_cons, List.not_mem_nil, or_false] at hsign
  obtain rfl | rfl | rfl := hsign
  · rw [String.empty_append, integer?_of_isDigits h, hdigits]
    rfl
  · rw [String.toList_append]
    change (natural? digits.toList).map Int.ofNat = _
    rw [hdigits]
    rfl
  · rw [String.toList_append]
    change (natural? digits.toList).map (fun n => -Int.ofNat n) = _
    rw [hdigits]
    rfl

theorem int64?_of_fits (h : integer? cs = some v) (hv : Fits v) :
    int64? cs = some (.ofInt v) := by
  rw [int64?, h, Option.bind_some, if_pos (fits_iff.1 hv)]

theorem int64?_of_not_fits (h : integer? cs = some v) (hv : ¬ Fits v) : int64? cs = none := by
  rw [int64?, h, Option.bind_some, if_neg (mt fits_iff.2 hv)]

end Text

namespace Node

/-- A number of a tree, with the sign directly before it if there is one: where the literal starts,
its sign and its digits. -/
inductive IsLiteral (source : List Char) : Node → Position → String → String → Prop
  | plain {n : Node} : n.label = .number → IsLiteral source n n.span.start "" (n.text source)
  | signed {n sign number : Node} : n.label = .unaryExpression → n.children = [sign, number] →
      number.label = .number →
      IsLiteral source n sign.span.start (sign.text source) (number.text source)

/-- A literal stands for the number that it writes if that fits, and otherwise for none. -/
structure ReadsAs (source : List Char) (n : Node) (start : Position) (sign digits : String) :
    Prop where
  isSign : sign ∈ ["", "+", "-"]
  isDigits : TokenKind.isDigits digits = true
  exact : Text.Fits (Text.signedValue sign digits) → ∃ value : Int64,
    value.toInt = Text.signedValue sign digits ∧ n.toExpr source = .ok (.number value n.span)
  refused : ¬ Text.Fits (Text.signedValue sign digits) →
    n.toExpr source = .error ⟨.numberOutOfRange (sign ++ digits), start⟩

section Literals

variable {source : List Char} {n : Node} {start : Position} {sign digits : String} {tok : Token}

theorem ReadsAs.of_numberOf (hsign : sign ∈ ["", "+", "-"])
    (hdigits : TokenKind.isDigits digits = true)
    (h : n.toExpr source = numberOf (sign ++ digits) n.span) :
    n.ReadsAs source n.span.start sign digits where
  isSign := hsign
  isDigits := hdigits
  exact hfits := by
    have hread := Text.int64?_of_fits (Text.integer?_signed hsign hdigits) hfits
    obtain ⟨hmin, hmax⟩ := Text.fits_iff.1 hfits
    refine ⟨_, Text.toInt_ofInt_of_fits hmin hmax, ?_⟩
    rw [h, numberOf, hread]
  refused hfits := by
    rw [h, numberOf, Text.int64?_of_not_fits (Text.integer?_signed hsign hdigits) hfits]

theorem isDigits_text (htok : tok.Written source) (hkind : tok.kind = .number) :
    TokenKind.isDigits (tok.span.text source) = true := by
  have hspelled := htok.spelled
  rw [hkind] at hspelled
  rwa [htok.text]

/-- The text of a sign. -/
theorem sign_text (htok : tok.Written source) (hkind : tok.kind ∈ [TokenKind.plus, .dash]) :
    tok.span.text source = "+" ∨ tok.span.text source = "-" := by
  simp only [List.mem_cons, List.not_mem_nil, or_false] at hkind
  obtain hplus | hdash := hkind
  · exact .inl (htok.text_eq hplus rfl)
  · exact .inr (htok.text_eq hdash rfl)

/-- The literals of an expression are read exactly. -/
theorem IsLiteral.readsAs {l : Level} {u : List Token} (h : n.IsLiteral source start sign digits)
    (hn : l.Derives u n) (hu : ∀ tok ∈ u, tok.Written source) :
    n.ReadsAs source start sign digits := by
  cases h with
  | plain hlabel =>
    obtain ⟨tok, rfl, hkind, rfl⟩ := hn.eq_number hlabel
    have hdigits := isDigits_text (hu tok List.mem_cons_self) hkind
    refine .of_numberOf (by simp) hdigits ?_
    rw [String.empty_append]
    rfl
  | signed hlabel hchildren hnumber =>
    obtain ⟨op, v, b, rfl, hop, hb, rfl⟩ := hn.eq_unary hlabel
    obtain ⟨rfl, rfl⟩ : Node.leaf .operator op.span = _ ∧ b = _ := by simpa using hchildren
    obtain ⟨tok, rfl, hkind, htok⟩ := hb.eq_number hnumber
    obtain ⟨hwritten, hrest⟩ := List.forall_mem_cons.1 hu
    have hsign := sign_text hwritten hop
    have hdigits := isDigits_text (hrest tok List.mem_cons_self) hkind
    rw [htok]
    refine .of_numberOf ?_ hdigits (toExpr_unary_number hsign rfl)
    rw [text_leaf]
    obtain hplus | hminus := hsign
    · simp [hplus]
    · simp [hminus]

end Literals
end Node

/-- Number literals are exact. In the tree of a source each number is a leaf; and each of them, with
the sign directly before it if there is one, stands for the number that it writes in decimal if that
fits into 64 bits, and is refused where it starts otherwise. -/
theorem literals_exact {file : String} {source : List Char} {tree : Node}
    (hsize : Text.byteSize source < UInt32.size) (h : treeOf file source = .ok tree) :
    (∀ tokens, tokenize file source = .ok tokens → ∀ tok ∈ tokens, tok.kind = .number →
      (Node.leaf .number tok.span).PartOf tree) ∧
    ∀ (n : Node) (start : Position) (sign digits : String), n.PartOf tree →
      n.IsLiteral source start sign digits → n.ReadsAs source start sign digits := by
  obtain ⟨front, q, nodes, htokens, hfront, hlines, rfl⟩ := lines_of_treeOf hsize h
  constructor
  · intro tokens htokens' tok htok hkind
    obtain rfl := Except.ok.inj (htokens'.symm.trans htokens)
    obtain htok | htok := List.mem_append.1 htok
    · have hlabel : tok.kind.leafLabel? = some .number := by
        rw [hkind]
        rfl
      obtain ⟨c, hc, hpart⟩ := hlines.forest.exists_partOf_of_leafLabel? htok hlabel
      exact .child hc hpart
    · rw [List.mem_singleton.1 htok] at hkind
      cases hkind
  · intro n start sign digits hn hliteral
    -- With such a label a part is an expression of the grammar, whose shape says how it is read.
    have hlabel : n.label.isExpression = true := by
      cases hliteral with
      | plain hlabel | signed hlabel => rw [hlabel]; rfl
    cases hn with
    | self => cases hlabel
    | child hc hn =>
      obtain ⟨l, u, hderives, hu⟩ := hlines.expressionsOf hfront.written _ hc n hn hlabel
      exact hliteral.readsAs hderives hu

/-- The least number of 64 bits can be written, and without its sign it is one too large. -/
theorem literals_exact_limits :
    let source := "-9223372036854775808\n9223372036854775808\n".toList
    ∃ tree least large : Node, ∃ start : Position,
      Text.byteSize source < UInt32.size ∧ treeOf "shell" source = .ok tree ∧
      least.PartOf tree ∧ large.PartOf tree ∧
      least.ReadsAs source start "-" "9223372036854775808" ∧
      large.ReadsAs source large.span.start "" "9223372036854775808" ∧
      Text.Fits (Text.signedValue "-" "9223372036854775808") ∧
      ¬ Text.Fits (Text.signedValue "" "9223372036854775808") := by
  intro source
  have hsize : Text.byteSize source < UInt32.size := by decide
  obtain ⟨tree, htree, hshape⟩ := Except.exists_eq_ok_of (x := treeOf "shell" source)
    (p := fun tree => tree.children.map (fun st => st.children.map fun n =>
        (n.label, n.text source, n.children.map fun part => (part.label, part.text source))) =
      [[(.unaryExpression, "-9223372036854775808",
          [(.operator, "-"), (.number, "9223372036854775808")])],
        [(.number, "9223372036854775808", [])]]) (by decide +kernel)
  simp only [decide_eq_true_eq, List.map_eq_cons_iff, List.map_eq_nil_iff,
    Prod.mk.injEq] at hshape
  obtain ⟨first, _, hchildren, ⟨least, _, hfirst, ⟨hunary, -, sign, _, hparts, ⟨-, hsign⟩, number,
    _, rfl, ⟨hnumber, hdigits⟩, rfl⟩, rfl⟩, second, _, rfl, ⟨large, _, hsecond, ⟨hlarge, htext, -⟩,
    rfl⟩, rfl⟩ := hshape
  have hleastPart : least.PartOf tree :=
    .child (c := first) (by simp [hchildren]) (.child (c := least) (by simp [hfirst]) .self)
  have hlargePart : large.PartOf tree :=
    .child (c := second) (by simp [hchildren]) (.child (c := large) (by simp [hsecond]) .self)
  have hexact := (literals_exact hsize htree).2
  have hleastReads := hexact _ _ _ _ hleastPart (.signed hunary hparts hnumber)
  have hlargeReads := hexact _ _ _ _ hlargePart (.plain hlarge)
  rw [hsign, hdigits] at hleastReads
  rw [htext] at hlargeReads
  exact ⟨tree, least, large, _, hsize, htree, hleastPart, hlargePart, hleastReads, hlargeReads,
    by decide, by decide⟩

end Offside
