import Mathlib.Data.List.Induction
import Offside.Scan.Lexeme
import Offside.Text.Decimal
import Offside.Token

/-! Texts that tokens can have, and tokens in a row. What follows some tokens is known by the kind
of the next one. -/
namespace Offside

namespace TokenKind

/-- Whether a text is a word, reserved or not: letters, digits and underscores, no digit first. -/
def isWord (s : String) : Bool :=
  match s.toList with
  | [] => false
  | c :: cs => Lexeme.isWordStart c && cs.all Lexeme.isWordPart

/-- Whether a text is a name, a word that is not reserved. -/
def isName (s : String) : Bool := isWord s && (keyword? s).isNone

/-- Whether a text is one or more digits. -/
def isDigits (s : String) : Bool := s.toList ≠ [] && s.toList.all Char.isDigit

/-- Whether a token of a kind can have this text in a source. -/
def spells (k : TokenKind) (s : String) : Bool :=
  match k with
  | identifier => isName s
  | number => isDigits s
  | newline | indent | dedent => s = ""
  | eof => s = "EOF"
  | _ => k.text? = some s

/-- Whether tokens of a kind have a text, unlike layout and the end of the input. -/
def isContent (k : TokenKind) : Bool := !k.isLayout && k ≠ eof

theorem ne_of_isContent {k l : TokenKind} (hk : k.isContent = true) (hl : l.isContent = false) :
    k ≠ l := by
  rintro rfl
  rw [hk] at hl
  cases hl

theorem isLayout_of_isContent {k : TokenKind} (h : k.isContent = true) : k.isLayout = false := by
  cases k <;> first | rfl | cases h

theorem spells_of_text? {k : TokenKind} {s : String} (h : k.text? = some s) :
    k.spells s = true := by
  cases k <;> cases h <;> decide

theorem text?_of_keyword? {k : TokenKind} {s : String} (h : keyword? s = some k) :
    k.text? = some s := by
  simpa using List.find?_some h

/-- The reserved words have the kinds of keywords. -/
theorem mem_keywords_of_keyword? {k : TokenKind} {s : String} (h : keyword? s = some k) :
    k ∈ keywords := List.mem_of_find?_eq_some h

/-- Only names and numbers have texts that are not fixed. -/
theorem eq_of_text?_eq_none {k : TokenKind} (hk : k.isContent = true)
    (htext : k.text? = none) : k = .identifier ∨ k = .number := by
  revert hk htext
  cases k <;> decide

/-- Kinds with one fixed text are spelled with it. -/
theorem eq_of_spells_of_text? {k : TokenKind} {s t : String} (ht : k.text? = some t)
    (h : k.spells s = true) : s = t := by
  cases k <;> cases ht <;> exact (Option.some.inj (of_decide_eq_true h)).symm

/-- Tokens of kinds that have a text have at least one character. -/
theorem ne_empty_of_spells {k : TokenKind} {s : String} (hk : k.isContent = true)
    (h : k.spells s = true) : s ≠ "" := by
  rintro rfl
  have hnone : k.isContent = true → k.spells "" = false := by cases k <;> decide
  rw [hnone hk] at h
  cases h

theorem isDigits_repr (n : Nat) : isDigits n.repr = true := by
  have hall : ∀ c ∈ Nat.toDigits 10 n, c.isDigit = true := fun c =>
    Nat.isDigit_of_mem_toDigits (by decide) (by decide)
  simp only [isDigits, Nat.repr, String.toList_ofList, Bool.and_eq_true,
    decide_eq_true_eq, List.all_eq_true]
  exact ⟨Nat.toDigits_ne_nil, hall⟩

end TokenKind

theorem Text.integer?_of_isDigits {digits : String} (h : TokenKind.isDigits digits = true) :
    Text.integer? digits.toList = (Text.natural? digits.toList).map Int.ofNat := by
  unfold Text.integer?
  split <;> rename_i hlist
  · simp [TokenKind.isDigits, hlist] at h
  · simp [TokenKind.isDigits, hlist] at h
  · rfl

/-- The kind of the first of some tokens, or the kind after them if there are none. -/
def firstKind (u : List Token) (next : TokenKind) : TokenKind := (u.head?.map Token.kind).getD next

@[simp] theorem firstKind_nil (next : TokenKind) : firstKind [] next = next := rfl

@[simp] theorem firstKind_cons (tok : Token) (u : List Token) (next : TokenKind) :
    firstKind (tok :: u) next = tok.kind := rfl

theorem firstKind_append (u v : List Token) (next : TokenKind) :
    firstKind (u ++ v) next = firstKind u (firstKind v next) := by
  cases u <;> rfl

/-- The kind of a token and its text. -/
abbrev Spelling := TokenKind × String

def Token.spelling (tok : Token) : Spelling := (tok.kind, tok.value)

theorem map_spelling_eq_cons_iff {u : List Token} {k : TokenKind} {s : String}
    {ss : List Spelling} : u.map Token.spelling = (k, s) :: ss ↔
      ∃ tok v, u = tok :: v ∧ tok.kind = k ∧ tok.value = s ∧ v.map Token.spelling = ss := by
  simp only [List.map_eq_cons_iff, Token.spelling, Prod.mk.injEq, and_assoc]

/-- Whether every indentation is followed by a token that has a text. -/
def IndentsLead (next : TokenKind) : List Token → Prop
  | [] => True
  | tok :: rest => (tok.kind = .indent → (firstKind rest next).isContent = true) ∧
      IndentsLead next rest

theorem indentsLead_append {u v : List Token} {next : TokenKind} :
    IndentsLead next (u ++ v) ↔ IndentsLead (firstKind v next) u ∧ IndentsLead next v := by
  induction u with
  | nil => simp [IndentsLead]
  | cons tok u ih => simp only [List.cons_append, IndentsLead, ih, firstKind_append, and_assoc]

/-- Each of some tokens is as it has to be after those in front of it. -/
def Throughout (P : List Token → Token → Prop) (tokens : List Token) : Prop :=
  ∀ before tok after, tokens = before ++ tok :: after → P before tok

namespace Throughout

variable {P : List Token → Token → Prop} {u v : List Token} {tok : Token}

theorem nil : Throughout P [] := by
  intro before tok after h
  simp at h

theorem left (h : Throughout P (u ++ v)) : Throughout P u := by
  rintro before tok after rfl
  exact h before tok (after ++ v) (by simp)

theorem append_singleton (h : Throughout P u) (htok : P u tok) : Throughout P (u ++ [tok]) := by
  intro before other after heq
  obtain rfl | ⟨front, last, rfl⟩ := after.eq_nil_or_concat
  · obtain ⟨rfl, hlast⟩ := List.append_inj' heq rfl
    cases hlast
    exact htok
  · rw [List.concat_eq_append, ← List.cons_append, ← List.append_assoc] at heq
    obtain ⟨rfl, -⟩ := List.append_inj' heq rfl
    exact h before other front rfl

theorem append (h : Throughout P u)
    (hv : ∀ before tok after, v = before ++ tok :: after → P (u ++ before) tok) :
    Throughout P (u ++ v) := by
  induction v using List.reverseRecOn with
  | nil => rwa [List.append_nil]
  | append_singleton v last ih =>
    rw [← List.append_assoc]
    refine (ih fun before tok after heq => ?_).append_singleton (hv v last [] rfl)
    exact hv before tok (after ++ [last]) (by simp [heq])

end Throughout

end Offside
