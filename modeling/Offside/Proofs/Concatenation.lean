import Offside.Proofs.ReadAlike
import Offside.Proofs.Scan.OpenBlocks

/-! Texts that are put together where a line ends. The first text has closed its parentheses and its
lines, and the second starts with nothing that the first could take up, so the program of the whole
is that of the first and then that of the second, moved by the length of the first. -/
namespace Offside
open Text

section Parts

variable {source source' : List Char} {f : Position → Position} {u v : List Token}
  {k next : TokenKind} {nodes more : List Node} {p q : Program Span}

/-- Tokens of one spelling are alike if their texts are the ones they stand on. -/
theorem tokensAlike_of_spelledAlike {a b : View} (hu : ∀ tok ∈ u, tok.Written a.source)
    (hv : ∀ tok ∈ v, tok.kind.isContent = true → tok.span.text b.source = tok.value)
    (h : List.Forall₂ (Token.SpelledAlike a b) u v) : TokensAlike a b u v :=
  (placedAlike_of_spelledAlike (fun tok htok _ => (hu tok htok).text) hv h).imp
    fun _ _ htok => htok.toAlike

/-- It does not matter where layout tokens stand. -/
theorem tokensAlike_layout {a b : View} (hk : k.isLayout = true) (n : Nat) (i j : Position) :
    TokensAlike a b (List.replicate n (.layout k i)) (List.replicate n (.layout k j)) := by
  have hcontent : k.isContent ≠ true := by
    intro hcontent
    rw [TokenKind.isLayout_of_isContent hcontent] at hk
    cases hk
  induction n with
  | zero => exact .nil
  | succ n ih => exact .cons ⟨rfl, fun h => absurd h hcontent, fun h => absurd h hcontent⟩ ih

/-- Lines of tokens that are alike stand for the same statements elsewhere. -/
theorem exists_lines_of_alike (hlines : Script.Lines next u nodes)
    (hu : ∀ tok ∈ u, tok.Written source) (hp : Node.statementsOf source nodes = .ok p)
    (h : TokensAlike ⟨source, f⟩ ⟨source', id⟩ u v) :
    ∃ nodes', Script.Lines next v nodes' ∧ Node.statementsOf source' nodes' = .ok (p.move f) := by
  obtain ⟨nodes', hlines', -, hread⟩ := lines_alike hlines hu h
  rw [hp] at hread
  obtain ⟨p', hp', hmoved⟩ := hread.exists_ok
  have hmove : p.move f = p' := hmoved.trans p'.move_id
  exact ⟨nodes', hlines', hmove ▸ hp'⟩

theorem statementsOf_append (hu : Script.Lines k u nodes) (hv : Script.Lines next v more)
    (hwhole : Script.Lines next (u ++ v) (nodes ++ more))
    (hp : Node.statementsOf source nodes = .ok p) (hq : Node.statementsOf source more = .ok q) :
    Node.statementsOf source (nodes ++ more) = .ok (p ++ q) := by
  rw [hwhole.statementsOf_eq, List.mapM_append, ← hu.statementsOf_eq, ← hv.statementsOf_eq, hp, hq]
  rfl

end Parts

/-- The program of two texts, the first of which ends with a line, is the program of the first and
then that of the second, moved by the length of the first. -/
theorem programOf_append {file : String} {x y : List Char} {p q : Program Span}
    (hx : AtLineStart x) (hsize : byteSize (x ++ y) < UInt32.size)
    (hp : programOf file x = .ok p) (hq : programOf file y = .ok q) :
    programOf file (x ++ y) = .ok (p ++ q.move (.moveBy (byteSize x))) := by
  have hlength := byteSize_append x y
  obtain ⟨u, i, nodes, htokens, hu, hlines, hread⟩ := lines_of_programOf (by omega) hp
  obtain ⟨v, j, more, htokens', hv, hmore, hread'⟩ := lines_of_programOf (by omega) hq
  have hnext : (firstKind v .eof).startsAnew = true := hmore.startsAnew rfl
  have hindent : firstKind (v ++ [.endAt j]) .eof ≠ .indent := by
    rw [firstKind_append]
    intro hkind
    rw [show firstKind v .eof = .indent from hkind] at hnext
    cases hnext
  obtain ⟨front, n, r, r', rfl, hended, hwhole⟩ :=
    tokenize_append_of_balanced (by omega) hx htokens hlines.framed.parens htokens' hindent
  rw [List.map_append, ← List.append_assoc] at hwhole
  have htext := text_of_tokenize hsize hwhole
  simp only [List.forall_mem_append] at htext
  obtain ⟨⟨⟨hfront, -⟩, hback⟩, -⟩ := htext
  -- Only the blocks that the end of the first text closes are closed in another place.
  have hfirst : TokensAlike ⟨x, id⟩ ⟨x ++ y, id⟩ (front ++ List.replicate n (.layout .dedent r))
      (front ++ List.replicate n (.layout .dedent r')) := by
    have hwritten := (List.forall_mem_append.1 hu.written).1
    have hsame : List.Forall₂ (Token.SpelledAlike ⟨x, id⟩ ⟨x ++ y, id⟩) front front :=
      List.forall₂_same.2 fun tok _ => ⟨rfl, rfl⟩
    exact List.rel_append (tokensAlike_of_spelledAlike hwritten hfront hsame)
      (tokensAlike_layout (k := .dedent) rfl n r r')
  have hsecond : TokensAlike ⟨y, .moveBy (byteSize x)⟩ ⟨x ++ y, id⟩ v
      (v.map (Token.map (.moveBy (byteSize x)))) :=
    tokensAlike_of_spelledAlike hv.written hback spelledAlike_map
  obtain ⟨nodes', hlines', hmoved⟩ :=
    exists_lines_of_alike (hlines.closes hended hnext) hu.written hread hfirst
  obtain ⟨more', hmore', hmoved'⟩ := exists_lines_of_alike hmore hv.written hread' hsecond
  have hlines := hmore'.append (firstKind_of_alike hsecond .eof).symm hlines'
  rw [p.move_id] at hmoved
  rw [programOf_eq_statementsOf (fun tok htok => of_decide_eq_true (hlines.beforeEnd tok htok))
    hwhole hlines]
  exact statementsOf_append hlines' hmore' hlines hmoved hmoved'

/-- The blocks of a function are closed where the second text starts. -/
theorem programOf_append_blocks :
    let x := "def f(a: int) -> int:\n  if a > 1:\n    return a\n# end\n".toList
    let y := "b: int = f(2)\n".toList
    let nowhere : Span := .point .nowhere
    ∃ p q, programOf "shell" x = .ok p ∧ programOf "shell" y = .ok q ∧
      p.move (fun _ => .nowhere) = [.function "f" [⟨"a", .int⟩] .int [.conditional
        ⟨.first, .binary .greater (.ident "a" nowhere) (.number 1 nowhere) nowhere,
          [.return (.ident "a" nowhere) nowhere], nowhere⟩ [] [] nowhere] nowhere] ∧
      q.move (fun _ => .nowhere) =
        [.declare "b" .int (.call "f" [.number 2 nowhere] nowhere) nowhere] ∧
      programOf "shell" (x ++ y) = .ok (p ++ q.move (.moveBy (byteSize x))) := by
  intro x y nowhere
  have hx : AtLineStart x :=
    .inr ⟨"def f(a: int) -> int:\n  if a > 1:\n    return a\n# end".toList, rfl⟩
  obtain ⟨p, hp, hfirst⟩ := Except.exists_eq_ok_of (x := programOf "shell" x)
    (p := fun p => decide (p.move (fun _ => .nowhere) = [.function "f" [⟨"a", .int⟩] .int
      [.conditional ⟨.first, .binary .greater (.ident "a" nowhere) (.number 1 nowhere) nowhere,
        [.return (.ident "a" nowhere) nowhere], nowhere⟩ [] [] nowhere] nowhere]))
    (by decide +kernel)
  obtain ⟨q, hq, hsecond⟩ := Except.exists_eq_ok_of (x := programOf "shell" y)
    (p := fun q => decide (q.move (fun _ => .nowhere) =
      [.declare "b" .int (.call "f" [.number 2 nowhere] nowhere) nowhere]))
    (by decide +kernel)
  exact ⟨p, q, hp, hq, of_decide_eq_true hfirst, of_decide_eq_true hsecond,
    programOf_append hx (by decide +kernel) hp hq⟩

end Offside
