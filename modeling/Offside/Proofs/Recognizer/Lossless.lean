import Offside.Proofs.Grammar.Bodies
import Offside.Proofs.Recognizer.Program
import Offside.Scan

/-! No token is lost on the way into a tree, and none is made up. Read from left to right, the
leaves of the tree of a program are its tokens without layout. -/
namespace Offside

/-- The leaf that a token is. -/
def Token.leaf? (tok : Token) : Option Node := tok.kind.leafLabel?.map (Node.leaf · tok.span)

namespace Node

mutual
/-- The nodes of a tree that have no parts, from left to right. -/
def leaves : Node → List Node
  | ⟨label, span, children⟩ =>
    if children.isEmpty then [⟨label, span, children⟩] else allLeaves children

def allLeaves : List Node → List Node
  | [] => []
  | c :: rest => c.leaves ++ allLeaves rest
end

/-- A tree spans from the start of its first leaf to the end of its last. -/
def Tight (n : Node) : Prop :=
  ∃ first last, n.leaves.head? = some first ∧ n.leaves.getLast? = some last ∧
    n.span = ⟨first.span.start, last.span.stop⟩

variable {label : Label} {span : Span} {nodes : List Node} {b n : Node}

theorem leaves_of_children (hne : n.children ≠ []) : n.leaves = allLeaves n.children := by
  obtain ⟨label, span, children⟩ := n
  rw [leaves, if_neg (by simpa using hne)]

theorem leaves_of_childless (h : n.children = []) : n.leaves = [n] := by
  obtain ⟨label, span, children⟩ := n
  rw [leaves, if_pos (by simpa using h)]

theorem allLeaves_append (nodes more : List Node) :
    allLeaves (nodes ++ more) = allLeaves nodes ++ allLeaves more := by
  induction nodes with
  | nil => rfl
  | cons c rest ih => rw [List.cons_append, allLeaves, allLeaves, ih, List.append_assoc]

theorem mem_allLeaves (hb : b ∈ nodes) : ∀ l ∈ b.leaves, l ∈ allLeaves nodes := by
  intro l hl
  obtain ⟨front, rest, rfl⟩ := List.append_of_mem hb
  rw [allLeaves_append, allLeaves]
  exact List.mem_append_right _ (List.mem_append_left _ hl)

/-- The leaves of a part are leaves of the whole. -/
theorem PartOf.mem_leaves (h : b.PartOf n) : ∀ l ∈ b.leaves, l ∈ n.leaves := by
  induction h with
  | self => exact fun l hl => hl
  | child hc _ ih =>
    intro l hl
    rw [leaves_of_children (List.ne_nil_of_mem hc)]
    exact mem_allLeaves hc l (ih l hl)

mutual
/-- The leaves of a tree are parts of it. -/
theorem partOf_of_mem_leaves : ∀ {n l : Node}, l ∈ n.leaves → l.PartOf n
  | ⟨label, span, children⟩, l, h => by
    rw [leaves] at h
    split at h
    · rw [List.mem_singleton.1 h]
      exact .self
    · obtain ⟨c, hc, hl⟩ := exists_partOf_of_mem_allLeaves h
      exact .child hc hl

theorem exists_partOf_of_mem_allLeaves : ∀ {nodes : List Node} {l : Node}, l ∈ allLeaves nodes →
    ∃ c ∈ nodes, l.PartOf c
  | [], _, h => nomatch h
  | c :: rest, l, h => by
    rw [allLeaves] at h
    obtain hl | hl := List.mem_append.1 h
    · exact ⟨c, List.mem_cons_self, partOf_of_mem_leaves hl⟩
    · obtain ⟨d, hd, hl⟩ := exists_partOf_of_mem_allLeaves hl
      exact ⟨d, List.mem_cons_of_mem c hd, hl⟩
end

namespace Tight

theorem leaf (label : Label) (span : Span) : (leaf label span).Tight := ⟨_, _, rfl, rfl, rfl⟩

/-- A branch is as tight as its parts, since it goes from the first of them to the last. -/
theorem branch (hne : nodes ≠ []) (h : ∀ c ∈ nodes, c.Tight) : (branch label nodes).Tight := by
  obtain ⟨first, _, hfirst, -, hstart⟩ := h (nodes.head hne) (List.head_mem hne)
  obtain ⟨_, last, -, hlast, hstop⟩ := h (nodes.getLast hne) (List.getLast_mem hne)
  have hleaves : (Node.branch label nodes).leaves = allLeaves nodes := leaves_of_children hne
  refine ⟨first, last, ?_, ?_, ?_⟩
  · rw [hleaves, ← List.cons_head_tail hne, allLeaves, List.head?_append, hfirst, Option.some_or]
  · rw [hleaves, ← List.dropLast_concat_getLast hne, allLeaves_append, allLeaves, allLeaves,
      List.append_nil, List.getLast?_append, hlast, Option.some_or]
  · have hspan : (Node.branch label nodes).span =
        ⟨(nodes.head hne).span.start, (nodes.getLast hne).span.stop⟩ := by
      cases nodes with
      | nil => exact absurd rfl hne
      | cons c rest => rfl
    rw [hspan, hstart, hstop]

end Tight
end Node

namespace Forest

variable {u : List Token} {nodes : List Node}

/-- The leaves of trees are the tokens that they have been put together from, without layout. -/
theorem leaves (h : Forest u nodes) : (Node.allLeaves nodes).map some =
    (u.filter (!·.kind.isLayout)).map Token.leaf? := by
  induction h with
  | nil => rfl
  | layout htok _ ih => rwa [List.filter_cons_of_neg (by simp [htok])]
  | leaf htok _ ih =>
    have hlayout := TokenKind.isLayout_of_isContent (TokenKind.isContent_of_leafLabel? htok)
    rw [List.filter_cons_of_pos (by simp [hlayout]), List.map_cons, ← ih, Token.leaf?, htok]
    rfl
  | branch hne _ _ ihnodes ihmore =>
    rw [List.filter_append, List.map_append, ← ihnodes, ← ihmore, ← List.map_append, Node.allLeaves,
      Node.leaves_of_children hne, Node.children_branch]

/-- The leaf of a token is part of one of the trees. -/
theorem exists_partOf_of_leafLabel? {tok : Token} {label : Label} (h : Forest u nodes)
    (htok : tok ∈ u) (hlabel : tok.kind.leafLabel? = some label) :
    ∃ c ∈ nodes, (Node.leaf label tok.span).PartOf c := by
  have hlayout := TokenKind.isLayout_of_isContent (TokenKind.isContent_of_leafLabel? hlabel)
  have hleaf : tok.leaf? = some (Node.leaf label tok.span) := by
    rw [Token.leaf?, hlabel]
    rfl
  have hmem : some (Node.leaf label tok.span) ∈ (Node.allLeaves nodes).map some := by
    rw [h.leaves, ← hleaf]
    exact List.mem_map_of_mem (List.mem_filter.2 ⟨htok, by simp [hlayout]⟩)
  obtain ⟨l, hl, heq⟩ := List.mem_map.1 hmem
  obtain rfl := Option.some.inj heq
  exact Node.exists_partOf_of_mem_allLeaves hl

theorem tight (h : Forest u nodes) : ∀ c ∈ nodes, ∀ b : Node, b.PartOf c → b.Tight := by
  induction h with
  | nil => exact List.forall_mem_nil _
  | layout _ _ ih => exact ih
  | leaf _ _ ih =>
    refine List.forall_mem_cons.2 ⟨fun b hb => ?_, ih⟩
    cases hb with
    | self => exact .leaf _ _
    | child hc => cases hc
  | branch hne _ _ ihnodes ihmore =>
    refine List.forall_mem_cons.2 ⟨fun b hb => ?_, ihmore⟩
    cases hb with
    | self => exact .branch hne fun c hc => ihnodes c hc c .self
    | child hc hb => exact ihnodes _ hc b hb

end Forest

/-- What the tree of a program keeps of the tokens of its input. -/
structure Lossless (tokens : List Token) (n : Node) : Prop where
  label : n.label = .script
  /-- Its leaves are the tokens without layout, in their order, with their spans and labels. -/
  leaves : n.leaves.map some = (tokens.filter (!·.kind.isLayout)).map Token.leaf?
  /-- Every part of it spans from its first leaf to its last. -/
  tight : ∀ c ∈ n.children, ∀ b : Node, b.PartOf c → b.Tight
  /-- A part of it that has no parts is a token. -/
  childless : ∀ c ∈ n.children, ∀ b : Node, b.PartOf c → b.children = [] →
    ∃ tok ∈ tokens, tok.leaf? = some b
  /-- No part of it stands nowhere, unless a token does. -/
  somewhere : (∀ tok ∈ tokens, tok.span.start ≠ .nowhere ∧ tok.span.stop ≠ .nowhere) →
    ∀ c ∈ n.children, ∀ b : Node, b.PartOf c → b.span.start ≠ .nowhere ∧ b.span.stop ≠ .nowhere

theorem Forest.lossless {u : List Token} {nodes : List Node} {span : Span} (h : Forest u nodes)
    (hne : nodes ≠ []) : Lossless u ⟨.script, span, nodes⟩ := by
  have hleaves : (⟨.script, span, nodes⟩ : Node).leaves = Node.allLeaves nodes :=
    Node.leaves_of_children hne
  have hleaf : ∀ c ∈ nodes, ∀ b : Node, b.PartOf c → ∀ l ∈ b.leaves,
      ∃ tok ∈ u, tok.leaf? = some l := by
    intro c hc b hb l hl
    have hmem := List.mem_map_of_mem (f := some) (Node.mem_allLeaves hc l (hb.mem_leaves l hl))
    rw [h.leaves] at hmem
    obtain ⟨tok, htok, heq⟩ := List.mem_map.1 hmem
    exact ⟨tok, (List.mem_filter.1 htok).1, heq⟩
  constructor
  · rfl
  · rw [hleaves, h.leaves]
  · exact h.tight
  · intro c hc b hb hchildless
    refine hleaf c hc b hb b ?_
    rw [Node.leaves_of_childless hchildless]
    exact List.mem_singleton_self b
  · intro hsomewhere c hc b hb
    have hplaced : ∀ l ∈ b.leaves, l.span.start ≠ .nowhere ∧ l.span.stop ≠ .nowhere := by
      intro l hl
      obtain ⟨tok, htok, heq⟩ := hleaf c hc b hb l hl
      obtain ⟨label, -, rfl⟩ := Option.map_eq_some_iff.1 heq
      exact hsomewhere tok htok
    obtain ⟨first, last, hfirst, hlast, hspan⟩ := h.tight c hc b hb
    rw [hspan]
    exact ⟨(hplaced first (List.mem_of_head? hfirst)).1,
      (hplaced last (List.mem_of_getLast? hlast)).2⟩

/-- The tree of a program is lossless. Whatever tokens it has been read from, it keeps those before
the end of the input. -/
theorem recognize_lossless {file : String} {tokens : List Token} {n : Node}
    (h : recognize file tokens = .ok n) (hne : n.children ≠ []) :
    Lossless (beforeEnd tokens) n := by
  obtain ⟨nodes, hlines, rfl⟩ := recognize_eq_ok_iff_lines.1 h
  exact hlines.forest.lossless hne

/-- A function with types and without, calls, an `elif` and an `else`, values that are given and
not, and tokens behind the end of the input. -/
theorem recognize_lossless_shapes :
    let source := ("def f(a: int, b,) -> bool:\n  x: int = -(a)\n  return x <= f(a, b)\n" ++
      "while f():\n  if a: pass\n  elif b: y = None\n  else:\n    return\n").toList
    ∃ tokens n, tokenize "shell" source = .ok tokens ∧
      recognize "shell" (tokens ++ tokens) = .ok n ∧ n.children ≠ [] ∧
      Lossless (beforeEnd (tokens ++ tokens)) n := by
  intro source
  obtain ⟨tokens, htokens, hrecognized⟩ := Except.exists_eq_ok_of (x := tokenize "shell" source)
    (p := fun tokens => (recognize "shell" (tokens ++ tokens)).toOption.any (!·.children.isEmpty))
    (by decide +kernel)
  obtain ⟨n, hn, hchildren⟩ := Except.exists_eq_ok_of hrecognized
  have hne : n.children ≠ [] := by simpa using hchildren
  exact ⟨tokens, n, htokens, hn, hne, recognize_lossless hn hne⟩

end Offside
