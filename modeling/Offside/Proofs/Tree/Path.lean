import Offside.Tree.Cursor

/-! Paths in a tree and the cursors at their ends. A path says which child a node is and goes on
with the path of the node around it, so a move of a cursor changes the front of its path only.
However a cursor has been moved, the indices that it and the cursors around it store are the path
that the same moves make. -/
namespace Offside

/-- A move of a cursor. -/
inductive Move where
  | first | next | parent
deriving DecidableEq, Repr

/-- Which child a node is, counted from zero, and the path of the node around it. The root has the
empty path. -/
abbrev Path := List Nat

/-- Where a move leads, be there a node or not. Beside and around the root there is nothing. -/
def Path.target? : Move → Path → Option Path
  | .first, path => some (0 :: path)
  | .next, i :: path => some ((i + 1) :: path)
  | .parent, _ :: path => some path
  | _, [] => none

namespace Node

/-- The node at the end of a path. -/
def at? (n : Node) : Path → Option Node
  | [] => some n
  | i :: path => (n.at? path).bind (·.children[i]?)

/-- The path after a move, if a node is there. -/
def move? (n : Node) (m : Move) (path : Path) : Option Path :=
  (path.target? m).filter fun target => (n.at? target).isSome

/-- The path after some moves from the root on. A move that leads to no node changes nothing. -/
def pathAfter (n : Node) (moves : List Move) : Path :=
  moves.foldl (fun path m => (n.move? m path).getD path) []

end Node

namespace Cursor

def move? (c : Cursor) : Move → Option Cursor
  | .first => c.first?
  | .next => c.next?
  | .parent => c.parent?

/-- The cursor after some moves. A move that is not possible leaves it where it is. -/
def after (c : Cursor) (moves : List Move) : Cursor :=
  moves.foldl (fun c m => (c.move? m).getD c) c

/-- The path that a cursor and those around it store. -/
def path : Cursor → Path
  | ⟨_, _, _, none⟩ => []
  | ⟨_, _, index, some parent⟩ => index :: parent.path

/-- The cursor on a child. -/
def child? (c : Cursor) (i : Nat) : Option Cursor :=
  c.node.children[i]?.map fun child => ⟨c.source, child, i, some c⟩

/-- The cursor at the end of a path. -/
def at? (n : Node) (source : List Char) : Path → Option Cursor
  | [] => some (root n source)
  | i :: path => (at? n source path).bind (·.child? i)

variable {n : Node} {source : List Char} {b c d : Cursor} {path : Path} {i : Nat}

theorem child?_eq_some_iff : b.child? i = some c ↔
    ∃ child, b.node.children[i]? = some child ∧ c = ⟨b.source, child, i, some b⟩ := by
  rw [child?, Option.map_eq_some_iff]
  simp only [eq_comm]

theorem first?_eq_child? (c : Cursor) : c.first? = c.child? 0 := by
  rw [first?, child?, List.head?_eq_getElem?]

/-- The sibling that is looked up in the parent is the parent's next child. -/
theorem next?_of_child? (h : b.child? i = some c) : c.next? = b.child? (i + 1) := by
  obtain ⟨child, -, rfl⟩ := child?_eq_some_iff.1 h
  rw [next?, child?]
  simp only [Option.bind_eq_bind, Option.bind_some]
  cases b.node.children[i + 1]? <;> rfl

/-- The children are passed one by one. -/
theorem child?_succ (c : Cursor) (i : Nat) : c.child? (i + 1) = (c.child? i).bind next? := by
  cases h : c.child? i with
  | some d => exact (next?_of_child? h).symm
  | none =>
    rw [child?, Option.map_eq_none_iff, List.getElem?_eq_none_iff] at h
    rw [child?, List.getElem?_eq_none (Nat.le_succ_of_le h)]
    rfl

theorem parent?_of_child? (h : c.child? i = some d) : d.parent? = some c := by
  obtain ⟨child, -, rfl⟩ := child?_eq_some_iff.1 h
  rfl

theorem parent?_of_next? (h : c.next? = some d) : d.parent? = c.parent? := by
  obtain ⟨parent, hparent, hsibling⟩ := Option.bind_eq_some_iff.1 h
  obtain ⟨sibling, -, hd⟩ := Option.bind_eq_some_iff.1 hsibling
  cases hd
  exact hparent.symm

theorem map_node_child? (c : Cursor) (i : Nat) : (c.child? i).map node = c.node.children[i]? := by
  rw [child?, Option.map_map]
  exact Option.map_id_apply

/-- From a child on, the cursors go through the children that follow. -/
theorem getElem?_onward (h : b.child? i = some c) (k : Nat) : c.onward[k]? = b.child? (i + k) := by
  fun_induction onward c generalizing i k with
  | case1 c hlast =>
    cases k with
    | zero => exact h.symm
    | succ k =>
      have hnone : b.child? (i + 1) = none := (next?_of_child? h).symm.trans hlast
      have hstays : ∀ j, b.child? (i + 1 + j) = none := by
        intro j
        induction j with
        | zero => exact hnone
        | succ j ih => rw [← Nat.add_assoc, child?_succ, ih, Option.bind_none]
      rw [Nat.add_comm k, ← Nat.add_assoc, hstays k, Nat.add_comm 1]
      rfl
  | case2 c d hnext ih =>
    cases k with
    | zero => exact h.symm
    | succ k =>
      have hd : b.child? (i + 1) = some d := (next?_of_child? h).symm.trans hnext
      rw [List.getElem?_cons_succ, ih hd, Nat.add_assoc, Nat.add_comm 1]

theorem getElem?_children (c : Cursor) (i : Nat) : c.children[i]? = c.child? i := by
  unfold children
  cases h : c.first? with
  | some d =>
    rw [first?_eq_child?] at h
    rw [getElem?_onward h, Nat.zero_add]
  | none =>
    rw [first?, Option.map_eq_none_iff, List.head?_eq_none_iff] at h
    rw [child?, h]
    rfl

theorem map_node_children (c : Cursor) : c.children.map node = c.node.children := by
  apply List.ext_getElem?
  intro i
  rw [List.getElem?_map, getElem?_children, map_node_child?]

/-- The cursor at a path is on the node there. -/
theorem map_node_at? (n : Node) (source : List Char) (path : Path) :
    (at? n source path).map node = n.at? path := by
  induction path with
  | nil => rfl
  | cons i path ih =>
    rw [at?, Node.at?, ← ih]
    cases at? n source path with
    | none => rfl
    | some c => exact map_node_child? c i

theorem at?_eq_none (h : n.at? path = none) : at? n source path = none := by
  rw [← map_node_at? n source, Option.map_eq_none_iff] at h
  exact h

/-- The indices stored on the way to the root are the path of the cursor. -/
theorem path_of_at? (h : at? n source path = some c) : c.path = path ∧ c.source = source := by
  induction path generalizing c with
  | nil =>
    cases h
    exact ⟨rfl, rfl⟩
  | cons i path ih =>
    obtain ⟨b, hb, hc⟩ := Option.bind_eq_some_iff.1 h
    obtain ⟨hpath, hsource⟩ := ih hb
    obtain ⟨child, -, rfl⟩ := child?_eq_some_iff.1 hc
    exact ⟨congrArg (i :: ·) hpath, hsource⟩

/-- A path with no node at its end has no cursor there either. -/
theorem bind_filter_at? (n : Node) (source : List Char) (path : Path) :
    ((some path).filter fun target => (n.at? target).isSome).bind (at? n source) =
      at? n source path := by
  cases h : n.at? path with
  | none => rw [Option.filter_some, h, at?_eq_none h]; rfl
  | some m => rw [Option.filter_some, h]; rfl

/-- A move of the cursor at a path leads to the cursor at the path that the move leads to. -/
theorem move?_eq (h : at? n source path = some c) (m : Move) :
    c.move? m = (n.move? m path).bind (at? n source) := by
  cases path with
  | nil =>
    cases h
    cases m with
    | first => exact (first?_eq_child? _).trans (bind_filter_at? n source [0]).symm
    | next => rfl
    | parent => rfl
  | cons i path =>
    obtain ⟨b, hb, hc⟩ := Option.bind_eq_some_iff.1 h
    cases m with
    | first =>
      calc c.first? = at? n source (0 :: i :: path) := by rw [first?_eq_child?, at?, h]; rfl
        _ = _ := (bind_filter_at? n source _).symm
    | next =>
      calc c.next? = b.child? (i + 1) := next?_of_child? hc
        _ = at? n source ((i + 1) :: path) := by rw [at?, hb]; rfl
        _ = _ := (bind_filter_at? n source _).symm
    | parent =>
      calc c.parent? = some b := parent?_of_child? hc
        _ = at? n source path := hb.symm
        _ = _ := (bind_filter_at? n source _).symm

/-- A move in the plain tree leads to a node, so there is a cursor on it. -/
theorem exists_at?_of_move? {m : Move} {target : Path} (h : n.move? m path = some target)
    (source : List Char) : ∃ d, at? n source target = some d := by
  rw [Node.move?, Option.filter_eq_some_iff, ← map_node_at? n source, Option.isSome_map] at h
  exact Option.isSome_iff_exists.1 h.2

theorem move?_eq_none_iff (h : at? n source path = some c) (m : Move) :
    c.move? m = none ↔ n.move? m path = none := by
  rw [move?_eq h]
  cases htarget : n.move? m path with
  | none => simp
  | some target =>
    obtain ⟨d, hd⟩ := exists_at?_of_move? htarget source
    simp [hd]

/-- After a move or in place, the cursor is at the path. -/
theorem at?_getD_move? (h : at? n source path = some c) (m : Move) :
    at? n source ((n.move? m path).getD path) = some ((c.move? m).getD c) := by
  rw [move?_eq h]
  cases htarget : n.move? m path with
  | none => exact h
  | some target =>
    obtain ⟨d, hd⟩ := exists_at?_of_move? htarget source
    simp [hd]

/-- However a cursor is moved from the root on, it is the one at the path after the moves. -/
theorem at?_pathAfter (n : Node) (source : List Char) (moves : List Move) :
    at? n source (n.pathAfter moves) = some ((root n source).after moves) := by
  have hfrom : ∀ {path c}, at? n source path = some c →
      at? n source (moves.foldl (fun path m => (n.move? m path).getD path) path) =
        some (c.after moves) := by
    induction moves with
    | nil => exact fun h => h
    | cons m rest ih => exact fun h => ih (at?_getD_move? h m)
  exact hfrom rfl

/-- The cursors beside another are inside the same one. -/
theorem parent?_after_next (c : Cursor) (k : Nat) :
    (c.after (List.replicate k .next)).parent? = c.parent? := by
  induction k generalizing c with
  | zero => rfl
  | succ k ih =>
    rw [List.replicate_succ, after, List.foldl_cons]
    refine (ih _).trans ?_
    cases h : c.move? .next with
    | none => rfl
    | some d => exact parent?_of_next? h

/-- A cursor shows the tree as it is. After any moves from the root on, the indices that are stored
in it and in the cursors around it are the path that the moves make in the plain tree, and it is on
the node there. Each further move leads to the node where it leads in the plain tree, and is
impossible exactly if there is none. From a child, and from all beside it, the way back leads to the
very cursor that was left. And the children are those of the node, each at its own path, and are
what a walk from the first to the next ones passes. -/
theorem follows_path (n : Node) (source : List Char) (moves : List Move) :
    let c := (root n source).after moves
    let path := n.pathAfter moves
    c.path = path ∧ c.source = source ∧ n.at? path = some c.node ∧
    (∀ m, (c.move? m = none ↔ n.move? m path = none) ∧
      (c.move? m).map node = (n.move? m path).bind n.at?) ∧
    (∀ d k, c.first? = some d → (d.after (List.replicate k .next)).parent? = some c) ∧
    c.children.map node = c.node.children ∧
    (∀ i, c.children[i]? = at? n source (i :: path) ∧
      (c.children[i]?).map node = n.at? (i :: path)) ∧
    c.children[0]? = c.first? ∧ ∀ i, c.children[i + 1]? = c.children[i]?.bind next? := by
  intro c path
  have hc : at? n source path = some c := at?_pathAfter n source moves
  have hchild : ∀ i, c.children[i]? = at? n source (i :: path) := fun i => by
    rw [getElem?_children, at?, hc, Option.bind_some]
  obtain ⟨hpath, hsource⟩ := path_of_at? hc
  refine ⟨hpath, hsource, ?node, fun m => ⟨move?_eq_none_iff hc m, ?moved⟩, ?back,
    map_node_children c, fun i => ⟨hchild i, ?child⟩, ?front, ?walk⟩
  case node => rw [← map_node_at? n source, hc, Option.map_some]
  case moved =>
    rw [move?_eq hc, Option.map_bind]
    exact congrArg _ (funext fun target => map_node_at? n source target)
  case back =>
    intro d k hd
    rw [parent?_after_next]
    exact parent?_of_child? (first?_eq_child? c ▸ hd)
  case child => rw [hchild, map_node_at?]
  case front => rw [getElem?_children, first?_eq_child?]
  case walk =>
    intro i
    rw [getElem?_children, getElem?_children, child?_succ]

/-- Of two children that look alike the path tells which it is, and the move past them is none. -/
example :
    let comma := Node.leaf .comma (.point .nowhere)
    (Node.branch .argList [comma, comma]).pathAfter [.first, .next, .next] = [1] := rfl

end Cursor
end Offside
