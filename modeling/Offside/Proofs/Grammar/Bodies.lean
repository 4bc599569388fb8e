import Offside.Proofs.Grammar.Content

/-! Where the bodies in a tree of the grammar are. Only statements have any, and a tree starts where
the first of its tokens does. -/
namespace Offside

/-- A node is part of its own tree and of those around it. -/
inductive Node.PartOf (b : Node) : Node → Prop
  | self : PartOf b b
  | child {c n} : c ∈ n.children → PartOf b c → PartOf b n

theorem Node.PartOf.trans {b c n : Node} (hb : b.PartOf c) (hc : c.PartOf n) : b.PartOf n := by
  induction hc with
  | self => exact hb
  | child hd _ ih => exact .child hd ih

/-- All bodies in a tree have some property. -/
def Node.Bodies (P : Node → Prop) (n : Node) : Prop := ∀ b, b.PartOf n → b.label = .body → P b

namespace Node.Bodies

variable {P : Node → Prop} {label : Label} {nodes : List Node} {n : Node}

theorem of_children (hself : n.label = .body → P n) (hchildren : ∀ c ∈ n.children, c.Bodies P) :
    n.Bodies P := by
  intro b hb hlabel
  cases hb with
  | self => exact hself hlabel
  | child hc hb => exact hchildren _ hc b hb hlabel

theorem branch (hlabel : label ≠ .body) (hnodes : ∀ c ∈ nodes, c.Bodies P) :
    (branch label nodes).Bodies P := of_children (fun h => absurd h hlabel) hnodes

theorem leaf {span : Span} (hlabel : label ≠ .body) : (leaf label span).Bodies P :=
  of_children (fun h => absurd h hlabel) (List.forall_mem_nil _)

theorem mono {Q : Node → Prop} (h : ∀ b, P b → Q b) (hn : n.Bodies P) : n.Bodies Q :=
  fun b hb hlabel => h b (hn b hb hlabel)

end Node.Bodies

/-- Some tokens start with content, where a tree starts. -/
def StartsAt (u : List Token) (a : Node) : Prop :=
  ∃ tok v, u = tok :: v ∧ tok.kind.isContent = true ∧ a.span.start = tok.span.start

namespace StartsAt

variable {k : TokenKind} {tok : Token} {u v : List Token} {a b : Node}

theorem cons (htok : tok.kind = k) (hk : k.isContent = true)
    (ha : a.span.start = tok.span.start) : StartsAt (tok :: u) a :=
  ⟨tok, u, rfl, htok ▸ hk, ha⟩

theorem append (h : StartsAt u a) (hb : b.span.start = a.span.start) : StartsAt (u ++ v) b := by
  obtain ⟨tok, w, rfl, htok, ha⟩ := h
  exact ⟨tok, w ++ v, rfl, htok, hb.trans ha⟩

theorem firstKind_ne {next : TokenKind} (h : StartsAt u a) (hk : k.isContent = false) :
    firstKind u next ≠ k := by
  obtain ⟨tok, v, rfl, htok, -⟩ := h
  exact TokenKind.ne_of_isContent htok hk

end StartsAt

namespace Level

variable {P : Node → Prop}

theorem AtomLabel.label_ne_body {k : TokenKind} {label : Label} (h : AtomLabel k label) :
    label ≠ .body := by
  cases h <;> decide

mutual
/-- There are no bodies in an expression. -/
theorem Derives.bodies : ∀ {l : Level} {u : List Token} {a : Node}, Derives l u a → a.Bodies P
  | _, _, _, .tighter _ ha => ha.bodies
  | _, _, _, .operation _ _ hleft hright => by
    refine Node.Bodies.branch (by decide) ?_
    simp only [List.forall_mem_cons]
    exact ⟨hleft.bodies, .leaf (by decide), hright.bodies, List.forall_mem_nil _⟩
  | _, _, _, .signed _ ha => by
    refine Node.Bodies.branch (by decide) ?_
    simp only [List.forall_mem_cons]
    exact ⟨.leaf (by decide), ha.bodies, List.forall_mem_nil _⟩
  | _, _, _, .call hf _ hargs => by
    refine Node.Bodies.branch (by decide) ?_
    simp only [List.forall_mem_cons]
    refine ⟨hf.bodies, ?_, List.forall_mem_nil _⟩
    refine Node.Bodies.branch (by decide) ?_
    exact List.forall_mem_cons.2 ⟨.leaf (by decide), hargs.bodies⟩
  | _, _, _, .atom h => .leaf h.label_ne_body
  | _, _, _, .grouping _ ha _ => by
    refine Node.Bodies.branch (by decide) ?_
    simp only [List.forall_mem_cons]
    exact ⟨.leaf (by decide), ha.bodies, .leaf (by decide), List.forall_mem_nil _⟩

theorem Arguments.bodies : ∀ {v : List Token} {nodes : List Node}, Arguments v nodes →
    ∀ c ∈ nodes, c.Bodies P
  | _, _, .close _ => List.forall_mem_singleton.2 (.leaf (by decide))
  | _, _, .last ha _ =>
    List.forall_mem_cons.2 ⟨ha.bodies, List.forall_mem_singleton.2 (.leaf (by decide))⟩
  | _, _, .more ha _ hmore => by
    simp only [List.forall_mem_cons]
    exact ⟨ha.bodies, .leaf (by decide), hmore.bodies⟩
end

/-- An expression starts where the first of its tokens does. -/
theorem Derives.startsAt : ∀ {l : Level} {u : List Token} {a : Node}, Derives l u a → StartsAt u a
  | _, _, _, .tighter _ ha => ha.startsAt
  | _, _, _, .operation _ _ hleft _ => hleft.startsAt.append rfl
  | _, _, _, .signed hop ha => by
    have hcontent := (Derives.signed hop ha).isContent _ List.mem_cons_self
    exact .cons rfl hcontent rfl
  | _, _, _, .call hf _ _ => hf.startsAt.append rfl
  | _, _, _, .atom h => by
    have hcontent := (Derives.atom h).isContent _ List.mem_cons_self
    exact .cons rfl hcontent rfl
  | _, _, _, .grouping hopen _ _ => .cons hopen rfl rfl

end Level

namespace Script

variable {P : Node → Prop} {k next : TokenKind} {label : Label} {u : List Token} {a : Node}
  {nodes : List Node}

theorem OptionalType.bodies (hlabel : label ≠ .body) (h : OptionalType k label u nodes) :
    ∀ c ∈ nodes, c.Bodies P := by
  cases h with
  | absent => exact List.forall_mem_nil _
  | present _ ha =>
    refine List.forall_mem_singleton.2 ?_
    refine Node.Bodies.branch (by decide) ?_
    exact List.forall_mem_cons.2 ⟨.leaf hlabel, List.forall_mem_singleton.2 ha.bodies⟩

theorem Assigned.bodies (h : Assigned u nodes) : ∀ c ∈ nodes, c.Bodies P := by
  cases h with
  | type hmark ha => exact (OptionalType.present hmark ha).bodies (by decide)
  | value htype _ hb =>
    simp only [List.forall_mem_append, List.forall_mem_cons]
    exact ⟨htype.bodies (by decide), .leaf (by decide), hb.bodies, List.forall_mem_nil _⟩

theorem Parameter.bodies (h : Parameter u nodes) : ∀ c ∈ nodes, c.Bodies P := by
  obtain ⟨_, htype⟩ := h
  exact List.forall_mem_cons.2 ⟨.leaf (by decide), htype.bodies (by decide)⟩

theorem Parameters.bodies (h : Parameters u nodes) : ∀ c ∈ nodes, c.Bodies P := by
  induction h with
  | close _ => exact List.forall_mem_singleton.2 (.leaf (by decide))
  | last hparameter _ =>
    refine List.forall_mem_append.2 ⟨hparameter.bodies, ?_⟩
    exact List.forall_mem_singleton.2 (.leaf (by decide))
  | more hparameter _ _ ih =>
    simp only [List.forall_mem_append, List.forall_mem_cons]
    exact ⟨hparameter.bodies, .leaf (by decide), ih⟩

/-- A statement starts where the first of its tokens does. -/
theorem Statement.startsAt (h : Statement next u a) : StartsAt u a := by
  cases h with
  | function hkeyword => exact .cons hkeyword rfl rfl
  | returnNone hkeyword => exact .cons hkeyword rfl rfl
  | returnValue hkeyword => exact .cons hkeyword rfl rfl
  | loop hkeyword => exact .cons hkeyword rfl rfl
  | conditional hkeyword => exact .cons hkeyword rfl rfl
  | pass hkeyword => exact .cons hkeyword rfl rfl
  | assignment hname => exact .cons hname rfl rfl
  | expression ha => exact ha.startsAt.append rfl

theorem Lines.nodes_eq_nil (h : Lines next [] nodes) : nodes = [] := by
  generalize hu : ([] : List Token) = u at h
  cases h with
  | nil => rfl
  | blank => cases hu
  | statement ha =>
    obtain ⟨tok, v, rfl, -⟩ := ha.startsAt
    cases hu

end Script
end Offside
