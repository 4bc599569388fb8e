import Offside.Proofs.Program.Shapes

/-! What the meaning of a tree is made of. Each rule takes the parts of a node from the left and
stops where it has all that it needs, so a tree can have parts that are passed over. Everything else
of a tree that has a meaning is in it: the statements, expressions and names of a program are those
of the tree in their order, without the parts that have been passed over. -/
namespace Offside

/-- A statement or an expression with its span, or a name. -/
inductive Piece where
  | statement (span : Span)
  | expression (span : Span)
  | name (text : String)
deriving DecidableEq, Repr

namespace Expr

mutual
/-- The pieces of an expression from left to right. -/
def pieces : Expr Span → List Piece
  | .number _ span | .boolean _ span | .noneLiteral span | .ident _ span => [.expression span]
  | .binary _ lhs rhs span => .expression span :: (pieces lhs ++ pieces rhs)
  | .call function arguments span => .expression span :: .name function :: piecesAll arguments

def piecesAll : List (Expr Span) → List Piece
  | [] => []
  | e :: rest => pieces e ++ piecesAll rest
end

end Expr

namespace Stmt

mutual
/-- The pieces of a statement from left to right. Types have none. -/
def pieces : Stmt Span → List Piece
  | .assign name value span | .declare name _ value span =>
    .statement span :: .name name :: value.pieces
  | .expression value span | .return value span => .statement span :: value.pieces
  | .function name parameters _ body span =>
    .statement span :: .name name :: (parameters.map (.name ·.name) ++ piecesAll body)
  | .conditional first alternatives otherwise span =>
    .statement span :: (piecesOfBranch first ++ (piecesOfBranches alternatives ++
      piecesAll otherwise))
  | .loop condition body span => .statement span :: (condition.pieces ++ piecesAll body)
  | .pass span => [.statement span]

def piecesAll : List (Stmt Span) → List Piece
  | [] => []
  | s :: rest => pieces s ++ piecesAll rest

def piecesOfBranch : Branch Span → List Piece
  | ⟨_, condition, body, _⟩ => condition.pieces ++ piecesAll body

def piecesOfBranches : List (Branch Span) → List Piece
  | [] => []
  | b :: rest => piecesOfBranch b ++ piecesOfBranches rest
end

end Stmt

/-- The labels of statements. -/
def Label.isStatement : Label → Bool
  | returnStatement | assignStatement | expressionStatement | functionDefinition | whileStatement
  | passStatement | ifStatement => true
  | _ => false

namespace Node

/-- What becomes of a part: something is built from it, its text is taken up, or it is passed over.
-/
inductive Use where
  | built | word | passed
deriving DecidableEq, Repr

/-- The uses of what is in a list after the opening parenthesis. It ends with the closing one. -/
def usesOfItems (item : Use) : List Label → List Use
  | [] | .closeParen :: _ => []
  | .comma :: rest => .passed :: usesOfItems item rest
  | _ :: rest => item :: usesOfItems item rest

/-- The uses of the branches of a conditional, the last of which may have no condition. -/
def usesOfBranches : List Label → List Use
  | _ :: .body :: _ => [.passed, .built]
  | _ :: _ :: _ :: rest => .passed :: .built :: .built :: usesOfBranches rest
  | _ => []

/-- What becomes of the parts of a node, by their labels. Parts after these are passed over. -/
def uses : Label → List Label → List Use
  | .script, labels => labels.map fun _ => .built
  | .body, labels => labels.map fun l => if l = .colon then .passed else .built
  | .returnStatement, _ => [.passed, .built]
  | .assignStatement, _ :: .typeDef :: _ => [.word, .passed, .passed, .built]
  | .assignStatement, _ => [.word, .passed, .built]
  | .expressionStatement, _ => [.built]
  | .functionDefinition, _ :: _ :: _ :: .typeDef :: _ => [.passed, .word, .built, .passed, .built]
  | .functionDefinition, _ => [.passed, .word, .built, .built]
  | .whileStatement, _ => [.passed, .built, .built]
  | .ifStatement, labels => usesOfBranches labels
  | .paramList, labels => .passed :: usesOfItems .word labels.tail
  | .argList, labels => .passed :: usesOfItems .built labels.tail
  | .callExpression, _ => [.word, .built]
  | .unaryExpression, _ => [.passed, .word]
  | .binaryExpression, _ => [.built, .passed, .built]
  | .parenthesizedExpression, _ => [.passed, .built]
  | _, _ => []

mutual
/-- A node and all nodes in it from left to right, without those of type annotations. -/
def untyped : Node → List Node
  | ⟨label, span, children⟩ =>
    if label = .typeDef then [] else ⟨label, span, children⟩ :: untypedAll children

def untypedAll : List Node → List Node
  | [] => []
  | c :: rest => untyped c ++ untypedAll rest
end

mutual
/-- The nodes that are used, with their uses. -/
def used (use : Use) : Node → List (Use × Node)
  | ⟨label, span, children⟩ =>
    if label = .typeDef then []
    else match use with
      | .built => (.built, ⟨label, span, children⟩) ::
        usedAll (uses label (children.map (·.label))) children
      | .word => [(.word, ⟨label, span, children⟩)]
      | .passed => []

def usedAll (uses : List Use) : List Node → List (Use × Node)
  | [] => []
  | c :: rest => used (uses.headD .passed) c ++ usedAll uses.tail rest
end

mutual
/-- The trees that are passed over. -/
def passed (use : Use) : Node → List Node
  | ⟨label, span, children⟩ =>
    if label = .typeDef then []
    else match use with
      | .built => passedAll (uses label (children.map (·.label))) children
      | .word => children
      | .passed => [⟨label, span, children⟩]

def passedAll (uses : List Use) : List Node → List Node
  | [] => []
  | c :: rest => passed (uses.headD .passed) c ++ passedAll uses.tail rest
end

/-- The pieces that a node which is used stands for. Lists and parentheses have none of their own, a
sign goes with its number, and a statement that gives back nothing has the absent value at its
keyword. -/
def piecesOf (source : List Char) : Use × Node → List Piece
  | (.built, ⟨.returnStatement, span, [keyword]⟩) => [.statement span, .expression keyword.span]
  | (.built, ⟨label, span, _⟩) =>
    match label with
    | .returnStatement | .assignStatement | .expressionStatement | .functionDefinition
    | .whileStatement | .passStatement | .ifStatement => [.statement span]
    | .variableName | .number | .boolean | .noneLiteral | .callExpression | .unaryExpression
    | .binaryExpression => [.expression span]
    | _ => []
  | (.word, n) => if n.label = .variableName then [.name (n.text source)] else []
  | (.passed, _) => []

/-- The pieces of what is used of a tree. -/
def pieces (source : List Char) (use : Use) (n : Node) : List Piece :=
  (n.used use).flatMap (piecesOf source)

def piecesAll (source : List Char) (uses : List Use) (nodes : List Node) : List Piece :=
  (usedAll uses nodes).flatMap (piecesOf source)

section Uses

variable {source : List Char} {use : Use} {us : List Use} {n c : Node} {nodes : List Node}
  {label : Label} {span : Span}

theorem untypedAll_eq_flatMap (nodes : List Node) : untypedAll nodes = nodes.flatMap untyped := by
  induction nodes with
  | nil => rfl
  | cons c rest ih => rw [untypedAll, ih, List.flatMap_cons]

theorem used_typeDef (h : n.label = .typeDef) : n.used use = [] := by
  obtain ⟨label, span, children⟩ := n
  rw [used.eq_def]
  exact if_pos h

theorem used_built (h : n.label ≠ .typeDef) : n.used .built =
    (.built, n) :: usedAll (uses n.label (n.children.map (·.label))) n.children := by
  obtain ⟨label, span, children⟩ := n
  rw [used.eq_def]
  exact if_neg h

theorem used_word (h : n.label ≠ .typeDef) : n.used .word = [(.word, n)] := by
  obtain ⟨label, span, children⟩ := n
  rw [used.eq_def]
  exact if_neg h

@[simp] theorem used_passed (n : Node) : n.used .passed = [] := by
  obtain ⟨label, span, children⟩ := n
  rw [used.eq_def]
  exact ite_self _

mutual
/-- What is not used is passed over. -/
theorem untyped_perm : ∀ (use : Use) (n : Node),
    n.untyped.Perm ((n.used use).map Prod.snd ++ (n.passed use).flatMap untyped)
  | use, ⟨label, span, children⟩ => by
    rw [untyped, used.eq_def, passed.eq_def]
    by_cases hlabel : label = .typeDef
    · simp [hlabel]
    · simp only [hlabel, if_false]
      cases use with
      | built => exact (untypedAll_perm _ children).cons _
      | word => simp [untypedAll_eq_flatMap]
      | passed => simp [untyped, hlabel]

theorem untypedAll_perm : ∀ (us : List Use) (nodes : List Node),
    (untypedAll nodes).Perm ((usedAll us nodes).map Prod.snd ++
      (passedAll us nodes).flatMap untyped)
  | _, [] => .nil
  | us, c :: rest => by
    -- Only what is passed over of the first changes places with what is used of the others.
    rw [untypedAll, usedAll, passedAll, List.map_append, List.flatMap_append]
    have hc := untyped_perm (us.headD .passed) c
    have hrest := untypedAll_perm us.tail rest
    refine (hc.append hrest).trans ?_
    simp only [List.append_assoc]
    exact List.Perm.append_left _ (List.perm_append_comm_assoc _ _ _)
end

/-! ### The pieces of a tree -/

@[simp] theorem piecesAll_nil (us : List Use) : piecesAll source us [] = [] := rfl

@[simp] theorem piecesAll_cons (us : List Use) (c : Node) (rest : List Node) :
    piecesAll source us (c :: rest) =
      c.pieces source (us.headD .passed) ++ piecesAll source us.tail rest := List.flatMap_append

@[simp] theorem pieces_passed (n : Node) : n.pieces source .passed = [] := by
  rw [pieces, used_passed, List.flatMap_nil]

@[simp] theorem piecesAll_passed (nodes : List Node) : piecesAll source [] nodes = [] := by
  induction nodes with
  | nil => rfl
  | cons c rest ih => simp [ih]

theorem pieces_typeDef (h : n.label = .typeDef) : n.pieces source use = [] := by
  rw [pieces, used_typeDef h, List.flatMap_nil]

theorem pieces_built (h : n.label ≠ .typeDef) : n.pieces source .built =
    piecesOf source (.built, n) ++
      piecesAll source (uses n.label (n.children.map (·.label))) n.children := by
  rw [pieces, used_built h, List.flatMap_cons]
  rfl

/-- The name that a node is. -/
theorem pieces_name (h : n.label = .variableName) :
    n.pieces source .word = [.name (n.text source)] := by
  rw [pieces, used_word (by simp [h]), List.flatMap_singleton]
  exact if_pos h

theorem pieces_number (h : n.label = .number) : n.pieces source .word = [] := by
  rw [pieces, used_word (by simp [h]), List.flatMap_singleton]
  exact if_neg (by simp [h])

end Uses

/-- What holds of a node if it holds of its parts holds of all nodes. -/
theorem induction_children {p : Node → Prop} (step : ∀ n, (∀ c ∈ n.children, p c) → p n) :
    ∀ n, p n
  | ⟨label, span, children⟩ => step _ fun c _ => induction_children step c

section Expressions

variable {source : List Char} {n last : Node} {nodes : List Node} {expected : String}
  {e : Expr Span} {es : List (Expr Span)}

theorem usesOfItems_item {item : Use} {l : Label} {rest : List Label} (hclose : l ≠ .closeParen)
    (hcomma : l ≠ .comma) : usesOfItems item (l :: rest) = item :: usesOfItems item rest := by
  cases l <;> first | rfl | contradiction

theorem isExpression_of_toExpr (h : n.toExpr source = .ok e) : n.label.isExpression = true := by
  obtain ⟨label, span, children⟩ := n
  cases label <;> first | rfl | cases h

theorem label_ne_of_toExpr {l : Label} (h : n.toExpr source = .ok e)
    (hl : l.isExpression = false) : n.label ≠ l := by
  rintro rfl
  rw [isExpression_of_toExpr h] at hl
  cases hl

/-- A list passes over its commas and what stands after its closing parenthesis. -/
theorem pieces_of_argumentsAfter : ∀ {last : Node} {expected : String} {nodes : List Node}
    {es : List (Expr Span)},
    (∀ c ∈ nodes, ∀ e, c.toExpr source = .ok e → e.pieces = c.pieces source .built) →
    argumentsAfter source last expected nodes = .ok es →
    Expr.piecesAll es = piecesAll source (usesOfItems .built (nodes.map (·.label))) nodes
  | last, expected, nodes, es, ih, h => by
    obtain ⟨close, more, hnodes, hclose, rfl⟩ |
      ⟨argument, next, rest, value, more, hnodes, hargument, hvalue, rfl, hmore⟩ :=
        shape_of_argumentsAfter h
    · simp [hnodes, hclose, usesOfItems, Expr.piecesAll]
    · have hhead := ih argument (by simp [hnodes]) value hvalue
      have htail : Expr.piecesAll more = piecesAll source
          (usesOfItems .built (next.label :: rest.map (·.label))) (next :: rest) := by
        obtain ⟨hclose, rfl⟩ | ⟨hcomma, hmore⟩ := hmore
        · simp [hclose, usesOfItems, Expr.piecesAll]
        · have hrest := pieces_of_argumentsAfter (fun c hc => ih c (by simp [hnodes, hc])) hmore
          simp [hcomma, usesOfItems, hrest]
      simp only [hnodes, List.map_cons, Expr.piecesAll, hhead, htail,
        usesOfItems_item hargument (label_ne_of_toExpr hvalue rfl)]
      rw [piecesAll_cons _ argument, List.headD_cons, List.tail_cons]
termination_by _ _ nodes => nodes.length
decreasing_by simp only [hnodes, List.length_cons]; omega

/-- The pieces of an expression or a list of arguments are those of its tree. -/
theorem pieces_of_toExpr_and_toArguments (n : Node) :
    (∀ e, n.toExpr source = .ok e → e.pieces = n.pieces source .built) ∧
    ∀ es, n.toArguments source = .ok es → Expr.piecesAll es = n.pieces source .built := by
  induction n using induction_children with
  | step n ih =>
    constructor
    · intro e h
      obtain ⟨label, span, children⟩ := n
      rw [pieces_built (label_ne_of_toExpr h rfl)]
      cases label with
      | noneLiteral | boolean | variableName =>
        cases h
        simp [Expr.pieces, uses, piecesOf]
      | number =>
        obtain ⟨value, -, rfl⟩ := numberOf_eq_ok_iff.1 h
        simp [Expr.pieces, uses, piecesOf]
      | callExpression =>
        obtain ⟨callee, list, more, es, rfl, hcallee, hes, rfl⟩ := shape_of_call h
        simp [Expr.pieces, uses, piecesOf, pieces_name hcallee, (ih list (by simp)).2 es hes]
      | unaryExpression =>
        -- The number is taken up into that of the whole, with its sign.
        obtain ⟨sign, number, more, value, rfl, hnumber, rfl⟩ := shape_of_unary h
        simp [Expr.pieces, uses, piecesOf, pieces_number hnumber]
      | binaryExpression =>
        obtain ⟨lhs, symbol, rhs, more, op, x, y, rfl, hx, hy, rfl⟩ := shape_of_binary h
        simp [Expr.pieces, uses, piecesOf, (ih lhs (by simp)).1 x hx, (ih rhs (by simp)).1 y hy]
      | parenthesizedExpression =>
        obtain ⟨opening, inner, more, rfl, he⟩ := shape_of_parenthesized h
        simp [uses, piecesOf, (ih inner (by simp)).1 e he]
      | _ => cases h
    · intro es h
      obtain ⟨label, span, children⟩ := n
      obtain ⟨rfl, opening, rest, rfl, hes⟩ := shape_of_arguments h
      have hpieces := pieces_of_argumentsAfter (fun c hc => (ih c (by simp [hc])).1) hes
      rw [pieces_built (by simp), hpieces]
      simp [uses, piecesOf]

theorem pieces_of_toExpr (h : n.toExpr source = .ok e) : e.pieces = n.pieces source .built :=
  (pieces_of_toExpr_and_toArguments n).1 e h

end Expressions

section Statements

variable {source : List Char} {n : Node} {nodes : List Node} {parameters : List Parameter}
  {st : Stmt Span} {sts : List (Stmt Span)}

theorem pieces_of_parametersAfter : ∀ {last : Node} {expected : String} {nodes : List Node}
    {parameters : List Parameter},
    parametersAfter source last expected nodes = .ok parameters →
    parameters.map (.name ·.name) =
      piecesAll source (usesOfItems .word (nodes.map (·.label))) nodes
  | last, expected, nodes, parameters, h => by
    obtain ⟨close, more, hnodes, hclose, rfl⟩ |
      ⟨name, typeNode, next, rest, type, more, hnodes, hname, htype, rfl, hmore⟩ :=
        shape_of_parametersAfter h
    · simp [hnodes, hclose, usesOfItems]
    · have htail : more.map (.name ·.name) = piecesAll source
          (usesOfItems .word (next.label :: rest.map (·.label))) (next :: rest) := by
        obtain ⟨hclose, rfl⟩ | ⟨hcomma, hmore⟩ := hmore
        · simp [hclose, usesOfItems]
        · have hrest := pieces_of_parametersAfter hmore
          simp [hcomma, usesOfItems, hrest]
      simp only [hnodes, List.map_cons, hname, htype, usesOfItems, htail]
      rw [piecesAll_cons _ name, piecesAll_cons _ typeNode]
      simp only [List.headD_cons, List.tail_cons, pieces_name hname, pieces_typeDef htype,
        List.nil_append, List.singleton_append]
termination_by _ _ nodes => nodes.length
decreasing_by simp only [hnodes, List.length_cons]; omega

theorem pieces_of_toParameters (h : n.toParameters source = .ok parameters) :
    n.pieces source .built = parameters.map (.name ·.name) := by
  obtain ⟨label, span, children⟩ := n
  obtain ⟨rfl, opening, rest, rfl, hrest⟩ := shape_of_parameters h
  rw [pieces_built (by simp), pieces_of_parametersAfter hrest]
  simp [uses, piecesOf]

theorem isStatement_of_toStmt (h : n.toStmt source = .ok st) : n.label.isStatement = true := by
  obtain ⟨label, span, children⟩ := n
  cases label <;> first | rfl | cases h

theorem label_ne_of_toStmt {l : Label} (h : n.toStmt source = .ok st)
    (hl : l.isStatement = false) : n.label ≠ l := by
  rintro rfl
  rw [isStatement_of_toStmt h] at hl
  cases hl

/-- A body passes over its colons. -/
theorem pieces_of_statementsOf
    (ih : ∀ c ∈ nodes, ∀ st, c.toStmt source = .ok st → st.pieces = c.pieces source .built)
    (h : statementsOf source nodes = .ok sts) : Stmt.piecesAll sts =
      piecesAll source (uses .body (nodes.map (·.label))) nodes := by
  induction nodes generalizing sts with
  | nil =>
    cases h
    rfl
  | cons c rest ihrest =>
    have hrest := fun {sts} => @ihrest sts fun c hc => ih c (.tail _ hc)
    simp only [uses, List.map_cons, piecesAll_cons, List.headD_cons, List.tail_cons]
    by_cases hcolon : c.label = .colon
    · have hmore : statementsOf source rest = .ok sts := by
        rwa [statementsOf, if_pos hcolon] at h
      simp [hcolon, hrest hmore, uses]
    · obtain ⟨st, more, hst, hmore, rfl⟩ := (statementsOf_cons_eq_ok_iff hcolon).1 h
      simp [hcolon, Stmt.piecesAll, ih c (.head _) st hst, hrest hmore, uses]

theorem usesOfBranches_condition {k c b : Label} {rest : List Label} (h : c.isExpression = true) :
    usesOfBranches (k :: c :: b :: rest) = .passed :: .built :: .built :: usesOfBranches rest := by
  cases c <;> first | rfl | contradiction

/-- Further branches pass over their keywords, and the last one has nothing after it. -/
theorem pieces_of_branchesAfter : ∀ {nodes : List Node} {alternatives : List (Branch Span)}
    {otherwise : List (Stmt Span)},
    (∀ c ∈ nodes, ∀ sts, c.toBody source = .ok sts →
      Stmt.piecesAll sts = c.pieces source .built) →
    branchesAfter source nodes = .ok (alternatives, otherwise) →
    Stmt.piecesOfBranches alternatives ++ Stmt.piecesAll otherwise =
      piecesAll source (usesOfBranches (nodes.map (·.label))) nodes
  | nodes, alternatives, otherwise, ih, h => by
    obtain ⟨rfl, rfl, rfl⟩ | ⟨keyword, condition, body, rest, e, sts, more, hnodes, hlabel, he,
      hbody, hrest, rfl⟩ | ⟨keyword, body, hnodes, hbody, rfl⟩ := shape_of_branchesAfter h
    · rfl
    · have hpieces := pieces_of_branchesAfter (fun c hc => ih c (by simp [hnodes, hc])) hrest
      simp [hnodes, usesOfBranches_condition hlabel, Stmt.piecesOfBranches, Stmt.piecesOfBranch,
        pieces_of_toExpr he, ih body (by simp [hnodes]) sts hbody, ← hpieces]
    · simp [hnodes, (shape_of_body hbody).1, usesOfBranches, Stmt.piecesOfBranches,
        ih body (by simp [hnodes]) otherwise hbody]
termination_by nodes => nodes.length
decreasing_by simp only [hnodes, List.length_cons]; omega

/-- The pieces of a statement or a body are those of its tree. -/
theorem pieces_of_toStmt_and_toBody (n : Node) :
    (∀ st, n.toStmt source = .ok st → st.pieces = n.pieces source .built) ∧
    ∀ sts, n.toBody source = .ok sts → Stmt.piecesAll sts = n.pieces source .built := by
  induction n using induction_children with
  | step n ih =>
    constructor
    · intro st h
      obtain ⟨label, span, children⟩ := n
      rw [pieces_built (label_ne_of_toStmt h rfl)]
      cases label with
      | passStatement =>
        cases h
        simp [Stmt.pieces, uses, piecesOf]
      | returnStatement =>
        -- Without a value the absent one stands on the keyword, which is passed over.
        obtain ⟨keyword, rfl, rfl⟩ | ⟨keyword, value, more, e, rfl, he, rfl⟩ := shape_of_return h
        · simp [Stmt.pieces, Expr.pieces, uses, piecesOf]
        · simp [Stmt.pieces, uses, piecesOf, pieces_of_toExpr he]
      | assignStatement =>
        obtain ⟨name, hname, ⟨mark, value, more, e, rfl, hmark, he, rfl⟩ |
          ⟨typeNode, mark, value, more, type, e, rfl, htype, he, rfl⟩⟩ := shape_of_assign h
        · simp [Stmt.pieces, uses, piecesOf, hmark, pieces_name hname, pieces_of_toExpr he]
        · simp [Stmt.pieces, uses, piecesOf, htype, pieces_name hname, pieces_of_toExpr he]
      | expressionStatement =>
        obtain ⟨value, more, e, rfl, he, rfl⟩ := shape_of_expressionStatement h
        simp [Stmt.pieces, uses, piecesOf, pieces_of_toExpr he]
      | functionDefinition =>
        obtain ⟨keyword, name, list, parameters, returns, body, more, sts, hname, hlist, hbody, rfl,
          ⟨rfl, htype⟩ | ⟨typeNode, rfl, htype⟩⟩ := shape_of_function h <;>
        simp [Stmt.pieces, uses, piecesOf, htype, pieces_name hname, pieces_of_toParameters hlist,
          (ih body (by simp)).2 sts hbody]
      | whileStatement =>
        obtain ⟨keyword, condition, body, more, e, sts, rfl, he, hbody, rfl⟩ := shape_of_while h
        simp [Stmt.pieces, uses, piecesOf, pieces_of_toExpr he, (ih body (by simp)).2 sts hbody]
      | ifStatement =>
        obtain ⟨keyword, condition, body, rest, e, sts, alternatives, otherwise, rfl, hlabel, he,
          hbody, hrest, rfl⟩ := shape_of_if h
        have hfurther := pieces_of_branchesAfter
          (fun c hc => (ih c (by simp [hc])).2) hrest
        simp [Stmt.pieces, Stmt.piecesOfBranch, uses, usesOfBranches_condition hlabel, piecesOf,
          pieces_of_toExpr he, (ih body (by simp)).2 sts hbody, ← hfurther]
      | _ => cases h
    · intro sts h
      obtain ⟨label, span, children⟩ := n
      obtain ⟨rfl, h⟩ := shape_of_body h
      rw [pieces_built (by simp), pieces_of_statementsOf (fun c hc => (ih c hc).1) h]
      simp [piecesOf]

theorem pieces_of_toStmt (h : n.toStmt source = .ok st) : st.pieces = n.pieces source .built :=
  (pieces_of_toStmt_and_toBody n).1 st h

theorem pieces_of_mapM_toStmt (h : nodes.mapM (toStmt source) = .ok sts) :
    Stmt.piecesAll sts = piecesAll source (uses .script (nodes.map (·.label))) nodes := by
  induction nodes generalizing sts with
  | nil =>
    cases h
    rfl
  | cons c rest ih =>
    rw [List.mapM_cons] at h
    obtain ⟨st, hst, h⟩ := Except.bind_eq_ok_iff.1 h
    obtain ⟨more, hmore, h⟩ := Except.bind_eq_ok_iff.1 h
    cases h
    simp [Stmt.piecesAll, pieces_of_toStmt hst, ih hmore, uses]

/-- Whether a node is a statement or an expression. -/
def isCode (n : Node) : Bool := n.label.isStatement || n.label.isExpression

theorem filter_perm_filter_append_iff {α : Type} {p : α → Bool} {all kept lost : List α}
    (h : all.Perm (kept ++ lost)) :
    (all.filter p).Perm (kept.filter p) ↔ ∀ a ∈ lost, p a = false := by
  have hall : (all.filter p).Perm (kept.filter p ++ lost.filter p) := by
    rw [← List.filter_append]
    exact h.filter p
  constructor
  · intro hkept
    have hlength := hall.symm.trans hkept |>.length_eq
    have hnil : lost.filter p = [] := by simpa using hlength
    simpa using hnil
  · intro hlost
    have hnil : lost.filter p = [] := by simpa using hlost
    rwa [hnil, List.append_nil] at hall

/-- Statements, expressions and names are built in the order of the tree from all that is used of
it. Each node that stands in no type annotation is used or in a part that is passed over, so that
every statement and expression is built exactly if none of them is in such a part. -/
theorem toProgram_pieces {program : Program Span} (h : n.toProgram source = .ok program) :
    Stmt.piecesAll program = n.pieces source .built ∧
    n.untyped.Perm ((n.used .built).map Prod.snd ++ (n.passed .built).flatMap untyped) ∧
    ((n.untyped.filter isCode).Perm (((n.used .built).map Prod.snd).filter isCode) ↔
      ∀ c ∈ (n.passed .built).flatMap untyped, c.isCode = false) := by
  have hperm := untyped_perm .built n
  refine ⟨?_, hperm, filter_perm_filter_append_iff hperm⟩
  obtain ⟨label, span, children⟩ := n
  obtain ⟨_, hlabel, hchildren⟩ := Except.bind_eq_ok_iff.1 h
  obtain rfl : label = .script := requireAs_eq_ok_iff.1 hlabel
  rw [pieces_built (by simp), pieces_of_mapM_toStmt hchildren]
  simp [piecesOf]

/-- A loop with an else part, which no loop has. -/
def loopWithElse : Node :=
  let place := fun start stop => (⟨⟨start, "shell"⟩, ⟨stop, "shell"⟩⟩ : Span)
  branch .script [branch .whileStatement
    [leaf .keyword (place 0 5), leaf .boolean (place 6 10),
      branch .body [leaf .colon (place 10 11),
        branch .passStatement [leaf .keyword (place 16 20)]],
      leaf .keyword (place 21 25),
      branch .body [leaf .colon (place 25 26),
        branch .assignStatement [leaf .variableName (place 31 32), leaf .assignOp (place 33 34),
          leaf .number (place 35 36)]]]]

theorem toProgram_pieces_loop :
    let source := "while True:\n    pass\nelse:\n    x = 1\n".toList
    let place := fun start stop => (⟨⟨start, "shell"⟩, ⟨stop, "shell"⟩⟩ : Span)
    let program : Program Span :=
      [.loop (.boolean true (place 6 10)) [.pass (place 16 20)] (place 0 36)]
    loopWithElse.toProgram source = .ok program ∧
    Stmt.piecesAll program = loopWithElse.pieces source .built ∧
    loopWithElse.untyped.Perm ((loopWithElse.used .built).map Prod.snd ++
      (loopWithElse.passed .built).flatMap untyped) ∧
    ((loopWithElse.untyped.filter isCode).Perm
        (((loopWithElse.used .built).map Prod.snd).filter isCode) ↔
      ∀ c ∈ (loopWithElse.passed .built).flatMap untyped, c.isCode = false) := by
  intro source place program
  have h : loopWithElse.toProgram source = .ok program := by rfl
  exact ⟨h, toProgram_pieces h⟩

/-- The assignment in the else part of a loop is lost. -/
theorem statement_passed_over :
    ¬ ∀ (source : List Char) (tree : Node) (program : Program Span),
      tree.toProgram source = .ok program → ∀ n ∈ tree.untyped, n.label.isStatement = true →
        .statement n.span ∈ Stmt.piecesAll program := by
  intro hall
  let place := fun start stop => (⟨⟨start, "shell"⟩, ⟨stop, "shell"⟩⟩ : Span)
  let assignment := branch .assignStatement
    [leaf .variableName (place 31 32), leaf .assignOp (place 33 34), leaf .number (place 35 36)]
  have hmem : assignment ∈ loopWithElse.untyped := by
    simp [loopWithElse, untyped, untypedAll, branch, leaf, assignment, place]
  have hlost := hall "while True:\n    pass\nelse:\n    x = 1\n".toList loopWithElse
    [.loop (.boolean true (place 6 10)) [.pass (place 16 20)] (place 0 36)] (by rfl) assignment
    hmem rfl
  revert hlost
  decide

end Statements

end Node
end Offside
