import Offside.FrontEnd
import Offside.Program.OfCursor
import Offside.Proofs.Tree.Path

/-! A cursor that goes through the children of a node sees them as a list. So the rules that move a
cursor and those that take a list of children build the same. -/
namespace Offside
namespace Cursor

/-- The cursor on a first child. -/
def inside (c : Cursor) (n : Node) : Cursor := ⟨c.source, n, 0, some c⟩

/-- The cursor on a next sibling. -/
def beside (c : Cursor) (n : Node) : Cursor := ⟨c.source, n, c.index + 1, c.parent?⟩

section Siblings

variable {b c : Cursor} {n : Node} {rest : List Node} {expected : String}

theorem next?_eq_map_beside (c : Cursor) : c.next? = c.later.head?.map c.beside := by
  obtain ⟨source, node, index, parent?⟩ := c
  cases parent? with
  | none => rfl
  | some parent =>
    simp only [next?, later, List.head?_drop, Option.bind_eq_bind, Option.bind_some]
    cases parent.node.children[index + 1]? <;> rfl

theorem later_beside (h : c.later = n :: rest) : (c.beside n).later = rest := by
  obtain ⟨source, node, index, parent?⟩ := c
  cases parent? with
  | none => cases h
  | some parent =>
    simp only [later] at h
    simp only [later, beside]
    rw [← List.drop_drop, h, List.drop_succ_cons, List.drop_zero]

theorem next?_eq_some (h : c.later = n :: rest) : c.next? = some (c.beside n) := by
  rw [next?_eq_map_beside, h]
  rfl

theorem next?_eq_none (h : c.later = []) : c.next? = none := by
  rw [next?_eq_map_beside, h]
  rfl

theorem within_beside (h : c.later = n :: rest) : (c.beside n).Within (sizeOf c.later) :=
  within_of_next? (next?_eq_some h)

theorem nextWithin?_eq_some (h : c.later = n :: rest) :
    c.nextWithin? = some ⟨c.beside n, within_beside h⟩ := by
  unfold nextWithin?
  split
  · rename_i hd
    obtain rfl := Option.some.inj (hd.symm.trans (next?_eq_some h))
    rfl
  · rename_i hnone
    cases hnone.symm.trans (next?_eq_some h)

theorem nextWithin?_eq_none (h : c.later = []) : c.nextWithin? = none := by
  unfold nextWithin?
  split
  · rename_i hd
    cases (next?_eq_none h).symm.trans hd
  · rfl

/-- A rule that needs a next sibling takes the first of the nodes after. -/
theorem expectNext_bind (h : c.later = n :: rest)
    (k : {d : Cursor // d.Within (sizeOf c.later)} → Except Error α) :
    (c.expectNext expected >>= k) = k ⟨c.beside n, within_beside h⟩ := by
  rw [expectNext, nextWithin?_eq_some h]
  rfl

theorem expectNext_bind_of_nil (hb : c.parent? = some b) (h : c.later = [])
    (k : {d : Cursor // d.Within (sizeOf c.later)} → Except Error α) :
    (c.expectNext expected >>= k) = Node.endsWith b.label c.node expected := by
  rw [expectNext, nextWithin?_eq_none h, hb]
  rfl

theorem require_bind_congr {label : Label} {k k' : Unit → Except Error α}
    (h : n.label = label → k () = k' ()) : (n.require label >>= k) = (n.require label >>= k') := by
  by_cases hlabel : n.label = label
  · have hrequired : n.require label = .ok () := if_pos hlabel
    rw [hrequired]
    exact h hlabel
  · have hrefused : n.require label = n.unexpected label.name := if_neg hlabel
    rw [hrefused]
    rfl

end Siblings

section Expressions

theorem toSigned_eq {c : Cursor} (h : c.label = .unaryExpression) :
    c.toSigned = c.node.toExpr c.source := by
  obtain ⟨source, ⟨label, span, children⟩, index, parent?⟩ := c
  cases h
  match children with
  | [] | [_] | _ :: _ :: _ => rfl

theorem toExpr_call {c : Cursor} (h : c.label = .callExpression)
    (hparts : ∀ d : Cursor, sizeOf d.node < sizeOf c.node →
      d.toArguments = d.node.toArguments d.source) : c.toExpr = c.node.toExpr c.source := by
  obtain ⟨source, ⟨label, span, children⟩, index, parent?⟩ := c
  cases h
  match children with
  | [] | [_] => rw [toExpr]; rfl
  | callee :: list :: rest =>
    let c : Cursor := ⟨source, ⟨.callExpression, span, callee :: list :: rest⟩, index, parent?⟩
    let last := (c.inside callee).beside list
    -- The moves compute on children that are there. What is left is the rule for the list, which
    -- does not: it ends by the size of the node.
    calc c.toExpr
      _ = (do
            callee.requireAs .variableName "function name"
            return .call (callee.text source) (← last.toArguments) span) := by
        rw [toExpr]
        rfl
      _ = c.node.toExpr source := by
        rw [hparts last (by simp [last, beside]; omega)]
        rfl

theorem toExpr_binary {c : Cursor} (h : c.label = .binaryExpression)
    (hparts : ∀ d : Cursor, sizeOf d.node < sizeOf c.node → d.toExpr = d.node.toExpr d.source) :
    c.toExpr = c.node.toExpr c.source := by
  obtain ⟨source, ⟨label, span, children⟩, index, parent?⟩ := c
  cases h
  match children with
  | [] | [_] | [_, _] => rw [toExpr]; rfl
  | lhs :: op :: rhs :: rest =>
    let c : Cursor := ⟨source, ⟨.binaryExpression, span, lhs :: op :: rhs :: rest⟩, index, parent?⟩
    let first := c.inside lhs
    let last := (first.beside op).beside rhs
    calc c.toExpr
      _ = (do
            return .binary (← op.toOperator source) (← first.toExpr) (← last.toExpr) span) := by
        rw [toExpr]
        rfl
      _ = c.node.toExpr source := by
        rw [hparts first (by simp [first, inside]; omega),
          hparts last (by simp [last, beside]; omega)]
        rfl

theorem toExpr_parenthesized {c : Cursor} (h : c.label = .parenthesizedExpression)
    (hparts : ∀ d : Cursor, sizeOf d.node < sizeOf c.node → d.toExpr = d.node.toExpr d.source) :
    c.toExpr = c.node.toExpr c.source := by
  obtain ⟨source, ⟨label, span, children⟩, index, parent?⟩ := c
  cases h
  match children with
  | [] | [_] => rw [toExpr]; rfl
  | opening :: inner :: rest =>
    let c : Cursor :=
      ⟨source, ⟨.parenthesizedExpression, span, opening :: inner :: rest⟩, index, parent?⟩
    let last := (c.inside opening).beside inner
    calc c.toExpr = last.toExpr := by
          rw [toExpr]
          rfl
      _ = inner.toExpr source := hparts last (by simp [last, beside]; omega)
      _ = c.node.toExpr source := rfl

mutual
/-- The rules for expressions see the children that the cursor walks. -/
theorem toExpr_eq (c : Cursor) : c.toExpr = c.node.toExpr c.source := by
  cases hlabel : c.label with
  | callExpression => exact toExpr_call hlabel fun d _ => toArguments_eq d
  | unaryExpression =>
    rw [toExpr, hlabel]
    exact toSigned_eq hlabel
  | binaryExpression => exact toExpr_binary hlabel fun d _ => toExpr_eq d
  | parenthesizedExpression => exact toExpr_parenthesized hlabel fun d _ => toExpr_eq d
  | _ =>
    obtain ⟨source, ⟨label, span, children⟩, index, parent?⟩ := c
    cases hlabel
    rw [toExpr]
    rfl
termination_by sizeOf c.node
decreasing_by all_goals assumption

theorem toArguments_eq (c : Cursor) : c.toArguments = c.node.toArguments c.source := by
  obtain ⟨source, ⟨label, span, children⟩, index, parent?⟩ := c
  match children with
  | [] =>
    rw [toArguments]
    refine require_bind_congr fun hlabel => ?_
    cases hlabel
    rfl
  | opening :: rest =>
    let c : Cursor := ⟨source, ⟨label, span, opening :: rest⟩, index, parent?⟩
    rw [toArguments, Node.toArguments]
    refine require_bind_congr fun hlabel => ?_
    have hrest := argumentsAfter_eq (b := c) (c.inside opening) rfl hlabel "`)`"
    exact congrArg (opening.require .openParen >>= fun _ => ·) hrest
termination_by sizeOf c.node
decreasing_by all_goals simp [inside, later]; omega

theorem argumentsAfter_eq {b : Cursor} (last : Cursor) (hb : last.parent? = some b)
    (hlabel : b.label = .argList) (expected : String) : last.argumentsAfter expected =
      Node.argumentsAfter last.source last.node expected last.later := by
  cases hlater : last.later with
  | nil =>
    rw [argumentsAfter, expectNext_bind_of_nil hb hlater, hlabel]
    rfl
  | cons argument rest =>
    have hrest := later_beside hlater
    have hvalue := toExpr_eq (last.beside argument)
    rw [argumentsAfter, expectNext_bind hlater, Node.argumentsAfter]
    refine ite_congr rfl (fun _ => rfl) fun _ => ?_
    dsimp only
    rw [hvalue]
    refine bind_congr fun value => ?_
    cases rest with
    | nil =>
      rw [expectNext_bind_of_nil (c := last.beside argument) hb hrest, hlabel]
      rfl
    | cons next rest =>
      have hmore := argumentsAfter_eq ((last.beside argument).beside next) hb hlabel "argument"
      rw [later_beside hrest] at hmore
      rw [expectNext_bind hrest]
      dsimp only
      rw [hmore]
      rfl
termination_by sizeOf last.later
decreasing_by
  · rw [hlater]
    simp [beside]
    omega
  · rw [later_beside hrest, hlater]
    simp
    omega
end

end Expressions

section Types

theorem toTy_eq (c : Cursor) : c.toTy = c.node.toTy c.source := by
  obtain ⟨source, ⟨label, span, children⟩, index, parent?⟩ := c
  refine require_bind_congr fun hlabel => ?_
  cases hlabel
  match children with
  | [] | [_] | _ :: _ :: _ => rfl

theorem parametersAfter_eq {b : Cursor} (last : Cursor) (hb : last.parent? = some b)
    (hlabel : b.label = .paramList) (expected : String) : last.parametersAfter expected =
      Node.parametersAfter last.source last.node expected last.later := by
  cases hlater : last.later with
  | nil =>
    rw [parametersAfter, expectNext_bind_of_nil hb hlater, hlabel]
    rfl
  | cons name rest =>
    have hrest := later_beside hlater
    rw [parametersAfter, expectNext_bind hlater]
    dsimp only
    obtain ⟨label, span, children⟩ := name
    cases label with
    | closeParen => rfl
    | variableName =>
      cases rest with
      | nil =>
        rw [nextWithin?_eq_none hrest]
        rfl
      | cons type rest =>
        have hafter := later_beside hrest
        rw [nextWithin?_eq_some hrest, Node.parametersAfter]
        refine ite_congr rfl (fun _ => rfl) fun _ => ?_
        dsimp only
        rw [toTy_eq]
        refine bind_congr fun declared => ?_
        cases rest with
        | nil =>
          rw [expectNext_bind_of_nil (c := (last.beside _).beside type) hb hafter, hlabel]
          rfl
        | cons next rest =>
          let name := last.beside ⟨.variableName, span, children⟩
          have hmore := parametersAfter_eq ((name.beside type).beside next) hb hlabel "parameter"
          rw [later_beside hafter] at hmore
          rw [expectNext_bind hafter]
          dsimp only
          rw [hmore]
          rfl
    | _ => rfl
termination_by sizeOf last.later
decreasing_by
  rw [later_beside hafter, hlater]
  simp
  omega

theorem toParameters_eq (c : Cursor) : c.toParameters = c.node.toParameters c.source := by
  obtain ⟨source, ⟨label, span, children⟩, index, parent?⟩ := c
  refine require_bind_congr fun hlabel => ?_
  match children with
  | [] =>
    cases hlabel
    rfl
  | opening :: rest =>
    let c : Cursor := ⟨source, ⟨label, span, opening :: rest⟩, index, parent?⟩
    have hrest := parametersAfter_eq (b := c) (c.inside opening) rfl hlabel "`)`"
    exact congrArg (opening.require .openParen >>= fun _ => ·) hrest

end Types

section Statements

theorem toCondition_eq (c : Cursor) (construct : String) :
    c.toCondition construct = c.node.toCondition c.source construct := by
  unfold toCondition
  rw [toExpr_eq]
  rfl

theorem toReturn_eq {c : Cursor} (h : c.label = .returnStatement) :
    c.toReturn = c.node.toStmt c.source := by
  obtain ⟨source, ⟨label, span, children⟩, index, parent?⟩ := c
  cases h
  simp only [toReturn, toExpr_eq]
  obtain _ | ⟨keyword, _ | ⟨value, rest⟩⟩ := children <;> rfl

theorem toAssignment_eq {c : Cursor} (h : c.label = .assignStatement) :
    c.toAssignment = c.node.toStmt c.source := by
  obtain ⟨source, ⟨label, span, children⟩, index, parent?⟩ := c
  cases h
  simp only [toAssignment, toExpr_eq, toTy_eq]
  obtain _ | ⟨name, _ | ⟨next, _ | ⟨mark, _ | ⟨value, rest⟩⟩⟩⟩ := children <;> rfl

theorem toExpression_eq {c : Cursor} (h : c.label = .expressionStatement) : (do
    let ⟨value, _⟩ ← c.expectFirst "expression"
    return .expression (← value.toExpr) c.span) = c.node.toStmt c.source := by
  obtain ⟨source, ⟨label, span, children⟩, index, parent?⟩ := c
  cases h
  simp only [toExpr_eq]
  cases children <;> rfl

theorem source_of_mem_onward {c d : Cursor} (h : d ∈ c.onward) : d.source = c.source := by
  fun_induction onward c with
  | case1 c hlast => rw [List.mem_singleton.1 h]
  | case2 c e hnext ih =>
    obtain rfl | h := List.mem_cons.1 h
    · rfl
    · obtain ⟨n, -, rfl⟩ := Option.map_eq_some_iff.1 ((next?_eq_map_beside c).symm.trans hnext)
      exact ih h

theorem source_of_mem_children {c d : Cursor} (h : d ∈ c.children) : d.source = c.source := by
  unfold children at h
  split at h
  · cases h
  · rename_i e hfirst
    obtain ⟨n, -, rfl⟩ := Option.map_eq_some_iff.1 hfirst
    have honward := source_of_mem_onward h
    exact honward

theorem mapM_eq_mapM_map {β γ : Type} {f : α → Except Error γ} {g : β → Except Error γ} {h : α → β}
    {l : List α} (hl : ∀ x ∈ l, f x = g (h x)) : l.mapM f = (l.map h).mapM g := by
  induction l with
  | nil => rfl
  | cons x l ih =>
    obtain ⟨hx, hl⟩ := List.forall_mem_cons.1 hl
    rw [List.map_cons, List.mapM_cons, List.mapM_cons, hx, ih hl]

theorem statementsOf_eq_mapM (source : List Char) (nodes : List Node) :
    Node.statementsOf source nodes =
      (nodes.filter fun n => n.label ≠ .colon).mapM (Node.toStmt source) := by
  induction nodes with
  | nil => rfl
  | cons n nodes ih =>
    rw [Node.statementsOf]
    by_cases hcolon : n.label = .colon
    · rw [if_pos hcolon, ih, List.filter_cons_of_neg (by simp [hcolon])]
    · rw [if_neg hcolon, ih, List.filter_cons_of_pos (by simp [hcolon]), List.mapM_cons]

theorem toStmt_function {c : Cursor} (h : c.label = .functionDefinition)
    (hparts : ∀ d : Cursor, sizeOf d.node < sizeOf c.node → d.toBody = d.node.toBody d.source) :
    c.toStmt = c.node.toStmt c.source := by
  obtain ⟨source, ⟨label, span, children⟩, index, parent?⟩ := c
  cases h
  match children with
  | [] | [_] | [_, _] | [_, _, _] =>
    rw [toStmt]
    simp only [toParameters_eq]
    rfl
  | [keyword, name, list, next] =>
    let c : Cursor :=
      ⟨source, ⟨.functionDefinition, span, [keyword, name, list, next]⟩, index, parent?⟩
    let last := (((c.inside keyword).beside name).beside list).beside next
    calc c.toStmt
      _ = (do
            keyword.requireText source "def"
            name.require .variableName
            let parameters ← list.toParameters source
            if next.label = .typeDef then
              let _ ← next.toTy source
              Node.endsWith .functionDefinition next "function body"
            else
              return .function (name.text source) parameters .none (← last.toBody) span) := by
        rw [toStmt]
        simp only [toParameters_eq, toTy_eq]
        rfl
      _ = c.node.toStmt source := by
        rw [hparts last (by simp [last, beside]; omega)]
        rfl
  | keyword :: name :: list :: next :: body :: rest =>
    let c : Cursor := ⟨source,
      ⟨.functionDefinition, span, keyword :: name :: list :: next :: body :: rest⟩, index, parent?⟩
    let fourth := (((c.inside keyword).beside name).beside list).beside next
    let last := fourth.beside body
    calc c.toStmt
      _ = (do
            keyword.requireText source "def"
            name.require .variableName
            let parameters ← list.toParameters source
            if next.label = .typeDef then
              let returns ← next.toTy source
              return .function (name.text source) parameters returns (← last.toBody) span
            else
              return .function (name.text source) parameters .none (← fourth.toBody) span) := by
        rw [toStmt]
        simp only [toParameters_eq, toTy_eq]
        rfl
      _ = c.node.toStmt source := by
        rw [hparts fourth (by simp [fourth, beside]; omega),
          hparts last (by simp [last, beside]; omega)]
        rfl

theorem toStmt_while {c : Cursor} (h : c.label = .whileStatement)
    (hparts : ∀ d : Cursor, sizeOf d.node < sizeOf c.node → d.toBody = d.node.toBody d.source) :
    c.toStmt = c.node.toStmt c.source := by
  obtain ⟨source, ⟨label, span, children⟩, index, parent?⟩ := c
  cases h
  obtain _ | ⟨keyword, _ | ⟨condition, _ | ⟨body, rest⟩⟩⟩ := children
  case cons.cons.cons =>
    let c : Cursor :=
      ⟨source, ⟨.whileStatement, span, keyword :: condition :: body :: rest⟩, index, parent?⟩
    let last := ((c.inside keyword).beside condition).beside body
    calc c.toStmt
      _ = (do
            keyword.requireText source "while"
            let value ← condition.toCondition source "while"
            return .loop value (← last.toBody) span) := by
        rw [toStmt]
        simp only [toCondition_eq]
        rfl
      _ = c.node.toStmt source := by
        rw [hparts last (by simp [last, beside]; omega)]
        rfl
  all_goals
    rw [toStmt]
    simp only [toCondition_eq]
    rfl

theorem toStmt_if {c : Cursor} (h : c.label = .ifStatement)
    (hparts : ∀ d : Cursor, sizeOf d.node < sizeOf c.node → d.toBody = d.node.toBody d.source)
    (hfurther : ∀ d : Cursor, d.parent? = some c → sizeOf d.later < sizeOf c.node →
      d.branchesAfter = Node.branchesAfter d.source d.later) :
    c.toStmt = c.node.toStmt c.source := by
  obtain ⟨source, ⟨label, span, children⟩, index, parent?⟩ := c
  cases h
  obtain _ | ⟨keyword, _ | ⟨condition, _ | ⟨body, rest⟩⟩⟩ := children
  case cons.cons.cons =>
    let c : Cursor :=
      ⟨source, ⟨.ifStatement, span, keyword :: condition :: body :: rest⟩, index, parent?⟩
    let last := ((c.inside keyword).beside condition).beside body
    have hlater : last.later = rest := rfl
    calc c.toStmt
      _ = (do
            keyword.requireText source "if"
            let value ← condition.toCondition source BranchKind.first.keyword
            let statements ← last.toBody
            let further ← last.branchesAfter
            return .conditional
              ⟨.first, value, statements, ⟨keyword.span.start, body.span.stop⟩⟩
              further.1 further.2 span) := by
        rw [toStmt]
        simp only [toCondition_eq]
        rfl
      _ = c.node.toStmt source := by
        rw [hparts last (by simp [last, beside]; omega),
          hfurther last rfl (by simp [hlater]; omega)]
        rfl
  all_goals
    rw [toStmt]
    simp only [toCondition_eq]
    rfl

mutual
/-- The rules for statements see the children that the cursor walks. -/
theorem toStmt_eq (c : Cursor) : c.toStmt = c.node.toStmt c.source := by
  cases hlabel : c.label with
  | returnStatement =>
    rw [toStmt, hlabel]
    exact toReturn_eq hlabel
  | assignStatement =>
    rw [toStmt, hlabel]
    exact toAssignment_eq hlabel
  | expressionStatement =>
    rw [toStmt, hlabel]
    exact toExpression_eq hlabel
  | functionDefinition => exact toStmt_function hlabel fun d _ => toBody_eq d
  | whileStatement => exact toStmt_while hlabel fun d _ => toBody_eq d
  | ifStatement =>
    exact toStmt_if hlabel (fun d _ => toBody_eq d) fun d hd _ => branchesAfter_eq d hd hlabel
  | _ =>
    obtain ⟨source, ⟨label, span, children⟩, index, parent?⟩ := c
    cases hlabel
    rw [toStmt]
    rfl
termination_by sizeOf c.node
decreasing_by all_goals assumption

theorem toBody_eq (c : Cursor) : c.toBody = c.node.toBody c.source := by
  obtain ⟨source, ⟨label, span, children⟩, index, parent?⟩ := c
  let c : Cursor := ⟨source, ⟨label, span, children⟩, index, parent?⟩
  rw [toBody, Node.toBody]
  refine bind_congr fun _ => ?_
  rw [statementsOf_eq_mapM]
  have hnodes : (c.children.filter fun d => d.label ≠ .colon).attach.map (fun d => d.1.node) =
      children.filter fun n => n.label ≠ .colon := by
    calc (c.children.filter fun d => d.label ≠ .colon).attach.map (fun d => d.1.node)
      _ = (c.children.filter fun d => d.label ≠ .colon).map node :=
        List.attach_map_val (f := node)
      _ = (c.children.map node).filter fun n => n.label ≠ .colon :=
        (List.filter_map (p := fun n : Node => n.label ≠ .colon) (f := node)).symm
      _ = children.filter fun n => n.label ≠ .colon := by rw [map_node_children]
  rw [← hnodes]
  -- The children come with the fact that they are children, by which the recursion ends.
  refine mapM_eq_mapM_map fun d _ => ?_
  have hd := (List.mem_filter.1 d.2).1
  calc d.1.toStmt = d.1.node.toStmt d.1.source := toStmt_eq d.1
    _ = d.1.node.toStmt source := by rw [source_of_mem_children hd]
termination_by sizeOf c.node
decreasing_by exact sizeOf_of_mem_children hd

theorem branchesAfter_eq {b : Cursor} (last : Cursor) (hb : last.parent? = some b)
    (hlabel : b.label = .ifStatement) :
    last.branchesAfter = Node.branchesAfter last.source last.later := by
  cases hlater : last.later with
  | nil =>
    rw [branchesAfter, nextWithin?_eq_none hlater]
    rfl
  | cons keyword rest =>
    have hrest := later_beside hlater
    rw [branchesAfter, nextWithin?_eq_some hlater, Node.branchesAfter.eq_def]
    refine ite_congr rfl (fun _ => ?alternative) fun _ =>
      ite_congr rfl (fun _ => ?otherwise) fun _ => rfl
    case alternative =>
      cases rest with
      | nil =>
        rw [expectNext_bind_of_nil (c := last.beside keyword) hb hrest, hlabel]
        rfl
      | cons condition rest =>
        have hafter := later_beside hrest
        rw [expectNext_bind hrest]
        dsimp only
        rw [toCondition_eq]
        refine bind_congr fun value => ?_
        cases rest with
        | nil =>
          let c := (last.beside keyword).beside condition
          rw [expectNext_bind_of_nil (c := c) hb hafter, hlabel]
          rfl
        | cons body rest =>
          let c := ((last.beside keyword).beside condition).beside body
          have hbody := toBody_eq c
          have hmore := branchesAfter_eq c hb hlabel
          rw [later_beside hafter] at hmore
          rw [expectNext_bind hafter]
          dsimp only
          rw [hbody, hmore]
          rfl
    case otherwise =>
      cases rest with
      | nil =>
        rw [expectNext_bind_of_nil (c := last.beside keyword) hb hrest, hlabel]
        rfl
      | cons body rest =>
        have hafter := later_beside hrest
        have hbody := toBody_eq ((last.beside keyword).beside body)
        rw [expectNext_bind hrest]
        dsimp only
        rw [hbody]
        refine bind_congr fun statements => ?_
        cases rest with
        | nil => rw [next?_eq_none hafter]
        | cons extra rest =>
          rw [next?_eq_some hafter]
          rfl
termination_by sizeOf last.later
decreasing_by
  · rw [hlater]
    simp [beside]
    omega
  · rw [later_beside hafter, hlater]
    simp
    omega
  · rw [hlater]
    simp [beside]
    omega
end

/-- The rules see the children that the cursor walks: wherever a cursor stands, moving it builds the
program that the lists of children give. -/
theorem toProgram_eq (c : Cursor) : c.toProgram = c.node.toProgram c.source := by
  refine bind_congr fun _ => ?_
  rw [← map_node_children]
  refine mapM_eq_mapM_map fun d hd => ?_
  rw [toStmt_eq, source_of_mem_children hd]

end Statements
end Cursor

/-- The statements of a source are built by a cursor that starts at the root of its tree. -/
theorem programOf_eq_toProgram (file : String) (source : List Char) : programOf file source = (do
    let n ← treeOf file source
    (Cursor.root n source).toProgram) := by
  unfold programOf
  exact bind_congr fun n => (Cursor.toProgram_eq (.root n source)).symm

end Offside
