import Offside.Proofs.Grammar.Bodies
import Offside.Proofs.Program.Alike

/-! Statements that are read from alike tokens. They differ in their places only, like the
expressions in them; and layout has the same kinds in the same order, wherever it stands. -/
namespace Offside

variable {v w : View}

section Parts

variable {a b m m' : Node} {tok tok' : Token} {k next : TokenKind}
  {u u' : List Token} {nodes : List Node}

theorem lineEnd_alike (h : Script.LineEnd next u) (hu : TokensAlike v w u u') :
    Script.LineEnd next u' := by
  cases h with
  | newline hk =>
    obtain ⟨tok', rfl, htok⟩ := exists_singleton_of_forall₂ hu
    exact .newline (htok.kind.trans hk)
  | before hnext =>
    obtain rfl := List.forall₂_nil_left_iff.1 hu
    exact .before hnext

theorem blockEnd_alike (h : Script.BlockEnd next u) (hu : TokensAlike v w u u') :
    Script.BlockEnd next u' := by
  cases h with
  | dedent hk =>
    obtain ⟨tok', rfl, htok⟩ := exists_singleton_of_forall₂ hu
    exact .dedent (htok.kind.trans hk)
  | input hnext =>
    obtain rfl := List.forall₂_nil_left_iff.1 hu
    exact .input hnext

theorem typeOfName_alike (h : a.Alike v w b) : Except.Alike Eq (Error.Alike v w)
    (a.typeOfName v.source) (b.typeOfName w.source) := by
  unfold Node.typeOfName
  by_cases hname : a.label = .variableName
  · rw [h.label, hname, h.text (.inl hname)]
    cases Ty.ofAnnotation? (a.text v.source) with
    | some type => exact .ok rfl
    | none => exact .error ⟨rfl, h.span.start⟩
  · rw [h.label]
    split
    · exact absurd ‹_› hname
    · split
      · exact absurd ‹_› hname
      · exact .error ⟨rfl, h.span.start⟩

theorem toTy_alike (h : a.Alike v w b) : Except.Alike Eq (Error.Alike v w)
    ((Node.branch .typeDef [m, a]).toTy v.source)
    ((Node.branch .typeDef [m', b]).toTy w.source) := by
  rw [Node.toTy_branch, Node.toTy_branch]
  exact typeOfName_alike h

theorem requireText_alike (h : tok.Alike v w tok') (hcontent : tok.kind.isContent = true)
    (label : Label) (text : String) : Except.Alike Eq (Error.Alike v w)
      ((Node.leaf label tok.span).requireText v.source text)
      ((Node.leaf label tok'.span).requireText w.source text) := by
  unfold Node.requireText
  rw [Node.text_leaf, Node.text_leaf, h.text hcontent]
  split
  · exact .ok rfl
  · exact .error ⟨rfl, (h.span hcontent).start⟩

/-- The tree of a type and its mark, and one that is alike. -/
theorem typeDef_alike (h : tok.Alike v w tok') (hk : tok.kind = k) (hcontent : k.isContent = true)
    (hab : a.Alike v w b) (l : Label) : (Node.branch .typeDef [.leaf l tok.span, a]).Alike v w
      (.branch .typeDef [.leaf l tok'.span, b]) :=
  .branch (.leaf h hk hcontent l) (.cons hab .nil) nofun nofun

/-- A type after its mark is alike, if there is one. -/
theorem optionalType_alike {l : Label} (hk : k.isContent = true)
    (h : Script.OptionalType k l u nodes) (hu : TokensAlike v w u u') :
    ∃ nodes', Script.OptionalType k l u' nodes' ∧ NodesAlike v w nodes nodes' ∧
      ((nodes = [] ∧ nodes' = []) ∨ ∃ m a m' b, nodes = [.branch .typeDef [m, a]] ∧
        nodes' = [.branch .typeDef [m', b]] ∧ a.Alike v w b) := by
  cases h with
  | absent =>
    obtain rfl := List.forall₂_nil_left_iff.1 hu
    exact ⟨[], .absent, .nil, .inl ⟨rfl, rfl⟩⟩
  | present hmark ha =>
    obtain ⟨mark', u', rfl, hmark', hu⟩ := exists_cons_of_forall₂ hu
    obtain ⟨b, hb, hab, -⟩ := exprs_alike ha hu
    exact ⟨_, .present (hmark'.kind.trans hmark) hb,
      .cons (typeDef_alike hmark' hmark hk hab l) .nil, .inr ⟨_, _, _, _, rfl, rfl, hab⟩⟩

/-- A parameter is alike as a name, or as a name and a type. -/
theorem parameter_alike (h : Script.Parameter u nodes) (hu : TokensAlike v w u u') :
    ∃ nodes', Script.Parameter u' nodes' ∧ NodesAlike v w nodes nodes' ∧
      ((∃ s t, nodes = [.leaf .variableName s] ∧ nodes' = [.leaf .variableName t] ∧
          v.place s.start = w.place t.start) ∨
        ∃ s t m a m' b, nodes = [.leaf .variableName s, .branch .typeDef [m, a]] ∧
          nodes' = [.leaf .variableName t, .branch .typeDef [m', b]] ∧
          t.text w.source = s.text v.source ∧ a.Alike v w b) := by
  obtain ⟨hname, htype⟩ := h
  obtain ⟨name', types', rfl, hname', htypes⟩ := exists_cons_of_forall₂ hu
  obtain ⟨nodes', htype', hnodes, hshape⟩ := optionalType_alike rfl htype htypes
  have hleaf := Node.Alike.leaf hname' hname rfl .variableName
  refine ⟨_, .mk (hname'.kind.trans hname) htype', .cons hleaf hnodes, ?_⟩
  obtain ⟨rfl, rfl⟩ | ⟨m, a, m', b, rfl, rfl, hab⟩ := hshape
  · exact .inl ⟨_, _, rfl, rfl, hleaf.span.start⟩
  · exact .inr ⟨_, _, _, _, _, _, rfl, rfl, hleaf.text (.inl rfl), hab⟩

/-- A parameter without a type is refused before whatever ends it. -/
theorem parametersAfter_untyped_alike {s t : Span} {last last' : Node} {expected : String}
    {more more' : List Node} (hstart : v.place s.start = w.place t.start)
    (ha : a.label ≠ .typeDef) (hb : b.label ≠ .typeDef) : Except.Alike Eq (Error.Alike v w)
      (Node.parametersAfter v.source last expected (.leaf .variableName s :: a :: more))
      (Node.parametersAfter w.source last' expected (.leaf .variableName t :: b :: more')) := by
  rw [Node.parametersAfter_untyped ha, Node.parametersAfter_untyped hb]
  exact .error ⟨rfl, hstart⟩

theorem parameters_alike (h : Script.Parameters u nodes) (hu : TokensAlike v w u u') :
    ∃ nodes', Script.Parameters u' nodes' ∧ NodesAlike v w nodes nodes' ∧
      ∀ last last' expected, Except.Alike Eq (Error.Alike v w)
        (Node.parametersAfter v.source last expected nodes)
        (Node.parametersAfter w.source last' expected nodes') := by
  induction h generalizing u' with
  | close hclose =>
    obtain ⟨close', rfl, hclose'⟩ := exists_singleton_of_forall₂ hu
    refine ⟨_, .close (hclose'.kind.trans hclose), .cons (.leaf hclose' hclose rfl _) .nil, ?_⟩
    intro last last' expected
    exact .ok rfl
  | last hparameter hclose =>
    obtain ⟨p', rest, rfl, hp, hrest⟩ := exists_append_of_forall₂ hu
    obtain ⟨close', rfl, hclose'⟩ := exists_singleton_of_forall₂ hrest
    obtain ⟨nodes', hparameter', hnodes, hshape⟩ := parameter_alike hparameter hp
    refine ⟨_, .last hparameter' (hclose'.kind.trans hclose),
      List.rel_append hnodes (.cons (.leaf hclose' hclose rfl .closeParen) .nil), ?_⟩
    intro last last' expected
    obtain ⟨s, t, rfl, rfl, hstart⟩ | ⟨s, t, m, a, m', b, rfl, rfl, htext, hab⟩ := hshape
    · exact parametersAfter_untyped_alike hstart nofun nofun
    · refine (toTy_alike hab).bind ?_
      rintro type _ rfl
      refine .pure ?_
      rw [Node.text_leaf, Node.text_leaf, htext]
  | more hparameter hcomma _ ih =>
    obtain ⟨p', rest, rfl, hp, hrest⟩ := exists_append_of_forall₂ hu
    obtain ⟨comma', rest, rfl, hcomma', hrest⟩ := exists_cons_of_forall₂ hrest
    obtain ⟨nodes', hparameter', hnodes, hshape⟩ := parameter_alike hparameter hp
    obtain ⟨more', hmore, hnodesMore, hread⟩ := ih hrest
    refine ⟨_, .more hparameter' (hcomma'.kind.trans hcomma) hmore,
      List.rel_append hnodes (.cons (.leaf hcomma' hcomma rfl .comma) hnodesMore), ?_⟩
    intro last last' expected
    obtain ⟨s, t, rfl, rfl, hstart⟩ | ⟨s, t, m, a, m', b, rfl, rfl, htext, hab⟩ := hshape
    · exact parametersAfter_untyped_alike hstart nofun nofun
    · refine (toTy_alike hab).bind ?_
      rintro type _ rfl
      refine (hread _ _ _).bind ?_
      rintro parameters _ rfl
      refine .pure ?_
      rw [Node.text_leaf, Node.text_leaf, htext]

end Parts

/-- What is read as a statement twice. -/
abbrev StmtReadAlike (v w : View) : Except Error (Stmt Span) → Except Error (Stmt Span) → Prop :=
  Except.Alike (Stmt.Alike v w) (Error.Alike v w)

/-- What is read as statements twice. -/
abbrev StmtsReadAlike (v w : View) :
    Except Error (Program Span) → Except Error (Program Span) → Prop :=
  Except.Alike (Program.Alike v w) (Error.Alike v w)

/-- The further branches of a conditional that differ in their places only. -/
def FurtherAlike (v w : View) (f f' : List (Branch Span) × List (Stmt Span)) : Prop :=
  Stmt.relocateBranches (Span.map v.place) (Span.map v.place) f.1 =
      Stmt.relocateBranches (Span.map w.place) (Span.map w.place) f'.1 ∧
    Program.Alike v w f.2 f'.2

/-- What is read as further branches twice. -/
abbrev FurtherReadAlike (v w : View) : Except Error (List (Branch Span) × List (Stmt Span)) →
    Except Error (List (Branch Span) × List (Stmt Span)) → Prop :=
  Except.Alike (FurtherAlike v w) (Error.Alike v w)

section Meaning

variable {x x' : Expr Span} {p p' : Program Span} {s s' t t' : Span}
  {f f' : List (Branch Span) × List (Stmt Span)}

theorem return_alike (hx : x.Alike v w x') (hs : s.Alike v w s') :
    Stmt.Alike v w (.return x s) (.return x' s') := congrArg₂ Stmt.return hx hs

theorem function_alike {name name' : String} {parameters : List Parameter} {returns : Ty}
    (hname : name' = name) (hp : Program.Alike v w p p') (hs : s.Alike v w s') :
    Stmt.Alike v w (.function name parameters returns p s)
      (.function name' parameters returns p' s') := by
  subst hname
  exact congrArg₂ (Stmt.function name' parameters returns) hp hs

theorem loop_alike (hx : x.Alike v w x') (hp : Program.Alike v w p p') (hs : s.Alike v w s') :
    Stmt.Alike v w (.loop x p s) (.loop x' p' s') := by
  unfold Expr.Alike at hx
  unfold Program.Alike Program.move at hp
  unfold Span.Alike at hs
  simp only [Stmt.Alike, Stmt.relocate, hx, hp, hs]

theorem branch_alike {kind : BranchKind} (hx : x.Alike v w x') (hp : Program.Alike v w p p')
    (hs : s.Alike v w s') :
    Stmt.relocateBranch (Span.map v.place) (Span.map v.place) ⟨kind, x, p, s⟩ =
      Stmt.relocateBranch (Span.map w.place) (Span.map w.place) ⟨kind, x', p', s'⟩ := by
  unfold Expr.Alike at hx
  unfold Program.Alike Program.move at hp
  unfold Span.Alike at hs
  simp only [Stmt.relocateBranch, hx, hp, hs]

theorem conditional_alike {kind : BranchKind} (hx : x.Alike v w x') (hp : Program.Alike v w p p')
    (ht : t.Alike v w t') (hf : FurtherAlike v w f f') (hs : s.Alike v w s') :
    Stmt.Alike v w (.conditional ⟨kind, x, p, t⟩ f.1 f.2 s)
      (.conditional ⟨kind, x', p', t'⟩ f'.1 f'.2 s') := by
  obtain ⟨hbranches, hotherwise⟩ := hf
  unfold Program.Alike Program.move at hotherwise
  unfold Span.Alike at hs
  simp only [Stmt.Alike, Stmt.relocate, branch_alike hx hp ht, hbranches, hotherwise, hs]

theorem program_alike_cons {st st' : Stmt Span} (h : st.Alike v w st')
    (hp : Program.Alike v w p p') : Program.Alike v w (st :: p) (st' :: p') :=
  congrArg₂ List.cons h hp

end Meaning

section Statements

variable {name name' : Token} {u u' : List Token} {nodes : List Node}

theorem assigned_alike (h : Script.Assigned u nodes) (hu : TokensAlike v w u u')
    (hname : name.kind = .identifier) (hname' : name.Alike v w name') :
    ∃ nodes', Script.Assigned u' nodes' ∧ NodesAlike v w nodes nodes' ∧ StmtReadAlike v w
      ((Node.branch .assignStatement (.leaf .variableName name.span :: nodes)).toStmt v.source)
      ((Node.branch .assignStatement (.leaf .variableName name'.span :: nodes')).toStmt
        w.source) := by
  have hleaf := Node.Alike.leaf hname' hname rfl .variableName
  have htext : name'.span.text w.source = name.span.text v.source := hleaf.text (.inl rfl)
  cases h with
  | type hmark ha =>
    obtain ⟨mark', u', rfl, hmark', hu⟩ := exists_cons_of_forall₂ hu
    obtain ⟨b, hb, hab, -⟩ := exprs_alike ha hu
    have htype := typeDef_alike hmark' hmark rfl hab .colon
    refine ⟨_, .type (hmark'.kind.trans hmark) hb, .cons htype .nil, ?_⟩
    rw [Node.toStmt_untold, Node.toStmt_untold]
    exact (toTy_alike hab).bind fun _ _ _ => .error ⟨rfl, htype.span.stop⟩
  | value htypes hequals hvalue =>
    obtain ⟨types', rest, rfl, htypes', hrest⟩ := exists_append_of_forall₂ hu
    obtain ⟨equals', v', rfl, hequals', hv⟩ := exists_cons_of_forall₂ hrest
    obtain ⟨c, hc, hac, hread⟩ := exprs_alike hvalue hv
    obtain ⟨nodes', htype, hnodes, hshape⟩ := optionalType_alike rfl htypes htypes'
    have hvalues := List.rel_append hnodes
      (.cons (Node.Alike.leaf hequals' hequals rfl .assignOp) (.cons hac .nil))
    refine ⟨_, .value htype (hequals'.kind.trans hequals) hc, hvalues, ?_⟩
    obtain ⟨rfl, rfl⟩ | ⟨m, a, m', b, rfl, rfl, hab⟩ := hshape
    · rw [List.nil_append, List.nil_append, Node.toStmt_assign, Node.toStmt_assign]
      refine hread.bind fun x x' hx => .pure ?_
      unfold Expr.Alike at hx
      simp only [Stmt.Alike, Stmt.relocate, htext, hx]
      exact congrArg (Stmt.assign _ _) (Node.spanOf_alike hleaf hvalues)
    · rw [List.singleton_append, List.singleton_append, Node.toStmt_declare, Node.toStmt_declare]
      refine (toTy_alike hab).bind ?_
      rintro type _ rfl
      refine hread.bind fun x x' hx => .pure ?_
      unfold Expr.Alike at hx
      simp only [Stmt.Alike, Stmt.relocate, htext, hx]
      exact congrArg (Stmt.declare _ _ _) (Node.spanOf_alike hleaf hvalues)

mutual
/-- Tokens that are alike are statements that are. -/
theorem statement_alike : ∀ {next : TokenKind} {u u' : List Token} {a : Node},
    Script.Statement next u a → (∀ tok ∈ u, tok.Written v.source) → TokensAlike v w u u' →
      ∃ b, Script.Statement next u' b ∧ a.Alike v w b ∧
        StmtReadAlike v w (a.toStmt v.source) (b.toStmt w.source)
  | _, _, _, _, .function hkeyword hname hopen hparameters htypes hbody, hwritten, hall => by
    obtain ⟨keyword', rest, rfl, hkeyword', hrest⟩ := exists_cons_of_forall₂ hall
    obtain ⟨name', rest, rfl, hname', hrest⟩ := exists_cons_of_forall₂ hrest
    obtain ⟨open', rest, rfl, hopen', hrest⟩ := exists_cons_of_forall₂ hrest
    obtain ⟨u', rest, rfl, hu, hrest⟩ := exists_append_of_forall₂ hrest
    obtain ⟨types', w', rfl, htypes', hw⟩ := exists_append_of_forall₂ hrest
    simp only [List.forall_mem_cons, List.forall_mem_append] at hwritten
    obtain ⟨nodes', hparameters', hnodes, hread⟩ := parameters_alike hparameters hu
    obtain ⟨b, hb, hab, hreadBody⟩ := body_alike hbody hwritten.2.2.2.2.2 hw
    have hleaf := Node.Alike.leaf hkeyword' hkeyword rfl .keyword
    have hleafName := Node.Alike.leaf hname' hname rfl .variableName
    have hlist := Node.Alike.branch (l := .paramList)
      (Node.Alike.leaf hopen' hopen rfl .openParen) hnodes nofun nofun
    have hrequire := requireText_alike hkeyword' (by rw [hkeyword]; rfl) .keyword "def"
    obtain ⟨nodesType, htype, hnodesType, hshape⟩ := optionalType_alike rfl htypes htypes'
    have hchildren := List.Forall₂.cons hleafName
      (.cons hlist (List.rel_append hnodesType (.cons hab .nil)))
    have hspan := Node.spanOf_alike hleaf hchildren
    refine ⟨_, .function (hkeyword'.kind.trans hkeyword) (hname'.kind.trans hname)
      (hopen'.kind.trans hopen) hparameters' htype hb, .branch hleaf hchildren nofun nofun, ?_⟩
    obtain ⟨rfl, rfl⟩ | ⟨m, c, m', d, rfl, rfl, hcd⟩ := hshape
    · change StmtReadAlike v w (Node.toStmt _ (.branch _ [_, _, _, _]))
        (Node.toStmt _ (.branch _ [_, _, _, _]))
      rw [Node.toStmt_function hbody.label_eq_body, Node.toStmt_function hb.label_eq_body]
      refine hrequire.bind fun _ _ _ => (hread _ _ _).bind ?_
      rintro parameters _ rfl
      refine hreadBody.bind fun body body' hbody => .pure ?_
      exact function_alike (hleafName.text (.inl rfl)) hbody hspan
    · refine hrequire.bind fun _ _ _ => (hread _ _ _).bind ?_
      rintro parameters _ rfl
      refine (toTy_alike hcd).bind ?_
      rintro returns _ rfl
      refine hreadBody.bind fun body body' hbody => .pure ?_
      exact function_alike (hleafName.text (.inl rfl)) hbody hspan
  | _, _, _, _, .returnNone hkeyword hend, _, hall => by
    obtain ⟨keyword', rest, rfl, hkeyword', hrest⟩ := exists_cons_of_forall₂ hall
    have hleaf := Node.Alike.leaf hkeyword' hkeyword rfl .keyword
    refine ⟨_, .returnNone (hkeyword'.kind.trans hkeyword) (lineEnd_alike hend hrest),
      .branch hleaf .nil nofun nofun, ?_⟩
    rw [Node.toStmt_returnNone, Node.toStmt_returnNone]
    have hrequire := requireText_alike hkeyword' (by rw [hkeyword]; rfl) .keyword "return"
    refine hrequire.bind fun _ _ _ => .pure ?_
    exact return_alike (congrArg Expr.noneLiteral hleaf.span) hleaf.span
  | _, _, _, _, .returnValue hkeyword ha hend, _, hall => by
    obtain ⟨keyword', rest, rfl, hkeyword', hrest⟩ := exists_cons_of_forall₂ hall
    obtain ⟨u', v', rfl, hu, hv⟩ := exists_append_of_forall₂ hrest
    obtain ⟨b, hb, hab, hread⟩ := exprs_alike ha hu
    have hleaf := Node.Alike.leaf hkeyword' hkeyword rfl .keyword
    refine ⟨_, .returnValue (hkeyword'.kind.trans hkeyword) hb (lineEnd_alike hend hv),
      .branch hleaf (.cons hab .nil) nofun nofun, ?_⟩
    rw [Node.toStmt_returnValue, Node.toStmt_returnValue]
    have hrequire := requireText_alike hkeyword' (by rw [hkeyword]; rfl) .keyword "return"
    refine hrequire.bind fun _ _ _ => hread.bind fun x x' hx => .pure ?_
    exact return_alike hx (Node.spanOf_alike hleaf (.cons hab .nil))
  | _, _, _, _, .loop hkeyword ha hbody, hwritten, hall => by
    obtain ⟨keyword', rest, rfl, hkeyword', hrest⟩ := exists_cons_of_forall₂ hall
    obtain ⟨u', v', rfl, hu, hv⟩ := exists_append_of_forall₂ hrest
    simp only [List.forall_mem_cons, List.forall_mem_append] at hwritten
    obtain ⟨b, hb, hab, hread⟩ := exprs_alike ha hu
    obtain ⟨c, hc, hac, hreadBody⟩ := body_alike hbody hwritten.2.2 hv
    have hleaf := Node.Alike.leaf hkeyword' hkeyword rfl .keyword
    have hchildren := List.Forall₂.cons hab (.cons hac .nil)
    refine ⟨_, .loop (hkeyword'.kind.trans hkeyword) hb hc,
      .branch hleaf hchildren nofun nofun, ?_⟩
    rw [Node.toStmt_loop ha.isExpression, Node.toStmt_loop hb.isExpression]
    have hrequire := requireText_alike hkeyword' (by rw [hkeyword]; rfl) .keyword "while"
    refine hrequire.bind fun _ _ _ => hread.bind fun x x' hx => ?_
    refine hreadBody.bind fun body body' hbody => .pure ?_
    exact loop_alike hx hbody (Node.spanOf_alike hleaf hchildren)
  | _, _, _, _, .conditional hkeyword ha hbody hfurther, hwritten, hall => by
    obtain ⟨keyword', rest, rfl, hkeyword', hrest⟩ := exists_cons_of_forall₂ hall
    obtain ⟨u', rest, rfl, hu, hrest⟩ := exists_append_of_forall₂ hrest
    obtain ⟨v', w', rfl, hv, hw⟩ := exists_append_of_forall₂ hrest
    simp only [List.forall_mem_cons, List.forall_mem_append] at hwritten
    obtain ⟨b, hb, hab, hread⟩ := exprs_alike ha hu
    obtain ⟨c, hc, hac, hreadBody⟩ := body_alike hbody hwritten.2.2.1 hv
    obtain ⟨nodes', hfurther', hnodes, hreadFurther⟩ := further_alike hfurther hwritten.2.2.2 hw
    rw [← firstKind_of_alike hw] at hc
    have hleaf := Node.Alike.leaf hkeyword' hkeyword rfl .keyword
    have hchildren := List.Forall₂.cons hab (.cons hac hnodes)
    refine ⟨_, .conditional (hkeyword'.kind.trans hkeyword) hb hc hfurther',
      .branch hleaf hchildren nofun nofun, ?_⟩
    rw [Node.toStmt_conditional ha.isExpression, Node.toStmt_conditional hb.isExpression]
    have hrequire := requireText_alike hkeyword' (by rw [hkeyword]; rfl) .keyword "if"
    refine hrequire.bind fun _ _ _ => hread.bind fun x x' hx => ?_
    refine hreadBody.bind fun body body' hbody => hreadFurther.bind fun f f' hf => .pure ?_
    exact conditional_alike hx hbody (.mk hleaf.span.start hac.span.stop) hf
      (Node.spanOf_alike hleaf hchildren)
  | _, _, _, _, .pass hkeyword hend, _, hall => by
    obtain ⟨keyword', rest, rfl, hkeyword', hrest⟩ := exists_cons_of_forall₂ hall
    have hleaf := Node.Alike.leaf hkeyword' hkeyword rfl .keyword
    exact ⟨_, .pass (hkeyword'.kind.trans hkeyword) (lineEnd_alike hend hrest),
      .branch hleaf .nil nofun nofun,
      .ok (congrArg Stmt.pass (Node.spanOf_alike hleaf .nil))⟩
  | _, _, _, _, .assignment hname hassigned hend, _, hall => by
    obtain ⟨name', rest, rfl, hname', hrest⟩ := exists_cons_of_forall₂ hall
    obtain ⟨u', v', rfl, hu, hv⟩ := exists_append_of_forall₂ hrest
    obtain ⟨nodes', hassigned', hnodes, hread⟩ := assigned_alike hassigned hu hname hname'
    exact ⟨_, .assignment (hname'.kind.trans hname) hassigned' (lineEnd_alike hend hv),
      .branch (.leaf hname' hname rfl _) hnodes nofun nofun, hread⟩
  | _, _, _, _, .expression ha hend, _, hall => by
    obtain ⟨u', v', rfl, hu, hv⟩ := exists_append_of_forall₂ hall
    obtain ⟨b, hb, hab, hread⟩ := exprs_alike ha hu
    refine ⟨_, .expression hb (lineEnd_alike hend hv), .branch hab .nil nofun nofun, ?_⟩
    rw [Node.toStmt_expression, Node.toStmt_expression]
    refine hread.bind fun x x' hx => .pure ?_
    exact congrArg₂ Stmt.expression hx (Node.spanOf_alike hab .nil)

theorem body_alike : ∀ {next : TokenKind} {u u' : List Token} {a : Node},
    Script.Body next u a → (∀ tok ∈ u, tok.Written v.source) → TokensAlike v w u u' →
      ∃ b, Script.Body next u' b ∧ a.Alike v w b ∧
        StmtsReadAlike v w (a.toBody v.source) (b.toBody w.source)
  | _, _, _, _, .line hcolon ha, hwritten, hall => by
    obtain ⟨colon', u', rfl, hcolon', hu⟩ := exists_cons_of_forall₂ hall
    obtain ⟨b, hb, hab, hread⟩ := statement_alike ha (List.forall_mem_cons.1 hwritten).2 hu
    refine ⟨_, .line (hcolon'.kind.trans hcolon) hb,
      .branch (.leaf hcolon' hcolon rfl _) (.cons hab .nil) nofun nofun, ?_⟩
    rw [Node.toBody_branch, Node.toBody_branch, Node.statementsOf_cons ha.label_ne_colon,
      Node.statementsOf_cons hb.label_ne_colon]
    refine hread.bind fun st st' hst => .pure ?_
    exact program_alike_cons hst rfl
  | _, _, _, _, .block hcolon hnewline hindent hlines hend, hwritten, hall => by
    obtain ⟨colon', rest, rfl, hcolon', hrest⟩ := exists_cons_of_forall₂ hall
    obtain ⟨newline', rest, rfl, hnewline', hrest⟩ := exists_cons_of_forall₂ hrest
    obtain ⟨indent', rest, rfl, hindent', hrest⟩ := exists_cons_of_forall₂ hrest
    obtain ⟨u', v', rfl, hu, hv⟩ := exists_append_of_forall₂ hrest
    simp only [List.forall_mem_cons, List.forall_mem_append] at hwritten
    obtain ⟨nodes', hlines', hnodes, hread⟩ := lines_alike hlines hwritten.2.2.2.1 hu
    rw [← firstKind_of_alike hv] at hlines'
    refine ⟨_, .block (hcolon'.kind.trans hcolon) (hnewline'.kind.trans hnewline)
      (hindent'.kind.trans hindent) hlines' (blockEnd_alike hend hv),
      .branch (.leaf hcolon' hcolon rfl _) hnodes nofun nofun, ?_⟩
    rw [Node.toBody_branch, Node.toBody_branch]
    exact hread

theorem lines_alike : ∀ {next : TokenKind} {u u' : List Token} {nodes : List Node},
    Script.Lines next u nodes → (∀ tok ∈ u, tok.Written v.source) → TokensAlike v w u u' →
      ∃ nodes', Script.Lines next u' nodes' ∧ NodesAlike v w nodes nodes' ∧
        StmtsReadAlike v w (Node.statementsOf v.source nodes) (Node.statementsOf w.source nodes')
  | _, _, _, _, .nil, _, hall => by
    obtain rfl := List.forall₂_nil_left_iff.1 hall
    exact ⟨[], .nil, .nil, .ok rfl⟩
  | _, _, _, _, .blank hnewline hlines, hwritten, hall => by
    obtain ⟨newline', u', rfl, hnewline', hu⟩ := exists_cons_of_forall₂ hall
    obtain ⟨nodes', hlines', hnodes, hread⟩ :=
      lines_alike hlines (List.forall_mem_cons.1 hwritten).2 hu
    exact ⟨nodes', .blank (hnewline'.kind.trans hnewline) hlines', hnodes, hread⟩
  | _, _, _, _, .statement ha hlines, hwritten, hall => by
    obtain ⟨u', v', rfl, hu, hv⟩ := exists_append_of_forall₂ hall
    obtain ⟨hwrittenFirst, hwrittenRest⟩ := List.forall_mem_append.1 hwritten
    obtain ⟨b, hb, hab, hread⟩ := statement_alike ha hwrittenFirst hu
    obtain ⟨nodes', hlines', hnodes, hreads⟩ := lines_alike hlines hwrittenRest hv
    rw [← firstKind_of_alike hv] at hb
    refine ⟨_, .statement hb hlines', .cons hab hnodes, ?_⟩
    rw [Node.statementsOf_cons ha.label_ne_colon, Node.statementsOf_cons hb.label_ne_colon]
    refine hread.bind fun st st' hst => hreads.bind fun p p' hp => .pure ?_
    exact program_alike_cons hst hp

theorem further_alike : ∀ {next : TokenKind} {u u' : List Token} {nodes : List Node},
    Script.Further next u nodes → (∀ tok ∈ u, tok.Written v.source) → TokensAlike v w u u' →
      ∃ nodes', Script.Further next u' nodes' ∧ NodesAlike v w nodes nodes' ∧
        FurtherReadAlike v w (Node.branchesAfter v.source nodes)
          (Node.branchesAfter w.source nodes')
  | _, _, _, _, .none helif helse, _, hall => by
    obtain rfl := List.forall₂_nil_left_iff.1 hall
    exact ⟨[], .none helif helse, .nil, .ok ⟨rfl, rfl⟩⟩
  | _, _, _, _, .alternative hkeyword ha hbody hfurther, hwritten, hall => by
    obtain ⟨keyword', rest, rfl, hkeyword', hrest⟩ := exists_cons_of_forall₂ hall
    obtain ⟨u', rest, rfl, hu, hrest⟩ := exists_append_of_forall₂ hrest
    obtain ⟨v', w', rfl, hv, hw⟩ := exists_append_of_forall₂ hrest
    simp only [List.forall_mem_cons, List.forall_mem_append] at hwritten
    obtain ⟨b, hb, hab, hread⟩ := exprs_alike ha hu
    obtain ⟨c, hc, hac, hreadBody⟩ := body_alike hbody hwritten.2.2.1 hv
    obtain ⟨nodes', hfurther', hnodes, hreadFurther⟩ := further_alike hfurther hwritten.2.2.2 hw
    rw [← firstKind_of_alike hw] at hc
    have hleaf := Node.Alike.leaf hkeyword' hkeyword rfl .keyword
    have htext := hwritten.1.text_eq hkeyword rfl
    have htext' := (hkeyword'.text (by rw [hkeyword]; rfl)).trans htext
    refine ⟨_, .alternative (hkeyword'.kind.trans hkeyword) hb hc hfurther',
      .cons hleaf (.cons hab (.cons hac hnodes)), ?_⟩
    rw [Node.branchesAfter_elif htext ha.isExpression,
      Node.branchesAfter_elif htext' hb.isExpression]
    refine hread.bind fun x x' hx => hreadBody.bind fun body body' hbody => ?_
    refine hreadFurther.bind fun f f' hf => .pure ⟨?_, hf.2⟩
    exact congrArg₂ List.cons (branch_alike hx hbody (.mk hleaf.span.start hac.span.stop)) hf.1
  | _, _, _, _, .otherwise hkeyword hbody, hwritten, hall => by
    obtain ⟨keyword', u', rfl, hkeyword', hu⟩ := exists_cons_of_forall₂ hall
    obtain ⟨hwrittenKeyword, hwrittenBody⟩ := List.forall_mem_cons.1 hwritten
    obtain ⟨b, hb, hab, hread⟩ := body_alike hbody hwrittenBody hu
    have htext := hwrittenKeyword.text_eq hkeyword rfl
    have htext' := (hkeyword'.text (by rw [hkeyword]; rfl)).trans htext
    refine ⟨_, .otherwise (hkeyword'.kind.trans hkeyword) hb,
      .cons (.leaf hkeyword' hkeyword rfl _) (.cons hab .nil), ?_⟩
    rw [Node.branchesAfter_else htext, Node.branchesAfter_else htext']
    exact hread.bind fun body body' hbody => .pure ⟨rfl, hbody⟩
end

end Statements
end Offside
