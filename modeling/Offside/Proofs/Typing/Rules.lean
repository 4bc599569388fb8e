import Offside.Typing.Program

/-! The typing rules, stated without the checker. Functions and variables are known by what their
names stand for. A statement leads from one context to another, which knows the variables that it
binds. -/
namespace Offside.Typing

/-- The types of the variables that are bound. -/
abbrev Context := String → Option Ty

/-- What the names of functions stand for. -/
abbrev Signatures := String → Option Signature

namespace Context

def empty : Context := fun _ => none

/-- The context in which one more variable has a type. -/
def set (G : Context) (name : String) (type : Ty) : Context := fun other =>
  if other = name then some type else G other

/-- The context in the body of a function, whose parameters hide other variables. Of two parameters
of one name the later counts. -/
def withParameters (G : Context) : List Parameter → Context
  | [] => G
  | p :: rest => (G.set p.name p.type).withParameters rest

/-- A variable may take a value of a type if it is new or has this type. -/
def Admits (G : Context) (name : String) (type : Ty) : Prop :=
  ∀ bound, G name = some bound → bound = type

/-- What one context knows, the other knows too. -/
def Extends (G H : Context) : Prop := ∀ name type, G name = some type → H name = some type

theorem Extends.refl (G : Context) : G.Extends G := fun _ _ h => h

theorem Extends.trans {G H K : Context} (hG : G.Extends H) (hH : H.Extends K) : G.Extends K :=
  fun name type h => hH name type (hG name type h)

/-- A variable that is admitted hides nothing. -/
theorem extends_set {G : Context} {name : String} {type : Ty} (h : G.Admits name type) :
    G.Extends (G.set name type) := by
  intro other bound hb
  by_cases ho : other = name
  · subst ho
    simp [set, h bound hb]
  · simpa [set, ho] using hb

end Context

/-- The types of the two operands and of the result. -/
inductive Result : OperatorClass → Ty → Ty → Ty → Prop
  | arithmetic : Result .arithmetic .int .int .int
  | relational : Result .relational .int .int .bool
  | equalityOfNumbers : Result .equality .int .int .bool
  | equalityOfTruth : Result .equality .bool .bool .bool
  | logical : Result .logical .bool .bool .bool
  | identity : Result .identity .none .none .bool

theorem Result.unique {c : OperatorClass} {left right type other : Ty}
    (h : Result c left right type) (h' : Result c left right other) : type = other := by
  cases h <;> cases h' <;> rfl

variable (F : Signatures)

mutual
/-- The type of an expression. -/
inductive HasType (G : Context) : Expr Span → Ty → Prop
  | number {value span} : HasType G (.number value span) .int
  | boolean {value span} : HasType G (.boolean value span) .bool
  | noneLiteral {span} : HasType G (.noneLiteral span) .none
  | ident {name span type} : G name = some type → HasType G (.ident name span) type
  | binary {op lhs rhs span left right type} : HasType G lhs left → HasType G rhs right →
      Result op.operatorClass left right type → HasType G (.binary op lhs rhs span) type
  | shown {argument span type} : HasType G argument type →
      HasType G (.call showFunction [argument] span) .none
  | call {function arguments span signature} : function ≠ showFunction →
      F function = some signature → HaveTypes G arguments signature.parameters →
      HasType G (.call function arguments span) signature.returns

/-- The types of some expressions, which are as many. -/
inductive HaveTypes (G : Context) : List (Expr Span) → List Ty → Prop
  | nil : HaveTypes G [] []
  | cons {e rest type types} : HasType G e type → HaveTypes G rest types →
      HaveTypes G (e :: rest) (type :: types)
end

mutual
/-- A statement is well-typed where `return` takes values of type `R`, and binds variables. There is
no rule for a function inside another statement. -/
inductive Accepts (R : Ty) : Context → Stmt Span → Context → Prop
  | assign {G name value span type} : HasType F G value type → G.Admits name type →
      Accepts R G (.assign name value span) (G.set name type)
  | declare {G name type value span} : HasType F G value type → G.Admits name type →
      Accepts R G (.declare name type value span) (G.set name type)
  | expression {G value span type} : HasType F G value type →
      Accepts R G (.expression value span) G
  | return {G value span} : HasType F G value R → Accepts R G (.return value span) G
  | conditional {G G₁ G₂ G₃ first alternatives otherwise span} : AcceptsBranch R G first G₁ →
      AcceptsBranches R G₁ alternatives G₂ → AcceptsAll R G₂ otherwise G₃ →
      Accepts R G (.conditional first alternatives otherwise span) G₃
  | loop {G G₁ condition body span} : HasType F G condition .bool → AcceptsAll R G body G₁ →
      Accepts R G (.loop condition body span) G₁
  | pass {G span} : Accepts R G (.pass span) G

/-- Statements one after the other. -/
inductive AcceptsAll (R : Ty) : Context → List (Stmt Span) → Context → Prop
  | nil {G} : AcceptsAll R G [] G
  | cons {G G₁ G₂ s rest} : Accepts R G s G₁ → AcceptsAll R G₁ rest G₂ →
      AcceptsAll R G (s :: rest) G₂

inductive AcceptsBranch (R : Ty) : Context → Branch Span → Context → Prop
  | mk {G G₁ kind condition body span} : HasType F G condition .bool → AcceptsAll R G body G₁ →
      AcceptsBranch R G ⟨kind, condition, body, span⟩ G₁

inductive AcceptsBranches (R : Ty) : Context → List (Branch Span) → Context → Prop
  | nil {G} : AcceptsBranches R G [] G
  | cons {G G₁ G₂ b rest} : AcceptsBranch R G b G₁ → AcceptsBranches R G₁ rest G₂ →
      AcceptsBranches R G (b :: rest) G₂
end

/-- A statement at the top level. A function sees the variables that are bound above it and leaves
none behind; elsewhere nothing is given back. -/
inductive AcceptsTop : Context → Stmt Span → Context → Prop
  | function {G G₁ name parameters returns body span} :
      AcceptsAll F returns (G.withParameters parameters) body G₁ →
      AcceptsTop G (.function name parameters returns body span) G
  | statement {G G₁ s} : Accepts F .none G s G₁ → AcceptsTop G s G₁

/-- The statements of a program, from the first on. -/
inductive AcceptsProgram : Context → Program Span → Context → Prop
  | nil {G} : AcceptsProgram G [] G
  | cons {G G₁ G₂ s rest} : AcceptsTop F G s G₁ → AcceptsProgram G₁ rest G₂ →
      AcceptsProgram G (s :: rest) G₂

variable {F} {G H : Context}

/-- An expression has at most one type. -/
theorem HasType.unique {e : Expr Span} {type other : Ty} (h : HasType F G e type)
    (h' : HasType F G e other) : type = other := by
  induction h using HasType.rec
    (motive_2 := fun _ _ _ => True) generalizing other with
  | number => cases h'; rfl
  | boolean => cases h'; rfl
  | noneLiteral => cases h'; rfl
  | ident hx =>
    cases h' with
    | ident hy => exact Option.some.inj (hx.symm.trans hy)
  | binary _ _ hr ihl ihr =>
    cases h' with
    | binary hl' hr' hr'' =>
      cases ihl hl'
      cases ihr hr'
      exact hr.unique hr''
  | shown =>
    cases h' with
    | shown => rfl
    | call hn => exact absurd rfl hn
  | call hn hf =>
    cases h' with
    | shown => exact absurd rfl hn
    | call _ hg => cases hf.symm.trans hg; rfl
  | nil => trivial
  | cons => trivial

mutual
/-- Further variables do not change the type of an expression. -/
theorem HasType.mono (hG : G.Extends H) {e : Expr Span} {type : Ty} :
    HasType F G e type → HasType F H e type
  | .number => .number
  | .boolean => .boolean
  | .noneLiteral => .noneLiteral
  | .ident hx => .ident (hG _ _ hx)
  | .binary hl hr ht => .binary (hl.mono hG) (hr.mono hG) ht
  | .shown ha => .shown (ha.mono hG)
  | .call hn hf ha => .call hn hf (ha.mono hG)

theorem HaveTypes.mono (hG : G.Extends H) {es : List (Expr Span)} {types : List Ty} :
    HaveTypes F G es types → HaveTypes F H es types
  | .nil => .nil
  | .cons he hes => .cons (he.mono hG) (hes.mono hG)
end

mutual
/-- A statement forgets no variable and changes the type of none. -/
theorem Accepts.extends {R : Ty} {G H : Context} {s : Stmt Span} : Accepts F R G s H → G.Extends H
  | .assign _ hx | .declare _ hx => Context.extends_set hx
  | .expression _ | .return _ | .pass => Context.Extends.refl _
  | .conditional hf ha ho => (hf.extends.trans ha.extends).trans ho.extends
  | .loop _ hb => hb.extends

theorem AcceptsAll.extends {R : Ty} {G H : Context} {body : List (Stmt Span)} :
    AcceptsAll F R G body H → G.Extends H
  | .nil => Context.Extends.refl _
  | .cons hs hr => hs.extends.trans hr.extends

theorem AcceptsBranch.extends {R : Ty} {G H : Context} {b : Branch Span} :
    AcceptsBranch F R G b H → G.Extends H
  | .mk _ hb => hb.extends

theorem AcceptsBranches.extends {R : Ty} {G H : Context} {bs : List (Branch Span)} :
    AcceptsBranches F R G bs H → G.Extends H
  | .nil => Context.Extends.refl _
  | .cons hb hr => hb.extends.trans hr.extends
end

end Offside.Typing
