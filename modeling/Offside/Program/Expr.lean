import Offside.Program.Operator

/-! Expressions with a note at every node. The note says where the node stands in the source and,
once the types are checked, what its type is. -/
namespace Offside

inductive Expr (α : Type) where
  | number (value : Int64) (note : α)
  | boolean (value : Bool) (note : α)
  | noneLiteral (note : α)
  | ident (name : String) (note : α)
  | binary (op : Operator) (lhs rhs : Expr α) (note : α)
  | call (function : String) (arguments : List (Expr α)) (note : α)
deriving Inhabited

namespace Expr

def note : Expr α → α
  | number _ note | boolean _ note | noneLiteral note | ident _ note | binary _ _ _ note
  | call _ _ note => note

mutual
/-- Changes every note. -/
def map (f : α → β) : Expr α → Expr β
  | .number value note => .number value (f note)
  | .boolean value note => .boolean value (f note)
  | .noneLiteral note => .noneLiteral (f note)
  | .ident name note => .ident name (f note)
  | .binary op lhs rhs note => .binary op (map f lhs) (map f rhs) (f note)
  | .call function arguments note => .call function (mapAll f arguments) (f note)

def mapAll (f : α → β) : List (Expr α) → List (Expr β)
  | [] => []
  | e :: rest => map f e :: mapAll f rest
end

theorem mapAll_eq_map (f : α → β) (es : List (Expr α)) : mapAll f es = es.map (map f) := by
  induction es with
  | nil => rfl
  | cons e rest ih => simp [mapAll, ih]

@[simp] theorem note_map (f : α → β) (e : Expr α) : (e.map f).note = f e.note := by
  cases e <;> simp [map, note]

variable [DecidableEq α]

mutual
/-- Whether two expressions agree in every part and every note. -/
def same : Expr α → Expr α → Bool
  | .number v n, .number w m => v = w && n = m
  | .boolean v n, .boolean w m => v = w && n = m
  | .noneLiteral n, .noneLiteral m => n = m
  | .ident v n, .ident w m => v = w && n = m
  | .binary o a b n, .binary p c d m => o = p && same a c && same b d && n = m
  | .call f a n, .call g b m => f = g && sameAll a b && n = m
  | _, _ => false

def sameAll : List (Expr α) → List (Expr α) → Bool
  | [], [] => true
  | a :: as, b :: bs => same a b && sameAll as bs
  | _, _ => false
end

mutual
theorem same_self : ∀ e : Expr α, same e e = true
  | .number _ _ | .boolean _ _ | .noneLiteral _ | .ident _ _ => by simp [same]
  | .binary _ a b _ => by simp [same, same_self a, same_self b]
  | .call _ a _ => by simp [same, sameAll_self a]

theorem sameAll_self : ∀ es : List (Expr α), sameAll es es = true
  | [] => rfl
  | e :: rest => by simp [sameAll, same_self e, sameAll_self rest]
end

mutual
theorem eq_of_same : ∀ {a b : Expr α}, same a b = true → a = b
  | .number _ _, b, h => by cases b <;> simp_all [same]
  | .boolean _ _, b, h => by cases b <;> simp_all [same]
  | .noneLiteral _, b, h => by cases b <;> simp_all [same]
  | .ident _ _, b, h => by cases b <;> simp_all [same]
  | .binary _ a c _, b, h => by
    cases b with
    | binary =>
      simp only [same, Bool.and_eq_true, decide_eq_true_eq] at h
      obtain ⟨⟨⟨rfl, ha⟩, hc⟩, rfl⟩ := h
      rw [eq_of_same ha, eq_of_same hc]
    | _ => simp [same] at h
  | .call _ a _, b, h => by
    cases b with
    | call =>
      simp only [same, Bool.and_eq_true, decide_eq_true_eq] at h
      obtain ⟨⟨rfl, ha⟩, rfl⟩ := h
      rw [eq_of_sameAll ha]
    | _ => simp [same] at h

theorem eq_of_sameAll : ∀ {as bs : List (Expr α)}, sameAll as bs = true → as = bs
  | [], [], _ => rfl
  | [], _ :: _, h | _ :: _, [], h => by simp [sameAll] at h
  | a :: as, b :: bs, h => by
    simp only [sameAll, Bool.and_eq_true] at h
    rw [eq_of_same h.1, eq_of_sameAll h.2]
end

theorem same_iff {a b : Expr α} : same a b = true ↔ a = b :=
  ⟨eq_of_same, fun h => h ▸ same_self a⟩

instance : DecidableEq (Expr α) := fun _ _ => decidable_of_iff _ same_iff

end Expr
end Offside
