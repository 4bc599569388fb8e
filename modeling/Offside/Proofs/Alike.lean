import Offside.Proofs.Success

/-! Pairs of computations that end alike: both succeed, with values that are related, or both fail,
with errors that are. Binds are alike when they start alike and go on alike from related values, so
two runs of one program are compared along its binds. -/
namespace Offside

variable {α α' β β' ε ε' σ : Type}

/-- Results that are both values, and related, or both errors, and related. -/
inductive Except.Alike (R : α → α' → Prop) (E : ε → ε' → Prop) : Except ε α → Except ε' α' → Prop
  | ok {a a'} (h : R a a') : Alike R E (.ok a) (.ok a')
  | error {e e'} (h : E e e') : Alike R E (.error e) (.error e')

namespace Except.Alike

variable {R R' : α → α' → Prop} {S : β → β' → Prop} {E E' : ε → ε' → Prop}
  {x : Except ε α} {x' : Except ε' α'}

protected theorem pure {a : α} {a' : α'} (h : R a a') : Alike R E (pure a) (pure a') := .ok h

theorem bind {f : α → Except ε β} {f' : α' → Except ε' β'} (hx : Alike R E x x')
    (hf : ∀ a a', R a a' → Alike S E (f a) (f' a')) : Alike S E (x >>= f) (x' >>= f') := by
  cases hx with
  | ok h => exact hf _ _ h
  | error h => exact .error h

theorem map {f : α → β} {f' : α' → β'} (hx : Alike R E x x')
    (hf : ∀ a a', R a a' → S (f a) (f' a')) : Alike S E (x.map f) (x'.map f') := by
  cases hx with
  | ok h => exact .ok (hf _ _ h)
  | error h => exact .error h

theorem mono (hx : Alike R E x x') (hR : ∀ a a', R a a' → R' a a')
    (hE : ∀ e e', E e e' → E' e e') : Alike R' E' x x' := by
  cases hx with
  | ok h => exact .ok (hR _ _ h)
  | error h => exact .error (hE _ _ h)

theorem exists_ok {a : α} (h : Alike R E (.ok a) x') : ∃ a', x' = .ok a' ∧ R a a' := by
  cases h with
  | ok h => exact ⟨_, rfl, h⟩

theorem exists_error {e : ε} (h : Alike R E (.error e) x') : ∃ e', x' = .error e' ∧ E e e' := by
  cases h with
  | error h => exact ⟨_, rfl, h⟩

end Except.Alike

namespace EStateM

/-- Results that are related, with the same state after values. -/
inductive Result.Alike (R : α → α' → Prop) (E : ε → ε' → Prop) :
    EStateM.Result ε σ α → EStateM.Result ε' σ α' → Prop
  | ok {a a' s} (h : R a a') : Result.Alike R E (.ok a s) (.ok a' s)
  | error {e e' s s'} (h : E e e') : Result.Alike R E (.error e s) (.error e' s')

/-- Computations whose results are related from every state. -/
def Alike (R : α → α' → Prop) (E : ε → ε' → Prop) (x : EStateM ε σ α) (x' : EStateM ε' σ α') :
    Prop := ∀ s, Result.Alike R E (x s) (x' s)

namespace Alike

variable {R : α → α' → Prop} {S : β → β' → Prop} {E : ε → ε' → Prop}
  {x : EStateM ε σ α} {x' : EStateM ε' σ α'}

protected theorem pure {a : α} {a' : α'} (h : R a a') :
    Alike (σ := σ) R E (pure a) (pure a') := fun _ => .ok h

theorem bind {f : α → EStateM ε σ β} {f' : α' → EStateM ε' σ β'} (hx : Alike R E x x')
    (hf : ∀ a a', R a a' → Alike S E (f a) (f' a')) : Alike S E (x >>= f) (x' >>= f') := by
  intro s
  have hs := hx s
  cases h : x s with
  | error e t =>
    cases h' : x' s with
    | ok a' t' =>
      rw [h, h'] at hs
      cases hs
    | error e' t' =>
      rw [h, h'] at hs
      rw [bind_apply_of_error h, bind_apply_of_error h']
      cases hs with
      | error he => exact .error he
  | ok a t =>
    cases h' : x' s with
    | error e' t' =>
      rw [h, h'] at hs
      cases hs
    | ok a' t' =>
      rw [h, h'] at hs
      rw [bind_apply_of_ok h, bind_apply_of_ok h']
      cases hs with
      | ok ha => exact hf a a' ha t

end Alike
end EStateM
end Offside
