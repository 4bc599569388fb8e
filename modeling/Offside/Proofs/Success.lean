/-! What a computation that succeeds has done. A bind succeeds when both of its parts do, so a proof
takes a run apart by these equivalences and never by the definitions of the monads. -/
namespace Offside

variable {α β ε σ : Type}

@[simp] theorem Except.pure_eq_ok_iff {a b : α} : (pure a : Except ε α) = .ok b ↔ a = b := by
  change Except.ok a = .ok b ↔ _
  simp

theorem Except.bind_eq_ok_iff {x : Except ε α} {f : α → Except ε β} {b : β} :
    (x >>= f) = .ok b ↔ ∃ a, x = .ok a ∧ f a = .ok b := by
  cases x with
  | error e => simp [bind, Except.bind]
  | ok a => simp [bind, Except.bind]

theorem Except.map_eq_ok_iff {x : Except ε α} {f : α → β} {b : β} :
    x.map f = .ok b ↔ ∃ a, x = .ok a ∧ f a = b := by
  cases x with
  | error e => simp [Except.map]
  | ok a => simp [Except.map]

/-- A bind fails in its first part, or in the second after the first has succeeded. -/
theorem Except.bind_eq_error_iff {x : Except ε α} {f : α → Except ε β} {e : ε} :
    (x >>= f) = .error e ↔ x = .error e ∨ ∃ a, x = .ok a ∧ f a = .error e := by
  cases x with
  | error e' => simp [bind, Except.bind]
  | ok a => simp [bind, Except.bind]

/-- A value that is only wrapped up adds no failure. -/
theorem Except.of_bind_pure_eq_error {x : Except ε α} {f : α → β} {e : ε}
    (h : (x >>= fun a => pure (f a)) = .error e) : x = .error e := by
  obtain hx | ⟨a, -, hpure⟩ := bind_eq_error_iff.1 h
  · exact hx
  · cases hpure

theorem Except.map_map {γ : Type} {x : Except ε α} {f : α → β} {g : β → γ} :
    (x.map f).map g = x.map fun a => g (f a) := by
  cases x <;> rfl

theorem Except.map_eq_error_iff {x : Except ε α} {f : α → β} {e : ε} :
    x.map f = .error e ↔ x = .error e := by
  cases x with
  | error e' => simp [Except.map]
  | ok a => simp [Except.map]

/-- A closed computation is seen to succeed by running it. -/
theorem Except.exists_eq_ok {x : Except ε α} (h : x.toOption.isSome = true) : ∃ a, x = .ok a := by
  cases x with
  | error e => cases h
  | ok a => exact ⟨a, rfl⟩

/-- A closed computation is seen to succeed with a value of some kind by running it. -/
theorem Except.exists_eq_ok_of {x : Except ε α} {p : α → Bool}
    (h : x.toOption.any p = true) : ∃ a, x = .ok a ∧ p a = true := by
  cases x with
  | error e => cases h
  | ok a => exact ⟨a, rfl, h⟩

theorem Except.exists_eq_error {x : Except ε α} (h : x.toOption.isSome = false) :
    ∃ e, x = .error e := by
  cases x with
  | error e => exact ⟨e, rfl⟩
  | ok a => cases h

/-- A closed computation is seen to fail with an error of some kind by running it. -/
theorem Except.exists_eq_error_of {x : Except ε α} {p : ε → Bool}
    (h : (match x with | .error e => p e | .ok _ => false) = true) :
    ∃ e, x = .error e ∧ p e = true := by
  cases x with
  | error e => exact ⟨e, rfl, h⟩
  | ok a => cases h

theorem Except.eq_ok_of_toOption {x : Except ε α} {a : α} (h : x.toOption = some a) :
    x = .ok a := by
  cases x with
  | error e => cases h
  | ok b =>
    cases h
    rfl

namespace EStateM

@[simp] theorem pure_eq_ok_iff {a b : α} {s t : σ} :
    (pure a : EStateM ε σ α) s = .ok b t ↔ a = b ∧ s = t := by
  change EStateM.Result.ok a s = .ok b t ↔ _
  simp

theorem bind_eq_ok_iff {x : EStateM ε σ α} {f : α → EStateM ε σ β} {b : β} {s u : σ} :
    (x >>= f) s = .ok b u ↔ ∃ a t, x s = .ok a t ∧ f a t = .ok b u := by
  change EStateM.bind x f s = .ok b u ↔ _
  unfold EStateM.bind
  cases h : x s with
  | error e t => simp
  | ok a t =>
    constructor
    · intro hf
      exact ⟨a, t, rfl, hf⟩
    · rintro ⟨_, _, ha, hf⟩
      cases ha
      exact hf

/-- A value that is only wrapped up comes from the same success. -/
theorem bind_pure_eq_ok_iff {x : EStateM ε σ α} {f : α → β} {b : β} {s u : σ} :
    (x >>= fun a => pure (f a)) s = .ok b u ↔ ∃ a, x s = .ok a u ∧ b = f a := by
  simp only [bind_eq_ok_iff, pure_eq_ok_iff]
  constructor
  · rintro ⟨a, _, ha, rfl, rfl⟩
    exact ⟨a, ha, rfl⟩
  · rintro ⟨a, ha, rfl⟩
    exact ⟨a, u, ha, rfl, rfl⟩

/-- A bind fails in its first part, or in the second after the first has succeeded. -/
theorem bind_eq_error_iff {x : EStateM ε σ α} {f : α → EStateM ε σ β} {e : ε} {s u : σ} :
    (x >>= f) s = .error e u ↔ x s = .error e u ∨ ∃ a t, x s = .ok a t ∧ f a t = .error e u := by
  change EStateM.bind x f s = .error e u ↔ _
  unfold EStateM.bind
  cases h : x s with
  | error e' t => simp
  | ok a t =>
    constructor
    · intro hf
      exact .inr ⟨a, t, rfl, hf⟩
    · rintro (hx | ⟨_, _, hx, hf⟩)
      · cases hx
      · cases hx
        exact hf

/-- A value that is only wrapped up adds no failure. -/
theorem of_bind_pure_eq_error {x : EStateM ε σ α} {f : α → β} {e : ε} {s t : σ}
    (h : (x >>= fun a => pure (f a)) s = .error e t) : x s = .error e t := by
  obtain hx | ⟨a, r, -, hpure⟩ := bind_eq_error_iff.1 h
  · exact hx
  · cases hpure

theorem bind_apply_of_ok {x : EStateM ε σ α} {f : α → EStateM ε σ β} {a : α} {s t : σ}
    (h : x s = .ok a t) : (x >>= f) s = f a t := by
  change EStateM.bind x f s = _
  simp only [EStateM.bind, h]

theorem bind_apply_of_error {x : EStateM ε σ α} {f : α → EStateM ε σ β} {e : ε} {s t : σ}
    (h : x s = .error e t) : (x >>= f) s = .error e t := by
  change EStateM.bind x f s = _
  simp only [EStateM.bind, h]

theorem mapM_cons_eq_ok_iff {f : α → EStateM ε σ β} {a : α} {as : List α} {bs : List β} {s u : σ} :
    (a :: as).mapM f s = .ok bs u ↔
      ∃ b t rest, f a s = .ok b t ∧ as.mapM f t = .ok rest u ∧ bs = b :: rest := by
  rw [List.mapM_cons]
  simp only [bind_eq_ok_iff, pure_eq_ok_iff]
  constructor
  · rintro ⟨b, t, hb, rest, _, hrest, rfl, rfl⟩
    exact ⟨b, t, rest, hb, hrest, rfl⟩
  · rintro ⟨b, t, rest, hb, hrest, rfl⟩
    exact ⟨b, t, hb, rest, u, hrest, rfl, rfl⟩

/-- A computation gives a value or fails, and never does both. -/
theorem exists_eq_error_iff {x : EStateM ε σ α} {s : σ} :
    (∃ e t, x s = .error e t) ↔ ¬ ∃ a t, x s = .ok a t := by
  cases h : x s with
  | error e t => simp
  | ok a t => simp

end EStateM
end Offside
