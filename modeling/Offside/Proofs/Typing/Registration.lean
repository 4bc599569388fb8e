import Offside.Proofs.Success
import Offside.Proofs.Typing.Rules

/-! Which functions a program adds to those that are known, and when it may. -/
namespace Offside

/-- The functions that a program defines at its top level, in order. -/
def Program.definitions (program : Program Span) : List (String × Signature) :=
  program.filterMap fun
    | .function name parameters returns _ _ => some (name, ⟨parameters.map (·.type), returns⟩)
    | _ => none

namespace Functions

/-- Functions that can be added one after the other: their names are new, pairwise distinct, and
none is that of the function that shows a value. -/
def Admits (functions : Functions) (added : List (String × Signature)) : Prop :=
  (added.map Prod.fst).Nodup ∧
    ∀ d ∈ added, d.1 ≠ showFunction ∧ functions.get? d.1 = none

/-- The functions with more of them, of which each one hides the former of its name. -/
def addedTo (functions : Functions) (added : List (String × Signature)) : Functions :=
  added.foldl (fun f d => f.insert d.1 d.2) functions

theorem admits_cons_iff {functions : Functions} {name : String} {signature : Signature}
    {rest : List (String × Signature)} :
    functions.Admits ((name, signature) :: rest) ↔
      (name ≠ showFunction ∧ functions.get? name = none) ∧
        Functions.Admits (functions.insert name signature) rest := by
  have hget : ∀ d : String × Signature, (functions.insert name signature).get? d.1 = none ↔
      d.1 ≠ name ∧ functions.get? d.1 = none := by
    intro d
    rw [Bindings.get?_insert]
    by_cases hd : d.1 = name <;> simp [hd]
  simp only [Admits, List.map_cons, List.nodup_cons, List.forall_mem_cons, hget]
  constructor
  · rintro ⟨⟨hn, hd⟩, hs, hr⟩
    refine ⟨hs, hd, fun d hm => ⟨(hr d hm).1, fun h => hn ?_, (hr d hm).2⟩⟩
    exact h ▸ List.mem_map_of_mem hm
  · rintro ⟨hs, hd, hr⟩
    refine ⟨⟨fun hn => ?_, hd⟩, hs, fun d hm => ⟨(hr d hm).1, (hr d hm).2.2⟩⟩
    obtain ⟨d, hm, rfl⟩ := List.mem_map.1 hn
    exact (hr d hm).2.1 rfl

/-- Functions that may be added stand behind those that are known. -/
theorem get?_addedTo {functions : Functions} {added : List (String × Signature)}
    (h : functions.Admits added) (name : String) :
    (functions.addedTo added).get? name = (added.lookup name).or (functions.get? name) := by
  induction added generalizing functions with
  | nil => rfl
  | cons d rest ih =>
    obtain ⟨⟨-, hn⟩, hr⟩ := admits_cons_iff.1 h
    change (Functions.addedTo (functions.insert d.1 d.2) rest).get? name = _
    rw [ih hr, Bindings.get?_insert, List.lookup_cons]
    by_cases hd : name = d.1
    · subst hd
      have hl : rest.lookup d.1 = none := by
        rw [List.lookup_eq_none_iff]
        intro p hp
        have := (hr.2 p hp).2
        rw [Bindings.get?_insert] at this
        split at this
        · cases this
        · rename_i hne
          simpa using Ne.symm hne
      simp [hl]
    · have hb : (name == d.1) = false := by simpa using hd
      rw [hb, if_neg hd]

end Functions

namespace Registrar

theorem add_eq_ok_iff {name : String} {signature : Signature} {p : Position} {u : Unit}
    {functions functions' : Functions} :
    add name signature p functions = .ok u functions' ↔
      (name ≠ showFunction ∧ functions.get? name = none) ∧
        functions' = functions.insert name signature := by
  unfold add
  split
  · rename_i h
    rcases h with h | h
    · simp [h]
    · simp [Option.isSome_iff_ne_none.1 h]
  · rename_i h
    rw [not_or, Option.not_isSome_iff_eq_none] at h
    simp [h.1, h.2, eq_comm]

/-- A program registers if its functions may be added, and adds exactly those. -/
theorem addAll_eq_ok_iff {program : Program Span} {u : Unit} {functions functions' : Functions} :
    addAll program functions = .ok u functions' ↔
      functions.Admits program.definitions ∧
        functions' = functions.addedTo program.definitions := by
  induction program generalizing functions with
  | nil =>
    have hnil : addAll [] = pure () := rfl
    rw [hnil, EStateM.pure_eq_ok_iff]
    simp [Program.definitions, Functions.Admits, Functions.addedTo, eq_comm]
  | cons s rest ih =>
    have hcons : addAll (s :: rest) = addDefinition s >>= fun _ => addAll rest := rfl
    rw [hcons, EStateM.bind_eq_ok_iff]
    cases s with
    | function name parameters returns body span =>
      simp only [addDefinition, add_eq_ok_iff, ih]
      have hd : Program.definitions (.function name parameters returns body span :: rest) =
        (name, ⟨parameters.map (·.type), returns⟩) :: Program.definitions rest := rfl
      rw [hd, Functions.admits_cons_iff]
      constructor
      · rintro ⟨_, _, ⟨hn, rfl⟩, hr, rfl⟩
        exact ⟨⟨hn, hr⟩, rfl⟩
      · rintro ⟨⟨hn, hr⟩, rfl⟩
        exact ⟨(), _, ⟨hn, rfl⟩, hr, rfl⟩
    | _ =>
      simp only [addDefinition, EStateM.pure_eq_ok_iff, ih]
      constructor
      · rintro ⟨_, _, ⟨-, rfl⟩, h⟩
        exact h
      · intro h
        exact ⟨(), functions, ⟨trivial, rfl⟩, h⟩

end Registrar
end Offside
