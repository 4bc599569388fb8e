import Offside.Proofs.Typing.Registration

/-! The table of functions over any number of registrations. A registration adds definitions in
order and stops at the first whose name is taken; so whatever is in the table stays there, and comes
from a definition at the top level of some program. -/
namespace Offside

/-- A program has a definition of this name and signature at its top level. -/
def Program.Defines (program : Program Span) (name : String) (signature : Signature) : Prop :=
  ∃ parameters body span, .function name parameters signature.returns body span ∈ program ∧
    signature.parameters = parameters.map (·.type)

theorem Program.mem_definitions_iff {program : Program Span} {name : String}
    {signature : Signature} :
    (name, signature) ∈ program.definitions ↔ program.Defines name signature := by
  simp only [definitions, List.mem_filterMap, Defines]
  constructor
  · rintro ⟨s, hs, hd⟩
    cases s with
    | function name' parameters returns body span =>
      cases hd
      exact ⟨parameters, body, span, hs, rfl⟩
    | _ => cases hd
  · rintro ⟨parameters, body, span, hs, hparameters⟩
    exact ⟨_, hs, by simp [← hparameters]⟩

namespace Functions

variable {functions : Functions} {name : String} {signature : Signature}
  {added : List (String × Signature)}

/-- A name that no definition can have: that of the function that shows a value, or of a function
that is known. -/
def Taken (functions : Functions) (name : String) : Prop :=
  name = showFunction ∨ (functions.get? name).isSome

theorem not_taken_iff : ¬ functions.Taken name ↔
    name ≠ showFunction ∧ functions.get? name = none := by
  rw [Taken, not_or, Option.not_isSome_iff_eq_none]

/-- The table grows by exactly the functions that may be added. -/
theorem get?_addedTo_eq_some_iff (h : functions.Admits added) :
    (functions.addedTo added).get? name = some signature ↔
      functions.get? name = some signature ∨ (name, signature) ∈ added := by
  induction added generalizing functions with
  | nil => simp [addedTo]
  | cons d rest ih =>
    obtain ⟨⟨-, hnew⟩, hrest⟩ := admits_cons_iff.1 h
    change (Functions.addedTo (functions.insert d.1 d.2) rest).get? name = _ ↔ _
    rw [ih hrest, Bindings.get?_insert, List.mem_cons, ← or_assoc]
    refine or_congr_left ?_
    by_cases hd : name = d.1
    · subst hd
      simp [hnew, Prod.ext_iff, eq_comm]
    · simp [hd, Prod.ext_iff]

theorem keeps_addedTo (h : functions.Admits added)
    (hget : functions.get? name = some signature) :
    (functions.addedTo added).get? name = some signature :=
  (get?_addedTo_eq_some_iff h).2 (.inl hget)

/-- After some functions are added, the names that are taken are those that were, and theirs. -/
theorem taken_addedTo_iff (h : functions.Admits added) :
    (functions.addedTo added).Taken name ↔
      functions.Taken name ∨ name ∈ added.map Prod.fst := by
  simp only [Taken, Option.isSome_iff_exists, get?_addedTo_eq_some_iff h, exists_or, List.mem_map,
    Prod.exists, exists_eq_right, or_assoc, exists_and_right]

/-- Functions that may not all be added have a first whose name is taken, be it by those before. -/
theorem exists_first_taken {program : Program Span} (h : ¬ functions.Admits program.definitions) :
    ∃ (before after : Program Span) (name : String) (parameters : List Parameter) (returns : Ty)
        (body : List (Stmt Span)) (span : Span),
      program = before ++ .function name parameters returns body span :: after ∧
      functions.Admits before.definitions ∧ (functions.addedTo before.definitions).Taken name := by
  induction program generalizing functions with
  | nil => exact absurd ⟨List.nodup_nil, List.forall_mem_nil _⟩ h
  | cons s rest ih =>
    cases s with
    | function name parameters returns body span =>
      by_cases htaken : functions.Taken name
      · exact ⟨[], rest, name, parameters, returns, body, span, rfl,
          ⟨List.nodup_nil, List.forall_mem_nil _⟩, htaken⟩
      · have hadmits {more : Program Span} :
            functions.Admits (Program.definitions
              (.function name parameters returns body span :: more)) ↔
              Functions.Admits (functions.insert name ⟨parameters.map (·.type), returns⟩)
                more.definitions :=
          admits_cons_iff.trans (and_iff_right (not_taken_iff.1 htaken))
        obtain ⟨before, after, name', parameters', returns', body', span', rfl, hbefore, htaken'⟩ :=
          ih (mt hadmits.2 h)
        exact ⟨.function name parameters returns body span :: before, after, name', parameters',
          returns', body', span', rfl, hadmits.2 hbefore, htaken'⟩
    | _ =>
      obtain ⟨before, after, name', parameters', returns', body', span', rfl, hbefore, htaken'⟩ :=
        ih h
      exact ⟨_ :: before, after, name', parameters', returns', body', span', rfl, hbefore, htaken'⟩

end Functions

namespace Registrar

variable {functions : Functions} {program before after : Program Span} {name : String}
  {signature : Signature} {p : Position}

theorem add_eq_error (h : functions.Taken name) : add name signature p functions =
    .error ⟨.functionRedeclared name, p⟩ functions := if_pos h

/-- A program is refused at a definition whose name is taken when those before it have been
added. -/
theorem addAll_eq_error {parameters : List Parameter} {returns : Ty} {body : List (Stmt Span)}
    {span : Span} (hbefore : functions.Admits before.definitions)
    (htaken : (functions.addedTo before.definitions).Taken name) :
    addAll (before ++ .function name parameters returns body span :: after) functions =
      .error ⟨.functionRedeclared name, span.start⟩ (functions.addedTo before.definitions) := by
  have happend : addAll (before ++ .function name parameters returns body span :: after) =
      addAll before >>= fun _ => addAll (.function name parameters returns body span :: after) :=
    List.forM_append
  have hcons : addAll (.function name parameters returns body span :: after) =
      add name ⟨parameters.map (·.type), returns⟩ span.start >>= fun _ => addAll after := rfl
  have hadded : addAll before functions = .ok () (functions.addedTo before.definitions) :=
    addAll_eq_ok_iff.2 ⟨hbefore, rfl⟩
  rw [happend, EStateM.bind_apply_of_ok hadded, hcons,
    EStateM.bind_apply_of_error (add_eq_error htaken)]

/-- The table that a registration leaves, be it accepted or refused. -/
def tableAfter (functions : Functions) (program : Program Span) : Functions :=
  match addAll program functions with
  | .ok _ t => t
  | .error _ t => t

/-- The table after registrations one after the other, the first of which starts from none. -/
def session (programs : List (Program Span)) : Functions := programs.foldl tableAfter .empty

/-- A registration adds the definitions that come first in its program. -/
theorem exists_tableAfter_eq (functions : Functions) (program : Program Span) :
    ∃ before : Program Span, before <+: program ∧ functions.Admits before.definitions ∧
      tableAfter functions program = functions.addedTo before.definitions := by
  by_cases h : functions.Admits program.definitions
  · refine ⟨program, List.prefix_rfl, h, ?_⟩
    rw [tableAfter, (addAll_eq_ok_iff (u := ())).2 ⟨h, rfl⟩]
  · obtain ⟨before, after, name, parameters, returns, body, span, rfl, hbefore, htaken⟩ :=
      Functions.exists_first_taken h
    refine ⟨before, List.prefix_append _ _, hbefore, ?_⟩
    rw [tableAfter, addAll_eq_error hbefore htaken]

theorem keeps_tableAfter (h : functions.get? name = some signature) (program : Program Span) :
    (tableAfter functions program).get? name = some signature := by
  obtain ⟨before, -, hadmits, htable⟩ := exists_tableAfter_eq functions program
  rw [htable]
  exact Functions.keeps_addedTo hadmits h

/-- What a registration adds is defined in its program. -/
theorem get?_or_defines_of_tableAfter
    (h : (tableAfter functions program).get? name = some signature) :
    functions.get? name = some signature ∨
      name ≠ showFunction ∧ program.Defines name signature := by
  obtain ⟨before, ⟨after, rfl⟩, hadmits, htable⟩ := exists_tableAfter_eq functions program
  rw [htable, Functions.get?_addedTo_eq_some_iff hadmits] at h
  refine h.imp_right fun hmem => ⟨(hadmits.2 _ hmem).1, ?_⟩
  obtain ⟨parameters, body, span, hdefinition, hparameters⟩ := Program.mem_definitions_iff.1 hmem
  exact ⟨parameters, body, span, List.mem_append_left after hdefinition, hparameters⟩

theorem keeps_foldl_tableAfter (programs : List (Program Span))
    (h : functions.get? name = some signature) :
    (programs.foldl tableAfter functions).get? name = some signature := by
  induction programs generalizing functions with
  | nil => exact h
  | cons program rest ih => exact ih (keeps_tableAfter h program)

theorem get?_or_defines_of_foldl_tableAfter {programs : List (Program Span)}
    (h : (programs.foldl tableAfter functions).get? name = some signature) :
    functions.get? name = some signature ∨
      name ≠ showFunction ∧ ∃ program ∈ programs, program.Defines name signature := by
  induction programs generalizing functions with
  | nil => exact .inl h
  | cons program rest ih =>
    obtain hfirst | ⟨hname, later, hlater, hdefines⟩ := ih h
    · refine (get?_or_defines_of_tableAfter hfirst).imp_right fun ⟨hname, hdefines⟩ => ?_
      exact ⟨hname, program, List.mem_cons_self, hdefines⟩
    · exact .inr ⟨hname, later, List.mem_cons_of_mem _ hlater, hdefines⟩

/-- What a session has registered was defined at the top level of some program, and does not show
values. -/
theorem defines_of_session {programs : List (Program Span)}
    (h : (session programs).get? name = some signature) :
    name ≠ showFunction ∧ ∃ program ∈ programs, program.Defines name signature := by
  obtain hempty | hdefines := get?_or_defines_of_foldl_tableAfter h
  · cases hempty
  · exact hdefines

/-- The table of functions only grows. What a session has registered stays as it is, is defined at
the top level of some program, and never shows values. The next program is accepted exactly if its
definitions have names of their own that are not taken, and then they are added; or else it is
refused at the first whose name is taken, and those before it are added. -/
theorem session_append_only (calls : List (Program Span)) :
    (∀ more name signature, (session calls).get? name = some signature →
      (session (calls ++ more)).get? name = some signature) ∧
    (session calls).get? showFunction = none ∧
    (∀ name signature, (session calls).get? name = some signature →
      ∃ program ∈ calls, program.Defines name signature) ∧
    ∀ program : Program Span,
      ((∃ t, addAll program (session calls) = .ok () t) ↔
        (session calls).Admits program.definitions) ∧
      (∀ t, addAll program (session calls) = .ok () t →
        ∀ name signature, t.get? name = some signature ↔
          (session calls).get? name = some signature ∨ program.Defines name signature) ∧
      (¬ (session calls).Admits program.definitions →
        ∃ (before after : Program Span) (name : String) (parameters : List Parameter)
          (returns : Ty) (body : List (Stmt Span)) (span : Span) (t : Functions),
          program = before ++ .function name parameters returns body span :: after ∧
          (session calls).Admits before.definitions ∧
          ((session calls).Taken name ∨ name ∈ before.definitions.map Prod.fst) ∧
          addAll program (session calls) = .error ⟨.functionRedeclared name, span.start⟩ t ∧
          ∀ other signature, t.get? other = some signature ↔
            (session calls).get? other = some signature ∨ before.Defines other signature) := by
  refine ⟨?keeps, ?shows, fun name signature h => (defines_of_session h).2, fun program =>
    ⟨?accepted, ?added, ?refused⟩⟩
  case keeps =>
    intro more name signature h
    rw [session, List.foldl_append]
    exact keeps_foldl_tableAfter more h
  case shows =>
    refine Option.eq_none_iff_forall_ne_some.2 fun signature h => ?_
    exact (defines_of_session h).1 rfl
  case accepted =>
    simp only [addAll_eq_ok_iff, exists_and_left, exists_eq, and_true]
  case added =>
    intro t h name signature
    obtain ⟨hadmits, rfl⟩ := addAll_eq_ok_iff.1 h
    rw [Functions.get?_addedTo_eq_some_iff hadmits, Program.mem_definitions_iff]
  case refused =>
    intro h
    obtain ⟨before, after, name, parameters, returns, body, span, rfl, hbefore, htaken⟩ :=
      Functions.exists_first_taken h
    refine ⟨before, after, name, parameters, returns, body, span, _, rfl, hbefore,
      (Functions.taken_addedTo_iff hbefore).1 htaken, addAll_eq_error hbefore htaken,
      fun other signature => ?_⟩
    rw [Functions.get?_addedTo_eq_some_iff hbefore, Program.mem_definitions_iff]

/-- A refused program has registered the function before the second of its name, and not the one
inside; the next program is refused for that name, after a new function has been added. -/
theorem session_append_only_refused :
    let span : Span := ⟨⟨3, "shell"⟩, ⟨9, "shell"⟩⟩
    let f : Stmt Span :=
      .function "f" [⟨"x", .int⟩] .bool [.function "h" [] .none [.pass span] span] span
    let g : Stmt Span := .function "g" [⟨"y", .bool⟩] .none [.pass span] span
    let calls : List (Program Span) := [[f, f]]
    (session calls).get? "f" = some ⟨[.int], .bool⟩ ∧ (session calls).get? "h" = none ∧
      (session (calls ++ [[g, f]])).get? "f" = some ⟨[.int], .bool⟩ ∧
      ¬ (session calls).Admits (Program.definitions [g, f]) ∧
      ∃ (before after : Program Span) (name : String) (parameters : List Parameter)
          (returns : Ty) (body : List (Stmt Span)) (span : Span) (t : Functions),
        [g, f] = before ++ .function name parameters returns body span :: after ∧
        (session calls).Admits before.definitions ∧
        ((session calls).Taken name ∨ name ∈ before.definitions.map Prod.fst) ∧
        addAll [g, f] (session calls) = .error ⟨.functionRedeclared name, span.start⟩ t ∧
        ∀ other signature, t.get? other = some signature ↔
          (session calls).get? other = some signature ∨ before.Defines other signature := by
  intro span f g calls
  have hf : (session calls).get? "f" = some ⟨[.int], .bool⟩ := by decide
  have hh : (session calls).get? "h" = none := by decide
  obtain ⟨hkeeps, -, -, hnext⟩ := session_append_only calls
  have hrefused : ¬ (session calls).Admits (Program.definitions [g, f]) := by
    rintro ⟨-, hfresh⟩
    have hnone := (hfresh ("f", ⟨[.int], .bool⟩) (by decide)).2
    rw [hf] at hnone
    cases hnone
  exact ⟨hf, hh, hkeeps [[g, f]] "f" _ hf, hrefused, (hnext [g, f]).2.2 hrefused⟩

end Registrar
end Offside
