import Offside.Proofs.Typing.Coincidence

/-! The bodies of functions are kept apart from the rest of a program. Nothing is known of a
function but its signature, and what its body binds is lost again: so all functions may be moved and
rewritten, and the statements between them keep their types. -/
namespace Offside

variable {functions functions' : Functions}

/-- A statement depends on the functions through the look-up of names alone. -/
theorem Stmt.check_congr (h : functions.get? = functions'.get?) (R : Ty) (s : Stmt Span) :
    s.check functions R = s.check functions' R :=
  (check_coincides R s (.of_get?_eq h s.mentions)).eq

namespace Program

theorem topLevel_cons_function {s : Stmt α} (h : s.isFunction = true) (rest : Program α) :
    Program.topLevel (s :: rest) = rest.topLevel :=
  List.filter_cons_of_neg (by simp [h])

theorem topLevel_cons_other {s : Stmt α} (h : s.isFunction = false) (rest : Program α) :
    Program.topLevel (s :: rest) = s :: rest.topLevel :=
  List.filter_cons_of_pos (by simp [h])

theorem isFunction_of_mem_topLevel {program : Program α} {s : Stmt α}
    (h : s ∈ program.topLevel) : s.isFunction = false := by
  simpa using (List.mem_filter.1 h).2

end Program

namespace Functions

variable {scope scope' : Scope}

/-- The checker comes to the body of a function and refuses it, with some scope at the start of the
statements. All that stands before it has been accepted. -/
inductive FailsInBody (functions : Functions) : Scope → Program Span → Error → Prop
  | here {name parameters returns body span rest scope e}
      (h : functions.checkBody scope parameters returns body = .error e) :
      FailsInBody functions scope (.function name parameters returns body span :: rest) e
  | later {s t rest scope middle e} (hs : functions.checkTop s scope = .ok t middle)
      (h : FailsInBody functions middle rest e) : FailsInBody functions scope (s :: rest) e

theorem FailsInBody.mapM_eq_error {program : Program Span} {e : Error}
    (h : functions.FailsInBody scope program e) :
    ∃ scope', program.mapM functions.checkTop scope = .error e scope' := by
  induction h with
  | @here name parameters returns body span rest scope e h =>
    refine ⟨scope, ?_⟩
    let f : Scope → Except Error (List (Stmt Typed)) := fun globals =>
      functions.checkBody globals parameters returns body
    have hreading : Checker.reading f scope = .error e scope :=
      Checker.reading_eq_error_iff.2 ⟨h, rfl⟩
    rw [List.mapM_cons]
    exact EStateM.bind_apply_of_error (EStateM.bind_apply_of_error hreading)
  | later hs _ ih =>
    obtain ⟨scope', ih⟩ := ih
    refine ⟨scope', ?_⟩
    rw [List.mapM_cons, EStateM.bind_apply_of_ok hs]
    exact EStateM.bind_apply_of_error ih

theorem checkTop_congr (h : functions.get? = functions'.get?) {s : Stmt Span}
    (hs : s.isFunction = false) : functions.checkTop s = functions'.checkTop s := by
  cases s with
  | function => cases hs
  | _ => exact Stmt.check_congr h .none _

/-- Functions and other statements stay what they are. -/
theorem isFunction_of_checkTop {s : Stmt Span} {t : Stmt Typed}
    (h : functions.checkTop s scope = .ok t scope') : t.isFunction = s.isFunction := by
  cases s with
  | function =>
    obtain ⟨_, -, rfl, -⟩ := checkTop_function_eq_ok_iff.1 h
    rfl
  | _ =>
    obtain ⟨-, hmap, -⟩ := Stmt.accepts_of_check h
    cases t with
    | function => cases hmap
    | _ => rfl

/-- The statements of an accepted program between its functions are accepted without them. -/
theorem topLevel_of_mapM {program : Program Span} {ts : Program Typed}
    (h : program.mapM functions.checkTop scope = .ok ts scope') :
    program.topLevel.mapM functions.checkTop scope = .ok ts.topLevel scope' := by
  induction program generalizing scope ts with
  | nil =>
    rw [List.mapM_nil] at h
    obtain ⟨rfl, rfl⟩ := EStateM.pure_eq_ok_iff.1 h
    rfl
  | cons s rest ih =>
    obtain ⟨t, middle, us, ht, hus, rfl⟩ := EStateM.mapM_cons_eq_ok_iff.1 h
    have hkind := isFunction_of_checkTop ht
    cases hs : s.isFunction with
    | true =>
      rw [Program.topLevel_cons_function hs, Program.topLevel_cons_function (hkind.trans hs)]
      cases s with
      | function =>
        obtain ⟨-, -, -, rfl⟩ := checkTop_function_eq_ok_iff.1 ht
        exact ih hus
      | _ => cases hs
    | false =>
      rw [Program.topLevel_cons_other hs, Program.topLevel_cons_other (hkind.trans hs)]
      exact EStateM.mapM_cons_eq_ok_iff.2 ⟨t, middle, _, ht, ih hus, rfl⟩

/-- Functions put between accepted statements leave these as they are, unless one of them is
refused for its body. -/
theorem mapM_of_topLevel {program : Program Span} {ts : Program Typed}
    (h : program.topLevel.mapM functions.checkTop scope = .ok ts scope') :
    (∃ us, program.mapM functions.checkTop scope = .ok us scope' ∧
        Program.topLevel us = ts) ∨
      ∃ e, functions.FailsInBody scope program e := by
  induction program generalizing scope ts with
  | nil =>
    obtain ⟨rfl, rfl⟩ := EStateM.pure_eq_ok_iff.1 h
    exact .inl ⟨[], rfl, rfl⟩
  | cons s rest ih =>
    cases hs : s.isFunction with
    | true =>
      rw [Program.topLevel_cons_function hs] at h
      cases s with
      | function name parameters returns body span =>
        cases hbody : functions.checkBody scope parameters returns body with
        | error e => exact .inr ⟨e, .here hbody⟩
        | ok body' =>
          have ht : functions.checkTop (.function name parameters returns body span) scope =
              .ok (.function name parameters returns body' ⟨.none, span⟩) scope :=
            checkTop_function_eq_ok_iff.2 ⟨body', hbody, rfl, rfl⟩
          obtain ⟨us, hus, rfl⟩ | ⟨e, he⟩ := ih h
          · exact .inl ⟨_, EStateM.mapM_cons_eq_ok_iff.2 ⟨_, scope, us, ht, hus, rfl⟩, rfl⟩
          · exact .inr ⟨e, .later ht he⟩
      | _ => cases hs
    | false =>
      rw [Program.topLevel_cons_other hs] at h
      obtain ⟨t, middle, us, ht, hus, rfl⟩ := EStateM.mapM_cons_eq_ok_iff.1 h
      have hkind := isFunction_of_checkTop ht
      obtain ⟨vs, hvs, rfl⟩ | ⟨e, he⟩ := ih hus
      · refine .inl ⟨t :: vs, EStateM.mapM_cons_eq_ok_iff.2 ⟨t, middle, vs, ht, hvs, rfl⟩, ?_⟩
        exact Program.topLevel_cons_other (hkind.trans hs) vs
      · exact .inr ⟨e, .later ht he⟩

/-- Statements that are no functions are checked alike with other functions of the same
signatures. -/
theorem mapM_checkTop_congr (h : functions.get? = functions'.get?) {program : Program Span}
    (hs : ∀ s ∈ program, s.isFunction = false) :
    program.mapM functions.checkTop = program.mapM functions'.checkTop := by
  induction program with
  | nil => rfl
  | cons s rest ih =>
    obtain ⟨hs, hrest⟩ := List.forall_mem_cons.1 hs
    rw [List.mapM_cons, List.mapM_cons, checkTop_congr h hs, ih hrest]

end Functions

namespace Program

/-- The look-up of the functions that a program adds is that of its definitions. -/
theorem get?_of_functions {program : Program Span} (h : program.functions = .ok functions) :
    functions.get? = program.signatures := by
  obtain ⟨hadmits, rfl⟩ := functions_eq_ok_iff.1 h
  funext name
  rw [Functions.get?_addedTo hadmits]
  simp [signatures]

/-- Functions with the signatures of an accepted program can be added, if none is defined twice. -/
theorem exists_functions {p q : Program Span} (hp : p.functions = .ok functions)
    (hsignatures : q.signatures = p.signatures) (hnames : (q.definitions.map Prod.fst).Nodup) :
    ∃ functions', q.functions = .ok functions' := by
  obtain ⟨⟨-, hadmits⟩, -⟩ := functions_eq_ok_iff.1 hp
  refine ⟨_, functions_eq_ok_iff.2 ⟨⟨hnames, fun d hd => ⟨fun hshow => ?_, rfl⟩⟩, rfl⟩⟩
  have hnone : q.signatures showFunction = none := by
    rw [hsignatures]
    refine List.lookup_eq_none_iff.2 fun d hd => ?_
    simpa using (hadmits d hd).1.symm
  have hne := List.lookup_eq_none_iff.1 hnone d hd
  simp [hshow] at hne

/-- The bodies of functions cannot influence the rest of a program. Let a program have the
statements of an accepted one between its functions, and functions of the same signatures, each
defined once. Then its functions can be added; and it is either accepted, with the same types in the
statements between the functions, or refused for the body of one of its functions. -/
theorem checked_apart_from_bodies {p q : Program Span} {t : Program Typed}
    (hcheck : p.check = .ok t) (htop : q.topLevel = p.topLevel)
    (hsignatures : q.signatures = p.signatures) (hnames : (q.definitions.map Prod.fst).Nodup) :
    ∃ functions, q.functions = .ok functions ∧
      ((∃ t', q.check = .ok t' ∧ t'.topLevel = t.topLevel) ∨
        ∃ e, q.check = .error e ∧ functions.FailsInBody .empty q e) := by
  obtain ⟨functions, hp, hprogram⟩ := Except.bind_eq_ok_iff.1 hcheck
  obtain ⟨scope', hrun⟩ := Checker.resultIn_eq_ok_iff.1 hprogram
  obtain ⟨functions', hq⟩ := exists_functions hp hsignatures hnames
  have hget : functions.get? = functions'.get? := by
    rw [get?_of_functions hp, get?_of_functions hq, hsignatures]
  have hbetween := Functions.topLevel_of_mapM hrun
  rw [← htop, Functions.mapM_checkTop_congr hget
    fun _ => isFunction_of_mem_topLevel] at hbetween
  refine ⟨functions', hq, ?_⟩
  have hcheckq : q.check = functions'.checkProgram q := by rw [check, hq]; rfl
  rw [hcheckq]
  obtain ⟨t', ht', hsame⟩ | ⟨e, he⟩ := Functions.mapM_of_topLevel hbetween
  · exact .inl ⟨t', Checker.resultIn_eq_ok_iff.2 ⟨scope', ht'⟩, hsame⟩
  · exact .inr ⟨e, Checker.resultIn_eq_error_iff.2 he.mapM_eq_error, he⟩

/-- The functions may change places with other statements, rename their parameters, and get bodies
that are refused. -/
theorem checked_apart_from_bodies_moved :
    let span : Span := ⟨⟨0, "shell"⟩, ⟨0, "shell"⟩⟩
    let assign : Stmt Span := .assign "x" (.call "f" [.number 1 span] span) span
    let use : Stmt Span := .expression (.call "g" [.ident "x" span] span) span
    let p : Program Span := [
      .function "f" [⟨"a", .int⟩] .bool [.return (.boolean true span) span] span, assign,
      .function "g" [⟨"a", .bool⟩] .none [.pass span] span, use]
    let q : Program Span := [assign, use,
      .function "g" [⟨"b", .bool⟩] .none [.assign "y" (.ident "b" span) span] span,
      .function "f" [⟨"x", .int⟩] .bool [.return (.ident "x" span) span] span]
    ∃ t, p.check = .ok t ∧ t.length = 4 ∧ q.topLevel = p.topLevel ∧ q.signatures = p.signatures ∧
      (q.definitions.map Prod.fst).Nodup ∧ ∃ functions, q.functions = .ok functions ∧
        ((∃ t', q.check = .ok t' ∧ t'.topLevel = t.topLevel) ∨
          ∃ e, q.check = .error e ∧ functions.FailsInBody .empty q e) := by
  intro span assign use p q
  obtain ⟨t, ht, hlength⟩ : ∃ t, p.check = .ok t ∧ decide (t.length = 4) = true :=
    Except.exists_eq_ok_of (by decide +kernel)
  have htop : q.topLevel = p.topLevel := rfl
  have hsignatures : q.signatures = p.signatures := by
    have hp : p.definitions = [("f", ⟨[.int], .bool⟩), ("g", ⟨[.bool], .none⟩)] := rfl
    have hq : q.definitions = [("g", ⟨[.bool], .none⟩), ("f", ⟨[.int], .bool⟩)] := rfl
    funext name
    rw [signatures, signatures, hp, hq]
    by_cases hf : name = "f"
    · subst hf
      rfl
    · simp [List.lookup_cons, beq_eq_false_iff_ne.2 hf]
  have hnames : (q.definitions.map Prod.fst).Nodup := by decide
  exact ⟨t, ht, of_decide_eq_true hlength, htop, hsignatures, hnames,
    checked_apart_from_bodies ht htop hsignatures hnames⟩

end Program
end Offside
