import RelationalAlgebra.Proofs.Environment
import RelationalAlgebra.Proofs.Rewrite.Runs
/-!
# Schema faults that the optimizer hides

Two projections in a row are merged, and a renaming is merged, dropped or moved without a look at the
columns below it, so that a name which is no column can vanish from the query.  All other rewritings leave
a query with a fault of its schema as faulty as it was.
-/

namespace RelationalAlgebra

def FailedSchema {α : Type} (result : Except Failure α) : Prop := ∃ fault, result = .error (.schema fault)

instance {α : Type} (result : Except Failure α) : Decidable (FailedSchema result) :=
  match result with
  | .error (.schema fault) => .isTrue ⟨fault, rfl⟩
  | .ok _ | .error (.lex _) | .error (.parse _) | .error (.evaluation ..) | .error (.unbound _)
  | .error (.unknownFormat _) | .error .badLogLevel | .error .io | .error .csv | .error .json =>
    .isFalse (by rintro ⟨fault, h⟩; cases h)

namespace Rewrite

open Query (Tree Plan Fragment)

variable {env : Environment} {settings : Settings} {fragment : Fragment} {t : Tree} {o : Optimized}
  {p p' : Plan} {rule : Rule}

/-! ## Faults that stay -/

theorem not_typed_of_failedSchema (h : FailedSchema (p.run env)) : ¬p.Typed env := by
  obtain ⟨fault, h⟩ := h
  intro typed
  rcases Plan.run_of_typed typed with ⟨r, hr⟩ | ⟨source, row, other, hr⟩
  · rw [h] at hr
    cases hr
  · rw [h] at hr
    cases hr

/-- The rules that can hide a fault are about projections and renamings. -/
theorem not_hides_of_within (projections : ¬fragment.projections) (renamings : ¬fragment.renamings)
    (h : Rewrites env rule p p') (within : p.Within fragment) : ¬Hides rule := by
  intro hides
  cases h with
  | mergeProjections => exact projections within.1
  | mergeRenamings => exact renamings within.1
  | dropIdleRenaming => exact renamings within.1
  | projectBeforeRenaming => exact projections within.1
  | _ => exact hides

theorem exists_plan_of_failedSchema (h : FailedSchema (t.eval env)) :
    ∃ p, t.plan = .ok p ∧ ¬p.Typed env := by
  cases hp : t.plan with
  | error failure =>
    obtain ⟨fault, rfl⟩ := Tree.plan_eq_error hp
    obtain ⟨other, h⟩ := h
    rw [Tree.eval, hp] at h
    cases h
  | ok p =>
    rw [Tree.eval_of_plan hp] at h
    exact ⟨p, rfl, not_typed_of_failedSchema h⟩

/-- Where no rewriting can hide a fault it stays in place. -/
theorem eval_ne_ok_of_innocent (h : FailedSchema (t.eval env)) (ho : optimize settings env t = .ok o)
    (within : t.Within fragment)
    (innocent : ∀ rule ∈ settings.rules, ∀ p p', Rewrites env rule p p' → p.Within fragment →
      ¬Hides rule) (r : Relation) : o.tree.eval env ≠ .ok r := by
  intro hr
  obtain ⟨p, hp, untyped⟩ := exists_plan_of_failedSchema h
  obtain ⟨p', hp', unhides⟩ := plan_of_optimize congruence_unhides ho hp
    fun rule selected p p' rewrites =>
      unhides_of_rewrites (innocent rule selected p p' rewrites) rewrites
  rw [Tree.eval_of_plan hp'] at hr
  have typed' := (Plan.typed_of_run hr).1
  exact untyped ((unhides (Plan.within_of_tree hp within)).2 typed').1

/-- If an optimized query has a result that has a fault in its schema, the trace shows which rules can
have hidden it. -/
theorem exists_step_of_forgiven (h : FailedSchema (t.eval env)) (ho : optimize settings env t = .ok o)
    (traced : settings.trace = true) {r : Relation} (hr : o.tree.eval env = .ok r) :
    ∃ step ∈ o.trace, Hides step.rule := by
  by_contra none
  obtain ⟨p, hp, untyped⟩ := exists_plan_of_failedSchema h
  have innocent (step : Step) (hstep : step ∈ o.trace) (p p' : Plan)
      (rewrites : Rewrites env step.rule p p') : Unhides Fragment.all env p p' :=
    unhides_of_rewrites (fun _ hides => none ⟨step, hstep, hides⟩) rewrites
  obtain ⟨p', hp', unhides⟩ := plan_of_trace congruence_unhides ho hp traced innocent
  rw [Tree.eval_of_plan hp'] at hr
  have typed' := (Plan.typed_of_run hr).1
  exact untyped ((unhides (Plan.within_of_tree hp t.within_all)).2 typed').1

/-- The rules that look at schemas hide no fault. -/
theorem not_hides_of_schematic (structural : settings.structural = false)
    (selected : rule ∈ settings.rules) : ¬Hides rule := by
  intro hides
  rcases mem_rules selected with ⟨-, schematic⟩ | ⟨on, -⟩
  · have none : ∀ rule ∈ Rule.schematic, ¬Hides rule := by
      intro rule mem
      simp only [Rule.schematic, List.mem_cons, List.not_mem_nil, or_false] at mem
      rcases mem with rfl | rfl | rfl | rfl <;> exact id
    exact none rule schematic hides
  · rw [structural] at on
    cases on

/-! ## Faults that are hidden -/

def single : Environment := .ofTables [("r", ["a", "b"], [[.int 1, .int 2]])]

def lost : Tree := .projection "a" (.projection "b" (.relation "r"))

def unknown : Tree := .rename "x➡x" (.relation "r")

def Forgives (settings : Settings) (env : Environment) (t : Tree) : Prop :=
  FailedSchema (t.eval env) ∧ ∃ o, optimize settings env t = .ok o ∧ ∃ r, o.tree.eval env = .ok r ∧ r.rows ≠ []

instance : Decidable (Forgives settings env t) :=
  inferInstanceAs (Decidable (FailedSchema (t.eval env) ∧
    ∃ o, optimize settings env t = .ok o ∧ ∃ r, o.tree.eval env = .ok r ∧ r.rows ≠ []))

theorem forgives_lost : ∀ schematic trace, Forgives ⟨true, schematic, trace⟩ single lost := by
  decide +kernel

theorem forgives_unknown : ∀ schematic trace, Forgives ⟨true, schematic, trace⟩ single unknown := by
  decide +kernel

/-- Exactly without the rules that look at the tree alone, or without projections and renamings, a query
with a fault in its schema still fails once it is optimized. -/
theorem optimize_keeps_schema_faults_iff (settings : Settings) (fragment : Fragment) :
    (∀ (env : Environment) (t : Tree) (o : Optimized), env.WellFormed → t.Within fragment →
        FailedSchema (t.eval env) → optimize settings env t = .ok o →
          ∀ r, o.tree.eval env ≠ .ok r) ↔
      ¬(settings.structural = true ∧ (fragment.projections ∨ fragment.renamings)) := by
  constructor
  · rintro keeps ⟨structural, occurs⟩
    have notForgives (t : Tree) (within : t.Within fragment) : ¬Forgives settings single t := by
      rintro ⟨failed, o, ho, r, hr, -⟩
      exact keeps single t o (Environment.wellFormed_ofTables _) within failed ho r hr
    rcases occurs with projections | renamings
    · have forgives := forgives_lost settings.schematic settings.trace
      rw [← structural] at forgives
      exact notForgives lost ⟨projections, projections, trivial⟩ forgives
    · have forgives := forgives_unknown settings.schematic settings.trace
      rw [← structural] at forgives
      exact notForgives unknown ⟨renamings, trivial⟩ forgives
  · intro safe env t o _ within failed ho
    refine eval_ne_ok_of_innocent failed ho within fun rule selected p p' rewrites inside => ?_
    by_cases structural : settings.structural = true
    · have projections : ¬fragment.projections := fun occurs => safe ⟨structural, .inl occurs⟩
      have renamings : ¬fragment.renamings := fun occurs => safe ⟨structural, .inr occurs⟩
      exact not_hides_of_within projections renamings rewrites inside
    · exact not_hides_of_schematic (by simpa using structural) selected

/-- The column that the inner projection drops is back when the two are one. -/
theorem lost_column_is_found :
    single.WellFormed ∧ FailedSchema (lost.eval single) ∧
      ∃ o, optimize {} single lost = .ok o ∧ ∃ r, o.tree.eval single = .ok r ∧ r.rows ≠ [] :=
  ⟨Environment.wellFormed_ofTables _, by decide +kernel, by decide +kernel⟩

end Rewrite

end RelationalAlgebra
