import RelationalAlgebra.Proofs.Rewrite.Bounds
import RelationalAlgebra.Proofs.Rewrite.Preservation
/-!
# Names that are no attributes

A query may name in a predicate what is no attribute of the operand; it evaluates as long as no row makes
the predicate look.  A selection that moves into a projection gets to see what the projection drops, and
inside a difference that changes which rows are taken away.  Without differences, without projections or
without the rule the rows of such a query stay what they are.
-/

namespace RelationalAlgebra.Rewrite

open Query (Tree Plan Binary Fragment)
open Predicate (Formula)

variable {env : Environment} {settings : Settings} {fragment : Fragment} {t : Tree} {r r' : Relation}
  {o : Optimized}

/-! ## Rows that stay -/

/-- Without a selection that moves into a projection the extent is kept, whatever the predicates are. -/
theorem carries_trivial (stays : ¬(settings.structural = true ∧ fragment.projections)) {rule : Rule}
    (selected : rule ∈ settings.rules) : Carries (fun _ _ => True) fragment rule where
  base := guard_trivial
  spreads _ _ := @spreads_trivial
  widens isRule projections := by
    have structural : settings.structural = true :=
      structural_of_mem selected (by rw [isRule]; decide)
    exact (stays ⟨structural, projections⟩).elim
  splits _ _ := @splits_trivial

theorem equal_of_selectionsStay (stays : ¬(settings.structural = true ∧ fragment.projections))
    (wellFormed : env.WellFormed) (separated : Cell.Separated env.cells) (within : t.Within fragment)
    (h : t.eval env = .ok r) (ho : optimize settings env t = .ok o) (h' : o.tree.eval env = .ok r') :
    r'.equal r = true := by
  obtain ⟨p, hp, hr⟩ := Tree.eval_eq_ok.mp h
  obtain ⟨p', hp', refines⟩ := refines_of_optimize wellFormed ho hp fun _ selected =>
    carries_trivial stays selected
  rw [Tree.eval_of_plan hp'] at h'
  have trivially : p.Every (fun _ _ => True) env :=
    (Plan.extent_of_run wellFormed separated hr).2.2.imp fun _ _ _ => trivial
  have results :=
    (results_of_refines wellFormed separated refines (Plan.within_of_tree hp within) trivially hr).2.2
  exact (results r' h').1

theorem equal_of_noDifference (noDifference : ¬fragment.operators .difference)
    (wellFormed : env.WellFormed) (separated : Cell.Separated env.cells) (within : t.Within fragment)
    (h : t.eval env = .ok r) (ho : optimize settings env t = .ok o) (h' : o.tree.eval env = .ok r') :
    r'.equal r = true := by
  obtain ⟨p, hp, hr⟩ := Tree.eval_eq_ok.mp h
  obtain ⟨p', hp', narrows⟩ := plan_of_optimize congruence_narrows ho hp fun _ _ p p' rewrites =>
    narrows_of_rewrites wellFormed noDifference rewrites
  rw [Tree.eval_of_plan hp'] at h'
  have defined := (Plan.extent_of_run wellFormed separated hr).2.2
  have defined' := (Plan.extent_of_run wellFormed separated h').2.2
  have typed := (Plan.typed_of_run hr).1
  have same := extent_of_narrows wellFormed narrows (Plan.within_of_tree hp within) typed defined defined'
  exact Plan.equal_of_runs wellFormed separated hr h' same

/-! ## Rows that come back -/

/-- Two rows that differ in what a projection drops. -/
def twins : Environment := .ofTables
  [("r", ["a", "b"], [[.int 1, .int 1]]), ("s", ["a", "b"], [[.int 1, .int 2]])]

/-- What is asked of a column that is dropped before, where no row is left to ask. -/
def dropped : Tree :=
  .selection "b == 1"
    (.binary .difference (.projection "a" (.relation "r")) (.projection "a" (.relation "s")))

theorem separated_twins : Cell.Separated twins.cells := by decide +kernel

theorem not_scoped_dropped : ¬dropped.Scoped twins := by decide +kernel

theorem within_dropped (projections : fragment.projections) (difference : fragment.operators .difference) :
    dropped.Within fragment :=
  ⟨difference, ⟨projections, trivial⟩, projections, trivial⟩

/-- With the rules that look at the tree alone the row is there. -/
theorem dropped_returns : ∀ schematic trace,
    ∃ r, dropped.eval twins = .ok r ∧ ∃ o, optimize ⟨true, schematic, trace⟩ twins dropped = .ok o ∧
      ∃ r', o.tree.eval twins = .ok r' ∧ r'.equal r = false := by
  decide +kernel

/-- Exactly without a rule that moves selections into projections, without projections or without
differences, queries with names that are no attributes keep their rows. -/
theorem optimize_keeps_foreign_rows_iff (settings : Settings) (fragment : Fragment) :
    (∀ (env : Environment) (t : Tree) (r r' : Relation) (o : Optimized), env.WellFormed →
        Cell.Separated env.cells → ¬t.Scoped env → t.Within fragment → t.eval env = .ok r →
          optimize settings env t = .ok o → o.tree.eval env = .ok r' → r'.equal r = true) ↔
      ¬(settings.structural = true ∧ fragment.projections ∧ fragment.operators .difference) := by
  constructor
  · rintro keeps ⟨structural, projections, difference⟩
    have returns := dropped_returns settings.schematic settings.trace
    rw [← structural] at returns
    obtain ⟨r, hr, o, ho, r', hr', differs⟩ := returns
    have wellFormed : twins.WellFormed := Environment.wellFormed_ofTables _
    have same := keeps twins dropped r r' o wellFormed separated_twins not_scoped_dropped
      (within_dropped projections difference) hr ho hr'
    rw [same] at differs
    cases differs
  · intro safe env t r r' o wellFormed separated _ within h ho h'
    by_cases difference : fragment.operators .difference
    · have stays : ¬(settings.structural = true ∧ fragment.projections) :=
        fun both => safe ⟨both.1, both.2, difference⟩
      exact equal_of_selectionsStay stays wellFormed separated within h ho h'
    · exact equal_of_noDifference difference wellFormed separated within h ho h'

/-- The difference of equal projections has no row; of what the selection leaves of one of them, it has. -/
theorem dropped_column_brings_row_back :
    twins.WellFormed ∧ Cell.Separated twins.cells ∧ ¬dropped.Scoped twins ∧
      ∃ r, dropped.eval twins = .ok r ∧ ∃ o, optimize {} twins dropped = .ok o ∧
        ∃ r', o.tree.eval twins = .ok r' ∧ r'.equal r = false :=
  ⟨Environment.wellFormed_ofTables _, separated_twins, not_scoped_dropped, by decide +kernel⟩

end RelationalAlgebra.Rewrite
