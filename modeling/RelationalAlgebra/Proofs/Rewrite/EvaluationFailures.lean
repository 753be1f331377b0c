import RelationalAlgebra.Proofs.Rewrite.Runs
/-!
# Failures that the optimizer brings in

A selection that moves into an intersection or a difference, or whose conjuncts move into a product or a
join, is asked about rows that the query as written never showed to it.  Its predicate can fail on such a
row.  Where equal cells are identical no other rewriting lets a predicate fail: without these operators, or
without the rules that look into them, a query that evaluates still evaluates once it is optimized.  Where 1
and 1.0 are both about, a union or a projection keeps one of two equal rows, and a selection that moves below
it is asked about the other one as well.
-/

namespace RelationalAlgebra.Rewrite

open Query (Tree Plan Binary Fragment)
open Predicate (Formula)

variable {env : Environment} {settings : Settings} {fragment : Fragment} {t : Tree} {r : Relation}
  {o : Optimized}

/-! ## Predicates that keep their values -/

theorem carries_defined {rule : Rule}
    (sets : rule = .distributeSelection →
      ¬(fragment.operators .intersection ∨ fragment.operators .difference))
    (joins : rule = .distributeConjuncts → ¬(fragment.operators .product ∨ fragment.operators .join)) :
    Carries Formula.Defined fragment rule where
  base := guard_defined
  spreads isRule occurs := (sets isRule occurs).elim
  widens _ _ := widens_defined
  splits isRule occurs := (joins isRule occurs).elim

/-- A plan that refines one with a result has a result, with the same rows. -/
theorem run_of_refines {ordered : Prop} {p p' : Plan} (wellFormed : env.WellFormed)
    (separated : Cell.Separated env.cells)
    (refines : Refines Formula.Defined fragment env ordered p p') (within : p.Within fragment)
    (hr : p.run env = .ok r) : ∃ r', p'.run env = .ok r' ∧ r'.equal r = true := by
  have defined : p.Every Formula.Defined env := (Plan.extent_of_run wellFormed separated hr).2.2
  obtain ⟨typed', defined', results⟩ :=
    results_of_refines wellFormed separated refines within defined hr
  obtain ⟨r', hr'⟩ := Plan.run_of_defined wellFormed separated typed' defined'
  exact ⟨r', hr', (results r' hr').1⟩

/-- Where no selected rule moves selections to other rows an optimized query evaluates. -/
theorem eval_of_keepsRows
    (sets : ¬(settings.structural = true ∧
      (fragment.operators .intersection ∨ fragment.operators .difference)))
    (joins : ¬(settings.schematic = true ∧ (fragment.operators .product ∨ fragment.operators .join)))
    (wellFormed : env.WellFormed) (separated : Cell.Separated env.cells) (within : t.Within fragment)
    (h : t.eval env = .ok r) (ho : optimize settings env t = .ok o) :
    ∃ r', o.tree.eval env = .ok r' ∧ r'.equal r = true := by
  obtain ⟨p, hp, hr⟩ := Tree.eval_eq_ok.mp h
  have carries (rule : Rule) (selected : rule ∈ settings.rules) :
      Carries Formula.Defined fragment rule := by
    refine carries_defined (fun isRule occurs => ?_) fun isRule occurs => ?_
    · exact sets ⟨structural_of_mem selected (by rw [isRule]; decide), occurs⟩
    · exact joins ⟨schematic_of_mem selected (by rw [isRule]; decide), occurs⟩
  obtain ⟨p', hp', refines⟩ := refines_of_optimize wellFormed ho hp carries
  rw [Tree.eval_of_plan hp']
  exact run_of_refines wellFormed separated refines (Plan.within_of_tree hp within) hr

/-- If an optimized query fails that did not, the trace shows which rules can have done it. -/
theorem exists_step_of_failure (wellFormed : env.WellFormed) (separated : Cell.Separated env.cells)
    (h : t.eval env = .ok r) (ho : optimize settings env t = .ok o) (traced : settings.trace = true)
    (failed : FailedEvaluation (o.tree.eval env)) :
    ∃ step ∈ o.trace, step.rule = .distributeSelection ∨ step.rule = .distributeConjuncts := by
  by_contra none
  obtain ⟨p, hp, hr⟩ := Tree.eval_eq_ok.mp h
  have innocent (step : Step) (hstep : step ∈ o.trace) (p p' : Plan)
      (rewrites : Rewrites env step.rule p p') : Refines Formula.Defined Fragment.all env False p p' := by
    have carries : Carries Formula.Defined Fragment.all step.rule :=
      carries_defined (fun isRule => absurd ⟨step, hstep, .inl isRule⟩ none)
        fun isRule => absurd ⟨step, hstep, .inr isRule⟩ none
    exact refines_of_rewrites wellFormed carries False.elim rewrites
  obtain ⟨p', hp', refines⟩ := plan_of_trace congruence_refines ho hp traced innocent
  have within : p.Within Fragment.all := Plan.within_of_tree hp t.within_all
  obtain ⟨r', hr', -⟩ := run_of_refines wellFormed separated refines within hr
  obtain ⟨source, row, fault, failed⟩ := failed
  rw [Tree.eval_of_plan hp', hr'] at failed
  cases failed

/-! ## Rows that a query does not show to its predicate -/

/-- A zero, and a second table that keeps the zero out of the result of an operator. -/
def zero (op : Binary) : Environment :=
  let second : List String × List Row :=
    match op with
    | .intersection => (["a"], [])
    | .difference => (["a"], [[.int 0]])
    | _ => (["b"], [])
  .ofTables [("r", ["a"], [[.int 0]]), ("s", second)]

def quotient (op : Binary) : Tree :=
  .selection "1 / a > 0" (.binary op (.relation "r") (.relation "s"))

def Breaks (settings : Settings) (env : Environment) (t : Tree) : Prop :=
  ∃ r, t.eval env = .ok r ∧ ∃ o, optimize settings env t = .ok o ∧ FailedEvaluation (o.tree.eval env)

instance : Decidable (Breaks settings env t) :=
  inferInstanceAs (Decidable (∃ r, t.eval env = .ok r ∧
    ∃ o, optimize settings env t = .ok o ∧ FailedEvaluation (o.tree.eval env)))

theorem breaks_setOperator : ∀ op ∈ [Binary.intersection, Binary.difference], ∀ schematic trace,
    Breaks ⟨true, schematic, trace⟩ (zero op) (quotient op) := by
  decide +kernel

theorem breaks_join : ∀ op ∈ [Binary.product, Binary.join], ∀ structural trace,
    Breaks ⟨structural, true, trace⟩ (zero op) (quotient op) := by
  decide +kernel

theorem separated_zero : ∀ op ∈ [Binary.intersection, Binary.difference, Binary.product, Binary.join],
    Cell.Separated (zero op).cells := by
  decide +kernel

theorem within_quotient {op : Binary} (h : fragment.operators op) : (quotient op).Within fragment :=
  ⟨h, trivial, trivial⟩

/-! ## When the optimizer brings in no failure -/

/-- Where equal cells are identical, every query that evaluates still does once it is optimized exactly if no
rule moves selections to other rows. -/
theorem optimize_keeps_evaluating_iff (settings : Settings) (fragment : Fragment) :
    (∀ (env : Environment) (t : Tree) (r : Relation) (o : Optimized), env.WellFormed →
        Cell.Separated env.cells → t.Within fragment → t.eval env = .ok r →
          optimize settings env t = .ok o → ¬FailedEvaluation (o.tree.eval env)) ↔
      ¬(settings.structural = true ∧
          (fragment.operators .intersection ∨ fragment.operators .difference)) ∧
        ¬(settings.schematic = true ∧ (fragment.operators .product ∨ fragment.operators .join)) := by
  constructor
  · intro keeps
    have notBreaks (op : Binary) (separated : Cell.Separated (zero op).cells)
        (occurs : fragment.operators op) : ¬Breaks settings (zero op) (quotient op) := by
      rintro ⟨r, hr, o, ho, failed⟩
      have wellFormed : (zero op).WellFormed := Environment.wellFormed_ofTables _
      exact keeps _ _ r o wellFormed separated (within_quotient occurs) hr ho failed
    constructor
    · rintro ⟨structural, occurs⟩
      have breaks (op : Binary) (h : op ∈ [Binary.intersection, Binary.difference]) :
          Breaks settings (zero op) (quotient op) := by
        have all := breaks_setOperator op h settings.schematic settings.trace
        rwa [← structural] at all
      rcases occurs with occurs | occurs
      · exact notBreaks _ (separated_zero _ (by decide)) occurs (breaks _ (by decide))
      · exact notBreaks _ (separated_zero _ (by decide)) occurs (breaks _ (by decide))
    · rintro ⟨schematic, occurs⟩
      have breaks (op : Binary) (h : op ∈ [Binary.product, Binary.join]) :
          Breaks settings (zero op) (quotient op) := by
        have all := breaks_join op h settings.structural settings.trace
        rwa [← schematic] at all
      rcases occurs with occurs | occurs
      · exact notBreaks _ (separated_zero _ (by decide)) occurs (breaks _ (by decide))
      · exact notBreaks _ (separated_zero _ (by decide)) occurs (breaks _ (by decide))
  · rintro ⟨sets, joins⟩ env t r o wellFormed separated within hr ho ⟨source, row, fault, failed⟩
    obtain ⟨r', hr', -⟩ := eval_of_keepsRows sets joins wellFormed separated within hr ho
    rw [failed] at hr'
    cases hr'

/-- With no row on the other side a product has no row to divide by; its operand alone has one. -/
theorem quotient_of_product_with_empty_fails :
    (zero .product).WellFormed ∧ Cell.Separated (zero .product).cells ∧
      ∃ r, (quotient .product).eval (zero .product) = .ok r ∧
        ∃ o, optimize {} (zero .product) (quotient .product) = .ok o ∧
          FailedEvaluation (o.tree.eval (zero .product)) :=
  ⟨Environment.wellFormed_ofTables _, by decide +kernel, by decide +kernel⟩

end RelationalAlgebra.Rewrite
