import RelationalAlgebra.Proofs.Rewrite.Runs
/-!
# The optimizer keeps results

A query whose predicates name attributes of their operands has, once it is optimized, the rows that it
had, whichever rules are selected; only a predicate can fail that did not fail before.  The rules that look
at the tree alone keep the order of the columns too.
-/

namespace RelationalAlgebra

open Predicate (Formula)

/-! ## Queries with predicates in scope -/

namespace Query

/-- Each predicate of a query names only attributes of its operand. -/
def Tree.Scoped (env : Environment) : Tree → Prop
  | relation _ => True
  | unary .selection text operand =>
    operand.Scoped env ∧ ∀ clause, Relation.clause? text = .ok clause →
      ∀ names, operand.schema env = .ok names → ∀ n ∈ clause.formula.mentioned, n ∈ names
  | unary _ _ operand => operand.Scoped env
  | binary _ left right => left.Scoped env ∧ right.Scoped env

variable {env : Environment}

instance Tree.decidableScoped (env : Environment) : (t : Tree) → Decidable (t.Scoped env)
  | relation _ => inferInstanceAs (Decidable True)
  | unary .selection text operand =>
    have := operand.decidableScoped env
    inferInstanceAs (Decidable (operand.Scoped env ∧ ∀ clause, Relation.clause? text = .ok clause →
      ∀ names, operand.schema env = .ok names → ∀ n ∈ clause.formula.mentioned, n ∈ names))
  | unary .projection _ operand => operand.decidableScoped env
  | unary .rename _ operand => operand.decidableScoped env
  | binary _ left right =>
    have := left.decidableScoped env
    have := right.decidableScoped env
    inferInstanceAs (Decidable (left.Scoped env ∧ right.Scoped env))

theorem Plan.every_scoped {t : Tree} {p : Plan} (inScope : t.Scoped env) (hp : t.plan = .ok p)
    (typed : p.Typed env) : p.Every Formula.Scoped env := by
  induction t generalizing p with
  | relation name =>
    obtain rfl := Tree.plan_relation hp
    exact trivial
  | unary op text t ih =>
    cases op with
    | selection =>
      obtain ⟨input, clause, hinput, hclause, rfl⟩ := Tree.plan_selection_iff.mp hp
      have typed : input.Typed env := typed
      obtain ⟨inner, names⟩ := inScope
      refine ⟨ih inner hinput typed, fun n hn => ?_⟩
      rw [attributes_extent]
      exact names clause hclause _ (Tree.schema_of_typed hinput typed) n hn
    | projection =>
      obtain ⟨input, names, hinput, -, rfl⟩ := Tree.plan_projection_iff.mp hp
      have every : input.Every Formula.Scoped env := ih inScope hinput typed.1
      exact every
    | rename =>
      obtain ⟨input, map, hinput, -, rfl⟩ := Tree.plan_rename_iff.mp hp
      have every : input.Every Formula.Scoped env := ih inScope hinput typed.1
      exact every
  | binary op a b iha ihb =>
    obtain ⟨left, right, hleft, hright, rfl⟩ := Tree.plan_binary_iff.mp hp
    exact ⟨iha inScope.1 hleft typed.1, ihb inScope.2 hright typed.2.1⟩

end Query

namespace Rewrite

open Query (Tree Plan)

variable {env : Environment} {t : Tree} {r : Relation} {settings : Settings} {o : Optimized}

/-! ## Preservation -/

theorem carries_scoped (rule : Rule) : Carries Formula.Scoped Query.Fragment.all rule where
  base := guard_scoped
  spreads _ _ := spreads_scoped
  widens _ _ := widens_scoped
  splits _ _ := splits_scoped

theorem optimize_preserves_results (wellFormed : env.WellFormed)
    (separated : Cell.Separated env.cells) (inScope : t.Scoped env) (h : t.eval env = .ok r)
    (ho : optimize settings env t = .ok o) :
    (∃ r', o.tree.eval env = .ok r' ∧ r'.equal r = true ∧
        (settings.schematic = false → r'.names = r.names)) ∨
      FailedEvaluation (o.tree.eval env) := by
  obtain ⟨p, hp, hr⟩ := Tree.eval_eq_ok.mp h
  obtain ⟨p', hp', refines⟩ := refines_of_optimize wellFormed ho hp fun rule _ => carries_scoped rule
  have within : p.Within Query.Fragment.all := Plan.within_of_tree hp t.within_all
  have every : p.Every Formula.Scoped env :=
    Plan.every_scoped inScope hp (Plan.typed_of_run hr).1
  obtain ⟨typed', -, results⟩ := results_of_refines wellFormed separated refines within every hr
  rw [Tree.eval_of_plan hp']
  rcases Plan.run_of_typed typed' with ⟨r', hr'⟩ | failed
  · obtain ⟨same, ordered⟩ := results r' hr'
    exact .inl ⟨r', hr', same, ordered⟩
  · exact .inr failed

def household : Environment := .ofTables
  [("person", ["id", "name"], [[.int 1, .text "ann"]]), ("pet", ["id", "kind"], [[.int 1, .text "cat"]])]

def catOwners : Tree :=
  .selection "kind == \"cat\"" (.projection "kind, name" (.binary .join (.relation "person") (.relation "pet")))

theorem optimize_preserves_catOwners :
    ∃ r, catOwners.eval household = .ok r ∧
      ∃ o, optimize { schematic := false } household catOwners = .ok o ∧
        ((∃ r', o.tree.eval household = .ok r' ∧ r'.equal r = true ∧ r'.names = r.names) ∨
          FailedEvaluation (o.tree.eval household)) := by
  have wellFormed : household.WellFormed := Environment.wellFormed_ofTables _
  have separated : Cell.Separated household.cells := by decide +kernel
  have inScope : catOwners.Scoped household := by decide +kernel
  have evaluates : ∃ r, catOwners.eval household = .ok r ∧ True := by decide +kernel
  have optimizes : ∃ o, optimize { schematic := false } household catOwners = .ok o ∧ True := by
    decide +kernel
  obtain ⟨r, hr, -⟩ := evaluates
  obtain ⟨o, ho, -⟩ := optimizes
  refine ⟨r, hr, o, ho, ?_⟩
  rcases optimize_preserves_results wellFormed separated inScope hr ho with ⟨r', hr', same, names⟩ | failed
  · exact .inl ⟨r', hr', same, names rfl⟩
  · exact .inr failed

end Rewrite

end RelationalAlgebra
