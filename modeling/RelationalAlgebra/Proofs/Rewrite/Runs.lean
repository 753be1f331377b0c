import RelationalAlgebra.Proofs.Rewrite.Invariants
import RelationalAlgebra.Proofs.Rewrite.Rewriting
import RelationalAlgebra.Proofs.Rewrite.Rules
/-!
# Runs of the optimizer

A relation between plans that holds for each rewriting, and that is kept in all contexts, holds between the
plan of a query and the plan of what the optimizer makes of it.  Only rules that have changed something
count: those of the trace.
-/

namespace RelationalAlgebra.Rewrite

open Query (Tree Plan Binary)

variable {env : Environment} {rule : Rule} {rules : List Rule} {related : Plan → Plan → Prop}
  {t t' : Tree} {p : Plan}

/-- What holds for every rewriting of a plan by some rules holds for any number of replacements by them. -/
theorem Rewriting.plan (congruence : Congruence related) {n : Nat} (h : Rewriting env rules n t t')
    (rewrites : ∀ rule ∈ rules, ∀ p p', Rewrites env rule p p' → related p p')
    (hp : t.plan = .ok p) : ∃ p', t'.plan = .ok p' ∧ related p p' := by
  induction h generalizing p with
  | refl => exact ⟨p, hp, congruence.refl p⟩
  | replace mem h =>
    obtain ⟨p', hp', rewritten⟩ := rewrites_of_replaces h hp
    exact ⟨p', hp', rewrites _ mem p p' rewritten⟩
  | @unary op text n a b _ ih =>
    cases op with
    | selection =>
      obtain ⟨input, clause, hinput, hclause, rfl⟩ := Tree.plan_selection_iff.mp hp
      obtain ⟨input', hinput', inner⟩ := ih hinput
      exact ⟨_, Tree.plan_selection hinput' hclause, congruence.selection clause inner⟩
    | projection =>
      obtain ⟨input, names, hinput, hnames, rfl⟩ := Tree.plan_projection_iff.mp hp
      obtain ⟨input', hinput', inner⟩ := ih hinput
      exact ⟨_, Tree.plan_projection hinput' hnames, congruence.projection names inner⟩
    | rename =>
      obtain ⟨input, map, hinput, hmap, rfl⟩ := Tree.plan_rename_iff.mp hp
      obtain ⟨input', hinput', inner⟩ := ih hinput
      exact ⟨_, Tree.plan_rename hinput' hmap, congruence.rename map inner⟩
  | @binary op _ _ _ _ _ _ _ _ ihl ihr =>
    obtain ⟨left, right, hleft, hright, rfl⟩ := Tree.plan_binary_iff.mp hp
    obtain ⟨left', hleft', relatedLeft⟩ := ihl hleft
    obtain ⟨right', hright', relatedRight⟩ := ihr hright
    exact ⟨_, Tree.plan_binary op hleft' hright', congruence.binary op relatedLeft relatedRight⟩
  | trans _ _ ih ih' =>
    obtain ⟨q, hq, first⟩ := ih hp
    obtain ⟨p', hp', second⟩ := ih' hq
    exact ⟨p', hp', congruence.trans first second⟩

/-- What holds for every rewriting by a selected rule holds for the optimizer. -/
theorem plan_of_optimize (congruence : Congruence related) {settings : Settings} {o : Optimized}
    (h : optimize settings env t = .ok o) (hp : t.plan = .ok p)
    (rewrites : ∀ rule ∈ settings.rules, ∀ p p', Rewrites env rule p p' → related p p') :
    ∃ p', o.tree.plan = .ok p' ∧ related p p' := by
  obtain ⟨steps, -, rulesOf, rewriting⟩ := rewriting_of_optimize h
  refine rewriting.plan congruence (fun rule mem => ?_) hp
  obtain ⟨step, hstep, rfl⟩ := List.mem_map.mp mem
  exact rewrites step.rule (rulesOf step hstep)

/-- With a trace, what holds for the rewritings by its rules holds for the optimizer. -/
theorem plan_of_trace (congruence : Congruence related) {settings : Settings} {o : Optimized}
    (h : optimize settings env t = .ok o) (hp : t.plan = .ok p) (traced : settings.trace = true)
    (rewrites : ∀ step ∈ o.trace, ∀ p p', Rewrites env step.rule p p' → related p p') :
    ∃ p', o.tree.plan = .ok p' ∧ related p p' := by
  obtain ⟨steps, trace, -, rewriting⟩ := rewriting_of_optimize h
  refine rewriting.plan congruence (fun rule mem => ?_) hp
  obtain ⟨step, hstep, rfl⟩ := List.mem_map.mp mem
  exact rewrites step (trace traced ▸ hstep)

/-! ## Selected rules -/

theorem mem_rules {settings : Settings} (h : rule ∈ settings.rules) :
    settings.schematic = true ∧ rule ∈ Rule.schematic ∨
      settings.structural = true ∧ rule ∈ Rule.structural := by
  rw [Settings.rules, List.mem_append] at h
  rcases h with h | h
  · split at h
    · next on => exact .inl ⟨on, h⟩
    · cases h
  · split at h
    · next on => exact .inr ⟨on, h⟩
    · cases h

theorem schematic_of_mem {settings : Settings} (h : rule ∈ settings.rules)
    (other : rule ∉ Rule.structural) : settings.schematic = true :=
  (mem_rules h).elim And.left fun selected => absurd selected.2 other

theorem structural_of_mem {settings : Settings} (h : rule ∈ settings.rules)
    (other : rule ∉ Rule.schematic) : settings.structural = true :=
  (mem_rules h).elim (fun selected => absurd selected.2 other) And.left

/-- The invariants of the rules are invariants of the optimizer. -/
theorem refines_of_optimize {fragment : Query.Fragment} {guard : Predicate.Formula → Extent → Prop}
    {settings : Settings} {o : Optimized} (wellFormed : env.WellFormed)
    (h : optimize settings env t = .ok o) (hp : t.plan = .ok p)
    (carries : ∀ rule ∈ settings.rules, Carries guard fragment rule) :
    ∃ p', o.tree.plan = .ok p' ∧ Refines guard fragment env (settings.schematic = false) p p' := by
  refine plan_of_optimize congruence_refines h hp fun rule selected p p' rewrites => ?_
  refine refines_of_rewrites wellFormed (carries rule selected) (fun off => ?_) rewrites
  rintro rfl
  have on : settings.schematic = true := schematic_of_mem selected (by decide)
  rw [off] at on
  cases on

/-- A plan that refines one with a result is typed, and it has no other result. -/
theorem results_of_refines {fragment : Query.Fragment} {guard : Predicate.Formula → Extent → Prop}
    {ordered : Prop} {p' : Plan} {r : Relation} (wellFormed : env.WellFormed)
    (separated : Cell.Separated env.cells) (refines : Refines guard fragment env ordered p p')
    (within : p.Within fragment) (every : p.Every guard env) (hr : p.run env = .ok r) :
    p'.Typed env ∧ p'.Every guard env ∧
      ∀ r', p'.run env = .ok r' → r'.equal r = true ∧ (ordered → r'.names = r.names) := by
  obtain ⟨typed, columns⟩ := Plan.typed_of_run hr
  obtain ⟨-, typed', every', extent, ordering⟩ := refines within typed every
  refine ⟨typed', every', fun r' hr' => ?_⟩
  refine ⟨Plan.equal_of_runs wellFormed separated hr hr' extent, fun h => ?_⟩
  rw [← columns, ← ordering h, (Plan.typed_of_run hr').2]

end RelationalAlgebra.Rewrite
