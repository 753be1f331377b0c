import RelationalAlgebra.Proofs.Rewrite.Refinement
/-!
# Invariants of rewriting

What a rewriting keeps, as one relation between plans: the fragment, the type, the guard of the
selections, the extent, and with the rules that look at the tree alone the order of the columns.  The
relation is kept in all contexts.
-/

namespace RelationalAlgebra.Rewrite

open Query (Tree Plan Binary)
open Query.Plan (Renames)
open Predicate (Formula)

variable {env : Environment} {fragment : Query.Fragment} {guard : Formula → Extent → Prop}
  {rule : Rule} {p p' : Plan} {ordered : Prop}

/-! ## Guards under rewriting -/

structure Carries (guard : Formula → Extent → Prop) (fragment : Query.Fragment) (rule : Rule) :
    Prop where
  base : Guard guard
  spreads : rule = .distributeSelection →
    fragment.operators .intersection ∨ fragment.operators .difference → Spreads guard
  widens : rule = .selectBeforeProjection → fragment.projections → Widens guard
  splits : rule = .distributeConjuncts →
    fragment.operators .product ∨ fragment.operators .join → Splits guard

theorem every_renamed (map : Renaming) (h : p.Every guard env) : (p.renamed map).Every guard env := by
  unfold Query.Plan.renamed
  split
  · exact h
  · exact h

theorem Filters.every {fs : List Formula} (h : Filters fs p p') (every : p.Every guard env)
    (guarded : ∀ f : Formula, f.conjuncts = fs → guard f (p.extent env)) : p'.Every guard env := by
  rcases h with ⟨-, rfl⟩ | ⟨clause, conjuncts, rfl⟩
  · exact every
  · exact ⟨every, guarded _ conjuncts⟩

/-- A formula that is guarded on the result of a set operator is guarded on its operands. -/
theorem guard_of_setOperator (base : Guard guard) {op : Binary} (isSet : op.isSetOperator = true)
    (spreads : op = .intersection ∨ op = .difference → Spreads guard) {f : Formula} {a b : Extent}
    (same : a.attributes = b.attributes) (h : guard f (a.apply op b)) : guard f a ∧ guard f b := by
  cases op with
  | union =>
    exact ⟨base.shrink h rfl Set.subset_union_left, base.shrink h same.symm Set.subset_union_right⟩
  | intersection => exact spreads (.inl rfl) (.inl rfl) same h
  | difference => exact spreads (.inr rfl) (.inr rfl) same h
  | product | division | join | leftJoin | rightJoin | fullJoin => cases isSet

section Every

variable {f g : Predicate.Clause} {a b c : Plan}

theorem every_distributeSelection {op : Binary} (base : Guard guard) (isSet : op.isSetOperator = true)
    (spreads : op = .intersection ∨ op = .difference → Spreads guard)
    (typed : (Plan.binary op a b).Typed env)
    (every : (Plan.selection f (.binary op a b)).Every guard env) :
    (Plan.binary op (.selection f a) (.selection f b)).Every guard env := by
  obtain ⟨⟨everyA, everyB⟩, guarded⟩ := every
  have same : (a.extent env).attributes = (b.extent env).attributes := by
    rw [Plan.attributes_extent, Plan.attributes_extent]
    exact Set.ext ((Relation.fits_setOperator isSet).mp typed.2.2)
  have operands := guard_of_setOperator base isSet spreads same guarded
  exact ⟨⟨everyA, operands.1⟩, everyB, operands.2⟩

theorem every_distributeFiltered (spreads : Spreads guard)
    (typed : (Plan.binary .difference a (.selection g b)).Typed env)
    (every : (Plan.selection f (.binary .difference a (.selection g b))).Every guard env) :
    (Plan.binary .difference (.selection f a) (.selection g b)).Every guard env := by
  obtain ⟨⟨everyA, everyB⟩, guarded⟩ := every
  have fits : (a.extent env).attributes = (b.extent env).attributes := by
    rw [Plan.attributes_extent, Plan.attributes_extent]
    exact Set.ext typed.2.2
  have same : (a.extent env).attributes = ((b.extent env).select g.formula).attributes := fits
  have operands := spreads (.inr rfl) same guarded
  exact ⟨⟨everyA, operands.1⟩, everyB⟩

theorem every_selectBeforeProjection {l : List String} (wellFormed : env.WellFormed)
    (widens : Widens guard) (typed : (Plan.projection l a).Typed env)
    (every : (Plan.selection f (.projection l a)).Every guard env) :
    (Plan.projection l (.selection f a)).Every guard env := by
  have proper := Plan.proper_extent wellFormed typed.1
  have sub : {n | n ∈ l} ⊆ (a.extent env).attributes := by
    rw [Plan.attributes_extent]
    exact typed.2.2
  exact ⟨every.1, widens.widen proper sub every.2⟩

theorem every_selectBeforeRenaming {map : Renaming} (wellFormed : env.WellFormed) (base : Guard guard)
    (seen : ∀ n ∈ f.formula.mentioned, hides map n = false)
    (before : g.formula = f.formula.rename map.inverse.apply)
    (typed : (Plan.rename map a).Typed env)
    (every : (Plan.selection f (.rename map a)).Every guard env) :
    (Plan.rename map (.selection g a)).Every guard env := by
  obtain ⟨typedA, renames⟩ := typed
  refine ⟨every.1, ?_⟩
  rw [before]
  refine base.rename (Plan.proper_extent wellFormed typedA) ?_ (fun n hn => ?_) every.2
  · rw [Plan.attributes_extent]
    exact renames.injective
  · rw [Plan.attributes_extent]
    exact renames.undoes (seen n hn)

theorem every_distributeConjuncts {op : Binary} {a' b' : Plan} {ls rs bs : List Formula}
    (wellFormed : env.WellFormed) (splits : Splits guard) (isJoin : op = .product ∨ op = .join)
    (all : (ls ++ rs ++ bs).Perm f.formula.conjuncts)
    (left : ∀ f ∈ ls, ∀ n ∈ f.mentioned, n ∈ a.columns env)
    (right : ∀ f ∈ rs, ∀ n ∈ f.mentioned, n ∈ b.columns env) (ha : Filters ls a a')
    (hb : Filters rs b b') (hc : Filters bs (.binary op a' b') c)
    (typed : (Plan.binary op a b).Typed env)
    (every : (Plan.selection f (.binary op a b)).Every guard env) : c.Every guard env := by
  obtain ⟨⟨everyA, everyB⟩, guarded⟩ := every
  obtain ⟨typedA, typedB, -⟩ := typed
  have guarded : guard f.formula ((a.extent env).join (b.extent env)) := by
    rw [← apply_eq_join isJoin]
    exact guarded
  obtain ⟨guardLeft, guardRight, guardBoth⟩ := splits (Plan.proper_extent wellFormed typedA)
    (Plan.proper_extent wellFormed typedB) all (by rw [Plan.attributes_extent]; exact left)
    (by rw [Plan.attributes_extent]; exact right) guarded
  refine hc.every ⟨ha.every everyA guardLeft, hb.every everyB guardRight⟩ fun h hh => ?_
  change guard h ((a'.extent env).apply op (b'.extent env))
  rw [apply_eq_join isJoin, ha.extent_eq, hb.extent_eq]
  exact guardBoth h hh

theorem every_never (base : Guard guard) (never : f.formula = .literal (.bool false))
    (every : a.Every guard env) : (Plan.selection f a).Every guard env := by
  refine ⟨every, ?_⟩
  rw [never]
  exact base.never

/-- A selection by the conjunction of two formulas, of which the second is guarded before the first. -/
theorem every_merged {m : Predicate.Clause} {h : Formula} (base : Guard guard)
    (conjuncts : m.formula.conjuncts = f.formula.conjuncts ++ h.conjuncts)
    (first : (Plan.selection f a).Every guard env) (second : guard h (a.extent env)) :
    (Plan.selection m a).Every guard env := by
  have within : guard h ((a.extent env).select f.formula) := base.shrink second rfl fun w hw => hw.1
  exact ⟨first.1, base.conjunction conjuncts first.2 within⟩

end Every

theorem every_of_rewrites (wellFormed : env.WellFormed) (carries : Carries guard fragment rule)
    (h : Rewrites env rule p p') (within : p.Within fragment) (typed : p.Typed env)
    (every : p.Every guard env) : p'.Every guard env := by
  have base := carries.base
  cases h with
  | mergeEqual same kept => exact ⟨every.1.1, kept ▸ every.1.2⟩
  | mergeSelections conjuncts => exact ⟨every.1.1, base.conjunction conjuncts every.1.2 every.2⟩
  | distributeSelection isSet =>
    refine every_distributeSelection base isSet (fun occurs => carries.spreads rfl ?_) typed every
    rcases occurs with rfl | rfl
    · exact .inl within.1
    · exact .inr within.1
  | distributeFiltered => exact every_distributeFiltered (carries.spreads rfl (.inr within.1)) typed every
  | selectBeforeProjection =>
    exact every_selectBeforeProjection wellFormed (carries.widens rfl within.1) typed every
  | mergeRenamings | dropIdleRenaming | projectBeforeRenaming => exact every_renamed _ every
  | selectBeforeRenaming seen before =>
    exact every_selectBeforeRenaming wellFormed base seen before typed every
  | sameOperands | unionRight | intersectionLeft => exact every.1
  | unionLeft | intersectionRight => exact every.2
  | emptyDifference never => exact every_never base never every.1
  | differenceLeft never => exact every_never base never every.2
  | differenceRight negation => exact ⟨every.1, negation ▸ base.negation every.2.2⟩
  | combineUnion disjuncts => exact ⟨every.1.1, base.disjunction disjuncts every.1.2 every.2.2⟩
  | combineIntersection conjuncts => exact every_merged base conjuncts every.1 every.2.2
  | combineDifference conjuncts => exact every_merged base conjuncts every.1 (base.negation every.2.2)
  | mergeProjections | factorRenaming | factorProjection | dropIdleProjection => exact every
  | factorProductLeft | factorJoinLeft => exact ⟨every.1.1, every.1.2, every.2.2⟩
  | factorProductRight | factorJoinRight => exact ⟨⟨every.1.1, every.2.1⟩, every.1.2⟩
  | distributeConjuncts isJoin all left right ha hb hc =>
    refine every_distributeConjuncts wellFormed (carries.splits rfl ?_) isJoin all left right ha hb hc
      typed every
    rcases isJoin with rfl | rfl
    · exact .inl within.1
    · exact .inr within.1

/-! ## Refinement -/

/-- The second plan is as good as the first: a plan of the fragment that is typed and guarded is replaced
by one with the same extent that is all this too. -/
def Refines (guard : Formula → Extent → Prop) (fragment : Query.Fragment) (env : Environment)
    (ordered : Prop) (p p' : Plan) : Prop :=
  p.Within fragment → p.Typed env → p.Every guard env →
    p'.Within fragment ∧ p'.Typed env ∧ p'.Every guard env ∧ p'.extent env = p.extent env ∧
      (ordered → p'.columns env = p.columns env)

theorem refines_of_rewrites (wellFormed : env.WellFormed) (carries : Carries guard fragment rule)
    (keeps : ordered → rule ≠ .dropIdleProjection) (h : Rewrites env rule p p') :
    Refines guard fragment env ordered p p' := by
  intro within typed every
  obtain ⟨typed', -, columns⟩ := typed_of_rewrites h typed
  refine ⟨within_of_rewrites h within, typed',
    every_of_rewrites wellFormed carries h within typed every, ?_, fun h => columns (keeps h)⟩
  refine extent_of_rewrites wellFormed h typed every (fun isRule within => ?_) within
  subst isRule
  refine carries.widens rfl ?_
  cases h with
  | selectBeforeProjection => exact within.1

/-- A relation between plans that is kept in all contexts. -/
structure Congruence (related : Plan → Plan → Prop) : Prop where
  refl (p : Plan) : related p p
  trans {p q r : Plan} : related p q → related q r → related p r
  selection {p p' : Plan} (clause : Predicate.Clause) :
    related p p' → related (.selection clause p) (.selection clause p')
  projection {p p' : Plan} (names : List String) :
    related p p' → related (.projection names p) (.projection names p')
  rename {p p' : Plan} (map : Renaming) : related p p' → related (.rename map p) (.rename map p')
  binary {p p' q q' : Plan} (op : Binary) :
    related p p' → related q q' → related (.binary op p q) (.binary op p' q')

/-- Plans with the same extent have the same columns, in some order. -/
theorem mem_columns_of_extent_eq (h : p'.extent env = p.extent env) (n : String) :
    n ∈ p'.columns env ↔ n ∈ p.columns env := by
  have attributes : {n | n ∈ p'.columns env} = {n | n ∈ p.columns env} := by
    rw [← Plan.attributes_extent, ← Plan.attributes_extent, h]
  exact Set.ext_iff.mp attributes n

theorem congruence_refines : Congruence (Refines guard fragment env ordered) where
  refl p within typed every := ⟨within, typed, every, rfl, fun _ => rfl⟩
  trans first second within typed every := by
    obtain ⟨within', typed', every', extent, columns⟩ := first within typed every
    obtain ⟨within'', typed'', every'', extent', columns'⟩ := second within' typed' every'
    exact ⟨within'', typed'', every'', extent'.trans extent,
      fun h => (columns' h).trans (columns h)⟩
  selection clause related within typed every := by
    obtain ⟨within', typed', every', extent, columns⟩ := related within typed every.1
    refine ⟨within', typed', ⟨every', ?_⟩, congrArg (Extent.select _) extent, columns⟩
    rw [extent]
    exact every.2
  projection names related within typed every := by
    obtain ⟨within', typed', every', extent, -⟩ := related within.2 typed.1 every
    refine ⟨⟨within.1, within'⟩, ⟨typed', typed.2.1, fun n hn => ?_⟩, every',
      congrArg (Extent.project _) extent, fun _ => rfl⟩
    exact (mem_columns_of_extent_eq extent n).mpr (typed.2.2 n hn)
  rename map related within typed every := by
    obtain ⟨within', typed', every', extent, columns⟩ := related within.2 typed.1 every
    refine ⟨⟨within.1, within'⟩, ⟨typed', typed.2.congr fun n => ?_⟩, every',
      congrArg (Extent.rename _) extent, fun h => congrArg (List.map _) (columns h)⟩
    exact (mem_columns_of_extent_eq extent n).symm
  binary op relatedLeft relatedRight within typed every := by
    obtain ⟨withinLeft, typedLeft, everyLeft, extentLeft, columnsLeft⟩ :=
      relatedLeft within.2.1 typed.1 every.1
    obtain ⟨withinRight, typedRight, everyRight, extentRight, columnsRight⟩ :=
      relatedRight within.2.2 typed.2.1 every.2
    refine ⟨⟨within.1, withinLeft, withinRight⟩, ⟨typedLeft, typedRight, ?_⟩,
      ⟨everyLeft, everyRight⟩, congrArg₂ (Extent.apply op) extentLeft extentRight,
      fun h => congrArg₂ (Query.Tree.joinNames op) (columnsLeft h) (columnsRight h)⟩
    exact (Relation.fits_congr (mem_columns_of_extent_eq extentLeft)
      (mem_columns_of_extent_eq extentRight)).mpr typed.2.2

/-! ## Plans that stay untyped -/

def Unhides (fragment : Query.Fragment) (env : Environment) (p p' : Plan) : Prop :=
  p.Within fragment → p'.Within fragment ∧
    (p'.Typed env → p.Typed env ∧ ∀ n, n ∈ p'.columns env ↔ n ∈ p.columns env)

theorem unhides_of_rewrites (innocent : p.Within fragment → ¬Hides rule)
    (h : Rewrites env rule p p') : Unhides fragment env p p' := by
  intro within
  refine ⟨within_of_rewrites h within, fun typed' => ?_⟩
  have typed := typed_of_rewritten h (innocent within) typed'
  exact ⟨typed, fun n => (typed_of_rewrites h typed).2.1.mem_iff⟩

theorem congruence_unhides : Congruence (Unhides fragment env) where
  refl p within := ⟨within, fun typed => ⟨typed, fun _ => Iff.rfl⟩⟩
  trans first second within := by
    obtain ⟨within', typed⟩ := first within
    obtain ⟨within'', typed'⟩ := second within'
    refine ⟨within'', fun h => ?_⟩
    obtain ⟨h', columns'⟩ := typed' h
    obtain ⟨h, columns⟩ := typed h'
    exact ⟨h, fun n => (columns' n).trans (columns n)⟩
  selection clause related within := related within
  projection names related within := by
    obtain ⟨within', typed⟩ := related within.2
    refine ⟨⟨within.1, within'⟩, fun h => ?_⟩
    obtain ⟨typed, columns⟩ := typed h.1
    exact ⟨⟨typed, h.2.1, fun n hn => (columns n).mp (h.2.2 n hn)⟩, fun _ => Iff.rfl⟩
  rename map related within := by
    obtain ⟨within', typed⟩ := related within.2
    refine ⟨⟨within.1, within'⟩, fun h => ?_⟩
    obtain ⟨typed, columns⟩ := typed h.1
    refine ⟨⟨typed, h.2.congr columns⟩, fun n => ?_⟩
    simp only [Plan.columns, List.mem_map, columns]
  binary op relatedLeft relatedRight within := by
    obtain ⟨withinLeft, typedLeft⟩ := relatedLeft within.2.1
    obtain ⟨withinRight, typedRight⟩ := relatedRight within.2.2
    refine ⟨⟨within.1, withinLeft, withinRight⟩, fun h => ?_⟩
    obtain ⟨left, columnsLeft⟩ := typedLeft h.1
    obtain ⟨right, columnsRight⟩ := typedRight h.2.1
    refine ⟨⟨left, right, (Relation.fits_congr columnsLeft columnsRight).mp h.2.2⟩, fun n => ?_⟩
    exact mem_joinNames_congr op columnsLeft columnsRight n

end RelationalAlgebra.Rewrite
