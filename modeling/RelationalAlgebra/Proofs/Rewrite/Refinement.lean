import RelationalAlgebra.Proofs.Rewrite.Guards
import RelationalAlgebra.Proofs.Rewrite.Typing
/-!
# Extents and guards under rewriting

A rewriting of a typed plan keeps its extent, and it keeps a guard that its selections take along.  What
a guard has to be able to take depends on the rules and on the operators that occur: a selection moves
into an intersection or a difference, into a projection, or its conjuncts move into a join.
-/

namespace RelationalAlgebra

open Query (Tree Plan Binary)
open Query.Plan (Renames)
open Predicate (Formula)

/-! ## Fragments of the language -/

namespace Query

/-- A part of the language of queries: selections, and these operators beside them. -/
structure Fragment where
  projections : Prop
  renamings : Prop
  operators : Binary → Prop

def Fragment.all : Fragment := ⟨True, True, fun _ => True⟩

def Tree.Within (fragment : Fragment) : Tree → Prop
  | relation _ => True
  | unary .selection _ operand => operand.Within fragment
  | unary .projection _ operand => fragment.projections ∧ operand.Within fragment
  | unary .rename _ operand => fragment.renamings ∧ operand.Within fragment
  | binary op left right => fragment.operators op ∧ left.Within fragment ∧ right.Within fragment

def Plan.Within (fragment : Fragment) : Plan → Prop
  | scan _ => True
  | selection _ input => input.Within fragment
  | projection _ input => fragment.projections ∧ input.Within fragment
  | rename _ input => fragment.renamings ∧ input.Within fragment
  | binary op left right => fragment.operators op ∧ left.Within fragment ∧ right.Within fragment

theorem Tree.within_all (t : Tree) : t.Within Fragment.all := by
  induction t with
  | relation name => exact trivial
  | unary op text t ih =>
    cases op with
    | selection => exact ih
    | projection => exact ⟨trivial, ih⟩
    | rename => exact ⟨trivial, ih⟩
  | binary op a b iha ihb => exact ⟨trivial, iha, ihb⟩

theorem Plan.within_of_tree {fragment : Fragment} {t : Tree} {p : Plan} (hp : t.plan = .ok p)
    (h : t.Within fragment) : p.Within fragment := by
  induction t generalizing p with
  | relation name =>
    obtain rfl := Tree.plan_relation hp
    exact trivial
  | unary op text t ih =>
    cases op with
    | selection =>
      obtain ⟨input, clause, hinput, -, rfl⟩ := Tree.plan_selection_iff.mp hp
      have inner : input.Within fragment := ih hinput h
      exact inner
    | projection =>
      obtain ⟨input, names, hinput, -, rfl⟩ := Tree.plan_projection_iff.mp hp
      exact ⟨h.1, ih hinput h.2⟩
    | rename =>
      obtain ⟨input, map, hinput, -, rfl⟩ := Tree.plan_rename_iff.mp hp
      exact ⟨h.1, ih hinput h.2⟩
  | binary op a b iha ihb =>
    obtain ⟨left, right, hleft, hright, rfl⟩ := Tree.plan_binary_iff.mp hp
    exact ⟨h.1, iha hleft h.2.1, ihb hright h.2.2⟩

end Query

namespace Rewrite

variable {env : Environment} {fragment : Query.Fragment} {guard : Formula → Extent → Prop}
  {rule : Rule} {p p' : Plan}

theorem within_renamed {map : Renaming} (renamings : fragment.renamings) (h : p.Within fragment) :
    (p.renamed map).Within fragment := by
  unfold Query.Plan.renamed
  split
  · exact h
  · exact ⟨renamings, h⟩

theorem Filters.within_iff {fs : List Formula} (h : Filters fs p p') :
    p'.Within fragment ↔ p.Within fragment := by
  rcases h with ⟨-, rfl⟩ | ⟨clause, -, rfl⟩
  · exact Iff.rfl
  · exact Iff.rfl

theorem within_of_rewrites (h : Rewrites env rule p p') (within : p.Within fragment) :
    p'.Within fragment := by
  cases h with
  | mergeEqual | mergeSelections | distributeSelection | distributeFiltered | selectBeforeProjection
  | selectBeforeRenaming => exact within
  | mergeProjections | dropIdleProjection => exact within.2
  | mergeRenamings => exact within_renamed within.1 within.2.2
  | dropIdleRenaming => exact within_renamed within.1 within.2
  | projectBeforeRenaming nodup seen =>
    obtain ⟨projections, renamings, inner⟩ := within
    exact within_renamed renamings ⟨projections, inner⟩
  | sameOperands | emptyDifference | unionRight | intersectionLeft | differenceRight | combineUnion
  | combineIntersection | combineDifference => exact within.2.1
  | unionLeft | intersectionRight | differenceLeft => exact within.2.2
  | factorRenaming isSet =>
    obtain ⟨operator, ⟨renamings, left⟩, -, right⟩ := within
    exact ⟨renamings, operator, left, right⟩
  | factorProductLeft | factorJoinLeft =>
    obtain ⟨union, ⟨outer, shared, left⟩, -, -, right⟩ := within
    exact ⟨outer, shared, union, left, right⟩
  | factorProductRight | factorJoinRight =>
    obtain ⟨union, ⟨outer, left, shared⟩, -, right, -⟩ := within
    exact ⟨outer, ⟨union, left, right⟩, shared⟩
  | distributeConjuncts isJoin all left right ha hb hc =>
    obtain ⟨operator, left, right⟩ := within
    exact hc.within_iff.mpr ⟨operator, ha.within_iff.mpr left, hb.within_iff.mpr right⟩
  | factorProjection same =>
    obtain ⟨union, ⟨projections, left⟩, -, right⟩ := within
    exact ⟨projections, union, left, right⟩

/-! ## Interpretations -/

/-- A reading of plans as extents that takes projections, renamings and these operators as they are. -/
structure Interprets (env : Environment) (meaning : Plan → Extent) : Prop where
  attributes (p : Plan) : (meaning p).attributes = {n | n ∈ p.columns env}
  proper {p : Plan} : p.Typed env → (meaning p).Proper
  projection (names : List String) (p : Plan) :
    meaning (.projection names p) = (meaning p).project {n | n ∈ names}
  rename (map : Renaming) (p : Plan) : meaning (.rename map p) = (meaning p).rename map.apply
  union (p q : Plan) : meaning (.binary .union p q) = (meaning p).union (meaning q)
  intersection (p q : Plan) :
    meaning (.binary .intersection p q) = (meaning p).intersection (meaning q)
  product (p q : Plan) : meaning (.binary .product p q) = (meaning p).join (meaning q)
  join (p q : Plan) : meaning (.binary .join p q) = (meaning p).join (meaning q)

theorem interprets_extent (wellFormed : env.WellFormed) : Interprets env (Plan.extent env) where
  attributes := Plan.attributes_extent
  proper := Plan.proper_extent wellFormed
  projection _ _ := rfl
  rename _ _ := rfl
  union _ _ := rfl
  intersection _ _ := rfl
  product _ _ := rfl
  join _ _ := rfl

/-- The rules that are not about selections, but for the one that factors renamings. -/
def Plain (rule : Rule) : Prop :=
  rule ∈ [.mergeProjections, .mergeRenamings, .dropIdleRenaming, .projectBeforeRenaming, .factorProduct,
    .factorProjection, .dropIdleProjection, .factorJoin]

instance : Decidable (Plain rule) := inferInstanceAs (Decidable (rule ∈ _))

namespace Interprets

variable {meaning : Plan → Extent} {a b c : Plan}

theorem renamed (i : Interprets env meaning) (typed : p.Typed env) (map : Renaming) :
    meaning (p.renamed map) = (meaning p).rename map.apply := by
  unfold Query.Plan.renamed
  by_cases empty : map.isEmpty = true
  · rw [if_pos empty, Extent.rename_id (i.proper typed)]
    exact fun n _ => Plan.apply_of_isEmpty empty n
  · rw [if_neg empty, i.rename]

theorem projectBeforeRenaming (i : Interprets env meaning) {l : List String} {map : Renaming}
    (nodup : l.Nodup) (seen : ∀ n ∈ l, hides map n = false)
    (typed : (Plan.projection l (.rename map a)).Typed env) :
    meaning (Plan.renamed (map.filter fun _ new => l.contains new)
        (.projection ((l.map map.inverse.apply).foldl Query.Projection.add []) a)) =
      meaning (.projection l (.rename map a)) := by
  obtain ⟨⟨typedA, renames⟩, ne, sub⟩ := typed
  rw [Plan.foldl_add_before renames nodup sub seen,
    i.renamed (typed_before typedA renames ne sub seen), i.projection, i.projection, i.rename]
  have forth (n : String) (hn : n ∈ l) := (renames.undoes (seen n hn)).known (List.mem_map.mp (sub n hn))
  have image : map.apply '' {n | n ∈ l.map map.inverse.apply} = {n | n ∈ l} := by
    ext n
    constructor
    · rintro ⟨m, hm, rfl⟩
      obtain ⟨k, hk, rfl⟩ := List.mem_map.mp hm
      rw [(forth k hk).2]
      exact hk
    · intro hn
      exact ⟨_, List.mem_map_of_mem hn, (forth n hn).2⟩
  rw [← image]
  refine (Extent.project_rename (i.proper typedA) ?_ ?_ ?_).symm
  · rw [i.attributes]
    exact renames.injective
  · intro m hm
    obtain ⟨k, hk, rfl⟩ := List.mem_map.mp hm
    rw [i.attributes]
    exact (forth k hk).1
  · intro m hm
    obtain ⟨k, hk, rfl⟩ := List.mem_map.mp hm
    rw [(forth k hk).2, Plan.apply_kept renames sub seen hk]

/-- A shared left operand can be joined before a union or after it. -/
theorem factorLeft (i : Interprets env meaning) (same : ∀ n, n ∈ b.columns env ↔ n ∈ c.columns env) :
    (meaning a).join ((meaning b).union (meaning c)) =
      ((meaning a).join (meaning b)).union ((meaning a).join (meaning c)) := by
  refine (Extent.join_union ?_).symm
  rw [i.attributes, i.attributes]
  exact Set.ext same

theorem factorRight (i : Interprets env meaning) (same : ∀ n, n ∈ b.columns env ↔ n ∈ c.columns env) :
    ((meaning b).union (meaning c)).join (meaning a) =
      ((meaning b).join (meaning a)).union ((meaning c).join (meaning a)) := by
  refine (Extent.union_join ?_).symm
  rw [i.attributes, i.attributes]
  exact Set.ext same

/-- A rewriting by a rule that is not about selections does not change what a plan means. -/
theorem eq_of_rewrites (i : Interprets env meaning) (plain : Plain rule) (h : Rewrites env rule p p')
    (typed : p.Typed env) : meaning p' = meaning p := by
  cases h with
  | @mergeProjections l m a =>
    rw [i.projection, i.projection, i.projection]
    refine (Extent.project_project fun n hn => ?_).symm
    exact mem_distinct.mp (typed.2.2 n hn)
  | @mergeRenamings outer inner a validOuter validInner kept =>
    obtain ⟨⟨typedA, renames⟩, -⟩ := typed
    rw [i.renamed typedA, i.rename, i.rename, Extent.rename_rename]
    refine Extent.rename_congr fun n hn => ?_
    rw [i.attributes] at hn
    exact renames.apply_compose kept hn
  | @dropIdleRenaming map a =>
    rw [i.renamed typed.1, i.rename]
    exact Extent.rename_congr fun n _ => Plan.apply_filter_ne n
  | projectBeforeRenaming nodup seen => exact i.projectBeforeRenaming nodup seen typed
  | factorProductLeft =>
    rw [i.product, i.union, i.union, i.product, i.product]
    exact i.factorLeft (retypes_factorProductLeft typed).1.2.1.2.2
  | factorProductRight =>
    rw [i.product, i.union, i.union, i.product, i.product]
    exact i.factorRight (retypes_factorProductRight typed).1.1.2.2
  | factorProjection same =>
    rw [i.projection, i.union, i.union, i.projection, i.projection, Extent.project_union]
  | @dropIdleProjection l a ne same =>
    rw [i.projection]
    refine (Extent.project_self (i.proper typed.1) ?_).symm
    rw [i.attributes]
    exact Set.ext same
  | factorJoinLeft same =>
    rw [i.join, i.union, i.union, i.join, i.join]
    exact i.factorLeft same
  | factorJoinRight same =>
    rw [i.join, i.union, i.union, i.join, i.join]
    exact i.factorRight same
  | _ => exact absurd plain (by decide)

end Interprets

/-! ## Extents -/

theorem Filters.extent_eq {fs : List Formula} (h : Filters fs p p') :
    p'.extent env = (p.extent env).selectAll fs := by
  rcases h with ⟨rfl, rfl⟩ | ⟨clause, rfl, rfl⟩
  · rw [Extent.selectAll_nil]
  · exact Extent.select_eq_selectAll _ _

section Extents

variable {a b c : Plan} {f g : Predicate.Clause}

theorem extent_mergeEqual {m : Predicate.Clause} (same : f.formula = g.formula)
    (kept : m.formula = g.formula) : Plan.extent env (.selection m a) =
      Plan.extent env (.selection f (.selection g a)) := by
  change (a.extent env).select m.formula = ((a.extent env).select g.formula).select f.formula
  rw [kept, same, Extent.select_self]

theorem extent_distributeFiltered (same : g.formula = f.formula) :
    Plan.extent env (.binary .difference (.selection f a) (.selection g b)) =
      Plan.extent env (.selection f (.binary .difference a (.selection g b))) := by
  change ((a.extent env).select f.formula).difference ((b.extent env).select g.formula) =
    ((a.extent env).difference ((b.extent env).select g.formula)).select f.formula
  rw [Extent.select_difference, same, Extent.select_self]

theorem extent_selectBeforeProjection {l : List String}
    (stable : f.formula.Stable (Plan.extent env (.projection l a))) :
    Plan.extent env (.projection l (.selection f a)) =
      Plan.extent env (.selection f (.projection l a)) := by
  refine (Extent.select_project fun w hw => ?_).symm
  exact (stable _ ⟨w, hw, rfl⟩ w (Assignment.extends_restrict w _)).symm

theorem extent_selectBeforeRenaming {map : Renaming} (renames : Renames map (a.columns env))
    (seen : ∀ n ∈ f.formula.mentioned, hides map n = false)
    (before : g.formula = f.formula.rename map.inverse.apply) :
    Plan.extent env (.rename map (.selection g a)) =
      Plan.extent env (.selection f (.rename map a)) := by
  change ((a.extent env).select g.formula).rename map.apply = _
  rw [before]
  refine (Extent.select_rename fun n hn => ?_).symm
  rw [Plan.attributes_extent]
  exact renames.undoes (seen n hn)

theorem extent_emptyDifference (never : f.formula = .literal (.bool false)) :
    Plan.extent env (.selection f a) = Plan.extent env (.binary .difference a a) := by
  change (a.extent env).select f.formula = (a.extent env).difference (a.extent env)
  rw [never, Extent.difference_eq_never Set.Subset.rfl rfl]

theorem extent_differenceLeft (never : g.formula = .literal (.bool false)) :
    Plan.extent env (.selection g a) =
      Plan.extent env (.binary .difference (.selection f a) a) := by
  change (a.extent env).select g.formula = ((a.extent env).select f.formula).difference (a.extent env)
  have sub : ((a.extent env).select f.formula).rows ⊆ (a.extent env).rows := fun w hw => hw.1
  rw [never, Extent.difference_eq_never sub rfl]

theorem extent_differenceRight (negation : g.formula = .not f.formula) :
    Plan.extent env (.selection g a) =
      Plan.extent env (.binary .difference a (.selection f a)) := by
  change (a.extent env).select g.formula = (a.extent env).difference ((a.extent env).select f.formula)
  rw [negation, Extent.difference_select]

theorem extent_factorRenaming {op : Binary} {map : Renaming} (isSet : op.isSetOperator = true)
    (typed : (Plan.binary op (.rename map a) (.rename map b)).Typed env) :
    Plan.extent env (.rename map (.binary op a b)) =
      Plan.extent env (.binary op (.rename map a) (.rename map b)) := by
  obtain ⟨⟨-, renamesA⟩, ⟨-, renamesB⟩, fits⟩ := typed
  refine (Extent.rename_setOperator isSet ?_).symm
  rw [Plan.attributes_extent, Plan.attributes_extent]
  exact Set.ext (columns_of_renamed renamesA renamesB ((Relation.fits_setOperator isSet).mp fits))

theorem apply_eq_join {op : Binary} (isJoin : op = .product ∨ op = .join) (x y : Extent) :
    x.apply op y = x.join y := by
  rcases isJoin with rfl | rfl
  · rfl
  · rfl

theorem extent_distributeConjuncts {op : Binary} {a' b' : Plan} {ls rs bs : List Formula}
    (isJoin : op = .product ∨ op = .join) (all : (ls ++ rs ++ bs).Perm f.formula.conjuncts)
    (left : ∀ f ∈ ls, ∀ n ∈ f.mentioned, n ∈ a.columns env)
    (right : ∀ f ∈ rs, ∀ n ∈ f.mentioned, n ∈ b.columns env) (ha : Filters ls a a')
    (hb : Filters rs b b') (hc : Filters bs (.binary op a' b') c) :
    c.extent env = Plan.extent env (.selection f (.binary op a b)) := by
  rw [hc.extent_eq]
  change ((a'.extent env).apply op (b'.extent env)).selectAll bs =
    ((a.extent env).apply op (b.extent env)).select f.formula
  rw [apply_eq_join isJoin, apply_eq_join isJoin, ha.extent_eq, hb.extent_eq]
  refine (Extent.select_join all ?_ ?_).symm
  · rw [Plan.attributes_extent]
    exact left
  · rw [Plan.attributes_extent]
    exact right

end Extents

/-- A rewriting keeps the extent.  A selection that moves into a projection must be stable for that. -/
theorem extent_of_rewrites (wellFormed : env.WellFormed) (h : Rewrites env rule p p')
    (typed : p.Typed env) (every : p.Every guard env)
    (widens : rule = .selectBeforeProjection → p.Within fragment → Widens guard)
    (within : p.Within fragment) : p'.extent env = p.extent env := by
  by_cases plain : Plain rule
  · exact (interprets_extent wellFormed).eq_of_rewrites plain h typed
  cases h with
  | mergeEqual same kept => exact extent_mergeEqual same kept
  | mergeSelections conjuncts => exact (Extent.select_select conjuncts).symm
  | distributeSelection isSet => exact (Extent.select_setOperator isSet).symm
  | distributeFiltered same => exact extent_distributeFiltered same
  | @selectBeforeProjection q l a =>
    have proper : (Plan.extent env (.projection l a)).Proper := Plan.proper_extent wellFormed typed
    exact extent_selectBeforeProjection ((widens rfl within).stable proper every.2)
  | selectBeforeRenaming seen before => exact extent_selectBeforeRenaming typed.2 seen before
  | sameOperands isSet =>
    rcases isSet with rfl | rfl
    · exact Extent.union_self.symm
    · exact Extent.intersection_self.symm
  | emptyDifference never => exact extent_emptyDifference never
  | unionLeft => exact Extent.select_union_self.symm
  | unionRight => exact Extent.union_select.symm
  | intersectionLeft => exact Extent.select_intersection_self.symm
  | intersectionRight => exact Extent.intersection_select.symm
  | differenceLeft never => exact extent_differenceLeft never
  | differenceRight negation => exact extent_differenceRight negation
  | combineUnion disjuncts => exact (Extent.select_union_select disjuncts).symm
  | combineIntersection conjuncts => exact (Extent.select_intersection_select conjuncts).symm
  | combineDifference conjuncts => exact (Extent.select_difference_select conjuncts).symm
  | factorRenaming isSet => exact extent_factorRenaming isSet typed
  | distributeConjuncts isJoin all left right ha hb hc =>
    exact extent_distributeConjuncts isJoin all left right ha hb hc
  | _ => exact absurd (by decide) plain

end Rewrite

end RelationalAlgebra
