import RelationalAlgebra.Proofs.Relation.Bounds
import RelationalAlgebra.Proofs.Rewrite.Invariants
/-!
# Bounds under rewriting

A plan whose predicates have values is exactly what it is for sure and what it is possibly.  A rewriting
of a plan without differences brings the bounds closer to each other, also where a selection moves to rows
on which its formula has no value.
-/

namespace RelationalAlgebra

open Query (Plan Binary)
open Query.Plan (Renames)
open Predicate (Formula)

/-! ## Bounds of plans -/

namespace Query.Plan

variable {env : Environment} {p : Plan}

/-- The rows of a plan that are there for sure, or possibly. -/
noncomputable def bound (env : Environment) : Plan → Bool → Extent
  | scan name, _ => (scan name).extent env
  | selection clause input, sure => (input.bound env sure).selectBound sure clause.formula
  | projection names input, sure => (input.bound env sure).project {n | n ∈ names}
  | rename map input, sure => (input.bound env sure).rename map.apply
  | binary op left right, sure => Extent.applyBound op (left.bound env) (right.bound env) sure

theorem attributes_bound (p : Plan) (sure : Bool) :
    (p.bound env sure).attributes = {n | n ∈ p.columns env} := by
  induction p with
  | scan name => exact attributes_extent _
  | selection clause input ih => exact ih
  | projection names input ih => exact Set.ext fun n => mem_distinct.symm
  | rename map input ih =>
    ext n
    show n ∈ map.apply '' (input.bound env sure).attributes ↔ n ∈ (input.columns env).map map.apply
    rw [ih, List.mem_map]
    rfl
  | binary op left right ihl ihr =>
    refine Eq.trans ?_ (Extent.attributes_apply op ihl ihr)
    cases op <;> rfl

theorem proper_bound (wellFormed : env.WellFormed) (sure : Bool) (typed : p.Typed env) :
    (p.bound env sure).Proper := by
  induction p with
  | scan name => exact proper_extent wellFormed typed
  | selection clause input ih => exact fun w hw => ih typed w hw.1
  | projection names input ih =>
    rintro w ⟨u, hu, rfl⟩
    refine Assignment.covers_restrict (ih typed.1 u hu) fun n hn => ?_
    rw [attributes_bound]
    exact typed.2.2 n hn
  | rename map input ih => exact fun w hw => hw.1
  | binary op left right ihl ihr =>
    have result : ((left.bound env sure).apply op (right.bound env sure)).Proper := by
      refine Extent.proper_apply (ihl typed.1) (ihr typed.2.1) fun isSet => ?_
      rw [attributes_bound, attributes_bound]
      exact Set.ext ((Relation.fits_setOperator isSet).mp typed.2.2)
    cases op with
    | union | intersection | product | join => exact result
    | difference | division | leftJoin | rightJoin | fullJoin => exact fun w hw => hw.1

/-- Where all predicates have values the bounds are exact. -/
theorem bound_of_defined (wellFormed : env.WellFormed) (typed : p.Typed env)
    (every : p.Every Formula.Defined env) : p.bound env = fun _ => p.extent env := by
  induction p with
  | scan name => rfl
  | selection clause input ih =>
    funext sure
    rw [bound, ih typed every.1]
    refine Extent.ext rfl (Set.ext fun w => and_congr_right fun hw => ?_)
    exact Assignment.holds_iff_of_stable fun w' more => by rw [every.2.stable w hw w' more]
  | projection names input ih =>
    funext sure
    rw [bound, ih typed.1 every]
    rfl
  | rename map input ih =>
    funext sure
    rw [bound, ih typed.1 every]
    rfl
  | binary op left right ihl ihr =>
    funext sure
    rw [bound, ihl typed.1 every.1, ihr typed.2.1 every.2]
    exact Extent.applyBound_const op (proper_extent (p := .binary op left right) wellFormed typed)

end Query.Plan

namespace Rewrite

variable {env : Environment} {fragment : Query.Fragment} {rule : Rule} {p p' : Plan} {sure : Bool}

theorem interprets_bound (wellFormed : env.WellFormed) (sure : Bool) :
    Interprets env fun p => p.bound env sure where
  attributes p := Plan.attributes_bound p sure
  proper typed := Plan.proper_bound wellFormed sure typed
  projection _ _ := rfl
  rename _ _ := rfl
  union _ _ := rfl
  intersection _ _ := rfl
  product _ _ := rfl
  join _ _ := rfl

/-! ## Selections -/

/-- The bound of a plan that is filtered by some formulas, if there are any. -/
theorem Filters.mem_bound_iff {fs : List Formula} (h : Filters fs p p') {w : Assignment} :
    w ∈ (p'.bound env sure).rows ↔
      w ∈ (p.bound env sure).rows ∧ w.Holds sure fun w => ∀ f ∈ fs, f.holds w = true := by
  rcases h with ⟨rfl, rfl⟩ | ⟨clause, rfl, rfl⟩
  · refine (and_iff_left ?_).symm
    exact (Assignment.holds_iff_of_stable fun _ _ => by simp).mpr (by simp)
  · refine and_congr_right fun _ => Assignment.holds_congr fun w => ?_
    rw [Predicate.holds_conjuncts, List.all_eq_true]

theorem Filters.attributes_bound_eq {fs : List Formula} (h : Filters fs p p') :
    (p'.bound env sure).attributes = (p.bound env sure).attributes := by
  rcases h with ⟨-, rfl⟩ | ⟨clause, -, rfl⟩
  · rfl
  · rfl

/-- A selection of a join or product, and what its conjuncts make of it. -/
theorem tightens_distributeConjuncts {clause : Predicate.Clause} {op : Binary} {a b a' b' c : Plan}
    {ls rs bs : List Formula} (isJoin : op = .product ∨ op = .join)
    (all : (ls ++ rs ++ bs).Perm clause.formula.conjuncts)
    (left : ∀ f ∈ ls, ∀ n ∈ f.mentioned, n ∈ a.columns env)
    (right : ∀ f ∈ rs, ∀ n ∈ f.mentioned, n ∈ b.columns env) (ha : Filters ls a a')
    (hb : Filters rs b b') (hc : Filters bs (.binary op a' b') c) :
    ((Plan.selection clause (.binary op a b)).bound env sure).Tightens sure (c.bound env sure) := by
  have joined (x y : Plan) : (Plan.binary op x y).bound env sure =
      (x.bound env sure).join (y.bound env sure) := by
    rcases isJoin with rfl | rfl
    · rfl
    · rfl
  refine ⟨?_, fun w => .of_iff ?_⟩
  · rw [hc.attributes_bound_eq, joined]
    show ((Plan.binary op a b).bound env sure).attributes =
      (a'.bound env sure).attributes ∪ (b'.bound env sure).attributes
    rw [joined, ha.attributes_bound_eq, hb.attributes_bound_eq]
    rfl
  · rw [hc.mem_bound_iff, joined]
    show w ∈ (((Plan.binary op a b).bound env sure).selectBound sure clause.formula).rows ↔
      (w.Covers ((a'.bound env sure).attributes ∪ (b'.bound env sure).attributes) ∧
        w.restrict (a'.bound env sure).attributes ∈ (a'.bound env sure).rows ∧
        w.restrict (b'.bound env sure).attributes ∈ (b'.bound env sure).rows) ∧ _
    rw [joined, ha.attributes_bound_eq, hb.attributes_bound_eq, ha.mem_bound_iff, hb.mem_bound_iff]
    refine Extent.mem_selectBound_join_iff all ?_ ?_
    · rw [Plan.attributes_bound]
      exact left
    · rw [Plan.attributes_bound]
      exact right

/-! ## Rewriting -/

theorem tightens_of_eq {e e' : Extent} (h : e = e') : e.Tightens sure e' := by
  rw [h]
  exact .refl e'

section Tightens

variable {f g : Predicate.Clause} {a b : Plan}

theorem tightens_mergeEqual {m : Predicate.Clause} (same : f.formula = g.formula)
    (kept : m.formula = g.formula) :
    ((Plan.selection f (.selection g a)).bound env sure).Tightens sure
      ((Plan.selection m a).bound env sure) := by
  refine ⟨rfl, fun w => .of_iff ?_⟩
  show (w ∈ _ ∧ (w.Holds sure fun w => g.formula.holds w = true)) ∧
    (w.Holds sure fun w => f.formula.holds w = true) ↔
      w ∈ _ ∧ w.Holds sure fun w => m.formula.holds w = true
  rw [same, kept]
  exact and_iff_left_of_imp And.right

theorem tightens_distributeSelection {op : Binary} (isSet : op.isSetOperator = true)
    (other : op ≠ .difference) :
    ((Plan.selection f (.binary op a b)).bound env sure).Tightens sure
      ((Plan.binary op (.selection f a) (.selection f b)).bound env sure) := by
  cases op with
  | union => exact tightens_of_eq Extent.selectBound_union
  | intersection => exact tightens_of_eq Extent.selectBound_intersection
  | difference => exact absurd rfl other
  | product | division | join | leftJoin | rightJoin | fullJoin => cases isSet

theorem tightens_selectBeforeRenaming {map : Renaming} (renames : Renames map (a.columns env))
    (seen : ∀ n ∈ f.formula.mentioned, hides map n = false)
    (before : g.formula = f.formula.rename map.inverse.apply) :
    ((Plan.selection f (.rename map a)).bound env sure).Tightens sure
      ((Plan.rename map (.selection g a)).bound env sure) := by
  show (((a.bound env sure).rename map.apply).selectBound sure f.formula).Tightens sure
    (((a.bound env sure).selectBound sure g.formula).rename map.apply)
  rw [before]
  refine Extent.tightens_select_rename fun n hn => ?_
  rw [Plan.attributes_bound]
  exact renames.undoes (seen n hn)

theorem tightens_factorRenaming {op : Binary} {map : Renaming} (isSet : op.isSetOperator = true)
    (other : op ≠ .difference) (typed : (Plan.binary op (.rename map a) (.rename map b)).Typed env) :
    ((Plan.binary op (.rename map a) (.rename map b)).bound env sure).Tightens sure
      ((Plan.rename map (.binary op a b)).bound env sure) := by
  obtain ⟨⟨-, renamesA⟩, ⟨-, renamesB⟩, fits⟩ := typed
  have same : (a.bound env sure).attributes = (b.bound env sure).attributes := by
    rw [Plan.attributes_bound, Plan.attributes_bound]
    exact Set.ext (columns_of_renamed renamesA renamesB ((Relation.fits_setOperator isSet).mp fits))
  have factored := @Extent.rename_setOperator _ _ map.apply op isSet same
  cases op with
  | union | intersection => exact tightens_of_eq factored
  | difference => exact absurd rfl other
  | product | division | join | leftJoin | rightJoin | fullJoin => cases isSet

end Tightens

/-- A rewriting of a plan without differences tightens its bounds. -/
theorem tightens_of_rewrites (wellFormed : env.WellFormed)
    (noDifference : ¬fragment.operators .difference) (h : Rewrites env rule p p')
    (within : p.Within fragment) (typed : p.Typed env) (sure : Bool) :
    (p.bound env sure).Tightens sure (p'.bound env sure) := by
  by_cases plain : Plain rule
  · exact tightens_of_eq ((interprets_bound wellFormed sure).eq_of_rewrites plain h typed).symm
  have other {op : Binary} (occurs : fragment.operators op) : op ≠ .difference := by
    rintro rfl
    exact noDifference occurs
  cases h with
  | mergeEqual same kept => exact tightens_mergeEqual same kept
  | mergeSelections conjuncts => exact Extent.tightens_select_select conjuncts
  | distributeSelection isSet => exact tightens_distributeSelection isSet (other within.1)
  | selectBeforeProjection => exact Extent.tightens_select_project _
  | selectBeforeRenaming seen before => exact tightens_selectBeforeRenaming typed.2 seen before
  | sameOperands isSet =>
    rcases isSet with rfl | rfl
    · exact tightens_of_eq Extent.union_self
    · exact tightens_of_eq Extent.intersection_self
  | unionLeft => exact ⟨rfl, fun w => .of_iff (or_iff_right_of_imp And.left)⟩
  | unionRight => exact ⟨rfl, fun w => .of_iff (or_iff_left_of_imp And.left)⟩
  | intersectionLeft => exact ⟨rfl, fun w => .of_iff (and_iff_left_of_imp And.left)⟩
  | intersectionRight => exact ⟨rfl, fun w => .of_iff (and_iff_right_of_imp And.left)⟩
  | combineUnion disjuncts => exact Extent.tightens_select_union_select disjuncts
  | combineIntersection conjuncts => exact Extent.tightens_select_intersection_select conjuncts
  | factorRenaming isSet => exact tightens_factorRenaming isSet (other within.1) typed
  | distributeConjuncts isJoin all left right ha hb hc =>
    exact tightens_distributeConjuncts isJoin all left right ha hb hc
  | distributeFiltered | emptyDifference | differenceLeft | differenceRight | combineDifference =>
    exact absurd within.1 noDifference
  | _ => exact absurd (by decide) plain

/-- A typed plan of the fragment is replaced by one that is both and has tighter bounds. -/
def Narrows (fragment : Query.Fragment) (env : Environment) (p p' : Plan) : Prop :=
  p.Within fragment → p.Typed env → p'.Within fragment ∧ p'.Typed env ∧
    ∀ sure, (p.bound env sure).Tightens sure (p'.bound env sure)

theorem narrows_of_rewrites (wellFormed : env.WellFormed)
    (noDifference : ¬fragment.operators .difference) (h : Rewrites env rule p p') :
    Narrows fragment env p p' := fun within typed =>
  ⟨within_of_rewrites h within, (typed_of_rewrites h typed).1,
    tightens_of_rewrites wellFormed noDifference h within typed⟩

theorem mem_columns_of_tightens (h : (p.bound env sure).Tightens sure (p'.bound env sure))
    (n : String) : n ∈ p'.columns env ↔ n ∈ p.columns env := by
  have attributes := h.attributes
  rw [Plan.attributes_bound, Plan.attributes_bound] at attributes
  exact (Set.ext_iff.mp attributes n).symm

theorem congruence_narrows : Congruence (Narrows fragment env) where
  refl p within typed := ⟨within, typed, fun _ => .refl _⟩
  trans first second within typed := by
    obtain ⟨within', typed', tighter⟩ := first within typed
    obtain ⟨within'', typed'', tighter'⟩ := second within' typed'
    exact ⟨within'', typed'', fun sure => (tighter sure).trans (tighter' sure)⟩
  selection clause related within typed := by
    obtain ⟨within', typed', tighter⟩ := related within typed
    exact ⟨within', typed', fun sure => (tighter sure).select _⟩
  projection names related within typed := by
    obtain ⟨within', typed', tighter⟩ := related within.2 typed.1
    refine ⟨⟨within.1, within'⟩, ⟨typed', typed.2.1, fun n hn => ?_⟩,
      fun sure => (tighter sure).project _⟩
    exact (mem_columns_of_tightens (tighter true) n).mpr (typed.2.2 n hn)
  rename map related within typed := by
    obtain ⟨within', typed', tighter⟩ := related within.2 typed.1
    refine ⟨⟨within.1, within'⟩, ⟨typed', typed.2.congr fun n => ?_⟩,
      fun sure => (tighter sure).rename _⟩
    exact (mem_columns_of_tightens (tighter true) n).symm
  binary op relatedLeft relatedRight within typed := by
    obtain ⟨withinLeft, typedLeft, tighterLeft⟩ := relatedLeft within.2.1 typed.1
    obtain ⟨withinRight, typedRight, tighterRight⟩ := relatedRight within.2.2 typed.2.1
    refine ⟨⟨within.1, withinLeft, withinRight⟩, ⟨typedLeft, typedRight, ?_⟩,
      fun sure => Extent.tightens_applyBound op tighterLeft tighterRight⟩
    exact (Relation.fits_congr (mem_columns_of_tightens (tighterLeft true))
      (mem_columns_of_tightens (tighterRight true))).mpr typed.2.2

/-- Plans that narrow each other and whose predicates all have values have the same extent. -/
theorem extent_of_narrows (wellFormed : env.WellFormed) (narrows : Narrows fragment env p p')
    (within : p.Within fragment) (typed : p.Typed env) (every : p.Every Formula.Defined env)
    (every' : p'.Every Formula.Defined env) : p'.extent env = p.extent env := by
  obtain ⟨-, typed', tighter⟩ := narrows within typed
  rw [Plan.bound_of_defined wellFormed typed every,
    Plan.bound_of_defined wellFormed typed' every'] at tighter
  refine Extent.ext (tighter true).attributes.symm (Set.ext fun w => ?_)
  exact ⟨(tighter false).rows w, (tighter true).rows w⟩

end Rewrite

end RelationalAlgebra
