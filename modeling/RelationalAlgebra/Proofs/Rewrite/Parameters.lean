import RelationalAlgebra.Proofs.Rewrite.Rewriting
import RelationalAlgebra.Proofs.Rewrite.Steps
/-!
# Parameters under rewriting

The rules make new parameters out of those that they find, in a few ways.  What these ways keep holds for
all parameters of a query after any number of rewritings, if it has held before.
-/

namespace RelationalAlgebra

namespace Rewrite

open Query (Tree Unary Binary)
open Predicate (conjoin negation)

/-- The rules make only parameters that have a property of those that they are made of. -/
structure Closed (parameter : Unary → String → Prop) : Prop where
  trimmed : ∀ {p : String}, parameter .selection p → parameter .selection (Text.trimmed p)
  conjoin : ∀ {parts : List String}, parts ≠ [] → (∀ p ∈ parts, parameter .selection p) →
    parameter .selection (conjoin parts)
  or : ∀ {p q : String}, parameter .selection p → parameter .selection q →
    parameter .selection (Text.trimmed p ++ " or " ++ Text.trimmed q)
  negation : ∀ {p : String}, parameter .selection p → parameter .selection (negation p)
  never : parameter .selection never
  renamed : ∀ {p q : String} {names : Renaming}, parameter .selection p →
    (∀ old new, names.get? old = some new → Name.isValid new = true) →
    Predicate.renameAttributes p names = .ok q → parameter .selection q
  conjuncts : ∀ {p : String} {parts : List String}, parameter .selection p →
    Predicate.conjuncts p = .ok parts → ∀ part ∈ parts, parameter .selection part
  writtenProjection : ∀ {names : List String}, names ≠ [] → (∀ n ∈ names, Name.isValid n = true) →
    parameter .projection (Query.Projection.write names)
  writtenRenaming : ∀ {map : Renaming}, map.Valid → map.isEmpty = false → parameter .rename map.write

variable {env : Environment} {rule : Rule} {rules : List Rule} {name : String → Prop}
  {parameter : Unary → String → Prop} {t t' : Tree}

theorem every_renamedTree (closed : Closed parameter) {map : Renaming} (valid : map.Valid)
    (h : t.Every name parameter) : (renamed map t).Every name parameter := by
  unfold renamed
  split
  · exact h
  · next some => exact ⟨closed.writtenRenaming valid (by simpa using some), h⟩

theorem every_filtered (closed : Closed parameter) {parts : List String}
    (hparts : ∀ p ∈ parts, parameter .selection p) (h : t.Every name parameter) :
    (filtered parts t).Every name parameter := by
  unfold filtered
  split
  · exact h
  · next some => exact ⟨closed.conjoin (by simpa using some) hparts, h⟩

theorem closed_combine? (closed : Closed parameter) {op : Binary} {p q r : String}
    (hp : parameter .selection p) (hq : parameter .selection q) (h : combine? op p q = some r) :
    parameter .selection r := by
  cases op with
  | union =>
    obtain rfl := Option.some.inj h
    exact closed.or hp hq
  | intersection =>
    obtain rfl := Option.some.inj h
    exact closed.conjoin (List.cons_ne_nil p [q]) (by simp [hp, hq])
  | difference =>
    obtain rfl := Option.some.inj h
    exact closed.conjoin (List.cons_ne_nil p [negation q]) (by simp [hp, closed.negation hq])
  | product | division | join | leftJoin | rightJoin | fullJoin => cases h

theorem every_projectedTree (closed : Closed parameter) {l m : String} {names : List String}
    {map : Renaming} (readNames : Query.Projection.ofText? l = .ok names)
    (read : Renaming.ofText? m = .ok map) (h : t.Every name parameter) :
    (renamed (map.filter fun _ new => names.contains new)
      (.projection (Query.Projection.write (names.map map.inverse.apply)) t)).Every name parameter := by
  obtain ⟨ne, -, validNames⟩ := Query.Projection.ofText?_eq_ok readNames
  have valid := Renaming.valid_of_ofText? read
  refine every_renamedTree closed (valid_filter valid _) ⟨?_, h⟩
  refine closed.writtenProjection (by simpa using ne) fun n hn => ?_
  obtain ⟨m, hm, rfl⟩ := List.mem_map.mp hn
  exact isValid_inverse valid (validNames m hm)

theorem every_distributedTree (closed : Closed parameter) {p : String} {op : Binary} {a b : Tree}
    {left right parts : List String} {s : Sorted} (conjuncts : Predicate.conjuncts p = .ok parts)
    (sorted : sortConjuncts left right parts = .ok s)
    (every : (Tree.selection p (.binary op a b)).Every name parameter) :
    (filtered s.both (.binary op (filtered s.left a) (filtered s.right b))).Every name parameter := by
  obtain ⟨hp, ha, hb⟩ := every
  have parts := closed.conjuncts hp conjuncts
  have perm := perm_of_sortConjuncts sorted
  have left : ∀ p ∈ s.left, parameter .selection p := fun p h =>
    parts p (perm.subset (List.mem_append_left _ (List.mem_append_left _ h)))
  have right : ∀ p ∈ s.right, parameter .selection p := fun p h =>
    parts p (perm.subset (List.mem_append_left _ (List.mem_append_right _ h)))
  have both : ∀ p ∈ s.both, parameter .selection p := fun p h =>
    parts p (perm.subset (List.mem_append_right _ h))
  exact every_filtered closed both ⟨every_filtered closed left ha, every_filtered closed right hb⟩

theorem Replaces.every (closed : Closed parameter) (h : Replaces env rule t t')
    (every : t.Every name parameter) : t'.Every name parameter := by
  cases h with
  | mergeEqual same =>
    obtain ⟨hp, hq, ha⟩ := every
    exact ⟨closed.trimmed hp, ha⟩
  | @mergeSelections p q a =>
    obtain ⟨hp, hq, ha⟩ := every
    exact ⟨closed.conjoin (List.cons_ne_nil q [p]) (by simp [hp, hq]), ha⟩
  | distributeSelection isSet =>
    obtain ⟨hp, ha, hb⟩ := every
    exact ⟨⟨hp, ha⟩, hp, hb⟩
  | distributeFiltered same =>
    obtain ⟨hp, ha, hq, hb⟩ := every
    exact ⟨⟨hp, ha⟩, hq, hb⟩
  | mergeProjections => exact ⟨every.1, every.2.2⟩
  | selectBeforeProjection =>
    obtain ⟨hp, hl, ha⟩ := every
    exact ⟨hl, hp, ha⟩
  | mergeRenamings readOuter readInner kept =>
    refine every_renamedTree closed ?_ every.2.2
    exact valid_compose (Renaming.valid_of_ofText? readOuter) (Renaming.valid_of_ofText? readInner)
  | dropIdleRenaming read idle =>
    exact every_renamedTree closed (valid_filter (Renaming.valid_of_ofText? read) _) every.2
  | selectBeforeRenaming read names seen before =>
    obtain ⟨hp, hm, ha⟩ := every
    have valid := Renaming.valid_of_ofText? read
    exact ⟨hm, closed.renamed hp (fun old new h => (valid new old (get?_inverse h)).1) before, ha⟩
  | projectBeforeRenaming readNames read seen =>
    exact every_projectedTree closed readNames read every.2.2
  | sameOperands | unionRight | intersectionLeft => exact every.1
  | unionLeft | intersectionRight | dropIdleProjection => exact every.2
  | emptyDifference => exact ⟨closed.never, every.1⟩
  | differenceLeft => exact ⟨closed.never, every.2⟩
  | differenceRight => exact ⟨closed.negation every.2.1, every.1⟩
  | combineSelections combined =>
    obtain ⟨⟨hp, ha⟩, hq, -⟩ := every
    exact ⟨closed_combine? closed hp hq combined, ha⟩
  | factorRenaming | factorProjection =>
    obtain ⟨⟨hm, ha⟩, -, hb⟩ := every
    exact ⟨hm, ha, hb⟩
  | factorProductLeft | factorJoinLeft =>
    obtain ⟨⟨ha, hb⟩, -, hc⟩ := every
    exact ⟨ha, hb, hc⟩
  | factorProductRight | factorJoinRight =>
    obtain ⟨⟨hb, ha⟩, hc, -⟩ := every
    exact ⟨⟨hb, hc⟩, ha⟩
  | distributeConjuncts isJoin schemaLeft schemaRight conjuncts sorted moves =>
    exact every_distributedTree closed conjuncts sorted every

/-! ## Runs -/

theorem Rewriting.every (closed : Closed parameter) {n : Nat} (h : Rewriting env rules n t t')
    (every : t.Every name parameter) : t'.Every name parameter := by
  induction h with
  | refl => exact every
  | replace mem h => exact h.every closed every
  | unary _ ih => exact ⟨every.1, ih every.2⟩
  | binary _ _ ihl ihr => exact ⟨ihl every.1, ihr every.2⟩
  | trans _ _ ih ih' => exact ih' (ih every)

theorem every_of_optimize (closed : Closed parameter) {settings : Settings} {o : Optimized}
    (h : optimize settings env t = .ok o) (every : t.Every name parameter) :
    o.tree.Every name parameter := by
  obtain ⟨steps, -, -, rewriting⟩ := rewriting_of_optimize h
  exact rewriting.every closed every

end Rewrite

end RelationalAlgebra
