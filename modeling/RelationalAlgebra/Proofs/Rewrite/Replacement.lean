import RelationalAlgebra.Proofs.Outcome
import RelationalAlgebra.Rewrite.Rule
/-!
# Replacements of queries

`Replaces` says, rule by rule, which query takes the place of which, and what a rule has read and checked
before.  A rule rewrites a query in one of these ways and in no other, so that what holds for replacements
holds for the rules, and no proof has to open a rule again.
-/

namespace RelationalAlgebra.Rewrite

open Query (Tree Binary)
open Predicate (conjoin negation)

/-- A rule puts the second query in the place of the first. -/
inductive Replaces (env : Environment) : Rule → Tree → Tree → Prop
  | mergeEqual {p q : String} {a : Tree} (same : Text.trimmed p = Text.trimmed q) :
      Replaces env .mergeSelections (.selection p (.selection q a)) (.selection (Text.trimmed p) a)
  | mergeSelections {p q : String} {a : Tree} :
      Replaces env .mergeSelections (.selection p (.selection q a)) (.selection (conjoin [q, p]) a)
  | distributeSelection {p : String} {op : Binary} {a b : Tree} (isSet : op.isSetOperator = true) :
      Replaces env .distributeSelection (.selection p (.binary op a b))
        (.binary op (.selection p a) (.selection p b))
  | distributeFiltered {p q : String} {a b : Tree} (same : Text.trimmed q = Text.trimmed p) :
      Replaces env .distributeSelection (.selection p (.binary .difference a (.selection q b)))
        (.binary .difference (.selection p a) (.selection q b))
  | mergeProjections {l m : String} {a : Tree} :
      Replaces env .mergeProjections (.projection l (.projection m a)) (.projection l a)
  | selectBeforeProjection {p l : String} {a : Tree} :
      Replaces env .selectBeforeProjection (.selection p (.projection l a))
        (.projection l (.selection p a))
  | mergeRenamings {m n : String} {outer inner : Renaming} {a : Tree}
      (readOuter : Renaming.ofText? m = .ok outer) (readInner : Renaming.ofText? n = .ok inner)
      (kept : mentionsRemoved outer inner = false) :
      Replaces env .mergeRenamings (.rename m (.rename n a)) (renamed (compose outer inner) a)
  | dropIdleRenaming {m : String} {map : Renaming} {a : Tree} (read : Renaming.ofText? m = .ok map)
      (idle : (map.filter fun old new => old ≠ new).size ≠ map.size) :
      Replaces env .dropIdleRenaming (.rename m a) (renamed (map.filter fun old new => old ≠ new) a)
  | selectBeforeRenaming {p q m : String} {map : Renaming} {used : List String} {a : Tree}
      (read : Renaming.ofText? m = .ok map) (names : Predicate.attributeNames p = .ok used)
      (seen : ∀ n ∈ used, hides map n = false)
      (before : Predicate.renameAttributes p map.inverse = .ok q) :
      Replaces env .selectBeforeRenaming (.selection p (.rename m a)) (.rename m (.selection q a))
  | projectBeforeRenaming {l m : String} {names : List String} {map : Renaming} {a : Tree}
      (readNames : Query.Projection.ofText? l = .ok names) (read : Renaming.ofText? m = .ok map)
      (seen : ∀ n ∈ names, hides map n = false) :
      Replaces env .projectBeforeRenaming (.projection l (.rename m a))
        (renamed (map.filter fun _ new => names.contains new)
          (.projection (Query.Projection.write (names.map map.inverse.apply)) a))
  | sameOperands {op : Binary} {a : Tree} (h : op = .union ∨ op = .intersection) :
      Replaces env .dropIdleSetOperator (.binary op a a) a
  | emptyDifference {a : Tree} :
      Replaces env .dropIdleSetOperator (.binary .difference a a) (.selection never a)
  | unionLeft {p : String} {a : Tree} :
      Replaces env .dropIdleSetOperator (.binary .union (.selection p a) a) a
  | unionRight {p : String} {a : Tree} :
      Replaces env .dropIdleSetOperator (.binary .union a (.selection p a)) a
  | intersectionLeft {p : String} {a : Tree} :
      Replaces env .dropIdleSetOperator (.binary .intersection (.selection p a) a) (.selection p a)
  | intersectionRight {p : String} {a : Tree} :
      Replaces env .dropIdleSetOperator (.binary .intersection a (.selection p a)) (.selection p a)
  | differenceLeft {p : String} {a : Tree} :
      Replaces env .dropIdleSetOperator (.binary .difference (.selection p a) a) (.selection never a)
  | differenceRight {p : String} {a : Tree} :
      Replaces env .dropIdleSetOperator (.binary .difference a (.selection p a))
        (.selection (negation p) a)
  | combineSelections {op : Binary} {p q r : String} {a : Tree} (combined : combine? op p q = some r) :
      Replaces env .combineSelections (.binary op (.selection p a) (.selection q a)) (.selection r a)
  | factorRenaming {op : Binary} {m n : String} {a b : Tree} (isSet : op.isSetOperator = true)
      (same : m = n ∨ ∃ map, Renaming.ofText? m = .ok map ∧ Renaming.ofText? n = .ok map) :
      Replaces env .factorRenaming (.binary op (.rename m a) (.rename n b)) (.rename m (.binary op a b))
  | factorProductLeft {a b c : Tree} :
      Replaces env .factorProduct (.binary .union (.binary .product a b) (.binary .product a c))
        (.binary .product a (.binary .union b c))
  | factorProductRight {a b c : Tree} :
      Replaces env .factorProduct (.binary .union (.binary .product b a) (.binary .product c a))
        (.binary .product (.binary .union b c) a)
  | distributeConjuncts {p : String} {op : Binary} {a b : Tree} {left right parts : List String}
      {s : Sorted} (isJoin : op = .product ∨ op = .join) (schemaLeft : a.schema env = .ok left)
      (schemaRight : b.schema env = .ok right) (conjuncts : Predicate.conjuncts p = .ok parts)
      (sorted : sortConjuncts left right parts = .ok s) (moves : s.left ≠ [] ∨ s.right ≠ []) :
      Replaces env .distributeConjuncts (.selection p (.binary op a b))
        (filtered s.both (.binary op (filtered s.left a) (filtered s.right b)))
  | factorProjection {l m : String} {names : List String} {a b : Tree}
      (readLeft : Query.Projection.ofText? l = .ok names) (readRight : Query.Projection.ofText? m = .ok names)
      (same : sameAttributes env a b = .ok true) :
      Replaces env .factorProjection (.binary .union (.projection l a) (.projection m b))
        (.projection l (.binary .union a b))
  | dropIdleProjection {l : String} {names all : List String} {a : Tree}
      (read : Query.Projection.ofText? l = .ok names) (schema : a.schema env = .ok all)
      (same : Name.sameSet names all = true) :
      Replaces env .dropIdleProjection (.projection l a) a
  | factorJoinLeft {a b c : Tree} (same : sameAttributes env b c = .ok true) :
      Replaces env .factorJoin (.binary .union (.binary .join a b) (.binary .join a c))
        (.binary .join a (.binary .union b c))
  | factorJoinRight {a b c : Tree} (same : sameAttributes env b c = .ok true) :
      Replaces env .factorJoin (.binary .union (.binary .join b a) (.binary .join c a))
        (.binary .join (.binary .union b c) a)

variable {env : Environment} {t t' : Tree}

theorem inPredicate_eq_ok {α : Type} {text : String} {result : Except Predicate.Fault α} {a : α} :
    inPredicate text result = .ok a ↔ result = .ok a := mapError_eq_ok

theorem any_hides_eq_false {map : Renaming} {names : List String}
    (h : ¬names.any (hides map) = true) : ∀ n ∈ names, hides map n = false := by
  simpa using h

/-! ## Selections -/

theorem replaces_mergeSelections (h : mergeSelections t = .ok (some t')) :
    Replaces env .mergeSelections t t' := by
  unfold mergeSelections at h
  split at h
  · next p q a =>
    obtain rfl := Option.some.inj (Except.ok.inj h)
    by_cases same : Text.trimmed p = Text.trimmed q
    · rw [if_pos same]
      exact .mergeEqual same
    · rw [if_neg same]
      exact .mergeSelections
  · cases h

theorem isFilteredBy_eq_true {text : String} {t : Tree} (h : isFilteredBy text t = true) :
    ∃ other operand, t = .selection other operand ∧ Text.trimmed other = Text.trimmed text := by
  unfold isFilteredBy at h
  split at h
  · next other operand => exact ⟨other, operand, rfl, by simpa using h⟩
  · cases h

theorem replaces_distributeSelection (h : distributeSelection t = .ok (some t')) :
    Replaces env .distributeSelection t t' := by
  unfold distributeSelection at h
  split at h
  · next p op left right =>
    split at h
    · next isSet =>
      obtain rfl := Option.some.inj (Except.ok.inj h)
      by_cases filtered : (op = .difference && isFilteredBy p right) = true
      · rw [if_pos filtered]
        obtain ⟨isDifference, by_text⟩ := Bool.and_eq_true_iff.mp filtered
        have difference : op = .difference := by simpa using isDifference
        subst difference
        obtain ⟨q, b, rfl, same⟩ := isFilteredBy_eq_true by_text
        exact .distributeFiltered same
      · rw [if_neg filtered]
        exact .distributeSelection isSet
    · cases h
  · cases h

theorem replaces_selectBeforeProjection (h : selectBeforeProjection t = .ok (some t')) :
    Replaces env .selectBeforeProjection t t' := by
  unfold selectBeforeProjection at h
  split at h
  · obtain rfl := Option.some.inj (Except.ok.inj h)
    exact .selectBeforeProjection
  · cases h

theorem replaces_selectBeforeRenaming (h : selectBeforeRenaming t = .ok (some t')) :
    Replaces env .selectBeforeRenaming t t' := by
  unfold selectBeforeRenaming at h
  split at h
  · split at h
    · cases h
    · next map read =>
      split at h
      · cases h
      · next used names =>
        split at h
        · cases h
        · next seen =>
          obtain ⟨q, before, heq⟩ := map_eq_ok.mp h
          obtain rfl := Option.some.inj heq
          exact .selectBeforeRenaming (mapError_eq_ok.mp read) (inPredicate_eq_ok.mp names)
            (any_hides_eq_false seen) (inPredicate_eq_ok.mp before)
  · cases h

/-! ## Projections and renamings -/

theorem replaces_mergeProjections (h : mergeProjections t = .ok (some t')) :
    Replaces env .mergeProjections t t' := by
  unfold mergeProjections at h
  split at h
  · obtain rfl := Option.some.inj (Except.ok.inj h)
    exact .mergeProjections
  · cases h

theorem replaces_mergeRenamings (h : mergeRenamings t = .ok (some t')) :
    Replaces env .mergeRenamings t t' := by
  unfold mergeRenamings at h
  split at h
  · split at h
    · cases h
    · next outer readOuter =>
      split at h
      · cases h
      · next inner readInner =>
        split at h
        · cases h
        · next kept =>
          obtain rfl := Option.some.inj (Except.ok.inj h)
          exact .mergeRenamings (mapError_eq_ok.mp readOuter) (mapError_eq_ok.mp readInner)
            (by simpa using kept)
  · cases h

theorem replaces_dropIdleRenaming (h : dropIdleRenaming t = .ok (some t')) :
    Replaces env .dropIdleRenaming t t' := by
  unfold dropIdleRenaming at h
  split at h
  · split at h
    · cases h
    · next map read =>
      simp only at h
      split at h
      · cases h
      · next idle =>
        obtain rfl := Option.some.inj (Except.ok.inj h)
        exact .dropIdleRenaming (mapError_eq_ok.mp read) idle
  · cases h

theorem replaces_projectBeforeRenaming (h : projectBeforeRenaming t = .ok (some t')) :
    Replaces env .projectBeforeRenaming t t' := by
  unfold projectBeforeRenaming at h
  split at h
  · split at h
    · cases h
    · next names readNames =>
      split at h
      · cases h
      · next map read =>
        split at h
        · cases h
        · next seen =>
          obtain rfl := Option.some.inj (Except.ok.inj h)
          exact .projectBeforeRenaming (mapError_eq_ok.mp readNames) (mapError_eq_ok.mp read)
            (any_hides_eq_false seen)
  · cases h

theorem replaces_factorRenaming (h : factorRenaming t = .ok (some t')) :
    Replaces env .factorRenaming t t' := by
  unfold factorRenaming at h
  split at h
  · next op m a n b =>
    split at h
    · next isSet =>
      split at h
      · next equal =>
        obtain rfl := Option.some.inj (Except.ok.inj h)
        exact .factorRenaming isSet (.inl equal)
      · split at h
        · cases h
        · next map readLeft =>
          obtain ⟨map', readRight, heq⟩ := map_eq_ok.mp h
          split at heq
          · next same =>
            obtain rfl := Option.some.inj heq
            subst same
            have both := And.intro (mapError_eq_ok.mp readLeft) (mapError_eq_ok.mp readRight)
            exact .factorRenaming isSet (.inr ⟨map, both⟩)
          · cases heq
    · cases h
  · cases h

/-! ## Set operators -/

theorem filterOf?_eq_some {other t : Tree} {text : String} (h : filterOf? other t = some text) :
    t = .selection text other := by
  unfold filterOf? at h
  split at h
  · split at h
    · next equal =>
      obtain rfl := Option.some.inj h
      rw [equal]
    · cases h
  · cases h

theorem replaces_dropIdleSetOperator (h : dropIdleSetOperator t = .ok (some t')) :
    Replaces env .dropIdleSetOperator t t' := by
  unfold dropIdleSetOperator at h
  split at h
  · next op left right =>
    split at h
    · next isSet =>
      split at h
      · next same =>
        obtain rfl := Option.some.inj (Except.ok.inj h)
        subst same
        by_cases isDifference : op = .difference
        · rw [if_pos isDifference]
          subst isDifference
          exact .emptyDifference
        · rw [if_neg isDifference]
          refine .sameOperands ?_
          cases op with
          | union => exact .inl rfl
          | intersection => exact .inr rfl
          | difference => exact absurd rfl isDifference
          | product | division | join | leftJoin | rightJoin | fullJoin => cases isSet
      · replace h := Except.ok.inj h
        split at h
        · next filter =>
          obtain rfl := Option.some.inj h
          rw [filterOf?_eq_some filter]
          exact .unionLeft
        · next filter =>
          obtain rfl := Option.some.inj h
          rw [filterOf?_eq_some filter]
          exact .unionRight
        · next filter =>
          obtain rfl := Option.some.inj h
          rw [filterOf?_eq_some filter]
          exact .intersectionLeft
        · next filter =>
          obtain rfl := Option.some.inj h
          rw [filterOf?_eq_some filter]
          exact .intersectionRight
        · next filter =>
          obtain rfl := Option.some.inj h
          rw [filterOf?_eq_some filter]
          exact .differenceRight
        · next filter _ =>
          obtain rfl := Option.some.inj h
          rw [filterOf?_eq_some filter]
          exact .differenceLeft
        · cases h
    · cases h
  · cases h

theorem replaces_combineSelections (h : combineSelections t = .ok (some t')) :
    Replaces env .combineSelections t t' := by
  unfold combineSelections at h
  split at h
  · replace h := Except.ok.inj h
    split at h
    · next same =>
      subst same
      obtain ⟨r, combined, rfl⟩ := Option.map_eq_some_iff.mp h
      exact .combineSelections combined
    · cases h
  · cases h

/-! ## Shared operands -/

/-- A union of two trees of one operator that share an operand. -/
theorem find?_eq_some {inner : Binary} {s : Shared} (h : Shared.find? inner t = some s) :
    (s.onLeft = true ∧ t = .binary .union (.binary inner s.operand s.first)
      (.binary inner s.operand s.second)) ∨
    (s.onLeft = false ∧ t = .binary .union (.binary inner s.first s.operand)
      (.binary inner s.second s.operand)) := by
  unfold Shared.find? at h
  split at h
  · split at h
    · next both =>
      obtain ⟨⟨rfl, rfl⟩, -⟩ : (_ = inner ∧ _ = inner) ∧ _ := by simpa using both
      split at h
      · next equal =>
        obtain rfl := Option.some.inj h
        exact .inl ⟨rfl, by rw [equal]⟩
      · split at h
        · next equal =>
          obtain rfl := Option.some.inj h
          exact .inr ⟨rfl, by rw [equal]⟩
        · cases h
    · cases h
  · cases h

theorem replaces_factorProduct (h : factorProduct t = .ok (some t')) :
    Replaces env .factorProduct t t' := by
  obtain ⟨s, hs, rfl⟩ := Option.map_eq_some_iff.mp (Except.ok.inj h)
  rcases find?_eq_some hs with ⟨onLeft, rfl⟩ | ⟨onRight, rfl⟩
  · rw [Shared.factor, if_pos onLeft]
    exact .factorProductLeft
  · rw [Shared.factor, if_neg (by simp [onRight])]
    exact .factorProductRight

theorem replaces_factorJoin (h : factorJoin env t = .ok (some t')) :
    Replaces env .factorJoin t t' := by
  unfold factorJoin at h
  split at h
  · cases h
  · next s hs =>
    obtain ⟨isSame, same, heq⟩ := map_eq_ok.mp h
    split at heq
    · next yes =>
      obtain rfl := Option.some.inj heq
      rw [yes] at same
      rcases find?_eq_some hs with ⟨onLeft, rfl⟩ | ⟨onRight, rfl⟩
      · rw [Shared.factor, if_pos onLeft]
        exact .factorJoinLeft same
      · rw [Shared.factor, if_neg (by simp [onRight])]
        exact .factorJoinRight same
    · cases heq

/-! ## Rules that look at schemas -/

/-- The conjuncts are sorted, and none is lost. -/
theorem perm_of_sortConjuncts {left right parts : List String} {s : Sorted}
    (h : sortConjuncts left right parts = .ok s) : (s.left ++ s.right ++ s.both).Perm parts := by
  induction parts generalizing s with
  | nil =>
    obtain rfl := Except.ok.inj h
    exact .nil
  | cons part parts ih =>
    rw [sortConjuncts] at h
    split at h
    · cases h
    · obtain ⟨s', sorted, rfl⟩ := map_eq_ok.mp h
      have others := ih sorted
      split
      · exact others.cons part
      · split
        · refine .trans ?_ (others.cons part)
          simp
        · refine .trans ?_ (others.cons part)
          exact List.perm_middle

theorem replaces_distributeConjuncts (h : distributeConjuncts env t = .ok (some t')) :
    Replaces env .distributeConjuncts t t' := by
  unfold distributeConjuncts at h
  split at h
  · split at h
    · next isJoin =>
      split at h
      · cases h
      · next left schemaLeft =>
        split at h
        · cases h
        · next right schemaRight =>
          split at h
          · cases h
          · next parts conjuncts =>
            obtain ⟨s, sorted, heq⟩ := map_eq_ok.mp h
            split at heq
            · cases heq
            · next moves =>
              obtain rfl := Option.some.inj heq
              have moves : s.left ≠ [] ∨ s.right ≠ [] := by
                rw [Bool.and_eq_true, List.isEmpty_iff, List.isEmpty_iff] at moves
                exact Decidable.not_and_iff_or_not.mp moves
              exact .distributeConjuncts (by simpa using isJoin) schemaLeft schemaRight
                (inPredicate_eq_ok.mp conjuncts) sorted moves
    · cases h
  · cases h

theorem replaces_factorProjection (h : factorProjection env t = .ok (some t')) :
    Replaces env .factorProjection t t' := by
  unfold factorProjection at h
  split at h
  · split at h
    · cases h
    · next left readLeft =>
      split at h
      · cases h
      · next right readRight =>
        split at h
        · next equal =>
          subst equal
          obtain ⟨isSame, same, heq⟩ := map_eq_ok.mp h
          split at heq
          · next yes =>
            obtain rfl := Option.some.inj heq
            rw [yes] at same
            exact .factorProjection (mapError_eq_ok.mp readLeft) (mapError_eq_ok.mp readRight) same
          · cases heq
        · cases h
  · cases h

theorem replaces_dropIdleProjection (h : dropIdleProjection env t = .ok (some t')) :
    Replaces env .dropIdleProjection t t' := by
  unfold dropIdleProjection at h
  split at h
  · split at h
    · cases h
    · next names read =>
      obtain ⟨all, schema, heq⟩ := map_eq_ok.mp h
      split at heq
      · next same =>
        obtain rfl := Option.some.inj heq
        exact .dropIdleProjection (mapError_eq_ok.mp read) schema same
      · cases heq
  · cases h

/-! ## All rules -/

theorem replaces_of_rewrite {rule : Rule} (h : rule.rewrite env t = .ok (some t')) :
    Replaces env rule t t' := by
  cases rule with
  | mergeSelections => exact replaces_mergeSelections h
  | distributeSelection => exact replaces_distributeSelection h
  | mergeProjections => exact replaces_mergeProjections h
  | selectBeforeProjection => exact replaces_selectBeforeProjection h
  | mergeRenamings => exact replaces_mergeRenamings h
  | dropIdleRenaming => exact replaces_dropIdleRenaming h
  | selectBeforeRenaming => exact replaces_selectBeforeRenaming h
  | projectBeforeRenaming => exact replaces_projectBeforeRenaming h
  | dropIdleSetOperator => exact replaces_dropIdleSetOperator h
  | combineSelections => exact replaces_combineSelections h
  | factorRenaming => exact replaces_factorRenaming h
  | factorProduct => exact replaces_factorProduct h
  | distributeConjuncts => exact replaces_distributeConjuncts h
  | factorProjection => exact replaces_factorProjection h
  | dropIdleProjection => exact replaces_dropIdleProjection h
  | factorJoin => exact replaces_factorJoin h

end RelationalAlgebra.Rewrite
