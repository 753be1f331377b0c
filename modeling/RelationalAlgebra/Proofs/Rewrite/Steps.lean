import RelationalAlgebra.Proofs.Predicate.Clauses
import RelationalAlgebra.Proofs.Query.Typing
import RelationalAlgebra.Proofs.Rewrite.Replacement
/-!
# Rewrite rules on plans

What the rules do to texts of predicates and parameters, they do to formulas, lists of names and
renamings.  `Rewrites` says, rule by rule, which plan takes the place of which: it is to plans what
`Replaces` is to queries.
-/

namespace RelationalAlgebra

open Query (Tree Plan Binary)
open Predicate (Clause Formula Reads)

/-! ## Plans -/

def Query.Plan.renamed (map : Renaming) (p : Plan) : Plan :=
  if map.isEmpty then p else .rename map p

namespace Rewrite

def Filters (fs : List Formula) (p p' : Plan) : Prop :=
  fs = [] ∧ p' = p ∨ ∃ clause : Clause, clause.formula.conjuncts = fs ∧ p' = .selection clause p

/-- A rule puts the second plan in the place of the first. -/
inductive Rewrites (env : Environment) : Rule → Plan → Plan → Prop
  | mergeEqual {p q m : Clause} {a : Plan} (same : p.formula = q.formula)
      (kept : m.formula = q.formula) :
      Rewrites env .mergeSelections (.selection p (.selection q a)) (.selection m a)
  | mergeSelections {p q m : Clause} {a : Plan}
      (conjuncts : m.formula.conjuncts = q.formula.conjuncts ++ p.formula.conjuncts) :
      Rewrites env .mergeSelections (.selection p (.selection q a)) (.selection m a)
  | distributeSelection {p : Clause} {op : Binary} {a b : Plan} (isSet : op.isSetOperator = true) :
      Rewrites env .distributeSelection (.selection p (.binary op a b))
        (.binary op (.selection p a) (.selection p b))
  | distributeFiltered {p q : Clause} {a b : Plan} (same : q.formula = p.formula) :
      Rewrites env .distributeSelection (.selection p (.binary .difference a (.selection q b)))
        (.binary .difference (.selection p a) (.selection q b))
  | mergeProjections {l m : List String} {a : Plan} :
      Rewrites env .mergeProjections (.projection l (.projection m a)) (.projection l a)
  | selectBeforeProjection {p : Clause} {l : List String} {a : Plan} :
      Rewrites env .selectBeforeProjection (.selection p (.projection l a))
        (.projection l (.selection p a))
  | mergeRenamings {outer inner : Renaming} {a : Plan} (validOuter : outer.Valid)
      (validInner : inner.Valid) (kept : mentionsRemoved outer inner = false) :
      Rewrites env .mergeRenamings (.rename outer (.rename inner a)) (a.renamed (compose outer inner))
  | dropIdleRenaming {map : Renaming} {a : Plan} :
      Rewrites env .dropIdleRenaming (.rename map a)
        (a.renamed (map.filter fun old new => old ≠ new))
  | selectBeforeRenaming {p q : Clause} {map : Renaming} {a : Plan}
      (seen : ∀ n ∈ p.formula.mentioned, hides map n = false)
      (before : q.formula = p.formula.rename map.inverse.apply) :
      Rewrites env .selectBeforeRenaming (.selection p (.rename map a)) (.rename map (.selection q a))
  | projectBeforeRenaming {l : List String} {map : Renaming} {a : Plan} (nodup : l.Nodup)
      (seen : ∀ n ∈ l, hides map n = false) :
      Rewrites env .projectBeforeRenaming (.projection l (.rename map a))
        (Plan.renamed (map.filter fun _ new => l.contains new)
          (.projection ((l.map map.inverse.apply).foldl Query.Projection.add []) a))
  | sameOperands {op : Binary} {a : Plan} (h : op = .union ∨ op = .intersection) :
      Rewrites env .dropIdleSetOperator (.binary op a a) a
  | emptyDifference {n : Clause} {a : Plan} (never : n.formula = .literal (.bool false)) :
      Rewrites env .dropIdleSetOperator (.binary .difference a a) (.selection n a)
  | unionLeft {p : Clause} {a : Plan} :
      Rewrites env .dropIdleSetOperator (.binary .union (.selection p a) a) a
  | unionRight {p : Clause} {a : Plan} :
      Rewrites env .dropIdleSetOperator (.binary .union a (.selection p a)) a
  | intersectionLeft {p : Clause} {a : Plan} :
      Rewrites env .dropIdleSetOperator (.binary .intersection (.selection p a) a) (.selection p a)
  | intersectionRight {p : Clause} {a : Plan} :
      Rewrites env .dropIdleSetOperator (.binary .intersection a (.selection p a)) (.selection p a)
  | differenceLeft {p n : Clause} {a : Plan} (never : n.formula = .literal (.bool false)) :
      Rewrites env .dropIdleSetOperator (.binary .difference (.selection p a) a) (.selection n a)
  | differenceRight {p n : Clause} {a : Plan} (negation : n.formula = .not p.formula) :
      Rewrites env .dropIdleSetOperator (.binary .difference a (.selection p a)) (.selection n a)
  | combineUnion {p q m : Clause} {a : Plan}
      (disjuncts : m.formula.disjuncts = p.formula.disjuncts ++ q.formula.disjuncts) :
      Rewrites env .combineSelections (.binary .union (.selection p a) (.selection q a))
        (.selection m a)
  | combineIntersection {p q m : Clause} {a : Plan}
      (conjuncts : m.formula.conjuncts = p.formula.conjuncts ++ q.formula.conjuncts) :
      Rewrites env .combineSelections (.binary .intersection (.selection p a) (.selection q a))
        (.selection m a)
  | combineDifference {p q m : Clause} {a : Plan}
      (conjuncts : m.formula.conjuncts = p.formula.conjuncts ++ [.not q.formula]) :
      Rewrites env .combineSelections (.binary .difference (.selection p a) (.selection q a))
        (.selection m a)
  | factorRenaming {op : Binary} {map : Renaming} {a b : Plan} (isSet : op.isSetOperator = true) :
      Rewrites env .factorRenaming (.binary op (.rename map a) (.rename map b))
        (.rename map (.binary op a b))
  | factorProductLeft {a b c : Plan} :
      Rewrites env .factorProduct (.binary .union (.binary .product a b) (.binary .product a c))
        (.binary .product a (.binary .union b c))
  | factorProductRight {a b c : Plan} :
      Rewrites env .factorProduct (.binary .union (.binary .product b a) (.binary .product c a))
        (.binary .product (.binary .union b c) a)
  | distributeConjuncts {p : Clause} {op : Binary} {a b a' b' c : Plan} {ls rs bs : List Formula}
      (h : op = .product ∨ op = .join) (all : (ls ++ rs ++ bs).Perm p.formula.conjuncts)
      (left : ∀ f ∈ ls, ∀ n ∈ f.mentioned, n ∈ a.columns env)
      (right : ∀ f ∈ rs, ∀ n ∈ f.mentioned, n ∈ b.columns env)
      (ha : Filters ls a a') (hb : Filters rs b b') (hc : Filters bs (.binary op a' b') c) :
      Rewrites env .distributeConjuncts (.selection p (.binary op a b)) c
  | factorProjection {l : List String} {a b : Plan}
      (same : ∀ n, n ∈ a.columns env ↔ n ∈ b.columns env) :
      Rewrites env .factorProjection (.binary .union (.projection l a) (.projection l b))
        (.projection l (.binary .union a b))
  | dropIdleProjection {l : List String} {a : Plan} (ne : l ≠ [])
      (same : ∀ n, n ∈ l ↔ n ∈ a.columns env) :
      Rewrites env .dropIdleProjection (.projection l a) a
  | factorJoinLeft {a b c : Plan} (same : ∀ n, n ∈ b.columns env ↔ n ∈ c.columns env) :
      Rewrites env .factorJoin (.binary .union (.binary .join a b) (.binary .join a c))
        (.binary .join a (.binary .union b c))
  | factorJoinRight {a b c : Plan} (same : ∀ n, n ∈ b.columns env ↔ n ∈ c.columns env) :
      Rewrites env .factorJoin (.binary .union (.binary .join b a) (.binary .join c a))
        (.binary .join (.binary .union b c) a)

/-! ## Clauses and parameters -/

theorem clause?_eq_ok_iff {text : String} {clause : Clause} :
    Relation.clause? text = .ok clause ↔
      Reads text clause.formula ∧ clause.source = Text.trimmed text := by
  rw [Relation.clause?, mapError_eq_ok, Clause.ofText?, map_eq_ok]
  constructor
  · rintro ⟨f, hf, rfl⟩
    exact ⟨hf, rfl⟩
  · rintro ⟨hf, source⟩
    exact ⟨_, hf, by rw [← source]⟩

theorem plan_of_reads {text : String} {f : Formula} (h : Reads text f) {t : Tree} {p : Plan}
    (hp : t.plan = .ok p) :
    ∃ clause, (Tree.selection text t).plan = .ok (.selection clause p) ∧ clause.formula = f := by
  have read : Relation.clause? text = .ok ⟨Text.trimmed text, f⟩ := clause?_eq_ok_iff.mpr ⟨h, rfl⟩
  exact ⟨_, Tree.plan_selection hp read, rfl⟩

theorem plan_renamed {map : Renaming} (valid : map.Valid) {t : Tree} {p : Plan}
    (hp : t.plan = .ok p) : (renamed map t).plan = .ok (p.renamed map) := by
  unfold renamed Plan.renamed
  by_cases empty : map.isEmpty = true
  · rw [if_pos empty, if_pos empty, hp]
  · rw [if_neg empty, if_neg empty]
    have read := Renaming.ofText?_write valid (by simpa using empty)
    exact Tree.plan_rename hp read

theorem valid_filter {map : Renaming} (valid : map.Valid) (keep : String → String → Bool) :
    Renaming.Valid (map.filter keep) := by
  intro old new h
  rw [Name.Map.get?_filter, Option.filter_eq_some_iff] at h
  exact valid old new h.1

theorem valid_compose {outer inner : Renaming} (validOuter : outer.Valid) (validInner : inner.Valid) :
    (compose outer inner).Valid := by
  intro old new h
  rw [compose, Name.Map.get?_filter, Option.filter_eq_some_iff] at h
  rcases List.mem_append.mp (Name.Map.get?_ofList_eq_some h.1) with mem | mem
  · obtain ⟨⟨o, n⟩, he, heq⟩ := List.mem_map.mp mem
    obtain ⟨rfl, rfl⟩ := Prod.mk.inj heq
    obtain ⟨validOld, validNew⟩ := validInner o n (Name.Map.get?_eq_some_iff.mpr he)
    exact ⟨validOld, Plan.isValid_apply validOuter validNew⟩
  · exact validOuter old new (Name.Map.get?_eq_some_iff.mpr (List.mem_filter.mp mem).1)

theorem get?_inverse {map : Renaming} {new old : String} (h : map.inverse.get? new = some old) :
    map.get? old = some new := by
  obtain ⟨⟨o, n⟩, he, heq⟩ := List.mem_map.mp (Name.Map.get?_ofList_eq_some h)
  obtain ⟨rfl, rfl⟩ := Prod.mk.inj heq
  exact Name.Map.get?_eq_some_iff.mpr he

theorem isValid_inverse {map : Renaming} (valid : map.Valid) {n : String}
    (h : Name.isValid n = true) : Name.isValid (map.inverse.apply n) = true := by
  rw [Renaming.apply]
  cases hn : map.inverse.get? n with
  | none => exact h
  | some old => exact (valid old n (get?_inverse hn)).1

end Rewrite

end RelationalAlgebra
