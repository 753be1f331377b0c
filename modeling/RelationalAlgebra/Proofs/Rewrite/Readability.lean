import RelationalAlgebra.Proofs.Environment
import RelationalAlgebra.Proofs.Rewrite.Parameters
import RelationalAlgebra.Proofs.Rewrite.Rules
/-!
# The optimizer on readable queries

Where all parameters of a query can be read and all of its relations are there, the optimizer succeeds, and
all parameters of its result can be read.  Nothing is asked of the schemas: the rules read parameters and
look for attributes, and neither fails, whether the query can be evaluated or not.
-/

namespace RelationalAlgebra.Rewrite

open Query (Tree Unary Binary Plan)
open Predicate (Formula Reads conjoin negation)

variable {env : Environment} {rule : Rule} {rules : List Rule} {name : String → Prop} {t : Tree}

/-! ## Readable parameters -/

def Readable (op : Unary) (text : String) : Prop :=
  match op with
  | .selection => ∃ f, Reads text f
  | .projection => ∃ names, Query.Projection.ofText? text = .ok names
  | .rename => ∃ map, Renaming.ofText? text = .ok map

theorem exists_reads {parts : List String} (h : ∀ p ∈ parts, Readable .selection p) :
    ∃ fs, List.Forall₂ Reads parts fs := by
  induction parts with
  | nil => exact ⟨[], .nil⟩
  | cons p ps ih =>
    obtain ⟨⟨f, hf⟩, later⟩ := List.forall_mem_cons.mp h
    obtain ⟨fs, hfs⟩ := ih later
    exact ⟨f :: fs, .cons hf hfs⟩

theorem closed_readable : Closed Readable where
  trimmed := fun ⟨f, hf⟩ => ⟨f, hf.trimmed⟩
  conjoin := fun ne h => by
    obtain ⟨fs, hfs⟩ := exists_reads h
    obtain ⟨g, reads, -⟩ := Predicate.reads_conjoin hfs ne
    exact ⟨g, reads⟩
  or := fun ⟨f, hf⟩ ⟨g, hg⟩ => by
    obtain ⟨h, reads, -⟩ := Predicate.reads_or hf hg
    exact ⟨h, reads⟩
  negation := fun ⟨f, hf⟩ => ⟨.not f, Predicate.reads_negation hf⟩
  never := ⟨_, Predicate.reads_false⟩
  renamed := fun ⟨f, hf⟩ valid h => ⟨_, Predicate.reads_renameAttributes hf valid h⟩
  conjuncts := fun _ h => Predicate.reads_of_mem_conjuncts h
  writtenProjection := fun ne valid => ⟨_, Query.Projection.ofText?_write ne valid⟩
  writtenRenaming := fun valid some => ⟨_, Renaming.ofText?_write valid some⟩

theorem exists_plan_iff : (∃ p, t.plan = .ok p) ↔ t.Every (fun _ => True) Readable := by
  induction t with
  | relation n => exact ⟨fun _ => trivial, fun _ => ⟨_, rfl⟩⟩
  | unary op text operand ih =>
    cases op with
    | selection =>
      constructor
      · rintro ⟨p, hp⟩
        obtain ⟨input, clause, hinput, hclause, -⟩ := Tree.plan_selection_iff.mp hp
        exact ⟨⟨_, (clause?_eq_ok_iff.mp hclause).1⟩, ih.mp ⟨input, hinput⟩⟩
      · rintro ⟨⟨f, reads⟩, below⟩
        obtain ⟨input, hinput⟩ := ih.mpr below
        obtain ⟨clause, hp, -⟩ := plan_of_reads reads hinput
        exact ⟨_, hp⟩
    | projection =>
      constructor
      · rintro ⟨p, hp⟩
        obtain ⟨input, names, hinput, hnames, -⟩ := Tree.plan_projection_iff.mp hp
        exact ⟨⟨names, hnames⟩, ih.mp ⟨input, hinput⟩⟩
      · rintro ⟨⟨names, hnames⟩, below⟩
        obtain ⟨input, hinput⟩ := ih.mpr below
        exact ⟨_, Tree.plan_projection hinput hnames⟩
    | rename =>
      constructor
      · rintro ⟨p, hp⟩
        obtain ⟨input, map, hinput, hmap, -⟩ := Tree.plan_rename_iff.mp hp
        exact ⟨⟨map, hmap⟩, ih.mp ⟨input, hinput⟩⟩
      · rintro ⟨⟨map, hmap⟩, below⟩
        obtain ⟨input, hinput⟩ := ih.mpr below
        exact ⟨_, Tree.plan_rename hinput hmap⟩
  | binary op a b iha ihb =>
    constructor
    · rintro ⟨p, hp⟩
      obtain ⟨left, right, hleft, hright, -⟩ := Tree.plan_binary_iff.mp hp
      exact ⟨iha.mp ⟨left, hleft⟩, ihb.mp ⟨right, hright⟩⟩
    · rintro ⟨left, right⟩
      obtain ⟨p, hp⟩ := iha.mpr left
      obtain ⟨q, hq⟩ := ihb.mpr right
      exact ⟨_, Tree.plan_binary op hp hq⟩

/-! ## Rules on readable queries -/

/-- Whether all parameters of a query are readable and all of its relations are in an environment. -/
def Sound (env : Environment) (t : Tree) : Prop :=
  t.Every (fun n => ∃ r, env.get? n = some r) Readable

theorem sound_of_plan {p : Plan} (hp : t.plan = .ok p)
    (bound : ∀ n ∈ t.relations, env.contains n = true) : Sound env t := by
  refine Tree.every_iff.mpr ⟨exists_plan_iff.mp ⟨p, hp⟩, fun n hn => ?_⟩
  exact Option.isSome_iff_exists.mp (bound n (Name.mem_sorted.mpr hn))

theorem exists_schema (h : Sound env t) : ∃ names, t.schema env = .ok names := by
  induction t with
  | relation n =>
    obtain ⟨r, hr⟩ := h
    exact ⟨_, by rw [Tree.schema, Query.Plan.find_eq_ok_iff.mpr hr]; rfl⟩
  | unary op text operand ih =>
    obtain ⟨readable, below⟩ := h
    obtain ⟨names, hnames⟩ := ih below
    rw [Tree.schema, hnames]
    cases op with
    | selection => exact ⟨names, rfl⟩
    | projection =>
      obtain ⟨list, read⟩ := readable
      exact ⟨list, mapError_eq_ok.mpr read⟩
    | rename =>
      obtain ⟨map, read⟩ := readable
      exact ⟨_, mapError_eq_ok.mpr (map_eq_ok.mpr ⟨map, read, rfl⟩)⟩
  | binary op a b iha ihb =>
    obtain ⟨left, hleft⟩ := iha h.1
    obtain ⟨right, hright⟩ := ihb h.2
    rw [Tree.schema, hleft, hright]
    exact ⟨_, rfl⟩

theorem exists_sameAttributes {a b : Tree} (ha : Sound env a) (hb : Sound env b) :
    ∃ same, sameAttributes env a b = .ok same := by
  obtain ⟨left, hleft⟩ := exists_schema ha
  obtain ⟨right, hright⟩ := exists_schema hb
  rw [sameAttributes, hleft, hright]
  exact ⟨_, rfl⟩

theorem exists_readProjection {text : String} (h : Readable .projection text) :
    ∃ names, readProjection text = .ok names := h.imp fun _ => mapError_eq_ok.mpr

theorem exists_readRenaming {text : String} (h : Readable .rename text) :
    ∃ map, readRenaming text = .ok map := h.imp fun _ => mapError_eq_ok.mpr

theorem exists_names {text : String} (h : Readable .selection text) :
    (∃ used, inPredicate text (Predicate.attributeNames text) = .ok used) ∧
      ∀ names, ∃ q, inPredicate text (Predicate.renameAttributes text names) = .ok q := by
  obtain ⟨f, reads⟩ := h
  obtain ⟨ts, scanned, -⟩ := Predicate.reads_iff_scan.mp reads
  rw [Predicate.attributeNames, scanned]
  refine ⟨⟨_, rfl⟩, fun names => ?_⟩
  rw [Predicate.renameAttributes, scanned]
  exact ⟨_, rfl⟩

theorem exists_conjuncts {text : String} (h : Readable .selection text) :
    ∃ parts, inPredicate text (Predicate.conjuncts text) = .ok parts := by
  obtain ⟨f, reads⟩ := h
  obtain ⟨ts, scanned, -⟩ := Predicate.reads_iff_scan.mp reads
  have conjuncts := Predicate.conjuncts_eq_ok_iff.mpr ⟨f, ts, reads, scanned, rfl⟩
  exact ⟨_, inPredicate_eq_ok.mpr conjuncts⟩

theorem exists_sortConjuncts (left right : List String) {parts : List String}
    (h : ∀ p ∈ parts, Readable .selection p) : ∃ s, sortConjuncts left right parts = .ok s := by
  induction parts with
  | nil => exact ⟨_, rfl⟩
  | cons p ps ih =>
    obtain ⟨first, later⟩ := List.forall_mem_cons.mp h
    obtain ⟨used, names⟩ := (exists_names first).1
    obtain ⟨s, hs⟩ := ih later
    rw [sortConjuncts, names, hs]
    exact ⟨_, rfl⟩

theorem exists_rewrite_of_plain (h : rule ∈ [Rule.mergeSelections, .distributeSelection,
    .mergeProjections, .selectBeforeProjection, .dropIdleSetOperator, .combineSelections,
    .factorProduct]) : ∃ outcome, rule.rewrite env t = .ok outcome := by
  simp only [List.mem_cons, List.not_mem_nil, or_false] at h
  rcases h with rfl | rfl | rfl | rfl | rfl | rfl | rfl
  · simp only [Rule.rewrite, mergeSelections]
    split <;> exact ⟨_, rfl⟩
  · simp only [Rule.rewrite, distributeSelection]
    repeat' split
    all_goals exact ⟨_, rfl⟩
  · simp only [Rule.rewrite, mergeProjections]
    split <;> exact ⟨_, rfl⟩
  · simp only [Rule.rewrite, selectBeforeProjection]
    split <;> exact ⟨_, rfl⟩
  · simp only [Rule.rewrite, dropIdleSetOperator]
    repeat' split
    all_goals exact ⟨_, rfl⟩
  · simp only [Rule.rewrite, combineSelections]
    split <;> exact ⟨_, rfl⟩
  · exact ⟨_, rfl⟩

theorem exists_mergeRenamings (h : Sound env t) : ∃ outcome, mergeRenamings t = .ok outcome := by
  unfold mergeRenamings
  split
  · obtain ⟨readable, readable', -⟩ := h
    obtain ⟨outer, readOuter⟩ := exists_readRenaming readable
    obtain ⟨inner, readInner⟩ := exists_readRenaming readable'
    rw [readOuter, readInner]
    by_cases removed : mentionsRemoved outer inner = true
    · exact ⟨_, if_pos removed⟩
    · exact ⟨_, if_neg removed⟩
  · exact ⟨_, rfl⟩

theorem exists_dropIdleRenaming (h : Sound env t) : ∃ outcome, dropIdleRenaming t = .ok outcome := by
  unfold dropIdleRenaming
  split
  · obtain ⟨map, read⟩ := exists_readRenaming h.1
    rw [read]
    by_cases idle : (map.filter fun old new => old ≠ new).size = map.size
    · exact ⟨_, if_pos idle⟩
    · exact ⟨_, if_neg idle⟩
  · exact ⟨_, rfl⟩

theorem exists_selectBeforeRenaming (h : Sound env t) :
    ∃ outcome, selectBeforeRenaming t = .ok outcome := by
  unfold selectBeforeRenaming
  split
  · obtain ⟨predicate, readable, -⟩ := h
    obtain ⟨map, read⟩ := exists_readRenaming readable
    obtain ⟨⟨used, names⟩, other⟩ := exists_names predicate
    obtain ⟨q, before⟩ := other map.inverse
    simp only [read, names, before]
    by_cases hidden : used.any (hides map) = true
    · exact ⟨_, if_pos hidden⟩
    · exact ⟨_, if_neg hidden⟩
  · exact ⟨_, rfl⟩

theorem exists_projectBeforeRenaming (h : Sound env t) :
    ∃ outcome, projectBeforeRenaming t = .ok outcome := by
  unfold projectBeforeRenaming
  split
  · obtain ⟨list, readable, -⟩ := h
    obtain ⟨names, readNames⟩ := exists_readProjection list
    obtain ⟨map, read⟩ := exists_readRenaming readable
    rw [readNames, read]
    by_cases hidden : names.any (hides map) = true
    · exact ⟨_, if_pos hidden⟩
    · exact ⟨_, if_neg hidden⟩
  · exact ⟨_, rfl⟩

theorem exists_factorRenaming (h : Sound env t) : ∃ outcome, factorRenaming t = .ok outcome := by
  unfold factorRenaming
  split
  · obtain ⟨⟨readable, -⟩, readable', -⟩ := h
    obtain ⟨left, readLeft⟩ := exists_readRenaming readable
    obtain ⟨right, readRight⟩ := exists_readRenaming readable'
    simp only [readLeft, readRight]
    repeat' split
    all_goals exact ⟨_, rfl⟩
  · exact ⟨_, rfl⟩

theorem exists_distributeConjuncts (h : Sound env t) :
    ∃ outcome, distributeConjuncts env t = .ok outcome := by
  unfold distributeConjuncts
  split
  · split
    · obtain ⟨predicate, ha, hb⟩ := h
      obtain ⟨left, schemaLeft⟩ := exists_schema ha
      obtain ⟨right, schemaRight⟩ := exists_schema hb
      obtain ⟨parts, conjuncts⟩ := exists_conjuncts predicate
      have readable := closed_readable.conjuncts predicate (inPredicate_eq_ok.mp conjuncts)
      obtain ⟨s, sorted⟩ := exists_sortConjuncts left right readable
      simp only [schemaLeft, schemaRight, conjuncts, sorted]
      exact ⟨_, rfl⟩
    · exact ⟨_, rfl⟩
  · exact ⟨_, rfl⟩

theorem exists_factorProjection (h : Sound env t) : ∃ outcome, factorProjection env t = .ok outcome := by
  unfold factorProjection
  split
  · obtain ⟨⟨list, ha⟩, list', hb⟩ := h
    obtain ⟨left, readLeft⟩ := exists_readProjection list
    obtain ⟨right, readRight⟩ := exists_readProjection list'
    obtain ⟨same, attributes⟩ := exists_sameAttributes ha hb
    rw [readLeft, readRight, attributes]
    by_cases equal : left = right
    · exact ⟨_, if_pos equal⟩
    · exact ⟨_, if_neg equal⟩
  · exact ⟨_, rfl⟩

theorem exists_dropIdleProjection (h : Sound env t) :
    ∃ outcome, dropIdleProjection env t = .ok outcome := by
  unfold dropIdleProjection
  split
  · obtain ⟨list, below⟩ := h
    obtain ⟨names, read⟩ := exists_readProjection list
    obtain ⟨all, schema⟩ := exists_schema below
    rw [read, schema]
    exact ⟨_, rfl⟩
  · exact ⟨_, rfl⟩

theorem exists_factorJoin (h : Sound env t) : ∃ outcome, factorJoin env t = .ok outcome := by
  unfold factorJoin
  split
  · exact ⟨_, rfl⟩
  · next s hs =>
    have others : Sound env s.first ∧ Sound env s.second := by
      rcases find?_eq_some hs with ⟨-, rfl⟩ | ⟨-, rfl⟩
      · exact ⟨h.1.2, h.2.2⟩
      · exact ⟨h.1.1, h.2.1⟩
    obtain ⟨same, attributes⟩ := exists_sameAttributes others.1 others.2
    rw [attributes]
    exact ⟨_, rfl⟩

theorem exists_rewrite (rule : Rule) (h : Sound env t) : ∃ outcome, rule.rewrite env t = .ok outcome := by
  cases rule with
  | mergeRenamings => exact exists_mergeRenamings h
  | dropIdleRenaming => exact exists_dropIdleRenaming h
  | selectBeforeRenaming => exact exists_selectBeforeRenaming h
  | projectBeforeRenaming => exact exists_projectBeforeRenaming h
  | factorRenaming => exact exists_factorRenaming h
  | distributeConjuncts => exact exists_distributeConjuncts h
  | factorProjection => exact exists_factorProjection h
  | dropIdleProjection => exact exists_dropIdleProjection h
  | factorJoin => exact exists_factorJoin h
  | _ => exact exists_rewrite_of_plain (by decide)

/-! ## Runs on readable queries -/

theorem exists_offer (rule : Rule) (m : Nat) (h : Sound env t) :
    ∃ t' n, rule.offer env m t = .ok (t', n) ∧ Sound env t' := by
  obtain ⟨outcome, rewritten⟩ := exists_rewrite rule h
  have offered : ∃ result, rule.offer env m t = .ok result := by
    rw [Rule.offer, rewritten]
    exact ⟨_, rfl⟩
  obtain ⟨⟨t', n⟩, offered⟩ := offered
  obtain ⟨k, -, rewriting⟩ := rewriting_of_offer (List.mem_singleton_self rule) offered
  exact ⟨t', n, offered, rewriting.every closed_readable h⟩

theorem exists_walk (rule : Rule) (h : Sound env t) :
    ∃ t' n, rule.walk env t = .ok (t', n) ∧ Sound env t' := by
  induction t with
  | relation n => exact exists_offer rule 0 h
  | unary op text operand ih =>
    obtain ⟨operand', m, walked, sound⟩ := ih h.2
    rw [Rule.walk, walked]
    exact exists_offer rule m ⟨h.1, sound⟩
  | binary op a b iha ihb =>
    obtain ⟨a', m, walkedA, soundA⟩ := iha h.1
    obtain ⟨b', n, walkedB, soundB⟩ := ihb h.2
    rw [Rule.walk, walkedA, walkedB]
    exact exists_offer rule (m + n) ⟨soundA, soundB⟩

theorem exists_pass (rules : List Rule) (h : Sound env t) :
    ∃ t' steps, pass env rules t = .ok (t', steps) ∧ Sound env t' := by
  induction rules generalizing t with
  | nil => exact ⟨t, [], rfl, h⟩
  | cons rule rules ih =>
    obtain ⟨new, changes, walked, sound⟩ := exists_walk rule h
    rw [pass, walked]
    by_cases unchanged : changes = 0
    · rw [unchanged]
      exact ih h
    · obtain ⟨t', steps, passed, sound'⟩ := ih sound
      refine ⟨t', ⟨rule, changes, new⟩ :: steps, ?_, sound'⟩
      simp only [if_neg unchanged, passed]
      rfl

theorem exists_passes (rules : List Rule) (limit : Nat) {o : Optimized} (h : Sound env o.tree) :
    ∃ o', passes env rules limit o = .ok o' := by
  induction limit generalizing o with
  | zero => exact ⟨o, rfl⟩
  | succ limit ih =>
    obtain ⟨t', steps, passed, sound⟩ := exists_pass rules h
    rw [passes, passed]
    cases steps with
    | nil => exact ⟨_, rfl⟩
    | cons step steps => exact ih sound

/-- The optimizer succeeds on a query of which all parameters can be read and all relations are bound, and
what it makes of it can be read again. -/
theorem optimize_keeps_parameters_readable (settings : Settings) {env : Environment} {t : Tree} {p : Plan}
    (hp : t.plan = .ok p) (bound : ∀ n ∈ t.relations, env.contains n = true) :
    ∃ o, optimize settings env t = .ok o ∧ ∃ p', o.tree.plan = .ok p' := by
  have sound := sound_of_plan hp bound
  obtain ⟨o', passed⟩ : ∃ o', passes env settings.rules (passLimit t) ⟨t, 0, 0, []⟩ = .ok o' :=
    exists_passes settings.rules (passLimit t) sound
  obtain ⟨o, optimized⟩ : ∃ o, optimize settings env t = .ok o := by
    rw [optimize, passed]
    exact ⟨_, rfl⟩
  have readable := exists_plan_iff.mp ⟨p, hp⟩
  exact ⟨o, optimized, exists_plan_iff.mpr (every_of_optimize closed_readable optimized readable)⟩

/-- A query that cannot be evaluated: there is no attribute `c`, and it divides by zero. -/
def unfit : Tree :=
  .projection "c" (.selection "1 / (a - a) > 0 and not b == 'x'" (.rename "b➡a, a➡b" (.relation "r")))

theorem optimize_keeps_unfit_readable :
    (∃ p, unfit.plan = .ok p) ∧
      ∃ o, optimize {} (.ofTables [("r", ["a", "b"], [[.int 1, .int 2]])]) unfit = .ok o ∧
        ∃ p', o.tree.plan = .ok p' := by
  have plan : ∃ p, unfit.plan = .ok p ∧ True := by decide +kernel
  obtain ⟨p, hp, -⟩ := plan
  exact ⟨⟨p, hp⟩, optimize_keeps_parameters_readable {} hp (by decide +kernel)⟩

end RelationalAlgebra.Rewrite
