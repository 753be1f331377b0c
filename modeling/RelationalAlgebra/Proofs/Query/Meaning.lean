import RelationalAlgebra.Proofs.Environment
import RelationalAlgebra.Proofs.Query.Typing
import RelationalAlgebra.Proofs.Relation.Joins
/-!
# The meaning of plans

The extent of a plan is computed by the operators on extents, which never fail.  A run that gives a
relation gives one with this extent, and a typed plan has such a run exactly when each of its predicates
has a value on all rows that it is asked about.
-/

namespace RelationalAlgebra

open Predicate (Formula cell?)

namespace Extent

theorem attributes_apply (op : Query.Binary) {a b : Extent} {left right : List String}
    (ha : a.attributes = {n | n ∈ left}) (hb : b.attributes = {n | n ∈ right}) :
    (a.apply op b).attributes = {n | n ∈ Query.Tree.joinNames op left right} := by
  have both : a.attributes ∪ b.attributes =
      {n | n ∈ left ++ right.filter fun n => !left.contains n} := by
    ext n
    rw [ha, hb]
    change n ∈ left ∨ n ∈ right ↔ n ∈ left ++ right.filter _
    simp only [List.mem_append, List.mem_filter, List.contains_eq_mem, Bool.not_eq_true',
      decide_eq_false_iff_not]
    tauto
  cases op with
  | product =>
    ext n
    change n ∈ a.attributes ∪ b.attributes ↔ n ∈ left ++ right
    rw [ha, hb, List.mem_append]
    rfl
  | difference | union | intersection => exact ha
  | division =>
    ext n
    change n ∈ a.attributes \ b.attributes ↔ n ∈ left.filter _
    rw [ha, hb, List.mem_filter]
    change n ∈ left ∧ n ∉ right ↔ _
    simp
  | join | leftJoin | rightJoin | fullJoin => exact both

/-- Operators on extents with rows of their attributes give such extents. -/
theorem proper_apply {op : Query.Binary} {a b : Extent} (ha : a.Proper) (hb : b.Proper)
    (fits : op.isSetOperator = true → a.attributes = b.attributes) : (a.apply op b).Proper := by
  cases op with
  | product | join => exact fun w hw => hw.1
  | difference => exact fun w hw => ha w hw.1
  | intersection => exact fun w hw => ha w hw.1
  | union =>
    rintro w (hw | hw)
    · exact ha w hw
    · have covers := hb w hw
      rw [← fits rfl] at covers
      exact covers
  | division =>
    rintro w ⟨⟨u, hu, rfl⟩, -⟩
    exact Assignment.covers_restrict (ha u hu) Set.sdiff_subset
  | leftJoin =>
    rintro w (hw | hw)
    · exact hw.1
    · exact hw.1
  | rightJoin =>
    intro w hw
    change w.Covers (a.attributes ∪ b.attributes)
    rw [Set.union_comm]
    rcases hw with hw | hw
    · exact hw.1
    · exact hw.1
  | fullJoin =>
    rintro w (hw | hw)
    · rcases hw with hw | hw
      · exact hw.1
      · exact hw.1
    · change w.Covers (a.attributes ∪ b.attributes)
      rw [Set.union_comm]
      rcases hw with hw | hw
      · exact hw.1
      · exact hw.1

end Extent

/-! ## What predicates are asked about -/

def Predicate.Formula.Defined (f : Formula) (e : Extent) : Prop := ∀ w ∈ e.rows, (f.truth? w).isSome = true

namespace Query.Plan

variable {env : Environment} {p : Plan}

/-- The extent of what a plan computes, if no predicate fails. -/
noncomputable def extent (env : Environment) : Plan → Extent
  | scan name =>
    match env.get? name with
    | some r => r.extent
    | none => ⟨∅, ∅⟩
  | selection clause input => (input.extent env).select clause.formula
  | projection names input => (input.extent env).project {n | n ∈ names}
  | rename map input => (input.extent env).rename map.apply
  | binary op left right => (left.extent env).apply op (right.extent env)

/-- All selections of a plan are in some relation to the extents of their operands. -/
def Every (guard : Formula → Extent → Prop) (env : Environment) : Plan → Prop
  | scan _ => True
  | selection clause input => input.Every guard env ∧ guard clause.formula (input.extent env)
  | projection _ input => input.Every guard env
  | rename _ input => input.Every guard env
  | binary _ left right => left.Every guard env ∧ right.Every guard env

theorem Every.imp {guard guard' : Formula → Extent → Prop} (imp : ∀ f e, guard f e → guard' f e)
    (h : p.Every guard env) : p.Every guard' env := by
  induction p with
  | scan name => exact trivial
  | selection clause input ih => exact ⟨ih h.1, imp _ _ h.2⟩
  | projection names input ih => exact ih h
  | rename map input ih => exact ih h
  | binary op left right ihl ihr => exact ⟨ihl h.1, ihr h.2⟩

theorem attributes_extent (p : Plan) : (p.extent env).attributes = {n | n ∈ p.columns env} := by
  induction p with
  | scan name =>
    rw [extent, columns]
    cases env.get? name with
    | none => exact Set.ext fun n => by simp
    | some r => rfl
  | selection clause input ih => exact ih
  | projection names input ih => exact Set.ext fun n => mem_distinct.symm
  | rename map input ih =>
    ext n
    change n ∈ map.apply '' (input.extent env).attributes ↔ n ∈ (input.columns env).map map.apply
    rw [ih, List.mem_map]
    rfl
  | binary op left right ihl ihr => exact Extent.attributes_apply op ihl ihr

theorem proper_extent (wellFormed : env.WellFormed) (typed : p.Typed env) :
    (p.extent env).Proper := by
  induction p with
  | scan name =>
    obtain ⟨r, hr⟩ := typed
    rw [extent, hr]
    exact (Environment.sound_of_get? wellFormed hr).proper
  | selection clause input ih => exact fun w hw => ih typed w hw.1
  | projection names input ih =>
    rintro w ⟨u, hu, rfl⟩
    refine Assignment.covers_restrict (ih typed.1 u hu) fun n hn => ?_
    rw [attributes_extent]
    exact typed.2.2 n hn
  | rename map input ih => exact fun w hw => hw.1
  | binary op left right ihl ihr =>
    refine Extent.proper_apply (ihl typed.1) (ihr typed.2.1) fun isSet => ?_
    rw [attributes_extent, attributes_extent]
    exact Set.ext ((Relation.fits_setOperator isSet).mp typed.2.2)

/-! ## Runs -/

/-- What a run computes has the extent of the plan, and no predicate has failed. -/
theorem extent_of_run (wellFormed : env.WellFormed) (separated : Cell.Separated env.cells)
    {r : Relation} (h : p.run env = .ok r) :
    r.Sound env.results ∧ r.extent = p.extent env ∧ p.Every Formula.Defined env := by
  have separated' := Environment.separated_results separated
  induction p generalizing r with
  | scan name =>
    have bound := find_eq_ok_iff.mp h
    exact ⟨Environment.sound_of_get? wellFormed bound, by rw [extent, bound], trivial⟩
  | selection clause input ih =>
    rw [run] at h
    split at h
    · cases h
    · next s hs =>
      obtain ⟨sound, extent_eq, every⟩ := ih hs
      obtain ⟨soundResult, -, result_eq⟩ := Relation.filter_spec sound h
      have defined := Relation.exists_filter_iff.mp ⟨r, h⟩
      rw [extent_eq] at result_eq defined
      exact ⟨soundResult, result_eq, every, defined⟩
  | projection names input ih =>
    rw [run] at h
    split at h
    · cases h
    · next s hs =>
      obtain ⟨sound, extent_eq, every⟩ := ih hs
      obtain ⟨soundResult, result_eq⟩ :=
        Relation.projection_spec separated' sound (mapError_eq_ok.mp h)
      rw [extent_eq] at result_eq
      exact ⟨soundResult, result_eq, every⟩
  | rename map input ih =>
    rw [run] at h
    split at h
    · cases h
    · next s hs =>
      obtain ⟨sound, extent_eq, every⟩ := ih hs
      obtain ⟨soundResult, result_eq⟩ := Relation.rename_spec sound (mapError_eq_ok.mp h)
      rw [extent_eq] at result_eq
      exact ⟨soundResult, result_eq, every⟩
  | binary op left right ihl ihr =>
    rw [run] at h
    split at h
    · cases h
    · next a ha =>
      split at h
      · cases h
      · next b hb =>
        obtain ⟨soundLeft, extentLeft, everyLeft⟩ := ihl ha
        obtain ⟨soundRight, extentRight, everyRight⟩ := ihr hb
        have padding : Relation.padding ∈ env.results := .inl rfl
        obtain ⟨soundResult, result_eq⟩ :=
          Relation.apply_spec separated' padding soundLeft soundRight (mapError_eq_ok.mp h)
        rw [extentLeft, extentRight] at result_eq
        exact ⟨soundResult, result_eq, everyLeft, everyRight⟩

theorem equal_of_runs (wellFormed : env.WellFormed) (separated : Cell.Separated env.cells) {p' : Plan}
    {r r' : Relation} (hr : p.run env = .ok r) (hr' : p'.run env = .ok r')
    (same : p'.extent env = p.extent env) : r'.equal r = true := by
  obtain ⟨sound, extent_r, -⟩ := extent_of_run wellFormed separated hr
  obtain ⟨sound', extent_r', -⟩ := extent_of_run wellFormed separated hr'
  have extents : r'.extent = r.extent := by rw [extent_r', same, extent_r]
  exact Relation.equal_of_extent_eq sound' sound extents

/-- A typed plan whose predicates have values computes a relation. -/
theorem run_of_defined (wellFormed : env.WellFormed) (separated : Cell.Separated env.cells)
    (typed : p.Typed env) (every : p.Every Formula.Defined env) : ∃ r, p.run env = .ok r := by
  induction p with
  | scan name =>
    obtain ⟨r, hr⟩ := typed
    exact ⟨r, find_eq_ok_iff.mpr hr⟩
  | selection clause input ih =>
    obtain ⟨s, hs⟩ := ih typed every.1
    have defined := every.2
    rw [← (extent_of_run wellFormed separated hs).2.1] at defined
    obtain ⟨r, hr⟩ := Relation.exists_filter_iff.mpr defined
    exact ⟨r, by rw [run, hs]; exact hr⟩
  | projection names input ih =>
    obtain ⟨s, hs⟩ := ih typed.1 every
    have fits := typed.2
    rw [(typed_of_run hs).2] at fits
    obtain ⟨r, hr⟩ := Relation.exists_projection_iff.mpr fits
    exact ⟨r, by rw [run, hs]; exact mapError_eq_ok.mpr hr⟩
  | rename map input ih =>
    obtain ⟨s, hs⟩ := ih typed.1 every
    have renames := typed.2
    rw [(typed_of_run hs).2] at renames
    obtain ⟨r, hr⟩ := exists_rename_iff_renames.mpr renames
    exact ⟨r, by rw [run, hs]; exact mapError_eq_ok.mpr hr⟩
  | binary op left right ihl ihr =>
    obtain ⟨a, ha⟩ := ihl typed.1 every.1
    obtain ⟨b, hb⟩ := ihr typed.2.1 every.2
    have fits := typed.2.2
    rw [(typed_of_run ha).2, (typed_of_run hb).2] at fits
    obtain ⟨r, hr⟩ := Relation.exists_apply_iff.mpr fits
    exact ⟨r, by rw [run, ha, hb]; exact mapError_eq_ok.mpr hr⟩

end Query.Plan

end RelationalAlgebra
