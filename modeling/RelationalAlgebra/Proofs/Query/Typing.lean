import Mathlib.Data.Set.Function
import RelationalAlgebra.Proofs.Environment
import RelationalAlgebra.Proofs.Query.Parameters
import RelationalAlgebra.Proofs.Relation.Operators
import RelationalAlgebra.Query.Plan
import RelationalAlgebra.Query.Schema
/-!
# Types of plans

The type of a plan is the list of its columns.  A plan is typed if each of its operators applies to the
columns of its operands.  A typed plan computes a relation with its columns, or it fails in the
evaluation of a predicate; a plan that is not typed never computes anything.  So the schema of a query, which
is found without any row, is the header of what the query evaluates to.
-/

namespace RelationalAlgebra

def FailedEvaluation {α : Type} (result : Except Failure α) : Prop :=
  ∃ source row fault, result = .error (.evaluation source row fault)

instance {α : Type} (result : Except Failure α) : Decidable (FailedEvaluation result) :=
  match result with
  | .error (.evaluation source row fault) => .isTrue ⟨source, row, fault, rfl⟩
  | .ok _ | .error (.lex _) | .error (.parse _) | .error (.schema _) | .error (.unbound _)
  | .error (.unknownFormat _) | .error .badLogLevel | .error .io | .error .csv | .error .json =>
    .isFalse (by rintro ⟨source, row, fault, h⟩; cases h)

namespace Query

namespace Plan

variable {env : Environment}

def columns (env : Environment) : Plan → List String
  | scan name =>
    match env.get? name with
    | some r => r.names
    | none => []
  | selection _ input => input.columns env
  | projection names _ => Relation.distinct names
  | rename map input => (input.columns env).map map.apply
  | binary op left right => Tree.joinNames op (left.columns env) (right.columns env)

structure Renames (map : Renaming) (columns : List String) : Prop where
  known : ∀ n ∈ map.keys, n ∈ columns
  injective : Set.InjOn map.apply {n | n ∈ columns}
  valid : map.Valid

/-- Whether all operators of a plan apply to the columns of their operands. -/
def Typed (env : Environment) : Plan → Prop
  | scan name => ∃ r, env.get? name = some r
  | selection _ input => input.Typed env
  | projection names input => input.Typed env ∧ names ≠ [] ∧ ∀ n ∈ names, n ∈ input.columns env
  | rename map input => input.Typed env ∧ Renames map (input.columns env)
  | binary op left right =>
    left.Typed env ∧ right.Typed env ∧ Relation.Fits op (left.columns env) (right.columns env)

/-! ## Columns of typed plans -/

theorem apply_of_get? {map : Renaming} {n new : String} (h : map.get? n = some new) :
    map.apply n = new := by
  rw [Renaming.apply, h]
  rfl

theorem apply_of_notMem {map : Renaming} {n : String} (h : n ∉ map.keys) : map.apply n = n := by
  rw [Renaming.apply, Name.Map.get?_eq_none_iff.mpr h]
  rfl

theorem isValid_apply {map : Renaming} (valid : map.Valid) {n : String} (h : Name.isValid n = true) :
    Name.isValid (map.apply n) = true := by
  rw [Renaming.apply]
  cases hn : map.get? n with
  | none => exact h
  | some new => exact (valid n new hn).2

theorem mem_joinNames {op : Binary} {left right : List String} {n : String} :
    n ∈ Tree.joinNames op left right → n ∈ left ∨ n ∈ right := by
  cases op <;> simp only [Tree.joinNames, List.mem_append, List.mem_filter] <;> tauto

theorem nodup_joinNames {op : Binary} {left right : List String} (hl : left.Nodup) (hr : right.Nodup)
    (fits : Relation.Fits op left right) : (Tree.joinNames op left right).Nodup := by
  have extra : (left ++ right.filter fun n => !left.contains n).Nodup := by
    refine List.nodup_append.mpr ⟨hl, hr.filter _, ?_⟩
    rintro n hn m hm rfl
    simp [hn] at hm
  cases op with
  | product =>
    refine List.nodup_append.mpr ⟨hl, hr, ?_⟩
    rintro n hn m hm rfl
    exact fits n hn hm
  | difference | union | intersection => exact hl
  | division => exact hl.filter _
  | join | leftJoin | rightJoin | fullJoin => exact extra

theorem columns_of_typed {p : Plan} (h : p.Typed env) :
    (p.columns env).Nodup ∧ ∀ n ∈ p.columns env, Name.isValid n = true := by
  induction p with
  | scan name =>
    obtain ⟨r, hr⟩ := h
    rw [columns, hr]
    exact ⟨r.header.nodup, r.header.valid⟩
  | selection clause input ih => exact ih h
  | projection names input ih =>
    obtain ⟨typed, -, sub⟩ := h
    refine ⟨nodup_distinct names, fun n hn => ?_⟩
    exact (ih typed).2 n (sub n (mem_distinct.mp hn))
  | rename map input ih =>
    obtain ⟨typed, renames⟩ := h
    obtain ⟨nodup, valid⟩ := ih typed
    refine ⟨List.Nodup.map_on ?_ nodup, fun n hn => ?_⟩
    · intro n hn m hm same
      exact renames.injective hn hm same
    · obtain ⟨m, hm, rfl⟩ := List.mem_map.mp hn
      exact isValid_apply renames.valid (valid m hm)
  | binary op left right ihl ihr =>
    obtain ⟨typedLeft, typedRight, fits⟩ := h
    obtain ⟨nodupLeft, validLeft⟩ := ihl typedLeft
    obtain ⟨nodupRight, validRight⟩ := ihr typedRight
    refine ⟨nodup_joinNames nodupLeft nodupRight fits, fun n hn => ?_⟩
    exact (mem_joinNames hn).elim (validLeft n) (validRight n)

/-! ## Runs of plans -/

theorem find_eq_ok_iff {name : String} {r : Relation} :
    env.find name = .ok r ↔ env.get? name = some r := by
  unfold Environment.find
  cases env.get? name with
  | none => simp
  | some s => simp

theorem exists_rename_iff_renames {r : Relation} {map : Renaming} :
    (∃ p, r.rename map = .ok p) ↔ Renames map r.names := by
  rw [Relation.exists_rename_iff]
  constructor
  · rintro ⟨known, nodup, valid⟩
    refine ⟨known, fun n hn m hm same => List.inj_on_of_nodup_map nodup hn hm same, ?_⟩
    intro old new h
    have mem := known old (Name.Map.mem_keys_iff.mpr ⟨new, h⟩)
    have validNew := valid old mem
    rw [apply_of_get? h] at validNew
    exact ⟨r.header.valid old mem, validNew⟩
  · rintro ⟨known, injective, valid⟩
    refine ⟨known, List.Nodup.map_on (fun n hn m hm same => injective hn hm same) r.nodup_names, ?_⟩
    exact fun n hn => isValid_apply valid (r.header.valid n hn)

/-- A plan that computes a relation is typed, and its columns are those of the relation. -/
theorem typed_of_run {p : Plan} {r : Relation} (h : p.run env = .ok r) :
    p.Typed env ∧ p.columns env = r.names := by
  induction p generalizing r with
  | scan name =>
    have bound := find_eq_ok_iff.mp h
    exact ⟨⟨r, bound⟩, by rw [columns, bound]⟩
  | selection clause input ih =>
    rw [run] at h
    split at h
    · cases h
    · next s hs =>
      obtain ⟨typed, columns_eq⟩ := ih hs
      obtain ⟨rows, -, rfl⟩ := map_eq_ok.mp h
      exact ⟨typed, columns_eq⟩
  | projection names input ih =>
    rw [run] at h
    split at h
    · cases h
    · next s hs =>
      obtain ⟨typed, columns_eq⟩ := ih hs
      have h := mapError_eq_ok.mp h
      have fits := Relation.exists_projection_iff.mp ⟨r, h⟩
      rw [← columns_eq] at fits
      exact ⟨⟨typed, fits⟩, (Relation.projection_eq_ok h).2.1.symm⟩
  | rename map input ih =>
    rw [run] at h
    split at h
    · cases h
    · next s hs =>
      obtain ⟨typed, columns_eq⟩ := ih hs
      have h := mapError_eq_ok.mp h
      have renames := exists_rename_iff_renames.mp ⟨r, h⟩
      rw [← columns_eq] at renames
      refine ⟨⟨typed, renames⟩, ?_⟩
      rw [columns, columns_eq, (Relation.rename_eq_ok h).1]
  | binary op left right ihl ihr =>
    rw [run] at h
    split at h
    · cases h
    · next a ha =>
      split at h
      · cases h
      · next b hb =>
        obtain ⟨typedLeft, columnsLeft⟩ := ihl ha
        obtain ⟨typedRight, columnsRight⟩ := ihr hb
        have h := mapError_eq_ok.mp h
        have fits := Relation.exists_apply_iff.mp ⟨r, h⟩
        rw [← columnsLeft, ← columnsRight] at fits
        refine ⟨⟨typedLeft, typedRight, fits⟩, ?_⟩
        rw [columns, columnsLeft, columnsRight, Relation.apply_names h]

/-- A typed plan has a result or fails on a row, and in no other way. -/
theorem run_of_typed {p : Plan} (h : p.Typed env) :
    (∃ r, p.run env = .ok r) ∨ FailedEvaluation (p.run env) := by
  induction p with
  | scan name =>
    obtain ⟨r, hr⟩ := h
    exact .inl ⟨r, find_eq_ok_iff.mpr hr⟩
  | selection clause input ih =>
    rcases ih h with ⟨s, hs⟩ | ⟨source, row, fault, hs⟩
    · rw [run, hs]
      cases hp : s.filter clause with
      | ok p => exact .inl ⟨p, hp⟩
      | error failure =>
        obtain ⟨source, row, fault, rfl⟩ := Relation.filter_eq_error hp
        exact .inr ⟨source, row, fault, hp⟩
    · exact .inr ⟨source, row, fault, by rw [run, hs]⟩
  | projection names input ih =>
    obtain ⟨typed, fits⟩ := h
    rcases ih typed with ⟨s, hs⟩ | ⟨source, row, fault, hs⟩
    · rw [(typed_of_run hs).2] at fits
      obtain ⟨p, hp⟩ := Relation.exists_projection_iff.mpr fits
      exact .inl ⟨p, by rw [run, hs]; exact mapError_eq_ok.mpr hp⟩
    · exact .inr ⟨source, row, fault, by rw [run, hs]⟩
  | rename map input ih =>
    obtain ⟨typed, renames⟩ := h
    rcases ih typed with ⟨s, hs⟩ | ⟨source, row, fault, hs⟩
    · rw [(typed_of_run hs).2] at renames
      obtain ⟨p, hp⟩ := exists_rename_iff_renames.mpr renames
      exact .inl ⟨p, by rw [run, hs]; exact mapError_eq_ok.mpr hp⟩
    · exact .inr ⟨source, row, fault, by rw [run, hs]⟩
  | binary op left right ihl ihr =>
    obtain ⟨typedLeft, typedRight, fits⟩ := h
    rcases ihl typedLeft with ⟨a, ha⟩ | ⟨source, row, fault, ha⟩
    · rcases ihr typedRight with ⟨b, hb⟩ | ⟨source, row, fault, hb⟩
      · rw [(typed_of_run ha).2, (typed_of_run hb).2] at fits
        obtain ⟨p, hp⟩ := Relation.exists_apply_iff.mpr fits
        exact .inl ⟨p, by rw [run, ha, hb]; exact mapError_eq_ok.mpr hp⟩
      · exact .inr ⟨source, row, fault, by rw [run, ha, hb]⟩
    · exact .inr ⟨source, row, fault, by rw [run, ha]⟩

end Plan

/-! ## Plans of trees -/

namespace Tree

variable {env : Environment} {p : Plan}

theorem plan_relation {name : String} (h : (relation name).plan = .ok p) : p = .scan name :=
  (Except.ok.inj h).symm

theorem plan_selection_iff {text : String} {t : Tree} :
    (selection text t).plan = .ok p ↔ ∃ input clause,
      t.plan = .ok input ∧ Relation.clause? text = .ok clause ∧ p = .selection clause input := by
  rw [plan]
  cases t.plan with
  | error failure => simp
  | ok input =>
    simp only [Unary.plan, map_eq_ok, Except.ok.injEq]
    constructor
    · rintro ⟨clause, hclause, rfl⟩
      exact ⟨input, clause, rfl, hclause, rfl⟩
    · rintro ⟨_, clause, rfl, hclause, rfl⟩
      exact ⟨clause, hclause, rfl⟩

theorem plan_projection_iff {text : String} {t : Tree} :
    (projection text t).plan = .ok p ↔ ∃ input names,
      t.plan = .ok input ∧ Projection.ofText? text = .ok names ∧ p = .projection names input := by
  rw [plan]
  cases t.plan with
  | error failure => simp
  | ok input =>
    simp only [Unary.plan, mapError_eq_ok, map_eq_ok, Except.ok.injEq]
    constructor
    · rintro ⟨names, hnames, rfl⟩
      exact ⟨input, names, rfl, hnames, rfl⟩
    · rintro ⟨_, names, rfl, hnames, rfl⟩
      exact ⟨names, hnames, rfl⟩

theorem plan_rename_iff {text : String} {t : Tree} :
    (rename text t).plan = .ok p ↔ ∃ input map,
      t.plan = .ok input ∧ Renaming.ofText? text = .ok map ∧ p = .rename map input := by
  rw [plan]
  cases t.plan with
  | error failure => simp
  | ok input =>
    simp only [Unary.plan, mapError_eq_ok, map_eq_ok, Except.ok.injEq]
    constructor
    · rintro ⟨map, hmap, rfl⟩
      exact ⟨input, map, rfl, hmap, rfl⟩
    · rintro ⟨_, map, rfl, hmap, rfl⟩
      exact ⟨map, hmap, rfl⟩

theorem plan_binary_iff {op : Binary} {a b : Tree} :
    (binary op a b).plan = .ok p ↔ ∃ left right,
      a.plan = .ok left ∧ b.plan = .ok right ∧ p = .binary op left right := by
  rw [plan]
  cases a.plan with
  | error failure => simp
  | ok left =>
    simp only [map_eq_ok, Except.ok.injEq]
    constructor
    · rintro ⟨right, hright, rfl⟩
      exact ⟨left, right, rfl, hright, rfl⟩
    · rintro ⟨_, right, rfl, hright, rfl⟩
      exact ⟨right, hright, rfl⟩

theorem plan_selection {text : String} {t : Tree} {clause : Predicate.Clause} (hp : t.plan = .ok p)
    (h : Relation.clause? text = .ok clause) :
    (selection text t).plan = .ok (.selection clause p) :=
  plan_selection_iff.mpr ⟨p, clause, hp, h, rfl⟩

theorem plan_projection {text : String} {t : Tree} {names : List String} (hp : t.plan = .ok p)
    (h : Projection.ofText? text = .ok names) :
    (projection text t).plan = .ok (.projection names p) :=
  plan_projection_iff.mpr ⟨p, names, hp, h, rfl⟩

theorem plan_rename {text : String} {t : Tree} {map : Renaming} (hp : t.plan = .ok p)
    (h : Renaming.ofText? text = .ok map) : (rename text t).plan = .ok (.rename map p) :=
  plan_rename_iff.mpr ⟨p, map, hp, h, rfl⟩

theorem plan_binary (op : Binary) {a b : Tree} {left right : Plan} (ha : a.plan = .ok left)
    (hb : b.plan = .ok right) : (binary op a b).plan = .ok (.binary op left right) :=
  plan_binary_iff.mpr ⟨left, right, ha, hb, rfl⟩

/-- A query without a plan has a parameter that does not read. -/
theorem plan_eq_error {t : Tree} {failure : Failure} (h : t.plan = .error failure) :
    ∃ fault, failure = .parse fault := by
  induction t with
  | relation name => cases h
  | unary op text t ih =>
    rw [plan] at h
    cases ht : t.plan with
    | error inner =>
      rw [ht] at h
      obtain rfl := Except.error.inj h
      exact ih ht
    | ok input =>
      rw [ht] at h
      cases op with
      | selection =>
        obtain ⟨fault, -, rfl⟩ := mapError_eq_error.mp (map_eq_error.mp h)
        exact ⟨_, rfl⟩
      | projection | rename =>
        obtain ⟨fault, -, rfl⟩ := mapError_eq_error.mp h
        exact ⟨fault, rfl⟩
  | binary op a b iha ihb =>
    rw [plan] at h
    cases ha : a.plan with
    | error inner =>
      rw [ha] at h
      obtain rfl := Except.error.inj h
      exact iha ha
    | ok left =>
      rw [ha] at h
      exact ihb (map_eq_error.mp h)

theorem eval_of_plan {t : Tree} (hp : t.plan = .ok p) : t.eval env = p.run env := by
  rw [eval, hp]

theorem eval_eq_ok {t : Tree} {r : Relation} :
    t.eval env = .ok r ↔ ∃ p, t.plan = .ok p ∧ p.run env = .ok r := by
  rw [eval]
  cases t.plan with
  | error failure => simp
  | ok p => simp

/-- The schema of a query is the type of its plan. -/
theorem columns_of_schema {t : Tree} {names : List String} (hp : t.plan = .ok p)
    (h : t.schema env = .ok names) : names = p.columns env := by
  induction t generalizing p names with
  | relation name =>
    obtain rfl := plan_relation hp
    obtain ⟨r, hr, rfl⟩ := map_eq_ok.mp h
    rw [Plan.columns, Plan.find_eq_ok_iff.mp hr]
  | unary op text t ih =>
    rw [schema] at h
    split at h
    · cases h
    · next inner hinner =>
      cases op with
      | selection =>
        obtain ⟨input, clause, hinput, -, rfl⟩ := plan_selection_iff.mp hp
        obtain rfl := Except.ok.inj h
        have same : inner = input.columns env := ih hinput hinner
        exact same
      | projection =>
        obtain ⟨input, ns, hinput, hns, rfl⟩ := plan_projection_iff.mp hp
        have read := mapError_eq_ok.mp h
        obtain rfl : ns = names := Except.ok.inj (hns.symm.trans read)
        rw [Plan.columns, distinct_of_nodup (Projection.ofText?_eq_ok hns).2.1]
      | rename =>
        obtain ⟨input, map, hinput, hmap, rfl⟩ := plan_rename_iff.mp hp
        obtain ⟨map', hmap', rfl⟩ := map_eq_ok.mp (mapError_eq_ok.mp h)
        obtain rfl : map = map' := Except.ok.inj (hmap.symm.trans hmap')
        rw [Plan.columns, ih hinput hinner]
  | binary op a b iha ihb =>
    obtain ⟨left, right, hleft, hright, rfl⟩ := plan_binary_iff.mp hp
    rw [schema] at h
    split at h
    · cases h
    · next ns hns =>
      obtain ⟨ms, hms, rfl⟩ := map_eq_ok.mp h
      rw [Plan.columns, iha hleft hns, ihb hright hms]

theorem schema_of_typed {t : Tree} (hp : t.plan = .ok p) (typed : p.Typed env) :
    t.schema env = .ok (p.columns env) := by
  induction t generalizing p with
  | relation name =>
    obtain rfl := plan_relation hp
    obtain ⟨r, hr⟩ := typed
    rw [schema, Plan.columns, hr, Plan.find_eq_ok_iff.mpr hr]
    rfl
  | unary op text t ih =>
    cases op with
    | selection =>
      obtain ⟨input, clause, hinput, -, rfl⟩ := plan_selection_iff.mp hp
      have typed : input.Typed env := typed
      rw [schema, ih hinput typed]
      rfl
    | projection =>
      obtain ⟨input, ns, hinput, hns, rfl⟩ := plan_projection_iff.mp hp
      rw [schema, ih hinput typed.1, Plan.columns,
        distinct_of_nodup (Projection.ofText?_eq_ok hns).2.1]
      exact mapError_eq_ok.mpr hns
    | rename =>
      obtain ⟨input, map, hinput, hmap, rfl⟩ := plan_rename_iff.mp hp
      rw [schema, ih hinput typed.1, Plan.columns]
      exact mapError_eq_ok.mpr (map_eq_ok.mpr ⟨map, hmap, rfl⟩)
  | binary op a b iha ihb =>
    obtain ⟨left, right, hleft, hright, rfl⟩ := plan_binary_iff.mp hp
    obtain ⟨typedLeft, typedRight, -⟩ := typed
    rw [schema, iha hleft typedLeft, ihb hright typedRight]
    rfl

/-- The schema of a query that evaluates is the header of its result, in the same order. -/
theorem schema_of_eval {t : Tree} {r : Relation} (h : t.eval env = .ok r) :
    t.schema env = .ok r.names := by
  obtain ⟨p, hp, hr⟩ := eval_eq_ok.mp h
  obtain ⟨typed, columns⟩ := Plan.typed_of_run hr
  rw [schema_of_typed hp typed, columns]

def pairs : Environment := .ofTables
  [("r", ["a", "b"], [[.int 1, .int 2], [.int 2, .int 1]]), ("s", ["b", "c"], [[.int 1, .int 3]])]

/-- Outer joins with a renaming that swaps, divided and projected on a name twice. -/
def reordered : Tree :=
  .projection "a, b, a" <| .binary .division
    (.binary .fullJoin (.binary .rightJoin (.relation "s") (.rename "a➡b, b➡a" (.relation "r")))
      (.relation "s"))
    (.projection "c" (.relation "s"))

theorem schema_of_reordered :
    ∃ r, reordered.eval pairs = .ok r ∧ r.names = ["a", "b"] ∧
      reordered.schema pairs = .ok r.names := by
  have evaluates : ∃ r, reordered.eval pairs = .ok r ∧ r.names = ["a", "b"] := by decide +kernel
  obtain ⟨r, hr, names⟩ := evaluates
  exact ⟨r, hr, names, schema_of_eval hr⟩

end Tree

end Query

end RelationalAlgebra
