import RelationalAlgebra.Proofs.Outcome
import RelationalAlgebra.Query.Plan
import RelationalAlgebra.Query.Schema
/-!
# What a query sees of an environment

A query looks up the names at its leaves and no others.  Two environments that agree on these names give the
query one schema and one result, failures included.
-/

namespace RelationalAlgebra

/-- Some names are bound to the same relations in both environments, or in neither. -/
def Environment.Agree (names : List String) (env env' : Environment) : Prop :=
  ∀ n ∈ names, env.get? n = env'.get? n

namespace Environment.Agree

variable {env env' : Environment} {names others : List String}

theorem mono (h : Agree names env env') (sub : others ⊆ names) : Agree others env env' :=
  fun n hn => h n (sub hn)

theorem append_iff : Agree (names ++ others) env env' ↔ Agree names env env' ∧ Agree others env env' :=
  List.forall_mem_append

theorem find (h : Agree names env env') {n : String} (hn : n ∈ names) : env.find n = env'.find n := by
  rw [Environment.find, Environment.find, h n hn]

end Environment.Agree

namespace Query

open Environment (Agree)

variable {env env' : Environment}

/-! ## Schemas -/

theorem Tree.schema_congr {t : Tree} (h : Agree t.leaves env env') : t.schema env = t.schema env' := by
  induction t with
  | relation name => rw [schema, schema, h.find (List.mem_singleton_self name)]
  | unary op parameter operand ih => rw [schema, schema, ih h]
  | binary op left right ihl ihr =>
    obtain ⟨onLeft, onRight⟩ := Agree.append_iff.mp h
    rw [schema, schema, ihl onLeft, ihr onRight]

/-! ## Results -/

def Plan.scans : Plan → List String
  | scan name => [name]
  | selection _ input => input.scans
  | projection _ input => input.scans
  | rename _ input => input.scans
  | binary _ left right => left.scans ++ right.scans

theorem Plan.run_congr {p : Plan} (h : Agree p.scans env env') : p.run env = p.run env' := by
  induction p with
  | scan name => exact h.find (List.mem_singleton_self name)
  | selection clause input ih => rw [run, run, ih h]
  | projection names input ih => rw [run, run, ih h]
  | rename map input ih => rw [run, run, ih h]
  | binary op left right ihl ihr =>
    obtain ⟨onLeft, onRight⟩ := Agree.append_iff.mp h
    rw [run, run, ihl onLeft, ihr onRight]

theorem Unary.scans_plan {op : Unary} {parameter : String} {input p : Plan}
    (h : op.plan parameter input = .ok p) : p.scans = input.scans := by
  cases op with
  | selection =>
    obtain ⟨clause, -, rfl⟩ := map_eq_ok.mp h
    rfl
  | projection | rename =>
    obtain ⟨_, -, rfl⟩ := map_eq_ok.mp (mapError_eq_ok.mp h)
    rfl

theorem Tree.scans_plan {t : Tree} {p : Plan} (h : t.plan = .ok p) : p.scans = t.leaves := by
  induction t generalizing p with
  | relation name =>
    obtain rfl := Except.ok.inj h
    rfl
  | unary op parameter operand ih =>
    rw [plan] at h
    split at h
    · cases h
    · next input hinput => exact (Unary.scans_plan h).trans (ih hinput)
  | binary op left right ihl ihr =>
    rw [plan] at h
    split at h
    · cases h
    · next a ha =>
      obtain ⟨b, hb, rfl⟩ := map_eq_ok.mp h
      rw [Plan.scans, leaves, ihl ha, ihr hb]

theorem Tree.eval_congr {t : Tree} (h : Agree t.leaves env env') : t.eval env = t.eval env' := by
  rw [eval, eval]
  cases hp : t.plan with
  | error failure => rfl
  | ok p => exact Plan.run_congr (scans_plan hp ▸ h)

end Query

end RelationalAlgebra
