import Mathlib.Data.List.Induction
import RelationalAlgebra.Program.Script
import RelationalAlgebra.Proofs.Query.Typing
/-!
# Running programs

The steps of a program are run in their order, and each result is bound to the name of its step.  A name of
a step stands for the query that its expression is once the names in it are replaced: what is evaluated
after the steps is evaluated before them with the definitions in place.
-/

namespace RelationalAlgebra

open Query (Unary Binary Tree)

/-! ## Evaluation by operators -/

namespace Query

variable {env : Environment} {r : Relation}

def Unary.Gives (op : Unary) (parameter : String) (operand result : Relation) : Prop :=
  match op with
  | .selection => ∃ clause, Relation.clause? parameter = .ok clause ∧ operand.filter clause = .ok result
  | .projection =>
    ∃ names, Projection.ofText? parameter = .ok names ∧ operand.projection names = .ok result
  | .rename => ∃ map, Renaming.ofText? parameter = .ok map ∧ operand.rename map = .ok result

namespace Tree

theorem eval_relation_iff {name : String} : (relation name).eval env = .ok r ↔ env.get? name = some r :=
  Plan.find_eq_ok_iff

theorem gives_of_run {op : Unary} {parameter : String} {t : Tree} {p : Plan}
    (hp : (unary op parameter t).plan = .ok p) (hr : p.run env = .ok r) : ∃ input s,
      t.plan = .ok input ∧ input.run env = .ok s ∧ op.Gives parameter s r := by
  cases op with
  | selection =>
    obtain ⟨input, clause, hinput, hclause, rfl⟩ := plan_selection_iff.mp hp
    rw [Plan.run] at hr
    split at hr
    · cases hr
    · next s hs => exact ⟨input, s, hinput, hs, clause, hclause, hr⟩
  | projection =>
    obtain ⟨input, names, hinput, hnames, rfl⟩ := plan_projection_iff.mp hp
    rw [Plan.run] at hr
    split at hr
    · cases hr
    · next s hs => exact ⟨input, s, hinput, hs, names, hnames, mapError_eq_ok.mp hr⟩
  | rename =>
    obtain ⟨input, map, hinput, hmap, rfl⟩ := plan_rename_iff.mp hp
    rw [Plan.run] at hr
    split at hr
    · cases hr
    · next s hs => exact ⟨input, s, hinput, hs, map, hmap, mapError_eq_ok.mp hr⟩

theorem eval_unary_iff {op : Unary} {parameter : String} {t : Tree} :
    (unary op parameter t).eval env = .ok r ↔ ∃ s, t.eval env = .ok s ∧ op.Gives parameter s r := by
  constructor
  · intro h
    obtain ⟨p, hp, hr⟩ := eval_eq_ok.mp h
    obtain ⟨input, s, hinput, hs, gives⟩ := gives_of_run hp hr
    exact ⟨s, eval_eq_ok.mpr ⟨input, hinput, hs⟩, gives⟩
  · rintro ⟨s, h, gives⟩
    obtain ⟨input, hinput, hs⟩ := eval_eq_ok.mp h
    cases op with
    | selection =>
      obtain ⟨clause, hclause, hr⟩ := gives
      exact eval_eq_ok.mpr ⟨_, plan_selection hinput hclause, by rw [Plan.run, hs]; exact hr⟩
    | projection =>
      obtain ⟨names, hnames, hr⟩ := gives
      exact eval_eq_ok.mpr ⟨_, plan_projection hinput hnames,
        by rw [Plan.run, hs]; exact mapError_eq_ok.mpr hr⟩
    | rename =>
      obtain ⟨map, hmap, hr⟩ := gives
      exact eval_eq_ok.mpr ⟨_, plan_rename hinput hmap, by rw [Plan.run, hs]; exact mapError_eq_ok.mpr hr⟩

theorem eval_binary_iff {op : Binary} {left right : Tree} :
    (binary op left right).eval env = .ok r ↔
      ∃ a b, left.eval env = .ok a ∧ right.eval env = .ok b ∧ a.apply op b = .ok r := by
  constructor
  · intro h
    obtain ⟨p, hp, hr⟩ := eval_eq_ok.mp h
    obtain ⟨p, q, hleft, hright, rfl⟩ := plan_binary_iff.mp hp
    rw [Plan.run] at hr
    split at hr
    · cases hr
    · next a ha =>
      split at hr
      · cases hr
      · next b hb =>
        exact ⟨a, b, eval_eq_ok.mpr ⟨p, hleft, ha⟩, eval_eq_ok.mpr ⟨q, hright, hb⟩,
          mapError_eq_ok.mp hr⟩
  · rintro ⟨a, b, ha, hb, hr⟩
    obtain ⟨p, hp, ha⟩ := eval_eq_ok.mp ha
    obtain ⟨q, hq, hb⟩ := eval_eq_ok.mp hb
    refine eval_eq_ok.mpr ⟨_, plan_binary op hp hq, ?_⟩
    rw [Plan.run, ha, hb]
    exact mapError_eq_ok.mpr hr

/-- The parts of a query that are operators with their operands. -/
def operations : Tree → List Tree
  | relation _ => []
  | unary op parameter operand => operand.operations ++ [unary op parameter operand]
  | binary op left right => left.operations ++ right.operations ++ [binary op left right]

theorem sizeOf_le_of_mem_operations {t u : Tree} (hu : u ∈ t.operations) : sizeOf u ≤ sizeOf t := by
  induction t with
  | relation name => cases hu
  | unary op parameter operand ih =>
    rcases List.mem_append.mp hu with hu | hu
    · have := ih hu
      simp only [unary.sizeOf_spec]
      omega
    · rw [List.mem_singleton.mp hu]
  | binary op left right ihl ihr =>
    simp only [binary.sizeOf_spec]
    rcases List.mem_append.mp hu with hu | hu
    · rcases List.mem_append.mp hu with hu | hu
      · have := ihl hu
        omega
      · have := ihr hu
        omega
    · rw [List.mem_singleton.mp hu, binary.sizeOf_spec]

theorem eval_of_mem_operations {t u : Tree} (h : t.eval env = .ok r) (hu : u ∈ t.operations) :
    ∃ s, u.eval env = .ok s := by
  induction t generalizing r with
  | relation name => cases hu
  | unary op parameter operand ih =>
    rcases List.mem_append.mp hu with hu | hu
    · obtain ⟨s, hs, -⟩ := eval_unary_iff.mp h
      exact ih hs hu
    · exact ⟨r, List.mem_singleton.mp hu ▸ h⟩
  | binary op left right ihl ihr =>
    obtain ⟨a, b, ha, hb, -⟩ := eval_binary_iff.mp h
    rcases List.mem_append.mp hu with hu | hu
    · rcases List.mem_append.mp hu with hu | hu
      · exact ihl ha hu
      · exact ihr hb hu
    · exact ⟨r, List.mem_singleton.mp hu ▸ h⟩

end Tree

end Query

namespace Program

variable {env env' : Environment} {steps : List Step}

/-! ## Definitions -/

def definitions (steps : List Step) : Name.Map Tree :=
  steps.foldl (fun defs s => defs.insert s.name (inline defs s.expression)) .empty

/-- The query of the last step, in which the names of all earlier steps are replaced. -/
def expand (defs : Name.Map Tree) : List Step → Option Tree
  | [] => none
  | [s] => some (inline defs s.expression)
  | s :: steps => expand (defs.insert s.name (inline defs s.expression)) steps

theorem definitions_append (steps : List Step) (s : Step) : definitions (steps ++ [s]) =
    (definitions steps).insert s.name (inline (definitions steps) s.expression) := by
  rw [definitions, List.foldl_append]
  rfl

theorem expand_append (steps : List Step) (s : Step) :
    expand .empty (steps ++ [s]) = some (inline (definitions steps) s.expression) := by
  have general (defs : Name.Map Tree) : expand defs (steps ++ [s]) = some (inline
      (steps.foldl (fun defs s => defs.insert s.name (inline defs s.expression)) defs)
      s.expression) := by
    induction steps generalizing defs with
    | nil => rfl
    | cons first steps ih =>
      have unfolded : expand defs (first :: (steps ++ [s])) =
          expand (defs.insert first.name (inline defs first.expression)) (steps ++ [s]) := by
        cases steps <;> rfl
      rw [List.cons_append, unfolded, ih, List.foldl_cons]
  exact general .empty

theorem inline_empty (t : Tree) : inline .empty t = t := by
  induction t with
  | relation name => rfl
  | unary op parameter operand ih => rw [inline, ih]
  | binary op left right ihl ihr => rw [inline, ihl, ihr]

/-- A definition of a name that a query does not have changes nothing in it. -/
theorem inline_insert {defs : Name.Map Tree} {name : String} (u : Tree) {t : Tree}
    (h : name ∉ t.leaves) : inline (defs.insert name u) t = inline defs t := by
  induction t with
  | relation n =>
    have ne : n ≠ name := fun same => h (List.mem_singleton.mpr same.symm)
    rw [inline, inline, Name.Map.get?_insert, if_neg ne]
  | unary op parameter operand ih => rw [inline, inline, ih h]
  | binary op left right ihl ihr =>
    have hl : name ∉ left.leaves := fun mem => h (List.mem_append_left _ mem)
    have hr : name ∉ right.leaves := fun mem => h (List.mem_append_right _ mem)
    rw [inline, inline, ihl hl, ihr hr]

/-! ## Runs -/

/-- Evaluates the steps one after the other, and binds their names to the results. -/
def run (env : Environment) (steps : List Step) : Except Failure Environment :=
  steps.foldlM (fun env s => (s.expression.eval env).bind (env.bind s.name)) env

/-- The names that are defined are bound to what their definitions give, and all others are as they
were. -/
def Binds (env env' : Environment) (defs : Name.Map Tree) : Prop :=
  ∀ name, match defs.get? name with
    | some u => ∃ r, u.eval env = .ok r ∧ env'.get? name = some r
    | none => env'.get? name = env.get? name

theorem binds_empty (env : Environment) : Binds env env .empty := fun _ => rfl

/-- Names of steps stand for their definitions. -/
theorem Binds.eval_eq_ok {defs : Name.Map Tree} (binds : Binds env env' defs) {t : Tree}
    {r : Relation} : t.eval env' = .ok r ↔ (inline defs t).eval env = .ok r := by
  -- the two environments differ at the names of steps only
  induction t generalizing r with
  | relation name =>
    have bound := binds name
    rw [Tree.eval_relation_iff, inline]
    cases h : defs.get? name with
    | some u =>
      rw [h] at bound
      obtain ⟨s, hs, bound⟩ := bound
      rw [bound, Option.getD_some, hs, Option.some_inj, Except.ok.injEq]
    | none =>
      rw [h] at bound
      rw [bound, Option.getD_none, Tree.eval_relation_iff]
  | unary op parameter operand ih =>
    rw [inline, Tree.eval_unary_iff, Tree.eval_unary_iff]
    simp only [ih]
  | binary op left right ihl ihr =>
    rw [inline, Tree.eval_binary_iff, Tree.eval_binary_iff]
    simp only [ihl, ihr]

theorem Binds.insert {defs : Name.Map Tree} (binds : Binds env env' defs) {t : Tree} {r : Relation}
    (h : t.eval env' = .ok r) (name : String) :
    Binds env (env'.insert name r) (defs.insert name (inline defs t)) := by
  intro other
  rw [Name.Map.get?_insert, Name.Map.get?_insert]
  by_cases same : other = name
  · rw [if_pos same, if_pos same]
    exact ⟨r, binds.eval_eq_ok.mp h, rfl⟩
  · rw [if_neg same, if_neg same]
    exact binds other

theorem bind_eq_ok_iff {name : String} {r : Relation} :
    env.bind name r = .ok env' ↔ Name.isValid name = true ∧ env' = env.insert name r := by
  rw [Environment.bind, Environment.checkName]
  split
  · next valid => simp [Except.map, valid, eq_comm]
  · next invalid => simp [Except.map, invalid]

theorem run_append_iff {s : Step} : run env (steps ++ [s]) = .ok env' ↔
    ∃ env₁ r, run env steps = .ok env₁ ∧ s.expression.eval env₁ = .ok r ∧
      Name.isValid s.name = true ∧ env' = env₁.insert s.name r := by
  have last (env₁ : Environment) : [s].foldlM (fun env s => (s.expression.eval env).bind
      (env.bind s.name)) env₁ = .ok env' ↔ ∃ r, s.expression.eval env₁ = .ok r ∧
        Name.isValid s.name = true ∧ env' = env₁.insert s.name r := by
    rw [List.foldlM_cons]
    simp only [List.foldlM_nil]
    rw [bind_pure, bind_eq_ok]
    simp only [bind_eq_ok_iff]
  rw [run, List.foldlM_append]
  change Except.bind _ _ = _ ↔ _
  rw [bind_eq_ok]
  simp only [last]
  exact ⟨fun ⟨env₁, h, r, rest⟩ => ⟨env₁, r, h, rest⟩, fun ⟨env₁, r, h, rest⟩ => ⟨env₁, h, r, rest⟩⟩

theorem binds_of_run (h : run env steps = .ok env') : Binds env env' (definitions steps) := by
  induction steps using List.reverseRecOn generalizing env' with
  | nil =>
    obtain rfl := Except.ok.inj h
    exact binds_empty env
  | append_singleton steps s ih =>
    obtain ⟨env₁, r, before, hr, -, rfl⟩ := run_append_iff.mp h
    rw [definitions_append]
    exact (ih before).insert hr s.name

end Program

end RelationalAlgebra
