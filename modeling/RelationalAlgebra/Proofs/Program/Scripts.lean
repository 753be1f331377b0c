import RelationalAlgebra.Proofs.Program.Printing
/-!
# Running scripts

The lines of a script can be run one after the other, each in the environment with the results so far, or
their queries can be put in the place of the names first and the one query that this gives be evaluated.  A
name means what the line above gave it, and where no line did, what the environment gives it; both readings
agree on this, however often a name is used again.
-/

namespace RelationalAlgebra.Program

open Query (Tree)

variable {env env₀ env' : Environment} {defs : Name.Map Tree} {line : String} {lines : List String}
  {r : Relation}

/-! ## Running lines -/

def answer (env : Environment) (query : String) : Except Failure Relation :=
  ((Tree.ofText? query).mapError Failure.ofReadFault).bind (Tree.eval env)

def assign (env : Environment) (line : String) : Except Failure Environment :=
  match assignment? line with
  | none => .error (.parse (.notAssignment line))
  | some (name, query) => (answer env query).bind (env.bind name)

def lastQuery (line : String) : String :=
  match assignment? line with
  | some (_, query) => query
  | none => line

/-- Runs the lines of a script; the last one gives the result. -/
def runLines (env : Environment) : List String → Except Failure Relation
  | [] => .error (.parse .emptyProgram)
  | [last] => answer env (lastQuery last)
  | line :: lines => (assign env line).bind fun env => runLines env lines

def runScript (env : Environment) (text : String) : Except Failure Relation :=
  runLines env (scriptLines text)

/-- Runs all lines of a script but the last. -/
def assignments (env : Environment) (lines : List String) : Except Failure Environment :=
  lines.dropLast.foldlM assign env

/-! ## One line -/

theorem isValid_of_assignment? {name query : String} (h : assignment? line = some (name, query)) :
    Name.isValid name = true := by
  unfold assignment? at h
  split at h
  · cases h
  · simp only at h
    split at h
    · next accepted =>
      obtain ⟨rfl, -⟩ := Prod.mk.inj (Option.some.inj h)
      exact accepted.2
    · cases h

theorem answer_eq_ok_iff {query : String} :
    answer env query = .ok r ↔ ∃ t, Tree.ofText? query = .ok t ∧ t.eval env = .ok r := by
  simp only [answer, bind_eq_ok, mapError_eq_ok]

theorem readLine_eq_ok_iff {query : String} {u : Tree} :
    readLine defs query = .ok u ↔ ∃ t, Tree.ofText? query = .ok t ∧ inline defs t = u := by
  rw [readLine, mapError_eq_ok, map_eq_ok]

/-- The query with all names replaced gives in the first environment what the query gives in the one with
the results. -/
theorem Binds.answer_iff (binds : Binds env₀ env defs) {query : String} :
    answer env query = .ok r ↔ ∃ u, readLine defs query = .ok u ∧ u.eval env₀ = .ok r := by
  simp only [answer_eq_ok_iff, readLine_eq_ok_iff, binds.eval_eq_ok]
  constructor
  · rintro ⟨t, read, evaluates⟩
    exact ⟨_, ⟨t, read, rfl⟩, evaluates⟩
  · rintro ⟨_, ⟨t, read, rfl⟩, evaluates⟩
    exact ⟨t, read, evaluates⟩

theorem assign_eq_ok_iff : assign env line = .ok env' ↔ ∃ name query t r,
    assignment? line = some (name, query) ∧ Tree.ofText? query = .ok t ∧ t.eval env = .ok r ∧
      env' = env.insert name r := by
  rw [assign]
  cases h : assignment? line with
  | none => simp
  | some assigned =>
    obtain ⟨name, query⟩ := assigned
    have valid := isValid_of_assignment? h
    simp only [bind_eq_ok, answer_eq_ok_iff, bind_eq_ok_iff, valid, true_and]
    constructor
    · rintro ⟨r, ⟨t, read, evaluates⟩, rfl⟩
      exact ⟨name, query, t, r, rfl, read, evaluates, rfl⟩
    · rintro ⟨_, _, t, r, same, read, evaluates, rfl⟩
      obtain ⟨rfl, rfl⟩ := Prod.mk.inj (Option.some.inj same)
      exact ⟨r, ⟨t, read, evaluates⟩, rfl⟩

/-! ## All lines -/

theorem runLines_cons (ne : lines ≠ []) :
    runLines env (line :: lines) = (assign env line).bind fun env => runLines env lines := by
  cases lines with
  | nil => exact absurd rfl ne
  | cons next lines => rfl

theorem assignments_cons (ne : lines ≠ []) :
    assignments env (line :: lines) = (assign env line).bind fun env => assignments env lines := by
  cases lines with
  | nil => exact absurd rfl ne
  | cons next lines =>
    rw [assignments, List.dropLast_cons_cons, List.foldlM_cons]
    rfl

theorem resolve_last : resolve defs [line] = readLine defs (lastQuery line) := by
  rw [resolve, lastQuery]
  cases assignment? line <;> rfl

/-- A line is read as the definition of what running it binds its name to. -/
theorem Binds.exists_of_assign (binds : Binds env₀ env defs) (h : assign env line = .ok env') (ne : lines ≠ []) :
    ∃ defs', Binds env₀ env' defs' ∧ resolve defs (line :: lines) = resolve defs' lines := by
  obtain ⟨name, query, t, r, assigned, read, evaluates, rfl⟩ := assign_eq_ok_iff.mp h
  have line : readLine defs query = .ok (inline defs t) := readLine_eq_ok_iff.mpr ⟨t, read, rfl⟩
  refine ⟨_, binds.insert evaluates name, ?_⟩
  rw [resolve_cons defs ne assigned, line]
  rfl

/-- Running lines gives a relation exactly if all assignments among them have a result and the query in
which the names are replaced evaluates to the relation. -/
theorem Binds.runLines_eq_ok_iff (binds : Binds env₀ env defs) : runLines env lines = .ok r ↔
    (∃ env', assignments env lines = .ok env') ∧
      ∃ t, resolve defs lines = .ok t ∧ t.eval env₀ = .ok r := by
  -- each line that is run extends the environment and the definitions alike
  induction lines generalizing env defs with
  | nil => simp [runLines, resolve]
  | cons line lines ih =>
    cases lines with
    | nil =>
      rw [runLines, resolve_last, binds.answer_iff]
      exact (and_iff_right ⟨env, rfl⟩).symm
    | cons next lines =>
      have ne : next :: lines ≠ [] := List.cons_ne_nil next lines
      rw [runLines_cons ne, assignments_cons ne, bind_eq_ok]
      simp only [bind_eq_ok]
      constructor
      · rintro ⟨env₁, assigned, runs⟩
        obtain ⟨defs', binds', same⟩ := binds.exists_of_assign assigned ne
        obtain ⟨⟨env', later⟩, denotes⟩ := (ih binds').mp runs
        rw [same]
        exact ⟨⟨env', env₁, assigned, later⟩, denotes⟩
      · rintro ⟨⟨env', env₁, assigned, later⟩, denotes⟩
        obtain ⟨defs', binds', same⟩ := binds.exists_of_assign assigned ne
        rw [same] at denotes
        exact ⟨env₁, assigned, (ih binds').mpr ⟨⟨env', later⟩, denotes⟩⟩

/-- What the lines of a script give when they are run one after the other, the one query that the script
denotes gives in the environment alone; and if that query gives a relation, so do the lines, unless an
assignment has no result. -/
theorem script_runs_as_its_query (env : Environment) (text : String) (r : Relation) :
    runScript env text = .ok r ↔ (∃ env', assignments env (scriptLines text) = .ok env') ∧
      ∃ t, ofScript? text = .ok t ∧ t.eval env = .ok r :=
  (binds_empty env).runLines_eq_ok_iff

def once : Environment := .ofTables [("r", ["a"], [[.int 1]]), ("s", ["c"], [[.int 3]])]

/-- A script that gives `r` a new meaning in terms of its old one, and `s` a new meaning after `t` has taken
its old one. -/
def renewed : String := "t = s\nr = ρ a➡b (r)\n\ns = σ b == 1 (r)\ns * t"

theorem renewed_runs_as_its_query : ∃ r t, runScript once renewed = .ok r ∧
    r.names = ["b", "c"] ∧ r.rows = [[.int 1, .int 3]] ∧
      ofScript? renewed = .ok t ∧ t.leaves = ["r", "s"] ∧ t.eval once = .ok r := by
  have runs : ∃ r, runScript once renewed = .ok r ∧
      r.names = ["b", "c"] ∧ r.rows = [[.int 1, .int 3]] := by decide +kernel
  have denotes : ∃ t, ofScript? renewed = .ok t ∧ t.leaves = ["r", "s"] := by decide +kernel
  obtain ⟨r, hr, names, rows⟩ := runs
  obtain ⟨-, t, ht, evaluates⟩ := (script_runs_as_its_query once renewed r).mp hr
  obtain ⟨u, hu, leaves⟩ := denotes
  obtain rfl := Except.ok.inj (ht.symm.trans hu)
  exact ⟨r, t, hr, names, rows, ht, leaves, evaluates⟩

end RelationalAlgebra.Program
