import RelationalAlgebra.Proofs.Name.Entries
import RelationalAlgebra.Storage.Directory
import RelationalAlgebra.Storage.Files
/-!
# Loading directories

The files of a directory are read one after the other, and what has been read before the first failure is
bound although loading fails.  A failed loading leaves an environment as it was exactly when all that it
bound was bound to the same relations before.
-/

namespace RelationalAlgebra

/-! ## Reading up to a failure -/

namespace Loaded

def readings (found : List (String × Format × Found)) : List (String × Except Failure Relation) :=
  (found.filter fun entry => entry.2.2.isFile).map fun (file, format, found) =>
    (Path.stem file, format.read found)

/-- What a visit of a directory has found is read up to a failure: some relations are read before it. -/
inductive Fails : Option (List (String × Format × Found)) → List (String × Relation) → Failure → Prop
  | missing : Fails none [] .io
  | unreadable {found : List (String × Format × Found)} {before : List (String × Relation)}
      {name : String} {failure : Failure} {after : List (String × Except Failure Relation)}
      (h : readings found = before.map (fun e => (e.1, .ok e.2)) ++ (name, .error failure) :: after) :
      Fails (some found) before failure

def ofVisit : Option (List (String × Format × Found)) → Loaded
  | none => fail .io
  | some found => ofFound found

theorem readings_cons (file : String) (format : Format) {found : Found} (h : found.isFile = true)
    (rest : List (String × Format × Found)) : readings ((file, format, found) :: rest) =
      (Path.stem file, format.read found) :: readings rest := by
  simp [readings, h]

theorem readings_ofFound {found : List (String × Format × Found)} {failure : Failure}
    (h : (ofFound found).failure? = some failure) : ∃ name after, readings found =
      (ofFound found).relations.map (fun e => (e.1, .ok e.2)) ++ (name, .error failure) :: after := by
  fun_induction ofFound found with
  | case1 => cases h
  | case2 file format found rest isFile failure' read =>
    obtain rfl := Option.some.inj h
    exact ⟨_, _, by rw [readings_cons file format isFile, read]; rfl⟩
  | case3 file format found rest isFile r read others ih =>
    obtain ⟨name, after, ih⟩ := ih h
    exact ⟨name, after, by rw [readings_cons file format isFile, read, ih]; rfl⟩
  | case4 file format found rest noFile ih =>
    obtain ⟨name, after, ih⟩ := ih h
    exact ⟨name, after, by simpa [readings, noFile] using ih⟩

theorem fails_ofVisit {found? : Option (List (String × Format × Found))} {failure : Failure}
    (h : (ofVisit found?).failure? = some failure) : Fails found? (ofVisit found?).relations failure := by
  cases found? with
  | none =>
    obtain rfl := Option.some.inj h
    exact .missing
  | some found =>
    obtain ⟨name, after, h⟩ := readings_ofFound h
    exact .unreadable h

theorem failure?_of_names {loaded : Loaded} {failure : Failure} (h : loaded.names = .error failure) :
    loaded.failure? = some failure := by
  unfold names at h
  split at h
  · next failed =>
    rw [failed, Except.error.inj h]
  · cases h

theorem get?_bindAll (loaded : Loaded) (env : Environment) (name : String) :
    (loaded.bindAll env).get? name = (Name.lookup name loaded.relations.reverse).or (env.get? name) :=
  Name.Map.get?_foldl_insert_eq loaded.relations env name

variable {m : Type → Type} [Monad m] [FileSystem m]

/-- Looks at the files of a directory that stand for relations, in the order of their names. -/
def visit (path : String) : m (Option (List (String × Format × Found))) := do
  match ← FileSystem.list path with
  | none => pure none
  | some files =>
    let found ← (candidates files).mapM fun (file, format) => do
      pure (file, format, ← FileSystem.look (Path.inside path file))
    pure (some found)

theorem ofDirectory_eq [LawfulMonad m] (path : String) :
    (ofDirectory path : m Loaded) = ofVisit <$> visit path := by
  unfold ofDirectory visit
  rw [map_bind]
  congr 1
  funext files?
  cases files? with
  | none => simp [ofVisit]
  | some files => simp [ofVisit]

end Loaded

/-! ## Failed loading -/

namespace Environment

open Loaded (visit ofVisit)

theorem loadDirectory_eq {m : Type → Type} [Monad m] [LawfulMonad m] [FileSystem m] (env : Environment)
    (path : String) : (env.loadDirectory path : m (Environment × Except Failure (List String))) =
      (fun found? => ((ofVisit found?).bindAll env, (ofVisit found?).names)) <$> visit path := by
  unfold loadDirectory
  rw [Loaded.ofDirectory_eq]
  simp

theorem failed_loadDirectory_keeps_iff {σ : Type} [FileSystem (StateM σ)] {env env' : Environment}
    {path : String} {s : σ} {failure : Failure}
    (h : ((env.loadDirectory path : StateM σ _).run s).1 = (env', .error failure)) :
    ∃ before, Loaded.Fails ((visit path : StateM σ _).run s).1 before failure ∧
      (∀ name, env'.get? name = (Name.lookup name before.reverse).or (env.get? name)) ∧
      (env' = env ↔ ∀ name r, Name.lookup name before.reverse = some r → env.get? name = some r) := by
  rw [loadDirectory_eq, StateT.run_map] at h
  obtain ⟨bound, failed⟩ := Prod.mk.inj h
  have look (name : String) := Loaded.get?_bindAll (ofVisit ((visit path : StateM σ _).run s).1) env name
  rw [bound] at look
  refine ⟨_, Loaded.fails_ofVisit (Loaded.failure?_of_names failed), look, ?_, fun same => ?_⟩
  · rintro rfl name r last
    rw [look, last]
    rfl
  · refine Name.Map.eq_of_get? fun name => ?_
    rw [look]
    cases last : Name.lookup name (ofVisit ((visit path : StateM σ _).run s).1).relations.reverse with
    | none => rfl
    | some r => exact (same name r last).symm

/-- A directory whose first file is a relation and whose second file is none. -/
def tornDirectory : Files :=
  ((Files.empty.put ["d"] .directory).put ["d", "a.csv"] (.file "x\n1\n")).put ["d", "b.csv"]
    (.file "x\n1,2\n")

def afterLoading (env : Environment) (path : String) (fs : Files) : Environment :=
  ((env.loadDirectory path : StateM Files _).run fs).1.1

/-- Loading fails again, but now all that it binds is bound. -/
theorem failed_loadDirectory_keeps_torn :
    let env := afterLoading ∅ "d" tornDirectory
    ((env.loadDirectory "d" : StateM Files _).run tornDirectory).1 = (env, .error .csv) ∧
      ∃ before, Loaded.Fails ((visit "d" : StateM Files _).run tornDirectory).1 before .csv ∧
        (∀ name, env.get? name = (Name.lookup name before.reverse).or (env.get? name)) ∧
        (env = env ↔ ∀ name r, Name.lookup name before.reverse = some r → env.get? name = some r) := by
  have failed : (((afterLoading ∅ "d" tornDirectory).loadDirectory "d" : StateM Files _).run
      tornDirectory).1 = (afterLoading ∅ "d" tornDirectory, .error .csv) := by decide +kernel
  exact ⟨failed, failed_loadDirectory_keeps_iff failed⟩

/-- The first file stays bound when the second one cannot be read. -/
theorem first_file_stays_bound :
    ((Environment.loadDirectory ∅ "d" : StateM Files _).run tornDirectory).1.2 = .error .csv ∧
      (afterLoading ∅ "d" tornDirectory).keys = ["a"] ∧ afterLoading ∅ "d" tornDirectory ≠ ∅ := by
  decide +kernel

end Environment

end RelationalAlgebra
