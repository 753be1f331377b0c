import RelationalAlgebra.Environment
import RelationalAlgebra.Storage.Format
/-!
# Directories of relations

The files of a directory that hold relations, each under the stem of its name.  They are read in the order
of their names up to the first that cannot be read, and the relations read so far are bound in any case.
-/

namespace RelationalAlgebra

/-- What reading a directory gives: the relations up to the first failure, and that failure. -/
structure Loaded where
  relations : List (String × Relation)
  failure? : Option Failure

namespace Loaded

def fail (failure : Failure) : Loaded := ⟨[], some failure⟩

/-- The file names that stand for a relation: those of a known format whose stem is a valid name. -/
def candidates (files : List String) : List (String × Format) :=
  files.filterMap fun file =>
    match Format.ofPath? file with
    | .ok format => if Name.isValid (Path.stem file) then some (file, format) else none
    | .error _ => none

/-- The relations in what was found under file names; what is no file is passed over. -/
def ofFound : List (String × Format × Found) → Loaded
  | [] => ⟨[], none⟩
  | (file, format, found) :: rest =>
    if found.isFile then
      match format.read found with
      | .error failure => fail failure
      | .ok r =>
        let others := ofFound rest
        ⟨(Path.stem file, r) :: others.relations, others.failure?⟩
    else ofFound rest

def names (loaded : Loaded) : Except Failure (List String) :=
  match loaded.failure? with
  | some failure => .error failure
  | none => .ok (loaded.relations.map Prod.fst)

def bindAll (loaded : Loaded) (env : Environment) : Environment :=
  loaded.relations.foldl (fun env (name, r) => env.insert name r) env

variable {m : Type → Type} [Monad m] [FileSystem m]

def ofDirectory (path : String) : m Loaded := do
  match ← FileSystem.list path with
  | none => pure (fail .io)
  | some files =>
    let found ← (candidates files).mapM fun (file, format) => do
      pure (file, format, ← FileSystem.look (Path.inside path file))
    pure (ofFound found)

end Loaded

namespace Environment

variable {m : Type → Type} [Monad m] [FileSystem m]

def load (env : Environment) (name path : String) : m (Except Failure Environment) := do
  pure ((← Relation.load path) >>= env.bind name)

def loadDirectory (env : Environment) (path : String) :
    m (Environment × Except Failure (List String)) := do
  let loaded ← Loaded.ofDirectory path
  pure (loaded.bindAll env, loaded.names)

end Environment

end RelationalAlgebra
