import RelationalAlgebra.Storage.Document
import RelationalAlgebra.Storage.FileSystem
import RelationalAlgebra.Storage.Path
/-!
# Formats of files

A relation is kept in a file as comma-separated values or as a JSON document.  The extension of the file
says which, in letters of either case.
-/

namespace RelationalAlgebra

inductive Format where
  | csv
  | json
deriving DecidableEq

namespace Format

def all : List Format := [csv, json]

def extension : Format → String
  | csv => "csv"
  | json => "json"

def ofPath? (path : String) : Except Failure Format :=
  let extension? := ((Path.name? path).bind Path.extension?).map String.toLower
  match all.find? fun format => some format.extension = extension? with
  | some format => .ok format
  | none => .error (.unknownFormat path)

/-- The relation in what a path leads to.  A directory can be opened as comma-separated values, but has no
records. -/
def read (format : Format) (found : Found) : Except Failure Relation :=
  match format, found with
  | .csv, .missing => .error .io
  | .csv, .directory => .error .csv
  | .csv, .file bytes => Relation.ofCsv? bytes
  | .json, found =>
    match found.text? with
    | none => .error .io
    | some text => Relation.ofJson? text

def write (format : Format) (r : Relation) : String :=
  match format with
  | .csv => r.toCsv
  | .json => r.toJson

end Format

namespace Relation

variable {m : Type → Type} [Monad m] [FileSystem m]

def load (path : String) : m (Except Failure Relation) :=
  match Format.ofPath? path with
  | .error failure => pure (.error failure)
  | .ok format => do pure (format.read (← FileSystem.look path))

def save (r : Relation) (path : String) : m (Except Failure Unit) :=
  match Format.ofPath? path with
  | .error failure => pure (.error failure)
  | .ok format => do
    if ← FileSystem.store path (format.write r) then pure (.ok ()) else pure (.error .io)

end Relation

end RelationalAlgebra
