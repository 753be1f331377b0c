import RelationalAlgebra.Rewrite.Optimizer
import RelationalAlgebra.Storage.FileSystem
import RelationalAlgebra.Storage.Path
import RelationalAlgebra.Storage.Toml.Document
import RelationalAlgebra.Storage.Toml.Writing
/-!
# Configurations

A configuration says which rules rewrite queries, which directory of relations is loaded and what is logged.
It is kept as a TOML document of three tables.  Every table and every key may be missing, and others are
not allowed.
-/

namespace RelationalAlgebra

/-- The choices of a configuration; those that are missing are left to the defaults. -/
structure Configuration where
  structural? : Option Bool := none
  schematic? : Option Bool := none
  trace? : Option Bool := none
  directory? : Option String := none
  logLevel? : Option String := none
deriving DecidableEq

namespace Configuration

def defaultLogLevel : String := "warn"

/-- How queries are rewritten: with all rules and without a trace, unless the configuration differs. -/
def settings (c : Configuration) : Rewrite.Settings :=
  ⟨c.structural?.getD true, c.schematic?.getD true, c.trace?.getD false⟩

def logLevel (c : Configuration) : String := c.logLevel?.getD defaultLogLevel

inductive Section where
  | optimizer
  | data
  | logging
deriving DecidableEq

namespace Section

def all : List Section := [optimizer, data, logging]

def name : Section → String
  | optimizer => "optimizer"
  | data => "data"
  | logging => "logging"

def keys : Section → List String
  | optimizer => ["general", "specific", "trace"]
  | data => ["dir"]
  | logging => ["level"]

def ofName? (name : String) : Option Section := all.find? fun s => s.name = name

end Section

/-- The configuration with one more choice, which must have been missing. -/
def assign? (c : Configuration) (place : Section) (key : String) (value : Toml.Value) :
    Option Configuration :=
  match place, key, value with
  | .optimizer, "general", .bool b =>
    if c.structural?.isNone then some { c with structural? := some b } else none
  | .optimizer, "specific", .bool b =>
    if c.schematic?.isNone then some { c with schematic? := some b } else none
  | .optimizer, "trace", .bool b =>
    if c.trace?.isNone then some { c with trace? := some b } else none
  | .data, "dir", .text s =>
    if c.directory?.isNone then some { c with directory? := some s } else none
  | .logging, "level", .text s =>
    if c.logLevel?.isNone then some { c with logLevel? := some s } else none
  | _, _, _ => none

def assignEntries? (c : Configuration) (place : Section) :
    List (List String × Toml.Value) → Option Configuration
  | [] => some c
  | ([key], value) :: rest => (c.assign? place key value).bind fun c => c.assignEntries? place rest
  | _ :: _ => none

/-- The configuration with the items of a list for the keys of a table; items beyond them do not count. -/
def assignItems? (c : Configuration) (place : Section) :
    List String → List Toml.Value → Option Configuration
  | [], _ => some c
  | key :: keys, item :: items =>
    (c.assign? place key item).bind fun c => c.assignItems? place keys items
  | _ :: _, [] => none

/-- How far a document has been read: `current` is the table of the last header, the tables in `closed` take
no further header, and those in `dotted` were given keys before any header. -/
structure Progress where
  configuration : Configuration := {}
  current : Option Section := none
  closed : List Section := []
  dotted : List Section := []

namespace Progress

def define? (p : Progress) (place : Section) (value : Toml.Value) : Option Configuration :=
  if p.closed.contains place || p.dotted.contains place then none
  else
    match value with
    | .table entries => p.configuration.assignEntries? place entries
    | .list items => p.configuration.assignItems? place place.keys items
    | _ => none

def step? (p : Progress) : Toml.Statement → Option Progress
  | .header [name] => do
    let place ← Section.ofName? name
    if p.closed.contains place || p.dotted.contains place then none
    else some { p with current := some place, closed := place :: p.closed }
  | .header _ => none
  | .assign path value =>
    match p.current, path with
    | some place, [key] =>
      (p.configuration.assign? place key value).map fun c => { p with configuration := c }
    | none, [name] => do
      let place ← Section.ofName? name
      let c ← p.define? place value
      some { p with configuration := c, closed := place :: p.closed }
    | none, [name, key] => do
      let place ← Section.ofName? name
      if p.closed.contains place then none
      else
        let c ← p.configuration.assign? place key value
        some { p with configuration := c, dotted := place :: p.dotted }
    | _, _ => none

end Progress

def ofText? (text : String) : Option Configuration := do
  let statements ← Toml.document? text
  let p ← statements.foldlM Progress.step? {}
  some p.configuration

def line (key value : String) : String := key ++ " = " ++ value ++ "\n"

def entries (c : Configuration) : Section → List (Option String)
  | .optimizer =>
    let flag (b : Bool) := if b then "true" else "false"
    [c.structural?.map fun b => flag b, c.schematic?.map fun b => flag b, c.trace?.map fun b => flag b]
  | .data => [c.directory?.map Toml.writeText]
  | .logging => [c.logLevel?.map Toml.writeText]

def writeSection (c : Configuration) (place : Section) : String :=
  let lines := List.zipWith (fun key value? => (value?.map (line key)).getD "") place.keys
    (c.entries place)
  "[" ++ place.name ++ "]\n" ++ String.join lines

def write (c : Configuration) : String :=
  String.intercalate "\n" (Section.all.map c.writeSection)

inductive Fault where
  | unreadable
  | malformed
  | directory
  | unwritable
deriving DecidableEq

namespace Fault

def code : Fault → String
  | unreadable => "ConfigRead"
  | malformed => "ConfigParse"
  | directory => "ConfigCreateDir"
  | unwritable => "ConfigWrite"

end Fault

/-- The configuration in what a path leads to; where there is nothing, all choices are missing. -/
def ofFound : Found → Except Fault Configuration
  | .missing => .ok {}
  | found =>
    match found.text? with
    | none => .error .unreadable
    | some text =>
      match ofText? text with
      | none => .error .malformed
      | some c => .ok c

variable {m : Type → Type} [Monad m] [FileSystem m]

def load (path : String) : m (Except Fault Configuration) := do
  pure (ofFound (← FileSystem.look path))

def save (c : Configuration) (path : String) : m (Except Fault Unit) := do
  if ← FileSystem.createDirectories (Path.parent path) then
    if ← FileSystem.store path c.write then pure (.ok ()) else pure (.error .unwritable)
  else pure (.error .directory)

end Configuration

end RelationalAlgebra
