import RelationalAlgebra.Name.Map
import RelationalAlgebra.Storage.FileSystem
import RelationalAlgebra.Storage.Path
/-!
# Files in memory

A file system that is a value: the directories and the files below one directory, each at its place, which
is the list of names that leads to it.  Nothing above that directory can be reached.
-/

namespace RelationalAlgebra

inductive Node where
  | directory
  | file (text : String)
deriving DecidableEq

structure Files where
  nodes : Name.Map Node

namespace Files

abbrev Place := List String

def empty : Files := ⟨∅⟩

instance : EmptyCollection Files := ⟨empty⟩

def node? (fs : Files) (place : Place) : Option Node :=
  if place = [] then some .directory else fs.nodes.get? (Path.ofParts place)

def isDirectory (fs : Files) (place : Place) : Bool := fs.node? place = some .directory

def put (fs : Files) (place : Place) (node : Node) : Files :=
  ⟨fs.nodes.insert (Path.ofParts place) node⟩

/-- The place that the parts of a path lead to from a place.  Only from an existing directory does a part
of two dots lead anywhere. -/
def follow? (fs : Files) (place : Place) : List String → Option Place
  | [] => some place
  | part :: rest =>
    if part = Path.above then
      if place ≠ [] && fs.isDirectory place then fs.follow? place.dropLast rest else none
    else fs.follow? (place ++ [part]) rest

def place? (fs : Files) (path : String) : Option Place :=
  if path = "" || Path.isAbsolute path || path.toList.contains '\x00' then none
  else fs.follow? [] (Path.parts path)

def look (fs : Files) (path : String) : Found :=
  match (fs.place? path).bind fs.node? with
  | none => .missing
  | some .directory => .directory
  | some (.file text) =>
    if Path.endsInDirectory path then .missing else .file text.toUTF8.toList

def children (fs : Files) (place : Place) : List String :=
  fs.nodes.keys.filterMap fun path =>
    let parts := Path.parts path
    if parts.dropLast = place then parts.getLast? else none

def list (fs : Files) (path : String) : Option (List String) :=
  match fs.place? path with
  | none => none
  | some place => if fs.isDirectory place then some (Name.sorted (fs.children place)) else none

def store (fs : Files) (path text : String) : Option Files :=
  match fs.place? path with
  | none => none
  | some place =>
    if Path.endsInDirectory path || fs.isDirectory place || !fs.isDirectory place.dropLast then none
    else some (fs.put place (.file text))

/-- Creates the directories that some parts lead through from a place, up to the first that cannot be
created, and says whether there is none such. -/
def createFrom (fs : Files) (place : Place) : List String → Bool × Files
  | [] => (true, fs)
  | part :: rest =>
    if part = Path.above then if place = [] then (false, fs) else fs.createFrom place.dropLast rest
    else
      let place := place ++ [part]
      match fs.node? place with
      | some (.file _) => (false, fs)
      | some .directory => fs.createFrom place rest
      | none => (fs.put place .directory).createFrom place rest

def createDirectories (fs : Files) (path : String) : Bool × Files :=
  if Path.isAbsolute path || path.toList.contains '\x00' then (false, fs)
  else fs.createFrom [] (Path.parts path)

instance : FileSystem (StateM Files) where
  look path := do pure ((← get).look path)
  list path := do pure ((← get).list path)
  store path text := modifyGet fun fs =>
    match fs.store path text with
    | none => (false, fs)
    | some fs => (true, fs)
  createDirectories path := modifyGet fun fs => fs.createDirectories path

end Files

end RelationalAlgebra
