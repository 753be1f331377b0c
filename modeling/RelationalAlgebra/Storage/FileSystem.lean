/-!
# File systems

What the library asks of a file system: to look at what a path leads to, to list a directory, to write a
file and to create directories.  Whatever runs on a file system runs on any that does this.
-/

namespace RelationalAlgebra

inductive Found where
  | missing
  | directory
  | file (bytes : List UInt8)
deriving DecidableEq

namespace Found

def isFile : Found → Bool
  | missing | directory => false
  | file _ => true

def text? : Found → Option String
  | missing | directory => none
  | file bytes => String.fromUTF8? ⟨bytes.toArray⟩

end Found

class FileSystem (m : Type → Type) where
  look (path : String) : m Found
  /-- The names in a directory, in ascending order; none if the path does not lead to a directory. -/
  list (path : String) : m (Option (List String))
  /-- Writes a file, in place of the one that was there; false if that cannot be done. -/
  store (path text : String) : m Bool
  /-- Creates the directories of a path that are missing; false if that cannot be done. -/
  createDirectories (path : String) : m Bool

end RelationalAlgebra
