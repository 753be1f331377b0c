import RelationalAlgebra.Text.Piece
/-!
# Paths

A path is a text whose parts stand between slashes.  Empty parts and single dots lead nowhere and do not
count, two dots lead to the directory above.  The extension of a file is what follows the last dot of its
name, and the stem is what stands before it; a dot that opens the name is no such dot.
-/

namespace RelationalAlgebra.Path

def above : String := ".."

def parts (path : String) : List String :=
  ((Text.pieces '/' path.toList).map String.ofList).filter fun part => part ≠ "" && part ≠ "."

def isAbsolute (path : String) : Bool := path.toList.head? = some '/'

/-- Whether a path cannot lead to a file: it ends in a slash or in dots alone. -/
def endsInDirectory (path : String) : Bool :=
  ["", ".", above].contains (String.ofList ((Text.pieces '/' path.toList).getLastD []))

def ofParts (parts : List String) : String := String.intercalate "/" parts

def parent (path : String) : String :=
  (if isAbsolute path then "/" else "") ++ ofParts (parts path).dropLast

def inside (directory name : String) : String := directory ++ "/" ++ name

def name? (path : String) : Option String := (parts path).getLast?.filter (· ≠ above)

def splitName (name : String) : String × Option String :=
  match Text.cutAt '.' name.toList.reverse with
  | none | some (_, []) => (name, none)
  | some (after, before) => (String.ofList before.reverse, some (String.ofList after.reverse))

def stem (name : String) : String := (splitName name).1

def extension? (name : String) : Option String := (splitName name).2

end RelationalAlgebra.Path
