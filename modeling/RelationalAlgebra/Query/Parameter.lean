import RelationalAlgebra.Name.Map
import RelationalAlgebra.Query.Fault
import RelationalAlgebra.Text.Piece
/-!
# Parameters of operators

A projection names attributes, separated by commas; a renaming has entries `old➡new`, separated by
commas.  Both are read from their text and written back.
-/

namespace RelationalAlgebra.Query

def parts (parameter : String) : List (List Char) :=
  (Text.pieces ',' parameter.toList).map Text.trim

namespace Projection

def add (names : List String) (name : String) : List String :=
  if names.contains name then names else names ++ [name]

def collect (parameter : String) (names : List String) :
    List (List Char) → Except ParseFault (List String)
  | [] => .ok names
  | part :: rest =>
    let name := String.ofList part
    if Name.isValid name then collect parameter (add names name) rest
    else .error (.badAttribute name parameter)

/-- The attributes of a projection, each where it stands first. -/
def ofText? (parameter : String) : Except ParseFault (List String) :=
  collect parameter [] (parts parameter)

def write (names : List String) : String := String.intercalate "," names

end Projection

end RelationalAlgebra.Query

namespace RelationalAlgebra.Renaming

open Query

def collect (r : Renaming) : List (List Char) → Except ParseFault Renaming
  | [] => .ok r
  | part :: rest =>
    match Text.cutAt arrow part with
    | none => .error (.missingArrow (String.ofList part))
    | some (old, new) =>
      let old := String.ofList (Text.trim old)
      let new := String.ofList (Text.trim new)
      if Name.isValid old && Name.isValid new then
        if r.contains old then .error (.renamedTwice old)
        else collect (r.insert old new) rest
      else .error (.badRenaming (String.ofList part))

/-- The renaming that a parameter denotes; every old name stands there once. -/
def ofText? (parameter : String) : Except ParseFault Renaming :=
  collect Name.Map.empty (parts parameter)

def write (r : Renaming) : String :=
  String.intercalate "," (r.entries.map fun e => e.1 ++ arrow.toString ++ e.2)

end RelationalAlgebra.Renaming

