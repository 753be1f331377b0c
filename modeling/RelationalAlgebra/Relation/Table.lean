import RelationalAlgebra.Relation.Basic
import RelationalAlgebra.Text.Blank
/-!
# Tables

A relation is shown as a table: a line of names, a rule, and a line for each row.  The columns are as
wide as their widest text, and no line ends with blanks.
-/

namespace RelationalAlgebra.Relation

def widths (lines : List (List String)) : List Nat → List Nat
  | start => lines.foldl (fun ws line => List.zipWith (fun w s => max w s.length) ws line) start

def padTo (width : Nat) (s : String) : String := s ++ "".pushn ' ' (width - s.length)

def tableLine (widths : List Nat) (line : List String) : String :=
  Text.trimmedEnd (String.intercalate " | " (List.zipWith padTo widths line)) ++ "\n"

def table (r : Relation) : String :=
  let lines := r.rows.map fun row => row.map Cell.write
  let widths := widths lines (r.names.map String.length)
  let rule := String.intercalate "-+-" (widths.map fun w => "".pushn '-' w) ++ "\n"
  tableLine widths r.names ++ rule ++ String.join (lines.map (tableLine widths))

end RelationalAlgebra.Relation
