/-!
# Pieces of a text

Cutting a text at a separator character and into lines.  The pieces of a text, put together again
with the separator between them, are the text.
-/

namespace RelationalAlgebra.Text

/-- The stretches of text between the separators; there is always at least one. -/
def pieces (sep : Char) : List Char → List (List Char)
  | [] => [[]]
  | c :: cs =>
    if c = sep then [] :: pieces sep cs
    else
      match pieces sep cs with
      | [] => [[c]]
      | piece :: rest => (c :: piece) :: rest

def cutAt (sep : Char) : List Char → Option (List Char × List Char)
  | [] => none
  | c :: cs =>
    if c = sep then some ([], cs)
    else (cutAt sep cs).map fun (before, after) => (c :: before, after)

def dropReturn (line : List Char) : List Char :=
  if line.getLast? = some '\r' then line.dropLast else line

/-- The lines of a text.  Only a line that a newline ends loses its final carriage return, and
nothing follows the last newline. -/
def lines (cs : List Char) : List (List Char) :=
  let parts := pieces '\n' cs
  let final := parts.getLastD []
  parts.dropLast.map dropReturn ++ (if final = [] then [] else [final])

theorem pieces_ne_nil (sep : Char) (cs : List Char) : pieces sep cs ≠ [] := by
  induction cs with
  | nil => simp [pieces]
  | cons c cs ih =>
    rw [pieces]
    split
    · simp
    · split <;> simp

end RelationalAlgebra.Text
