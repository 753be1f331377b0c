import RelationalAlgebra.Date
/-!
# Cells

A cell of a row holds an integer, a float, a date or a text.  The kinds have an order of
preference, which the reading of columns follows.
-/

namespace RelationalAlgebra

inductive Kind where
  | int
  | date
  | float
  | text
deriving DecidableEq, Repr

namespace Kind

/-- All kinds, the most specific first. -/
def all : List Kind := [int, date, float, text]

def name : Kind → String
  | int => "int"
  | date => "date"
  | float => "float"
  | text => "string"

end Kind

inductive Cell where
  | int (value : Int64)
  | float (value : Binary64)
  | date (value : Date)
  | text (value : String)
deriving DecidableEq

abbrev Row := List Cell

namespace Cell

def kind : Cell → Kind
  | int _ => .int
  | float _ => .float
  | date _ => .date
  | text _ => .text

/-- The text of a cell, which reads back as a cell of its kind. -/
def write : Cell → String
  | int v => toString v.toInt
  | float v => Layout.cell.write v
  | date v => v.write
  | text v => v

def quoted : Cell → String
  | text v => s!"'{v}'"
  | c => c.write

end Cell

end RelationalAlgebra
