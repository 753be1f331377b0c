import RelationalAlgebra.Cell.Order
/-!
# Sets of rows

A set of rows is the ascending list of its members.  Rows that the order does not tell apart are one
member, and the operations say which of them is kept: `Rows.ofInsertions` keeps the first, as inserting
one row after the other does, and `Rows.collect` keeps the last.  The intersection of sets of very different
size is looked for from the smaller one, and has its rows.
-/

namespace RelationalAlgebra

abbrev Rows := List Row

namespace Rows

def contains (rows : Rows) (row : Row) : Bool := rows.any (Row.same row)

def insert (row : Row) : Rows → Rows
  | [] => [row]
  | r :: rs =>
    match Row.compare row r with
    | .lt => row :: r :: rs
    | .eq => r :: rs
    | .gt => r :: insert row rs

/-- Of neighbours that are equal, keeps the first. -/
def keepFirst (row : Row) : List Row → Rows
  | [] => [row]
  | r :: rs => if Row.same row r then keepFirst row rs else row :: keepFirst r rs

def keepLast (row : Row) : List Row → Rows
  | [] => [row]
  | r :: rs => if Row.same row r then keepLast r rs else row :: keepLast r rs

/-- The rows in ascending order; equal rows stay in the order they had. -/
def ascending (rows : List Row) : List Row := rows.mergeSort fun a b => Row.compare a b ≠ .gt

def ofInsertions (rows : List Row) : Rows :=
  match ascending rows with
  | [] => []
  | r :: rs => keepFirst r rs

/-- The set of some rows, in which a later row replaces an equal earlier one. -/
def collect (rows : List Row) : Rows :=
  match ascending rows with
  | [] => []
  | r :: rs => keepLast r rs

/-- The rows of both sets; of two equal rows the left one. -/
def union (a b : Rows) : Rows := ofInsertions (a ++ b)

/-- Whether the first set begins with the row that the second one ends with. -/
def begins (a b : Rows) : Bool :=
  match a.head?, b.getLast? with
  | some first, some last => Row.same first last
  | _, _ => false

/-- The rows of the left set that are in the right one.  If the right set is at most a sixteenth of the
left one, its own rows stand for them, unless one set begins where the other ends. -/
def intersection (a b : Rows) : Rows :=
  if 16 * b.length ≤ a.length && !(begins a b || begins b a) then b.filter a.contains
  else a.filter b.contains

def difference (a b : Rows) : Rows := a.filter fun row => !b.contains row

def equal : Rows → Rows → Bool
  | [], [] => true
  | a :: as, b :: bs => Row.same a b && equal as bs
  | _, _ => false

end Rows

namespace Row

def pick (positions : List Nat) (row : Row) : Row := positions.map fun i => row.getD i (.text "")

end Row

end RelationalAlgebra
