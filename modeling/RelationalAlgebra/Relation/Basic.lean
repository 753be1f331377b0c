import RelationalAlgebra.Cell.Reading
import RelationalAlgebra.Relation.Header
import RelationalAlgebra.Relation.Rows
/-!
# Relations

A relation is a header and a set of rows, each of which has one cell for each attribute.  Relations are
built from rows or from raw texts, whose columns are read as one kind each.  Two relations are equal
when they have the same rows once the columns of one are put in the order of the other.
-/

namespace RelationalAlgebra

structure Relation where
  header : Header
  rows : Rows
deriving DecidableEq

namespace Relation

def empty (header : Header) : Relation := ⟨header, []⟩

def size (r : Relation) : Nat := r.rows.length

def names (r : Relation) : List String := r.header.names

/-- Each row has a cell for each attribute, and the rows ascend. -/
structure WellFormed (r : Relation) : Prop where
  arity : ∀ row ∈ r.rows, row.length = r.header.size
  ascending : r.rows.Pairwise fun a b => Row.compare a b = .lt

def checkArity (header : Header) (counts : List Nat) : Except SchemaFault Unit :=
  match counts.find? fun n => n ≠ header.size with
  | some n => .error (.arity n header.names)
  | none => .ok ()

def ofRows? (header : Header) (rows : List Row) : Except SchemaFault Relation :=
  (checkArity header (rows.map List.length)).map fun () => ⟨header, Rows.ofInsertions rows⟩

def castRow (kinds : List Kind) (raw : List String) : Row := List.zipWith Cell.cast kinds raw

def rawKinds (width : Nat) (rows : List (List String)) : List Kind :=
  (List.range width).map fun i => Kind.ofColumn (rows.map fun raw => raw.getD i "")

def ofRaw? (header : Header) (rows : List (List String)) : Except SchemaFault Relation :=
  (checkArity header (rows.map List.length)).map fun () =>
    ⟨header, Rows.collect (rows.map (castRow (rawKinds header.size rows)))⟩

/-- The rows of `other` with their columns in the order of `r`. -/
def align (r other : Relation) (operation : String) : Except SchemaFault Rows :=
  if r.header.sameSet other.header then
    if r.header = other.header then .ok other.rows
    else
      (other.header.positions r.names).map fun positions =>
        Rows.collect (other.rows.map (Row.pick positions))
  else .error (.unalike operation r.names other.names)

def rearrange (r : Relation) (header : Header) : Except SchemaFault Relation :=
  ((empty header).align r "rearrange").map fun rows => ⟨header, rows⟩

/-- Whether two relations have the same rows, whatever the order of their columns. -/
def equal (a b : Relation) : Bool :=
  match a.align b "comparison" with
  | .ok rows => Rows.equal rows a.rows
  | .error _ => false

end Relation

end RelationalAlgebra
