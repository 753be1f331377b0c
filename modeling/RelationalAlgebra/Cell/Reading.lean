import RelationalAlgebra.Cell
import RelationalAlgebra.Number.Whole
import RelationalAlgebra.Text.Blank
/-!
# Reading cells

A raw text is read as a kind of cell; outer blanks do not count.  `Kind.ofColumn` is the most
specific kind that every raw text of a column can be read as, and `Cell.cast` reads a text as a kind
and keeps it as it is when it cannot be read so.
-/

namespace RelationalAlgebra

namespace Text

def int64? (cs : List Char) : Option Int64 :=
  let (neg, ds) := sign cs
  if ds ≠ [] ∧ ds.all isDigit then
    Whole.fit? (if neg then -(natValue ds : Int) else natValue ds)
  else none

/-- Reads a decimal number; the names of values that are not finite are no decimal numbers. -/
def float? (cs : List Char) : Option Binary64 :=
  let (neg, body) := sign cs
  (decimal? body).map fun d => Binary64.ofDecimal neg d.significand d.exponent

end Text

namespace Kind

def read? (kind : Kind) (cs : List Char) : Option Cell :=
  match kind with
  | int => (Text.int64? cs).map .int
  | date => (Date.ofText? cs).map .date
  | float => (Text.float? cs).map .float
  | text => some (.text (String.ofList cs))

def admits (kind : Kind) (raw : String) : Bool := (kind.read? (Text.trim raw.toList)).isSome

/-- The most specific kind that all texts of a column admit. -/
def ofColumn (column : List String) : Kind :=
  (all.find? fun kind => column.all kind.admits).getD text

end Kind

namespace Cell

/-- Reads a raw text as a kind; a text that cannot be read so is kept with its blanks. -/
def cast (kind : Kind) (raw : String) : Cell :=
  if kind = .text then text raw
  else (kind.read? (Text.trim raw.toList)).getD (text raw)

def ofRaw (raw : String) : Cell := cast (Kind.ofColumn [raw]) raw

end Cell

end RelationalAlgebra
