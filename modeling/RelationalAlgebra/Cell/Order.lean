import RelationalAlgebra.Cell
import RelationalAlgebra.Number.Whole
/-!
# The order of cells

Numbers come first, then dates, then texts.  Numbers are ordered by their exact value, whether they
are integers or floats, so an integer and a float of one value compare equal; rows are compared cell
by cell.  `digest` is what a cell contributes to a hash: cells that compare equal have one digest.
-/

namespace RelationalAlgebra

namespace Cell

/-- Numbers, dates and texts in this order. -/
def rank : Cell → Nat
  | int _ => 0
  | float _ => 0
  | date _ => 1
  | text _ => 2

def place : Cell → Int × Int
  | int v => (0, v.toInt * Binary64.one)
  | float v => v.rank
  | _ => (0, 0)

def comparePlace (a b : Int × Int) : Ordering :=
  (Ord.compare a.1 b.1).then (Ord.compare a.2 b.2)

def compare : Cell → Cell → Ordering
  | int a, int b => Ord.compare a.toInt b.toInt
  | date a, date b => Ord.compare a b
  | text a, text b => Ord.compare a b
  | a, b => (Ord.compare a.rank b.rank).then (comparePlace a.place b.place)

instance : Ord Cell := ⟨compare⟩

/-- What a cell feeds into a hash. -/
inductive Digest where
  | number (bits : UInt64)
  | date (value : Date)
  | text (value : String)
deriving DecidableEq

/-- A float that is a 64-bit integer gives the bits of that integer. -/
def floatDigest (x : Binary64) : UInt64 :=
  match x.toInt?.bind Whole.fit? with
  | some n => n.toUInt64
  | none => x.bits

def digest : Cell → Digest
  | int v => .number v.toUInt64
  | float v => .number (floatDigest v)
  | date v => .date v
  | text v => .text v

end Cell

namespace Row

def compare : Row → Row → Ordering
  | [], [] => .eq
  | [], _ :: _ => .lt
  | _ :: _, [] => .gt
  | a :: as, b :: bs => (Cell.compare a b).then (compare as bs)

/-- Two rows that the order does not tell apart. -/
def same (a b : Row) : Bool := compare a b = .eq

end Row

end RelationalAlgebra
