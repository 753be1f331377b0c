import RelationalAlgebra.Number.Binary64
/-!
# Decimal texts of numbers

`Decimal.shortest` finds, for a finite number, the fewest decimal digits that read back as the same
number, and of those the nearest.  A `Layout` says where a tie goes and how the digits are written.
`Binary64.ofText?` reads a decimal text and rounds it to the nearest number.
-/

namespace RelationalAlgebra

/-- The number `significand * 10 ^ exponent`. -/
structure Decimal where
  significand : Nat
  exponent : Int
deriving DecidableEq

namespace Decimal

/-- The whole exponent `e` with `10 ^ e ≤ num / den < 10 ^ (e + 1)`. -/
def ratioLog (num den : Nat) : Int :=
  let atLeast (e : Int) : Bool :=
    if 0 ≤ e then den * Nat.pow 10 e.toNat ≤ num else den ≤ num * Nat.pow 10 (-e).toNat
  let guess := Binary64.ratioLog num den * 30103 / 100000
  if atLeast (guess + 1) then guess + 1 else if atLeast guess then guess else guess - 1

/-- The points of the grid of whole multiples of `10 ^ grid` that surround `mid / den`, in the
interval from `low / den` to `high / den`: the nearer one, and at a tie the even one or the upper
one. -/
def onGrid (low mid high den : Nat) (closed evenTie : Bool) (grid : Int) : Option Nat :=
  let up := Nat.pow 10 (-grid).toNat
  let unit := den * Nat.pow 10 grid.toNat
  let below := mid * up / unit
  let above := below + 1
  let inside (t : Nat) : Bool :=
    if closed then low * up ≤ t * unit && t * unit ≤ high * up
    else low * up < t * unit && t * unit < high * up
  let twice := 2 * (mid * up)
  let between := (below + above) * unit
  let upward := between < twice || (twice = between && !(evenTie && below % 2 = 0))
  match inside below, inside above with
  | true, true => some (if upward then above else below)
  | true, false => some below
  | false, true => some above
  | false, false => none

def strip : Nat → Decimal → Decimal
  | 0, d => d
  | n + 1, d =>
    if d.significand % 10 = 0 then strip n ⟨d.significand / 10, d.exponent + 1⟩ else d

/-- The shortest decimal number that reads back as the finite non-zero number `x`. -/
def shortest (evenTie : Bool) (x : Binary64) : Decimal :=
  let s := x.significand
  let power : Int := (x.scale : Int) - 1076
  let factor := Nat.pow 2 power.toNat
  let den := Nat.pow 2 (-power).toNat
  let mid := 4 * s * factor
  let high := (4 * s + 2) * factor
  let low := (if s = Nat.pow 2 52 ∧ x.scale ≠ 0 then 4 * s - 1 else 4 * s - 2) * factor
  let top := ratioLog mid den
  let hit := (List.range 17).findSome? fun (n : Nat) =>
    let grid := top - n
    (onGrid low mid high den (s % 2 = 0) evenTie grid).map fun t => strip 17 ⟨t, grid⟩
  hit.getD ⟨s, 0⟩

end Decimal

/-- How a number is written.  Numbers whose first digit has its place within `positional` are
written without an exponent; `pointed` numbers keep a point and a zero when they are whole; `signed`
exponents have a sign also when they are positive.  Of two shortest numbers that are equally near,
`evenTie` takes the one with the even last digit. -/
structure Layout where
  positional : Option (Int × Int)
  pointed : Bool
  signed : Bool
  evenTie : Bool

namespace Layout

/-- The value of a cell keeps its point, so that its text reads as a float again. -/
def cell : Layout := ⟨some (-4, 15), true, false, false⟩

/-- A number in a message has all its places and no exponent. -/
def message : Layout := ⟨none, false, false, false⟩

def document : Layout := ⟨some (-5, 15), true, true, true⟩

def zeros (n : Nat) : List Char := List.replicate n '0'

def digits (layout : Layout) (d : Decimal) : List Char :=
  let ds := (toString d.significand).toList
  let first : Int := d.exponent + ds.length - 1
  let point := if layout.pointed then ['.', '0'] else []
  let positional := match layout.positional with
    | none => true
    | some (least, greatest) => least ≤ first && first ≤ greatest
  if positional then
    if 0 ≤ d.exponent then ds ++ zeros d.exponent.toNat ++ point
    else if 0 ≤ first then ds.take (first.toNat + 1) ++ '.' :: ds.drop (first.toNat + 1)
    else '0' :: '.' :: zeros (-first - 1).toNat ++ ds
  else
    let tail := match ds.drop 1 with
      | [] => []
      | rest => '.' :: rest
    let plus := if layout.signed && 0 ≤ first then ['+'] else []
    ds.take 1 ++ tail ++ 'e' :: plus ++ (toString first).toList

def write (layout : Layout) (x : Binary64) : String :=
  if x.isNaN then "NaN"
  else
    let sign := if x.negative then ['-'] else []
    let body :=
      if ¬ x.isFinite then ['i', 'n', 'f']
      else if x.isZero then layout.digits ⟨0, 0⟩
      else layout.digits (Decimal.shortest layout.evenTie x)
    String.ofList (sign ++ body)

end Layout

namespace Text

def isDigit (c : Char) : Bool := '0' ≤ c && c ≤ '9'

def natValue (ds : List Char) : Nat := ds.foldl (fun n c => 10 * n + (c.toNat - '0'.toNat)) 0

def sign : List Char → Bool × List Char
  | '-' :: cs => (true, cs)
  | '+' :: cs => (false, cs)
  | cs => (false, cs)

def exponent? : List Char → Option Int
  | [] => some 0
  | c :: cs =>
    if c = 'e' || c = 'E' then
      let (neg, ds) := sign cs
      if ds ≠ [] ∧ ds.all isDigit then
        some (if neg then -(natValue ds : Int) else natValue ds)
      else none
    else none

/-- Reads digits with an optional point and an optional exponent; some digit must be there. -/
def decimal? (cs : List Char) : Option Decimal :=
  let whole := cs.takeWhile isDigit
  let (fraction, rest) := match cs.dropWhile isDigit with
    | '.' :: rest => (rest.takeWhile isDigit, rest.dropWhile isDigit)
    | rest => ([], rest)
  if whole = [] ∧ fraction = [] then none
  else
    (exponent? rest).map fun e => ⟨natValue (whole ++ fraction), e - fraction.length⟩

end Text

namespace Binary64

def lower (c : Char) : Char := if 'A' ≤ c && c ≤ 'Z' then Char.ofNat (c.toNat + 32) else c

/-- Reads a number: a sign, then digits or the name of a value that is not finite. -/
def ofText? (cs : List Char) : Option Binary64 :=
  let (neg, body) := Text.sign cs
  match (Text.decimal? body) with
  | some d => some (ofDecimal neg d.significand d.exponent)
  | none =>
    let word := String.ofList (body.map lower)
    if word = "nan" then some (nan neg)
    else if word = "inf" ∨ word = "infinity" then some (infinity neg)
    else none

end Binary64

end RelationalAlgebra
