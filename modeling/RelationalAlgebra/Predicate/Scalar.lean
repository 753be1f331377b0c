import RelationalAlgebra.Cell
import RelationalAlgebra.Predicate.Fault
import RelationalAlgebra.Predicate.Formula
import RelationalAlgebra.Number.Whole
import RelationalAlgebra.Text.Blank
/-!
# Scalars

The values of formulas: their truth, their comparison and their arithmetic.  Booleans count as the
integers 0 and 1.  Arithmetic on integers is exact or refused; a day count added to a date gives a
date; two texts are joined by a plus.
-/

namespace RelationalAlgebra.Predicate

inductive Number where
  | whole (value : Int64)
  | float (value : Binary64)

def Number.toBinary64 : Number → Binary64
  | whole v => Binary64.ofInt v.toInt
  | float v => v

namespace Scalar

def ofCell : Cell → Scalar
  | .int v => int v
  | .float v => float v
  | .date v => date v
  | .text s => text s

/-- Numbers but the zeros, texts but the empty one, and all dates are true. -/
def truth : Scalar → Bool
  | bool b => b
  | int v => v.toInt ≠ 0
  | float v => !v.isZero
  | date _ => true
  | text s => s ≠ ""

def kind : Scalar → String
  | bool _ => "bool"
  | int _ => "int"
  | float _ => "float"
  | date _ => "date"
  | text _ => "string"

def number? : Scalar → Option Number
  | bool b => some (.whole (if b then 1 else 0))
  | int v => some (.whole v)
  | float v => some (.float v)
  | date _ => none
  | text _ => none

def whole? (s : Scalar) : Option Int64 :=
  match s.number? with
  | some (.whole v) => some v
  | _ => none

/-- The date that a text denotes; its outer blanks do not count. -/
def dateOf? (s : String) : Option Date := Date.ofText? (Text.trim s.toList)

def compare? : Scalar → Scalar → Option Ordering
  | text a, text b => some (compare a b)
  | date a, date b => some (compare a b)
  | date a, text b => (dateOf? b).map fun b => compare a b
  | text a, date b => (dateOf? a).map fun a => compare a b
  | a, b =>
    match a.number?, b.number? with
    | some (.whole a), some (.whole b) => some (compare a.toInt b.toInt)
    | some a, some b => a.toBinary64.compare? b.toBinary64
    | _, _ => none

end Scalar

namespace Comparison

def holds : Comparison → Ordering → Bool
  | equal, o => o = .eq
  | notEqual, o => o ≠ .eq
  | less, o => o = .lt
  | lessEqual, o => o ≠ .gt
  | greater, o => o = .gt
  | greaterEqual, o => o ≠ .lt

/-- Scalars that cannot be compared are different, and have no order. -/
def test (op : Comparison) (a b : Scalar) : Except Fault Bool :=
  match a.compare? b with
  | some o => .ok (op.holds o)
  | none =>
    match op with
    | equal => .ok false
    | notEqual => .ok true
    | _ => .error (.mismatch op.symbol a.kind b.kind)

end Comparison

namespace Arithmetic

def fit (op : Arithmetic) (n : Int) : Except Fault Scalar :=
  match Whole.fit? n with
  | some v => .ok (.int v)
  | none => .error (.overflow op.symbol)

/-- Arithmetic on integers.  A single slash divides as floats do; the quotient of `//` is rounded
down, and the remainder has the sign of the divisor.  A remainder is refused where the quotient is. -/
def onWhole (op : Arithmetic) (a b : Int64) : Except Fault Scalar :=
  let x := a.toInt
  let y := b.toInt
  match op with
  | add => op.fit (x + y)
  | sub => op.fit (x - y)
  | mul => op.fit (x * y)
  | div =>
    if y = 0 then .error .divisionByZero
    else .ok (.float ((Binary64.ofInt x).div (Binary64.ofInt y)))
  | floorDiv => if y = 0 then .error .divisionByZero else op.fit (x.fdiv y)
  | rem =>
    if y = 0 then .error .divisionByZero
    else
      match Whole.fit? (x.fdiv y) with
      | some _ => op.fit (x.fmod y)
      | none => .error (.overflow op.symbol)

def onFloat (op : Arithmetic) (a b : Binary64) : Except Fault Scalar :=
  match op with
  | add => .ok (.float (a.add b))
  | sub => .ok (.float (a.sub b))
  | mul => .ok (.float (a.mul b))
  | div => if b.isZero then .error .divisionByZero else .ok (.float (a.div b))
  | floorDiv => if b.isZero then .error .divisionByZero else .ok (.float (a.div b).floor)
  | rem =>
    if b.isZero then .error .divisionByZero else .ok (.float (a.sub (b.mul (a.div b).floor)))

def mismatch (op : Arithmetic) (a b : Scalar) : Fault := .mismatch op.symbol a.kind b.kind

def shift (op : Arithmetic) (d : Date) (days : Int) : Except Fault Scalar :=
  match d.addDays? days with
  | some d => .ok (.date d)
  | none => .error (.overflow op.symbol)

def onNumbers (op : Arithmetic) (a b : Scalar) : Except Fault Scalar :=
  match a.number?, b.number? with
  | some (.whole a), some (.whole b) => op.onWhole a b
  | some a, some b => op.onFloat a.toBinary64 b.toBinary64
  | _, _ => .error (op.mismatch a b)

def onDate (op : Arithmetic) (d : Date) (a b days : Scalar) (sign : Int) : Except Fault Scalar :=
  match days.whole? with
  | some n => op.shift d (sign * n.toInt)
  | none => .error (op.mismatch a b)

def apply (op : Arithmetic) (a b : Scalar) : Except Fault Scalar :=
  match op, a, b with
  | add, .text s, .text t => .ok (.text (s ++ t))
  | sub, .date d, .date e => .ok (.int (Int64.ofInt (d.dayNumber - e.dayNumber)))
  | add, .date d, days => op.onDate d a b days 1
  | sub, .date d, days => op.onDate d a b days (-1)
  | add, days, .date d => op.onDate d a b days 1
  | _, _, _ => op.onNumbers a b

end Arithmetic

end RelationalAlgebra.Predicate
