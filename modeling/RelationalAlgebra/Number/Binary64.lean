/-!
# Binary floating-point numbers

A number of the IEEE 754 format binary64 is its 64-bit word.  Its order, its exact value and its
rounding are computed on the word in exact integer arithmetic; every finite number is a whole
number of units of `2 ^ (-1074)`, and `units` is that whole number.
-/

namespace RelationalAlgebra

structure Binary64 where
  bits : UInt64
deriving DecidableEq, Inhabited

namespace Binary64

def magnitude (x : Binary64) : Nat := x.bits.toNat % Nat.pow 2 63

def negative (x : Binary64) : Bool := Nat.pow 2 63 ≤ x.bits.toNat

/-- The word of infinity, the least magnitude that is no finite number. -/
def infiniteMagnitude : Nat := 2047 * Nat.pow 2 52

def ofMagnitude (neg : Bool) (m : Nat) : Binary64 :=
  ⟨UInt64.ofNat ((if neg then Nat.pow 2 63 else 0) + m)⟩

def infinity (neg : Bool) : Binary64 := ofMagnitude neg infiniteMagnitude

def nan (neg : Bool) : Binary64 := ofMagnitude neg (infiniteMagnitude + Nat.pow 2 51)

def isFinite (x : Binary64) : Bool := x.magnitude < infiniteMagnitude

def isNaN (x : Binary64) : Bool := infiniteMagnitude < x.magnitude

/-- The power of two, above `2 ^ (-1074)`, that the significand counts. -/
def scale (x : Binary64) : Nat := x.magnitude / Nat.pow 2 52 - 1

def significand (x : Binary64) : Nat :=
  if x.magnitude < Nat.pow 2 52 then x.magnitude else Nat.pow 2 52 + x.magnitude % Nat.pow 2 52

/-- The value of a finite number in units of `2 ^ (-1074)`. -/
def units (x : Binary64) : Int :=
  let size : Int := (x.significand * Nat.pow 2 x.scale : Nat)
  if x.negative then -size else size

/-- Where a number stands among all: the numbers that are not finite stand beyond the finite
ones, by their magnitude, on the side of their sign; the finite ones by their value. -/
def rank (x : Binary64) : Int × Int :=
  if x.isFinite then (0, x.units)
  else if x.negative then (-1, -(x.magnitude : Int))
  else (1, x.magnitude)

/-- The quotient rounded to the nearest whole number, a half to the even one. -/
def roundDiv (num den : Nat) : Nat :=
  let q := num / den
  let twice := 2 * (num % den)
  if twice < den ∨ (twice = den ∧ q % 2 = 0) then q else q + 1

/-- The whole exponent `e` with `2 ^ e ≤ num / den < 2 ^ (e + 1)`. -/
def ratioLog (num den : Nat) : Int :=
  let e : Int := (Nat.log2 num : Int) - Nat.log2 den
  let below : Bool :=
    if 0 ≤ e then num < den * Nat.pow 2 e.toNat else num * Nat.pow 2 (-e).toNat < den
  if below then e - 1 else e

/-- The magnitude nearest to `num / den`, of two the even one; too large a ratio becomes
infinite. -/
def roundRatio (num den : Nat) : Nat :=
  if num = 0 then 0
  else
    let q : Int := max (ratioLog num den - 52) (-1074)
    let m :=
      if 0 ≤ q then roundDiv num (den * Nat.pow 2 q.toNat)
      else roundDiv (num * Nat.pow 2 (-q).toNat) den
    min ((q + 1074).toNat * Nat.pow 2 52 + m) infiniteMagnitude

def ofInt (n : Int) : Binary64 := ofMagnitude (n < 0) (roundRatio n.natAbs 1)

/-- The number nearest to `significand * 10 ^ exponent`.  Ratios that lie far outside the range
are decided by their count of digits. -/
def ofDecimal (neg : Bool) (significand : Nat) (exponent : Int) : Binary64 :=
  let digits : Int := (Nat.log2 significand / 3 + 1 : Nat)
  ofMagnitude neg <|
    if significand = 0 then 0
    else if 400 < exponent then infiniteMagnitude
    else if exponent + digits < -400 then 0
    else if 0 ≤ exponent then roundRatio (significand * Nat.pow 10 exponent.toNat) 1
    else roundRatio significand (Nat.pow 10 (-exponent).toNat)

def toFloat (x : Binary64) : Float := Float.ofBits x.bits

def ofFloat (x : Float) : Binary64 := ⟨x.toBits⟩

def add (x y : Binary64) : Binary64 := ofFloat (x.toFloat + y.toFloat)

def sub (x y : Binary64) : Binary64 := ofFloat (x.toFloat - y.toFloat)

def mul (x y : Binary64) : Binary64 := ofFloat (x.toFloat * y.toFloat)

def div (x y : Binary64) : Binary64 := ofFloat (x.toFloat / y.toFloat)

def neg (x : Binary64) : Binary64 := ⟨x.bits ^^^ 0x8000000000000000⟩

def isZero (x : Binary64) : Bool := x.magnitude = 0

/-- The unit of the whole numbers, in units of `2 ^ (-1074)`. -/
def one : Int := (Nat.pow 2 1074 : Nat)

def toInt? (x : Binary64) : Option Int :=
  if x.isFinite ∧ x.units % one = 0 then some (x.units / one) else none

/-- The greatest whole number not above `x`; zeros, infinities and numbers beyond `2 ^ 52`
stay as they are. -/
def floor (x : Binary64) : Binary64 :=
  if x.isFinite ∧ x.units % one ≠ 0 then
    let n := x.units / one
    ofMagnitude x.negative (roundRatio n.natAbs 1)
  else x

/-- The order of two numbers by value, none when one of them is no number. -/
def compare? (x y : Binary64) : Option Ordering :=
  if x.isNaN || y.isNaN then none
  else some (compareLex (compareOn Prod.fst) (compareOn Prod.snd) x.rank y.rank)

end Binary64

end RelationalAlgebra
