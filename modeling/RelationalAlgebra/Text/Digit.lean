/-!
# Digits

The digits of bases up to sixteen: the ten decimal ones and the letters from `a` to `f`, of either case.
-/

namespace RelationalAlgebra.Text

def digitValue? (c : Char) : Option Nat :=
  if '0' ≤ c && c ≤ '9' then some (c.toNat - 48)
  else if 'a' ≤ c && c ≤ 'f' then some (c.toNat - 87)
  else if 'A' ≤ c && c ≤ 'F' then some (c.toNat - 55)
  else none

def isDigitIn (base : Nat) (c : Char) : Bool := (digitValue? c).any (· < base)

/-- The number that digits denote; characters that are no digits count as zeros. -/
def valueIn (base : Nat) (digits : List Char) : Nat :=
  digits.foldl (fun n c => base * n + (digitValue? c).getD 0) 0

def numbered? (digits : List Char) : Option Char :=
  let n := valueIn 16 digits
  if digits.all (isDigitIn 16) && n.isValidChar then some (Char.ofNat n) else none

end RelationalAlgebra.Text
