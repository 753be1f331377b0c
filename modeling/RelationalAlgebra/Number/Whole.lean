/-!
# Whole numbers of 64 bits

The integers of cells and predicates have 64 bits.  Arithmetic on them is exact arithmetic on
`Int`, and `Whole.fit?` refuses a result that does not fit.
-/

namespace RelationalAlgebra.Whole

def least : Int := -9223372036854775808

def greatest : Int := 9223372036854775807

def fit? (n : Int) : Option Int64 :=
  if least ≤ n ∧ n ≤ greatest then some (Int64.ofInt n) else none

theorem toInt_of_fit? {n : Int} {v : Int64} (h : fit? n = some v) : v.toInt = n := by
  rw [fit?] at h
  split at h
  · next range =>
    obtain rfl := Option.some.inj h
    exact Int64.toInt_ofInt_of_le (by have := range.1; unfold least at this; omega)
      (by have := range.2; unfold greatest at this; omega)
  · cases h

theorem fit?_eq_none_iff {n : Int} : fit? n = none ↔ n < least ∨ greatest < n := by
  unfold fit?
  split <;> simp <;> omega

end RelationalAlgebra.Whole
