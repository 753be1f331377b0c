import Mathlib.Data.Int.Log
import Mathlib.Data.Rat.Floor
import RelationalAlgebra.Number.Decimal
import RelationalAlgebra.Proofs.Number.Binary64
/-!
# Numbers that are too large to be floats

A ratio is rounded to a significand of 53 bits above a power of two.  The greatest significand with the
greatest power is the largest float; a ratio that lies at least half a unit above it is rounded to the next
power, which is infinity.  So a decimal number is read as a finite float exactly if it lies below that bound.
-/

namespace RelationalAlgebra

namespace Binary64

variable {num den n d k : Nat}

/-! ## Rounded quotients -/

theorem roundDiv_le_of_div_le (pos : 0 < d) (h : (n / d : ℚ) ≤ k) : roundDiv n d ≤ k := by
  have pos' : (0 : ℚ) < d := by exact_mod_cast pos
  refine roundDiv_le pos ?_
  rw [div_le_iff₀ pos'] at h
  exact_mod_cast h

theorem le_roundDiv_of_le_div (pos : 0 < d) (h : (k : ℚ) ≤ n / d) : k ≤ roundDiv n d := by
  have pos' : (0 : ℚ) < d := by exact_mod_cast pos
  refine le_roundDiv pos ?_
  rw [le_div_iff₀ pos'] at h
  exact_mod_cast h

/-- A quotient that lies halfway above an odd number is rounded up. -/
theorem succ_le_roundDiv_iff (pos : 0 < d) (odd : k % 2 = 1) :
    k + 1 ≤ roundDiv n d ↔ (2 * k + 1) * d ≤ 2 * n := by
  have split := Nat.div_add_mod n d
  have rest := Nat.mod_lt n pos
  rcases Nat.lt_trichotomy (n / d) k with below | equal | above
  · have bound : n < k * d := (Nat.div_lt_iff_lt_mul pos).mp below
    have rounded := roundDiv_le pos bound.le
    constructor
    · intro h
      omega
    · intro h
      have := Nat.add_mul (2 * k) 1 d
      have := Nat.mul_assoc 2 k d
      omega
  · have product : d * (n / d) = k * d := by rw [equal, Nat.mul_comm]
    have double : (2 * k + 1) * d = 2 * (k * d) + d := by rw [Nat.add_mul, Nat.mul_assoc, Nat.one_mul]
    rw [double, roundDiv, equal]
    split <;> omega
  · have bound : (k + 1) * d ≤ n := (Nat.le_div_iff_mul_le pos).mp above
    have rounded := le_roundDiv pos bound
    have product : (k + 1) * d = k * d + d := Nat.succ_mul k d
    have double : (2 * k + 1) * d = 2 * (k * d) + d := by rw [Nat.add_mul, Nat.mul_assoc, Nat.one_mul]
    omega

/-! ## Ratios and their logarithms -/

/-- The powers of two around a whole number. -/
theorem zpow_log2 (h : n ≠ 0) : (2 : ℚ) ^ (n.log2 : Int) ≤ n ∧ (n : ℚ) < 2 ^ (n.log2 + 1 : Int) := by
  have low := Nat.log2_self_le h
  have high := @Nat.lt_log2_self n
  constructor
  · rw [zpow_natCast]
    exact_mod_cast low
  · rw [show (n.log2 + 1 : Int) = (n.log2 + 1 : Nat) from rfl, zpow_natCast]
    exact_mod_cast high

/-- The test of a power of two against a ratio. -/
theorem below_iff (pos : 0 < den) (e : Int) :
    (if 0 ≤ e then decide (num < den * Nat.pow 2 e.toNat) else decide (num * Nat.pow 2 (-e).toNat < den)) =
      true ↔ (num / den : ℚ) < 2 ^ e := by
  have pos' : (0 : ℚ) < den := by exact_mod_cast pos
  rw [div_lt_iff₀ pos']
  split
  · next nonneg =>
    obtain ⟨m, rfl⟩ := Int.eq_ofNat_of_zero_le nonneg
    rw [decide_eq_true_iff, Int.toNat_natCast, zpow_natCast, mul_comm]
    norm_cast
  · next negative =>
    obtain ⟨m, hm⟩ := Int.eq_ofNat_of_zero_le (show 0 ≤ -e by omega)
    have exponent : e = -(m : Int) := by omega
    have power : (0 : ℚ) < 2 ^ m := by positivity
    rw [decide_eq_true_iff, hm, Int.toNat_natCast, exponent, zpow_neg, zpow_natCast, inv_mul_eq_div,
      lt_div_iff₀ power]
    norm_cast

/-- The logarithms of two numbers leave two powers for their ratio. -/
theorem ratio_bounds (hn : num ≠ 0) (hd : den ≠ 0) :
    (2 : ℚ) ^ ((num.log2 : Int) - den.log2 - 1) ≤ num / den ∧
      (num / den : ℚ) < 2 ^ ((num.log2 : Int) - den.log2 + 1) := by
  obtain ⟨lowNum, highNum⟩ := zpow_log2 hn
  obtain ⟨lowDen, highDen⟩ := zpow_log2 hd
  have pos : (0 : ℚ) < den := by exact_mod_cast Nat.pos_of_ne_zero hd
  have power (e : Int) : (0 : ℚ) < 2 ^ e := zpow_pos two_pos e
  constructor
  · rw [le_div_iff₀ pos]
    calc (2 : ℚ) ^ ((num.log2 : Int) - den.log2 - 1) * den
        ≤ 2 ^ ((num.log2 : Int) - den.log2 - 1) * 2 ^ (den.log2 + 1 : Int) :=
          mul_le_mul_of_nonneg_left highDen.le (power _).le
      _ = 2 ^ (num.log2 : Int) := by
          rw [← zpow_add₀ two_ne_zero]
          congr 1
          ring
      _ ≤ num := lowNum
  · rw [div_lt_iff₀ pos]
    calc (num : ℚ) < 2 ^ (num.log2 + 1 : Int) := highNum
      _ = 2 ^ ((num.log2 : Int) - den.log2 + 1) * 2 ^ (den.log2 : Int) := by
          rw [← zpow_add₀ two_ne_zero]
          congr 1
          ring
      _ ≤ 2 ^ ((num.log2 : Int) - den.log2 + 1) * den :=
          mul_le_mul_of_nonneg_left lowDen (power _).le

theorem ratioLog_eq_log (hn : num ≠ 0) (hd : den ≠ 0) :
    ratioLog num den = Int.log 2 (num / den : ℚ) := by
  have pos : (0 : ℚ) < num / den :=
    div_pos (by exact_mod_cast Nat.pos_of_ne_zero hn) (by exact_mod_cast Nat.pos_of_ne_zero hd)
  obtain ⟨low, high⟩ := ratio_bounds hn hd
  have least := (Int.zpow_le_iff_le_log (by decide : 1 < 2) pos).mp low
  have greatest := (Int.lt_zpow_iff_log_lt (by decide : 1 < 2) pos).mp high
  have test := @below_iff num den (Nat.pos_of_ne_zero hd) ((num.log2 : Int) - den.log2)
  rw [ratioLog]
  by_cases less : (num / den : ℚ) < 2 ^ ((num.log2 : Int) - den.log2)
  · have strict := (Int.lt_zpow_iff_log_lt (by decide : 1 < 2) pos).mp less
    rw [if_pos (test.mpr less)]
    omega
  · have le := (Int.zpow_le_iff_le_log (by decide : 1 < 2) pos).mp (not_lt.mp less)
    rw [if_neg (mt test.mp less)]
    omega

/-! ## Rounded ratios -/

def unitExponent (ratio : ℚ) : Int := max (Int.log 2 ratio - 52) (-1074)

/-- A ratio is rounded as a quotient, once it is counted in its unit. -/
theorem exists_roundDiv (pos : 0 < den) (q : Int) :
    ∃ n d : Nat, 0 < d ∧ (n / d : ℚ) = num / den / 2 ^ q ∧
      (if 0 ≤ q then roundDiv num (den * Nat.pow 2 q.toNat)
        else roundDiv (num * Nat.pow 2 (-q).toNat) den) = roundDiv n d := by
  split
  · next nonneg =>
    obtain ⟨m, rfl⟩ := Int.eq_ofNat_of_zero_le nonneg
    refine ⟨num, den * 2 ^ m, Nat.mul_pos pos (Nat.two_pow_pos m), ?_, rfl⟩
    rw [zpow_natCast, div_div]
    push_cast
    rfl
  · next negative =>
    obtain ⟨m, hm⟩ := Int.eq_ofNat_of_zero_le (show 0 ≤ -q by omega)
    have exponent : q = -(m : Int) := by omega
    refine ⟨num * 2 ^ m, den, pos, ?_, by rw [hm]; rfl⟩
    rw [exponent, zpow_neg, zpow_natCast, div_inv_eq_mul]
    push_cast
    ring

theorem roundRatio_eq (hn : num ≠ 0) (hd : den ≠ 0) : ∃ n d : Nat, 0 < d ∧
    (n / d : ℚ) = num / den / 2 ^ unitExponent (num / den) ∧
      roundRatio num den = min ((unitExponent (num / den) + 1074).toNat * 2 ^ 52 + roundDiv n d)
        infiniteMagnitude := by
  obtain ⟨n, d, pos, ratio, rounded⟩ :=
    @exists_roundDiv num den (Nat.pos_of_ne_zero hd) (unitExponent (num / den))
  refine ⟨n, d, pos, ratio, ?_⟩
  rw [← rounded, roundRatio, if_neg hn, ratioLog_eq_log hn hd]
  rfl

/-- A ratio has no more than 53 bits above its unit, and just as many if the unit is not the least one. -/
theorem roundDiv_bounds {ratio : ℚ} (pos : 0 < ratio) (hd : 0 < d)
    (h : (n / d : ℚ) = ratio / 2 ^ unitExponent ratio) :
    roundDiv n d ≤ 2 ^ 53 ∧ (-1022 ≤ Int.log 2 ratio → 2 ^ 52 ≤ roundDiv n d) := by
  have power (e : Int) : (0 : ℚ) < 2 ^ e := zpow_pos two_pos e
  have low := Int.zpow_log_le_self (by decide : 1 < 2) pos
  have high := Int.lt_zpow_succ_log_self (by decide : 1 < 2) ratio
  push_cast at low high
  constructor
  · apply roundDiv_le_of_div_le hd
    rw [h, div_le_iff₀ (power _)]
    calc ratio ≤ 2 ^ (Int.log 2 ratio + 1) := high.le
      _ ≤ 2 ^ (53 + unitExponent ratio) :=
          zpow_le_zpow_right₀ one_le_two (by unfold unitExponent; omega)
      _ = ((2 ^ 53 : Nat) : ℚ) * 2 ^ unitExponent ratio := by
          rw [zpow_add₀ two_ne_zero]
          norm_cast
  · intro normal
    have exponent : unitExponent ratio = Int.log 2 ratio - 52 := by
      unfold unitExponent
      omega
    apply le_roundDiv_of_le_div hd
    rw [h, le_div_iff₀ (power _), exponent]
    calc ((2 ^ 52 : Nat) : ℚ) * 2 ^ (Int.log 2 ratio - 52) = 2 ^ (52 + (Int.log 2 ratio - 52)) := by
          rw [zpow_add₀ two_ne_zero]
          norm_cast
      _ = 2 ^ Int.log 2 ratio := by
          congr 1
          ring
      _ ≤ ratio := low

/-- The least ratio that is rounded to infinity: the largest float and half of its unit. -/
def overflow : ℚ := (2 ^ 54 - 1) * 2 ^ (970 : Int)

theorem overflow_lt {e : Int} (h : 1024 ≤ e) : overflow < 2 ^ e := by
  have unit : (0 : ℚ) < 2 ^ (970 : Int) := zpow_pos two_pos _
  calc overflow < 2 ^ (54 : Int) * 2 ^ (970 : Int) := mul_lt_mul_of_pos_right (by norm_num) unit
    _ = 2 ^ (1024 : Int) := (zpow_add₀ two_ne_zero 54 970).symm
    _ ≤ 2 ^ e := zpow_le_zpow_right₀ one_le_two h

theorem lt_overflow {e : Int} (h : e ≤ 1023) : 2 ^ e < overflow := by
  have unit : (0 : ℚ) < 2 ^ (970 : Int) := zpow_pos two_pos _
  calc (2 : ℚ) ^ e ≤ 2 ^ (1023 : Int) := zpow_le_zpow_right₀ one_le_two h
    _ = 2 ^ (53 : Int) * 2 ^ (970 : Int) := zpow_add₀ two_ne_zero 53 970
    _ < overflow := mul_lt_mul_of_pos_right (by norm_num) unit

theorem half_le_div_iff (hd : 0 < d) : (k / 2 : ℚ) ≤ n / d ↔ k * d ≤ 2 * n := by
  have pos : (0 : ℚ) < d := by exact_mod_cast hd
  rw [div_le_div_iff₀ two_pos pos, mul_comm (n : ℚ)]
  norm_cast

theorem le_div_double_iff {ratio u : ℚ} (hu : 0 < u) : (k / 2 : ℚ) ≤ ratio / (2 * u) ↔ k * u ≤ ratio := by
  rw [le_div_iff₀ (mul_pos two_pos hu), div_mul_eq_mul_div, mul_left_comm,
    mul_div_cancel_left₀ _ two_ne_zero]

/-- In the last range of floats, the significand is rounded up to the next power of two. -/
theorem carries_iff {ratio : ℚ} (hd : 0 < d) (h : (n / d : ℚ) = ratio / 2 ^ (971 : Int)) :
    2 ^ 53 ≤ roundDiv n d ↔ overflow ≤ ratio := by
  have unit : (0 : ℚ) < 2 ^ (970 : Int) := zpow_pos two_pos _
  have double : (2 : ℚ) ^ (971 : Int) = 2 * 2 ^ (970 : Int) := zpow_add₀ two_ne_zero 1 970
  have greatest : ((2 ^ 54 - 1 : Nat) : ℚ) = 2 ^ 54 - 1 := by norm_num
  calc 2 ^ 53 ≤ roundDiv n d ↔ (2 ^ 54 - 1) * d ≤ 2 * n :=
        @succ_le_roundDiv_iff n d (2 ^ 53 - 1) hd (by decide)
    _ ↔ ((2 ^ 54 - 1 : Nat) / 2 : ℚ) ≤ n / d := (half_le_div_iff hd).symm
    _ ↔ (2 ^ 54 - 1 : Nat) * (2 : ℚ) ^ (970 : Int) ≤ ratio := by rw [h, double, le_div_double_iff unit]
    _ ↔ overflow ≤ ratio := by rw [greatest, overflow]

theorem roundRatio_lt_iff (hn : num ≠ 0) (hd : den ≠ 0) :
    roundRatio num den < infiniteMagnitude ↔ (num / den : ℚ) < overflow := by
  have pos : (0 : ℚ) < num / den :=
    div_pos (by exact_mod_cast Nat.pos_of_ne_zero hn) (by exact_mod_cast Nat.pos_of_ne_zero hd)
  have low := Int.zpow_log_le_self (by decide : 1 < 2) pos
  have high := Int.lt_zpow_succ_log_self (by decide : 1 < 2) (num / den : ℚ)
  push_cast at low high
  obtain ⟨n, d, hd', ratio, rounded⟩ := roundRatio_eq hn hd
  obtain ⟨most, least⟩ := roundDiv_bounds pos hd' ratio
  have infinite : infiniteMagnitude = 2047 * 2 ^ 52 := rfl
  rw [rounded, infinite]
  rcases Int.lt_trichotomy (Int.log 2 (num / den : ℚ)) 1023 with below | equal | above
  · have exponent : unitExponent (num / den) ≤ 970 := by
      unfold unitExponent
      omega
    refine iff_of_true ?_ (high.trans (lt_overflow (by omega)))
    omega
  · -- the significand has to be rounded up to the next power of two
    have exponent : unitExponent (num / den) = 971 := by
      unfold unitExponent
      omega
    rw [exponent] at ratio ⊢
    have carries := carries_iff hd' ratio
    rw [← not_le, ← not_le, ← carries]
    omega
  · have exponent : 972 ≤ unitExponent (num / den) := by
      unfold unitExponent
      omega
    have significand := least (by omega)
    refine iff_of_false ?_ (not_lt.mpr ((overflow_lt (by omega)).le.trans low))
    omega

theorem roundRatio_le (num den : Nat) : roundRatio num den ≤ infiniteMagnitude := by
  rw [roundRatio]
  split
  · exact Nat.zero_le _
  · exact Nat.min_le_right ..

end Binary64

/-! ## Decimal numbers -/

namespace Decimal

def value (d : Decimal) : ℚ := d.significand * 10 ^ d.exponent

variable {significand : Nat} {exponent : Int}

/-- A power of ten has more than three bits for each digit. -/
theorem two_zpow_le {e : Int} (h : 0 ≤ e) : (2 : ℚ) ^ (3 * e) ≤ 10 ^ e := by
  rw [zpow_mul]
  exact zpow_le_zpow_left₀ h (by norm_num) (by norm_num)

theorem overflow_le_value (ne : significand ≠ 0) (h : 400 < exponent) :
    Binary64.overflow ≤ value ⟨significand, exponent⟩ := by
  have one : (1 : ℚ) ≤ significand := by exact_mod_cast Nat.one_le_iff_ne_zero.mpr ne
  have power : (0 : ℚ) < 10 ^ exponent := zpow_pos (by norm_num) _
  calc Binary64.overflow ≤ 2 ^ (3 * exponent) := (Binary64.overflow_lt (by omega)).le
    _ ≤ 10 ^ exponent := two_zpow_le (by omega)
    _ ≤ significand * 10 ^ exponent := le_mul_of_one_le_left power.le one

theorem value_lt_overflow (h : exponent + (significand.log2 / 3 + 1 : Nat) < -400) :
    value ⟨significand, exponent⟩ < Binary64.overflow := by
  have power : (0 : ℚ) < 10 ^ exponent := zpow_pos (by norm_num) _
  generalize places : significand.log2 / 3 + 1 = digits at h
  have bits : (significand : ℚ) < 2 ^ (3 * digits : Int) := by
    have shorter : significand < 2 ^ (3 * digits) :=
      Nat.lt_log2_self.trans_le (Nat.pow_le_pow_right Nat.two_pos (by omega))
    rw [show (3 * digits : Int) = (3 * digits : Nat) from rfl, zpow_natCast]
    exact_mod_cast shorter
  calc (significand : ℚ) * 10 ^ exponent
      < 10 ^ (digits : Int) * 10 ^ exponent :=
        mul_lt_mul_of_pos_right (bits.trans_le (two_zpow_le (Int.natCast_nonneg _))) power
    _ = 10 ^ (digits + exponent) := (zpow_add₀ (by norm_num) _ _).symm
    _ ≤ 10 ^ (0 : Int) := zpow_le_zpow_right₀ (by norm_num) (by omega)
    _ = 2 ^ (0 : Int) := by rw [zpow_zero, zpow_zero]
    _ < Binary64.overflow := Binary64.lt_overflow (by decide)

theorem ten_pow_lt_overflow : (10 : ℚ) ^ (308 : Int) < Binary64.overflow := by
  have key : ((10 ^ 308 : Nat) : ℚ) < ((2 ^ 54 - 1) * 2 ^ 970 : Nat) := Nat.cast_lt.mpr (by decide +kernel)
  have factor : ((2 ^ 54 - 1 : Nat) : ℚ) = 2 ^ 54 - 1 := by norm_num
  rw [Nat.cast_mul, Nat.cast_pow, Nat.cast_pow, factor] at key
  exact key

/-- A number that has no more than 308 places before the point is below the bound. -/
theorem value_lt_of_places {places : Nat} (le : significand ≤ 10 ^ places) (h : exponent + places ≤ 308) :
    value ⟨significand, exponent⟩ < Binary64.overflow := by
  have power : (0 : ℚ) < 10 ^ exponent := zpow_pos (by norm_num) _
  have le' : (significand : ℚ) ≤ 10 ^ (places : Int) := by
    rw [zpow_natCast]
    exact_mod_cast le
  calc (significand : ℚ) * 10 ^ exponent
      ≤ 10 ^ (places : Int) * 10 ^ exponent := mul_le_mul_of_nonneg_right le' power.le
    _ = 10 ^ (places + exponent) := (zpow_add₀ (by norm_num) _ _).symm
    _ ≤ 10 ^ (308 : Int) := zpow_le_zpow_right₀ (by norm_num) (by omega)
    _ < Binary64.overflow := ten_pow_lt_overflow

end Decimal

namespace Binary64

variable {neg : Bool} {significand : Nat} {exponent : Int}

/-- The magnitude of a decimal number, which is infinite from the bound on. -/
theorem exists_magnitude (neg : Bool) (significand : Nat) (exponent : Int) :
    ∃ m ≤ infiniteMagnitude, ofDecimal neg significand exponent = ofMagnitude neg m ∧
      (m < infiniteMagnitude ↔ Decimal.value ⟨significand, exponent⟩ < overflow) := by
  refine ⟨_, ?_, rfl, ?_⟩
  · split_ifs
    · exact Nat.zero_le _
    · exact le_rfl
    · exact Nat.zero_le _
    · exact roundRatio_le ..
    · exact roundRatio_le ..
  · have finite : 0 < infiniteMagnitude := by decide
    have ten (k : Nat) : (Nat.pow 10 k : ℚ) = 10 ^ (k : Int) := by
      rw [Nat.pow_eq, zpow_natCast]
      norm_cast
    split_ifs with zero large small whole
    · refine iff_of_true finite ?_
      rw [zero, Decimal.value, Nat.cast_zero, zero_mul]
      exact (zpow_pos two_pos 0).trans (lt_overflow (by decide))
    · exact iff_of_false (lt_irrefl _) (not_lt.mpr (Decimal.overflow_le_value zero large))
    · exact iff_of_true finite (Decimal.value_lt_overflow small)
    · have ne : significand * Nat.pow 10 exponent.toNat ≠ 0 :=
        Nat.mul_ne_zero zero (Nat.pow_pos (by decide)).ne'
      rw [roundRatio_lt_iff ne Nat.one_ne_zero, Decimal.value, Nat.cast_one, div_one, Nat.cast_mul, ten,
        Int.toNat_of_nonneg whole]
    · have ne : Nat.pow 10 (-exponent).toNat ≠ 0 := (Nat.pow_pos (by decide)).ne'
      rw [roundRatio_lt_iff zero ne, Decimal.value, ten, Int.toNat_of_nonneg (by omega), zpow_neg,
        div_inv_eq_mul]

/-- A decimal number is read as a finite float exactly if it lies below the bound. -/
theorem isFinite_ofDecimal_iff :
    (ofDecimal neg significand exponent).isFinite = true ↔
      Decimal.value ⟨significand, exponent⟩ < overflow := by
  obtain ⟨m, bound, equal, finite⟩ := exists_magnitude neg significand exponent
  rw [equal, isFinite, magnitude_ofMagnitude (bound.trans_lt infiniteMagnitude_lt), decide_eq_true_iff, finite]

/-- A decimal number that is not below the bound is read as infinity. -/
theorem ofDecimal_eq_infinity (h : overflow ≤ Decimal.value ⟨significand, exponent⟩) :
    ofDecimal neg significand exponent = infinity neg := by
  obtain ⟨m, bound, equal, finite⟩ := exists_magnitude neg significand exponent
  have infinite : ¬m < infiniteMagnitude := fun below => not_lt.mpr h (finite.mp below)
  rw [equal, le_antisymm bound (not_lt.mp infinite), infinity]

end Binary64

end RelationalAlgebra
