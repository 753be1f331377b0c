import RelationalAlgebra.Proofs.Relation.Order
/-!
# Places of floats, and integers rounded to floats

A float is a significand of 53 bits times a power of two.  The significand and the power are found again in
its word, so that floats of one place are the same or both zero.  From some size on the floats are multiples
of a power of two, and a whole number is rounded to the multiple next to it: no float lies between the two,
and a float that is not the rounded number compares with both in the same way.
-/

namespace RelationalAlgebra.Binary64

variable {x y : Binary64} {neg : Bool} {k m n : Nat}

/-! ## Fields of a word -/

theorem toNat_ofMagnitude (h : m < 2 ^ 63) :
    (ofMagnitude neg m).bits.toNat = (if neg then 2 ^ 63 else 0) + m := by
  rw [ofMagnitude, UInt64.toNat_ofNat', Nat.mod_eq_of_lt]
  · rfl
  · cases neg
    · simp only [Bool.false_eq_true, if_false]
      omega
    · simp only [if_true, Nat.pow_eq]
      omega

theorem magnitude_ofMagnitude (h : m < 2 ^ 63) : (ofMagnitude neg m).magnitude = m := by
  rw [magnitude, toNat_ofMagnitude h, Nat.pow_eq]
  cases neg
  · simpa using h
  · simp only [if_true]
    omega

theorem negative_ofMagnitude (h : m < 2 ^ 63) : (ofMagnitude neg m).negative = neg := by
  rw [negative, toNat_ofMagnitude h, Nat.pow_eq]
  cases neg
  · simpa using h
  · simp

theorem significand_lt (x : Binary64) : x.significand < 2 ^ 53 := by
  rw [significand, Nat.pow_eq]
  split <;> omega

theorem natAbs_units (x : Binary64) : x.units.natAbs = x.significand * 2 ^ x.scale := by
  rw [units]
  split
  · rw [Int.natAbs_neg, Int.natAbs_natCast, Nat.pow_eq]
  · rw [Int.natAbs_natCast, Nat.pow_eq]

theorem units_nonneg (h : x.negative = false) : 0 ≤ x.units := by
  rw [units, h]
  exact Int.natCast_nonneg _

theorem units_nonpos (h : x.negative = true) : x.units ≤ 0 := by
  rw [units, h]
  exact Int.neg_nonpos_of_nonneg (Int.natCast_nonneg _)

theorem magnitude_eq (x : Binary64) : x.magnitude = x.scale * 2 ^ 52 + x.significand := by
  rw [scale, significand, Nat.pow_eq]
  split <;> omega

theorem le_significand (h : 0 < x.scale) : 2 ^ 52 ≤ x.significand := by
  have normal : ¬x.magnitude < 2 ^ 52 := by
    rw [scale, Nat.pow_eq] at h
    omega
  rw [significand, Nat.pow_eq, if_neg normal]
  exact Nat.le_add_right ..

theorem eq_of_fields (sign : x.negative = y.negative) (size : x.magnitude = y.magnitude) : x = y := by
  have word (z : Binary64) : z.bits.toNat = (if z.negative then 2 ^ 63 else 0) + z.magnitude := by
    have lt := z.bits.toNat_lt
    rw [negative, magnitude, Nat.pow_eq]
    split
    · next h =>
      have high := of_decide_eq_true h
      omega
    · next h =>
      have low : ¬2 ^ 63 ≤ z.bits.toNat := fun high => h (decide_eq_true high)
      omega
  have same : x.bits.toNat = y.bits.toNat := by rw [word, word, sign, size]
  exact congrArg mk (UInt64.toNat_inj.mp same)

/-! ## Places -/

/-- A greater power of two is made up for by no significand. -/
theorem scale_le (h : x.units.natAbs = y.units.natAbs) : x.scale ≤ y.scale := by
  by_contra greater
  have lt : y.scale < x.scale := Nat.lt_of_not_le greater
  rw [natAbs_units, natAbs_units] at h
  have power : 2 ^ x.scale = 2 ^ (x.scale - y.scale - 1) * 2 * 2 ^ y.scale := by
    rw [← Nat.pow_succ, ← Nat.pow_add]
    congr 1
    omega
  rw [power, ← Nat.mul_assoc] at h
  have significands := Nat.eq_of_mul_eq_mul_right (Nat.two_pow_pos _) h
  have large := le_significand (Nat.zero_lt_of_lt lt)
  have small := y.significand_lt
  have grown : 2 ^ 52 * (1 * 2) ≤ x.significand * (2 ^ (x.scale - y.scale - 1) * 2) :=
    Nat.mul_le_mul large (Nat.mul_le_mul_right 2 Nat.one_le_two_pow)
  omega

theorem magnitude_eq_of_units (h : x.units.natAbs = y.units.natAbs) : x.magnitude = y.magnitude := by
  have scales : x.scale = y.scale := Nat.le_antisymm (scale_le h) (scale_le h.symm)
  rw [natAbs_units, natAbs_units, scales] at h
  rw [magnitude_eq, magnitude_eq, scales, Nat.eq_of_mul_eq_mul_right (Nat.two_pow_pos _) h]

theorem eq_of_units (h : x.units = y.units) (ne : x.units ≠ 0) : x = y := by
  refine eq_of_fields ?_ (magnitude_eq_of_units (congrArg Int.natAbs h))
  rcases lt_or_gt_of_ne ne with below | above
  · have negative (z : Binary64) (hz : z.units < 0) : z.negative = true := by
      by_contra positive
      exact absurd (units_nonneg (Bool.eq_false_of_not_eq_true positive)) (not_le.mpr hz)
    rw [negative x below, negative y (h ▸ below)]
  · have positive (z : Binary64) (hz : 0 < z.units) : z.negative = false := by
      by_contra negative
      exact absurd (units_nonpos (Bool.eq_true_of_not_eq_false negative)) (not_le.mpr hz)
    rw [positive x above, positive y (h ▸ above)]

theorem rank_of_isFinite (h : x.isFinite = true) : x.rank = (0, x.units) := if_pos h

theorem rank_of_infinite (h : ¬x.isFinite = true) :
    x.rank = if x.negative then (-1, -(x.magnitude : Int)) else (1, (x.magnitude : Int)) := if_neg h

theorem isFinite_iff_rank : x.isFinite = true ↔ x.rank.1 = 0 := by
  by_cases h : x.isFinite = true
  · rw [rank_of_isFinite h]
    exact iff_of_true h rfl
  · rw [rank_of_infinite h]
    refine iff_of_false h ?_
    split <;> simp

theorem eq_of_rank (h : x.rank = y.rank) : x = y ∨ x.rank = (0, 0) := by
  by_cases hx : x.isFinite = true
  · have hy : y.isFinite = true := by rwa [isFinite_iff_rank, ← h, ← isFinite_iff_rank]
    rw [rank_of_isFinite hx, rank_of_isFinite hy] at h
    have units : x.units = y.units := congrArg Prod.snd h
    by_cases zero : x.units = 0
    · exact .inr (by rw [rank_of_isFinite hx, zero])
    · exact .inl (eq_of_units units zero)
  · have hy : ¬y.isFinite = true := by rwa [isFinite_iff_rank, ← h, ← isFinite_iff_rank]
    rw [rank_of_infinite hx, rank_of_infinite hy] at h
    left
    cases xs : x.negative <;> cases ys : y.negative <;>
      simp only [xs, ys, if_true, Bool.false_eq_true, if_false, Prod.mk.injEq] at h
    case false.false => exact eq_of_fields (xs.trans ys.symm) (by omega)
    case true.true => exact eq_of_fields (xs.trans ys.symm) (by omega)
    case false.true => omega
    case true.false => omega

/-! ## Grids -/

/-- From some size on, the numbers are multiples of a power of two. -/
theorem dvd_natAbs_units (h : 2 ^ (52 + k) ≤ x.units.natAbs) : 2 ^ k ∣ x.units.natAbs := by
  rw [natAbs_units] at h ⊢
  have scale : 2 ^ (52 + k) < 2 ^ (53 + x.scale) := by
    calc 2 ^ (52 + k) ≤ x.significand * 2 ^ x.scale := h
      _ < 2 ^ 53 * 2 ^ x.scale := Nat.mul_lt_mul_of_pos_right x.significand_lt (Nat.two_pow_pos _)
      _ = 2 ^ (53 + x.scale) := (Nat.pow_add ..).symm
  have le : k ≤ x.scale := by
    have := (Nat.pow_lt_pow_iff_right (by decide : 1 < 2)).mp scale
    omega
  exact (Nat.pow_dvd_pow 2 le).mul_left _

/-- A significand of 53 bits, or the next power of two, above a scale. -/
theorem natAbs_units_ofMagnitude (low : 2 ^ 52 ≤ m) (high : m ≤ 2 ^ 53) (fits : k < 2046) :
    (ofMagnitude neg (k * 2 ^ 52 + m)).units.natAbs = m * 2 ^ k := by
  have magnitude : (ofMagnitude neg (k * 2 ^ 52 + m)).magnitude = k * 2 ^ 52 + m :=
    magnitude_ofMagnitude (by omega)
  rw [natAbs_units, significand, scale, magnitude, Nat.pow_eq, if_neg (by omega)]
  by_cases carry : m = 2 ^ 53
  · have scale : (k * 2 ^ 52 + m) / 2 ^ 52 - 1 = k + 1 := by omega
    have rest : 2 ^ 52 + (k * 2 ^ 52 + m) % 2 ^ 52 = 2 ^ 52 := by omega
    have exponent : 52 + (k + 1) = 53 + k := by omega
    rw [scale, rest, carry, ← Nat.pow_add, ← Nat.pow_add, exponent]
  · have scale : (k * 2 ^ 52 + m) / 2 ^ 52 - 1 = k := by omega
    have rest : 2 ^ 52 + (k * 2 ^ 52 + m) % 2 ^ 52 = m := by omega
    rw [scale, rest]

/-! ## Rounded quotients -/

theorem roundDiv_le {num den : Nat} (pos : 0 < den) (h : num ≤ k * den) : roundDiv num den ≤ k := by
  rw [roundDiv]
  split
  · exact Nat.div_le_of_le_mul (by rwa [Nat.mul_comm])
  · next far =>
    have inside : num ≠ k * den := by
      rintro rfl
      exact far (.inl (by rw [Nat.mul_mod_left]; exact pos))
    exact (Nat.div_lt_iff_lt_mul pos).mpr (Nat.lt_of_le_of_ne h inside)

theorem le_roundDiv {num den : Nat} (pos : 0 < den) (h : k * den ≤ num) : k ≤ roundDiv num den := by
  have below : k ≤ num / den := (Nat.le_div_iff_mul_le pos).mpr h
  rw [roundDiv]
  split
  · exact below
  · exact Nat.le_succ_of_le below

theorem roundDiv_one (num : Nat) : roundDiv num 1 = num := by
  simp [roundDiv, Nat.mod_one]

theorem ratioLog_one (h : n ≠ 0) : ratioLog n 1 = n.log2 := by
  have one : Nat.log2 1 = 0 := rfl
  simpa [ratioLog, one] using Nat.log2_self_le h

def roundedSignificand (n : Nat) : Nat :=
  if 52 ≤ n.log2 then roundDiv n (2 ^ (n.log2 - 52)) else n * 2 ^ (52 - n.log2)

theorem roundedSignificand_bounds (h : n ≠ 0) :
    2 ^ 52 ≤ roundedSignificand n ∧ roundedSignificand n ≤ 2 ^ 53 := by
  have low := Nat.log2_self_le h
  have high := @Nat.lt_log2_self n
  rw [roundedSignificand]
  generalize n.log2 = e at low high ⊢
  split
  · next large =>
    have pos := Nat.two_pow_pos (e - 52)
    have least : 2 ^ 52 * 2 ^ (e - 52) = 2 ^ e := by rw [← Nat.pow_add]; congr 1; omega
    have greatest : 2 ^ 53 * 2 ^ (e - 52) = 2 ^ (e + 1) := by rw [← Nat.pow_add]; congr 1; omega
    exact ⟨le_roundDiv pos (by omega), roundDiv_le pos (by omega)⟩
  · next small =>
    have least : 2 ^ e * 2 ^ (52 - e) = 2 ^ 52 := by rw [← Nat.pow_add]; congr 1; omega
    have greatest : 2 ^ (e + 1) * 2 ^ (52 - e) = 2 ^ 53 := by rw [← Nat.pow_add]; congr 1; omega
    exact ⟨least ▸ Nat.mul_le_mul_right _ low, greatest ▸ Nat.mul_le_mul_right _ high.le⟩

theorem roundRatio_one (h : n ≠ 0) (fits : n < 2 ^ 64) :
    roundRatio n 1 = (n.log2 + 1022) * 2 ^ 52 + roundedSignificand n := by
  obtain ⟨-, bound⟩ := roundedSignificand_bounds h
  have log : n.log2 < 64 := (Nat.log2_lt h).mpr fits
  have exponent : max (ratioLog n 1 - 52) (-1074) = (n.log2 : Int) - 52 := by
    rw [ratioLog_one h]
    omega
  have shifted : ((n.log2 : Int) - 52 + 1074).toNat = n.log2 + 1022 := by omega
  have significand : (if 0 ≤ (n.log2 : Int) - 52 then roundDiv n (1 * Nat.pow 2 ((n.log2 : Int) - 52).toNat)
      else roundDiv (n * Nat.pow 2 (-((n.log2 : Int) - 52)).toNat) 1) = roundedSignificand n := by
    rw [roundedSignificand]
    by_cases large : 52 ≤ n.log2
    · have up : ((n.log2 : Int) - 52).toNat = n.log2 - 52 := by omega
      rw [if_pos (by omega), if_pos large, up, Nat.one_mul, Nat.pow_eq]
    · have down : (-((n.log2 : Int) - 52)).toNat = 52 - n.log2 := by omega
      rw [if_neg (by omega), if_neg large, down, roundDiv_one, Nat.pow_eq]
  rw [roundRatio, if_neg h]
  simp only [exponent, shifted, significand, infiniteMagnitude]
  rw [Nat.pow_eq]
  omega

/-! ## The float next to a whole number -/

/-- What a whole number is rounded to, in units of which `2 ^ (s + 52)` are one. -/
def roundedUnits (s n : Nat) : Nat :=
  if n = 0 then 0 else roundedSignificand n * 2 ^ (n.log2 + s)

variable {s : Nat}

theorem roundedUnits_small (small : n.log2 < 52) : roundedUnits s n = n * 2 ^ (s + 52) := by
  by_cases h : n = 0
  · rw [roundedUnits, if_pos h, h, Nat.zero_mul]
  · have shift : 2 ^ (52 - n.log2) * 2 ^ (n.log2 + s) = 2 ^ (s + 52) := by
      rw [← Nat.pow_add]
      congr 1
      omega
    rw [roundedUnits, if_neg h, roundedSignificand, if_neg (by omega), Nat.mul_assoc, shift]

theorem ne_zero_of_log2 (large : 52 ≤ n.log2) : n ≠ 0 := by
  rintro rfl
  exact absurd large (by decide)

theorem roundedUnits_large (large : 52 ≤ n.log2) :
    roundedUnits s n = roundDiv n (2 ^ (n.log2 - 52)) * 2 ^ (n.log2 + s) := by
  rw [roundedUnits, if_neg (ne_zero_of_log2 large), roundedSignificand, if_pos large]

theorem pow_large (large : 52 ≤ n.log2) : 2 ^ (n.log2 - 52) * 2 ^ (s + 52) = 2 ^ (n.log2 + s) := by
  rw [← Nat.pow_add]
  congr 1
  omega

/-- A float that is not less than a whole number is not less than the rounded number. -/
theorem roundedUnits_le (h : n * 2 ^ (s + 52) ≤ x.units.natAbs) : roundedUnits s n ≤ x.units.natAbs := by
  rcases Nat.lt_or_ge n.log2 52 with small | large
  · exact (roundedUnits_small small).trans_le h
  · have ne := ne_zero_of_log2 large
    have size : 2 ^ (52 + (n.log2 + s)) ≤ x.units.natAbs := by
      calc 2 ^ (52 + (n.log2 + s)) = 2 ^ n.log2 * 2 ^ (s + 52) := by
            rw [← Nat.pow_add]
            congr 1
            omega
        _ ≤ n * 2 ^ (s + 52) := Nat.mul_le_mul_right _ (Nat.log2_self_le ne)
        _ ≤ x.units.natAbs := h
    -- the float is a multiple of the power of two that the number is rounded to
    obtain ⟨c, hc⟩ := exists_eq_mul_left_of_dvd (dvd_natAbs_units size)
    rw [hc, ← pow_large large, ← Nat.mul_assoc] at h
    have inside : n ≤ c * 2 ^ (n.log2 - 52) := Nat.le_of_mul_le_mul_right h (Nat.two_pow_pos _)
    rw [roundedUnits_large large, hc]
    exact Nat.mul_le_mul_right _ (roundDiv_le (Nat.two_pow_pos _) inside)

/-- A float that is not greater than a whole number is not greater than the rounded number. -/
theorem le_roundedUnits (h : x.units.natAbs ≤ n * 2 ^ (s + 52)) : x.units.natAbs ≤ roundedUnits s n := by
  rcases Nat.lt_or_ge n.log2 52 with small | large
  · exact h.trans_eq (roundedUnits_small small).symm
  · have ne := ne_zero_of_log2 large
    rcases Nat.lt_or_ge x.units.natAbs (2 ^ (52 + (n.log2 + s))) with below | size
    · -- the rounded number has 53 bits, so that it is above
      have least : 2 ^ 52 * 2 ^ (n.log2 + s) ≤ roundedUnits s n := by
        rw [roundedUnits, if_neg ne]
        exact Nat.mul_le_mul_right _ (roundedSignificand_bounds ne).1
      rw [← Nat.pow_add] at least
      exact below.le.trans least
    · obtain ⟨c, hc⟩ := exists_eq_mul_left_of_dvd (dvd_natAbs_units size)
      rw [hc, ← pow_large large, ← Nat.mul_assoc] at h
      have inside : c * 2 ^ (n.log2 - 52) ≤ n := Nat.le_of_mul_le_mul_right h (Nat.two_pow_pos _)
      rw [roundedUnits_large large, hc]
      exact Nat.mul_le_mul_right _ (le_roundDiv (Nat.two_pow_pos _) inside)

/-- A rounded number is whole, and not far from the number. -/
theorem exists_roundedUnits (h : n < 2 ^ 64) : ∃ k ≤ 2 ^ 64, roundedUnits s n = k * 2 ^ (s + 52) := by
  rcases Nat.lt_or_ge n.log2 52 with small | large
  · exact ⟨n, h.le, roundedUnits_small small⟩
  · refine ⟨roundDiv n (2 ^ (n.log2 - 52)) * 2 ^ (n.log2 - 52), ?_, ?_⟩
    · have ne := ne_zero_of_log2 large
      have log : n.log2 < 64 := (Nat.log2_lt ne).mpr h
      have bound := (roundedSignificand_bounds ne).2
      rw [roundedSignificand, if_pos large] at bound
      calc roundDiv n (2 ^ (n.log2 - 52)) * 2 ^ (n.log2 - 52) ≤ 2 ^ 53 * 2 ^ 11 :=
            Nat.mul_le_mul bound (Nat.pow_le_pow_right (by decide) (by omega))
        _ = 2 ^ 64 := rfl
    · rw [roundedUnits_large large, Nat.mul_assoc, pow_large large]

/-! ## Rounded integers -/

theorem natAbs_units_roundRatio (fits : n < 2 ^ 64) :
    (ofMagnitude neg (roundRatio n 1)).units.natAbs = roundedUnits 1022 n := by
  by_cases h : n = 0
  · subst h
    cases neg <;> rfl
  · obtain ⟨low, high⟩ := roundedSignificand_bounds h
    have log : n.log2 < 64 := (Nat.log2_lt h).mpr fits
    rw [roundRatio_one h fits, natAbs_units_ofMagnitude low high (by omega), roundedUnits, if_neg h]

theorem roundRatio_lt (fits : n < 2 ^ 64) : roundRatio n 1 < infiniteMagnitude := by
  by_cases h : n = 0
  · subst h
    decide
  · have bound := (roundedSignificand_bounds h).2
    have log : n.log2 < 64 := (Nat.log2_lt h).mpr fits
    rw [roundRatio_one h fits, infiniteMagnitude, Nat.pow_eq]
    omega

theorem infiniteMagnitude_lt : infiniteMagnitude < 2 ^ 63 := by decide

variable {a : Int}

theorem isFinite_ofInt (fits : a.natAbs < 2 ^ 64) : (ofInt a).isFinite = true := by
  have lt := roundRatio_lt fits
  rw [isFinite, ofInt, magnitude_ofMagnitude (lt.trans infiniteMagnitude_lt)]
  exact decide_eq_true lt

theorem negative_ofInt (fits : a.natAbs < 2 ^ 64) : (ofInt a).negative = decide (a < 0) :=
  negative_ofMagnitude ((roundRatio_lt fits).trans infiniteMagnitude_lt)

theorem natAbs_mul_one (a : Int) : (a * one).natAbs = a.natAbs * 2 ^ (1022 + 52) := by
  unfold one
  generalize exponent : 1074 = k
  have sum : 1022 + 52 = k := exponent
  rw [sum, Int.natAbs_mul, Int.natAbs_natCast, Nat.pow_eq]

theorem sign_ofInt (fits : a.natAbs < 2 ^ 64) :
    0 ≤ a * one ∧ 0 ≤ (ofInt a).units ∨ a * one ≤ 0 ∧ (ofInt a).units ≤ 0 := by
  have sign := negative_ofInt fits
  rcases lt_or_ge a 0 with neg | nonneg
  · rw [decide_eq_true neg] at sign
    exact .inr ⟨Int.mul_nonpos_of_nonpos_of_nonneg neg.le Cell.one_pos.le, units_nonpos sign⟩
  · rw [decide_eq_false (Int.not_lt.mpr nonneg)] at sign
    exact .inl ⟨Int.mul_nonneg nonneg Cell.one_pos.le, units_nonneg sign⟩

/-- Numbers of one sign that are on one side of a third in size are on one side of it. -/
theorem le_of_natAbs_le {p q u : Int} (sign : 0 ≤ p ∧ 0 ≤ q ∨ p ≤ 0 ∧ q ≤ 0)
    (below : p.natAbs ≤ u.natAbs → q.natAbs ≤ u.natAbs)
    (above : u.natAbs ≤ p.natAbs → u.natAbs ≤ q.natAbs) : (p ≤ u → q ≤ u) ∧ (u ≤ p → u ≤ q) := by
  omega

/-- No float lies between an integer and the rounded integer. -/
theorem units_ofInt (fits : a.natAbs < 2 ^ 64) (x : Binary64) :
    (a * one ≤ x.units → (ofInt a).units ≤ x.units) ∧ (x.units ≤ a * one → x.units ≤ (ofInt a).units) := by
  have size : (ofInt a).units.natAbs = roundedUnits 1022 a.natAbs := natAbs_units_roundRatio fits
  apply le_of_natAbs_le (sign_ofInt fits)
  · rw [natAbs_mul_one, size]
    exact roundedUnits_le
  · rw [natAbs_mul_one, size]
    exact le_roundedUnits

theorem exists_units_ofInt (fits : a.natAbs < 2 ^ 64) :
    ∃ k : Int, k.natAbs ≤ 2 ^ 64 ∧ (ofInt a).units = k * one := by
  obtain ⟨k, bound, whole⟩ := exists_roundedUnits (s := 1022) fits
  have size : (ofInt a).units.natAbs = ((k : Int) * one).natAbs := by
    rw [natAbs_mul_one, Int.natAbs_natCast, ← whole]
    exact natAbs_units_roundRatio fits
  rcases Int.natAbs_eq_natAbs_iff.mp size with same | opposite
  · exact ⟨k, by rwa [Int.natAbs_natCast], same⟩
  · exact ⟨-k, by rwa [Int.natAbs_neg, Int.natAbs_natCast], by rw [opposite, Int.neg_mul]⟩

end RelationalAlgebra.Binary64
