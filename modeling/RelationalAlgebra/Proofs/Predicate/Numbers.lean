import RelationalAlgebra.Predicate.Scalar
import RelationalAlgebra.Proofs.Cell.Comparison
/-!
# Comparison of numbers in predicates

A predicate compares an integer with a float as floats.  The order of cells is exact, so the two differ where
the integer is rounded onto the float and is not the float; on all other numbers they agree, and so on all
integers up to `2 ^ 53` in size.
-/

namespace RelationalAlgebra

open Cell (comparePlace)

namespace Binary64

/-! ## Integers that are not rounded -/

theorem roundedUnits_of_le {s n : Nat} (h : n ≤ 2 ^ 53) : roundedUnits s n = n * 2 ^ (s + 52) := by
  rcases Nat.lt_or_ge n.log2 52 with small | large
  · exact roundedUnits_small small
  · have ne := ne_zero_of_log2 large
    have whole : roundDiv n (2 ^ (n.log2 - 52)) * 2 ^ (n.log2 - 52) = n := by
      rcases h.lt_or_eq with below | rfl
      · have log : n.log2 = 52 := by
          have := (Nat.log2_lt ne).mpr below
          omega
        rw [log, Nat.sub_self, Nat.pow_zero, roundDiv_one, Nat.mul_one]
      · decide
    rw [roundedUnits_large large, ← pow_large large, ← Nat.mul_assoc, whole]

theorem units_ofInt_of_le {a : Int} (h : a.natAbs ≤ 2 ^ 53) : (ofInt a).units = a * one := by
  have fits : a.natAbs < 2 ^ 64 := h.trans_lt (by decide)
  have size : (ofInt a).units.natAbs = (a * one).natAbs := by
    rw [natAbs_mul_one, ← roundedUnits_of_le h]
    exact natAbs_units_roundRatio fits
  have sign := sign_ofInt fits
  omega

def Blurs (m : Int64) (x : Binary64) : Prop :=
  x.isFinite = true ∧ (ofInt m.toInt).units = x.units ∧ m.toInt * one ≠ x.units

instance (m : Int64) (x : Binary64) : Decidable (Blurs m x) :=
  inferInstanceAs (Decidable (_ ∧ _ ∧ _))

variable {m : Int64} {x : Binary64}

theorem lt_natAbs_of_blurs (h : Blurs m x) : 2 ^ 53 < m.toInt.natAbs := by
  by_contra small
  exact h.2.2 ((units_ofInt_of_le (Nat.not_lt.mp small)).symm.trans h.2.1)

/-- Only a tie shows that an integer is rounded. -/
theorem comparePlace_rounded (clear : ¬Blurs m x) :
    comparePlace (0, (ofInt m.toInt).units) x.rank = comparePlace (0, m.toInt * one) x.rank := by
  by_cases finite : x.isFinite = true
  · have fits := natAbs_toInt_lt m
    rw [rank_of_isFinite finite, comparePlace_mk, comparePlace_mk]
    rcases lt_trichotomy (ofInt m.toInt).units x.units with below | tie | above
    · have exact_below : m.toInt * one < x.units := by
        by_contra not_below
        exact absurd ((units_ofInt fits x).2 (not_lt.mp not_below)) (not_le.mpr below)
      rw [compare_lt_iff_lt.mpr below, compare_lt_iff_lt.mpr exact_below]
    · -- that the integer itself ties is what `Blurs` would deny
      have exact_tie : m.toInt * one = x.units := by
        by_contra apart
        exact clear ⟨finite, tie, apart⟩
      rw [tie, exact_tie]
    · have exact_above : x.units < m.toInt * one := by
        by_contra not_above
        exact absurd ((units_ofInt fits x).1 (not_lt.mp not_above)) (not_le.mpr above)
      rw [compare_gt_iff_gt.mpr above, compare_gt_iff_gt.mpr exact_above]
  · obtain ⟨o, -, beyond⟩ := comparePlace_of_infinite finite
    rw [beyond, beyond]

theorem comparePlace_of_blurs (h : Blurs m x) :
    comparePlace (0, (ofInt m.toInt).units) x.rank = .eq ∧
      comparePlace (0, m.toInt * one) x.rank ≠ .eq := by
  obtain ⟨finite, tie, apart⟩ := h
  rw [rank_of_isFinite finite, comparePlace_mk, comparePlace_mk]
  exact ⟨compare_eq_iff_eq.mpr tie, fun same => apart (compare_eq_iff_eq.mp same)⟩

/-- An integer is compared with a float as the float that it is rounded to. -/
theorem compare?_ofInt (m : Int64) (number : x.isNaN = false) :
    (ofInt m.toInt).compare? x = some (comparePlace (0, (ofInt m.toInt).units) x.rank) ∧
      x.compare? (ofInt m.toInt) = some (comparePlace (0, (ofInt m.toInt).units) x.rank).swap := by
  have finite := isFinite_ofInt (natAbs_toInt_lt m)
  have number' := isNaN_of_isFinite finite
  rw [compare?_of_numbers number' number, compare?_of_numbers number number', rank_of_isFinite finite]
  exact ⟨rfl, congrArg some Std.OrientedCmp.eq_swap⟩

end Binary64

namespace Cell

open Binary64 (Blurs)
open Predicate (Comparison Scalar)

/-! ## Cells that are numbers -/

/-- Integers, and floats that are numbers. -/
def IsNumber : Cell → Prop
  | int _ => True
  | float x => x.isNaN = false
  | date _ => False
  | text _ => False

/-- An integer and a float that are different, of which the first is rounded to the second. -/
def Confused : Cell → Cell → Prop
  | int m, float x => Blurs m x
  | float x, int m => Blurs m x
  | _, _ => False

variable {c d : Cell}

/-- Different numbers count as equal where they are confused; else they are compared as cells. -/
theorem compare?_ofCell (hc : c.IsNumber) (hd : d.IsNumber) :
    (¬Confused c d → (Scalar.ofCell c).compare? (Scalar.ofCell d) = some (c.compare d)) ∧
      (Confused c d → (Scalar.ofCell c).compare? (Scalar.ofCell d) = some .eq ∧ c.compare d ≠ .eq) := by
  cases c with
  | int m =>
    cases d with
    | int n => exact ⟨fun _ => rfl, False.elim⟩
    | float x =>
      have rounded := (Binary64.compare?_ofInt m hd).1
      refine ⟨fun clear => ?_, fun blurs => ?_⟩
      · exact rounded.trans (congrArg some (Binary64.comparePlace_rounded clear))
      · obtain ⟨tie, apart⟩ := Binary64.comparePlace_of_blurs blurs
        exact ⟨rounded.trans (congrArg some tie), apart⟩
    | date | text => exact hd.elim
  | float x =>
    cases d with
    | int m =>
      have rounded := (Binary64.compare?_ofInt m hc).2
      have mirrored : (float x).compare (int m) = (comparePlace (0, m.toInt * Binary64.one) x.rank).swap :=
        Std.OrientedCmp.eq_swap
      refine ⟨fun clear => ?_, fun blurs => ?_⟩
      · rw [mirrored, ← Binary64.comparePlace_rounded clear]
        exact rounded
      · obtain ⟨tie, apart⟩ := Binary64.comparePlace_of_blurs blurs
        rw [mirrored, Ne, Ordering.swap_eq_eq]
        exact ⟨rounded.trans (congrArg (some ∘ Ordering.swap) tie), apart⟩
    | float y => exact ⟨fun _ => Binary64.compare?_of_numbers hc hd, False.elim⟩
    | date | text => exact hd.elim
  | date | text => exact hc.elim

theorem test_of_compare? {o : Ordering} (op : Comparison)
    (h : (Scalar.ofCell c).compare? (Scalar.ofCell d) = some o) :
    op.test (.ofCell c) (.ofCell d) = .ok (op.holds o) := by
  simp only [Comparison.test, h]

theorem test_agrees_iff (hc : c.IsNumber) (hd : d.IsNumber) :
    (∀ op : Comparison, op.test (.ofCell c) (.ofCell d) = .ok (op.holds (c.compare d))) ↔ ¬Confused c d := by
  obtain ⟨clear, confused⟩ := compare?_ofCell hc hd
  constructor
  · intro agrees h
    obtain ⟨tie, apart⟩ := confused h
    have equal := (test_of_compare? .equal tie).symm.trans (agrees .equal)
    exact apart (of_decide_eq_true (Except.ok.inj equal).symm)
  · intro h op
    exact test_of_compare? op (clear h)

theorem test_equal_iff (hc : c.IsNumber) (hd : d.IsNumber) :
    ∃ b, Comparison.equal.test (.ofCell c) (.ofCell d) = .ok b ∧
      (b = true ↔ c.compare d = .eq ∨ Confused c d) := by
  obtain ⟨clear, confused⟩ := compare?_ofCell hc hd
  by_cases h : Confused c d
  · exact ⟨true, test_of_compare? .equal (confused h).1, by simp [h]⟩
  · exact ⟨_, test_of_compare? .equal (clear h), by simp [h, Comparison.holds]⟩

end Cell

end RelationalAlgebra
