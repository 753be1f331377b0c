import Mathlib.Algebra.Order.Ring.Int
import RelationalAlgebra.Cell.Order
/-!
# The order of cells and rows is lawful

Cells are compared by their rank, then by their place among the numbers, then as dates or as texts, which
is an order by keys.  Rows are compared lexicographically.  Both orders are transitive and turn around
with their arguments; texts that compare equal are the same.
-/

namespace RelationalAlgebra

open Std (TransCmp OrientedCmp)

instance : TransCmp Date.compare := by
  have h : Date.compare = compareLex (compareLex (compareOn Date.year) (compareOn Date.month))
      (compareOn Date.day) := rfl
  rw [h]
  infer_instance

instance : Std.TransOrd Date := inferInstanceAs (TransCmp Date.compare)

namespace Cell

def date? : Cell → Option Date
  | date d => some d
  | _ => none

def text? : Cell → Option String
  | text s => some s
  | _ => none

def compareKeys : Cell → Cell → Ordering :=
  compareLex (compareOn rank) <| compareLex (compareOn fun c => c.place.1) <|
    compareLex (compareOn fun c => c.place.2) <| compareLex (compareOn date?) (compareOn text?)

theorem one_pos : 0 < Binary64.one := by
  unfold Binary64.one
  generalize 1074 = n
  exact Int.natCast_pos.mpr (Nat.pow_pos (by decide))

theorem compare_mul_pos (a b : Int) {k : Int} (hk : 0 < k) :
    Ord.compare (a * k) (b * k) = Ord.compare a b := by
  rcases lt_trichotomy a b with h | rfl | h
  · rw [compare_lt_iff_lt.mpr h, compare_lt_iff_lt.mpr (Int.mul_lt_mul_of_pos_right h hk)]
  · rw [compare_eq_iff_eq.mpr rfl, compare_eq_iff_eq.mpr rfl]
  · rw [compare_gt_iff_gt.mpr h, compare_gt_iff_gt.mpr (Int.mul_lt_mul_of_pos_right h hk)]

theorem compare_eq_compareKeys : Cell.compare = compareKeys := by
  funext a b
  have ranks : Ord.compare 0 1 = .lt ∧ Ord.compare 0 2 = .lt ∧ Ord.compare 1 2 = .lt ∧
      Ord.compare 1 0 = .gt ∧ Ord.compare 2 0 = .gt ∧ Ord.compare 2 1 = .gt :=
    ⟨rfl, rfl, rfl, rfl, rfl, rfl⟩
  cases a <;> cases b <;>
    simp [Cell.compare, compareKeys, compareLex, compareOn, rank, place, comparePlace, date?, text?,
      ranks]
  case int.int x y => exact (compare_mul_pos _ _ one_pos).symm
  case date.date x y => rfl
  case text.text x y => rfl

instance : TransCmp Cell.compare := by
  rw [compare_eq_compareKeys]
  unfold compareKeys
  infer_instance

theorem eq_of_compare_text {s : String} {c : Cell} (h : Cell.compare (text s) c = .eq) :
    text s = c := by
  cases c with
  | text t => rw [Std.LawfulEqOrd.eq_of_compare h]
  | _ => cases h

end Cell

theorem Row.compare_eq_compareLex : Row.compare = List.compareLex Cell.compare := by
  funext a b
  induction a generalizing b with
  | nil => cases b <;> rfl
  | cons x xs ih =>
    cases b with
    | nil => rfl
    | cons y ys =>
      rw [Row.compare, ih, List.compareLex_cons_cons]

instance : TransCmp Row.compare := by
  rw [Row.compare_eq_compareLex]
  infer_instance

end RelationalAlgebra
