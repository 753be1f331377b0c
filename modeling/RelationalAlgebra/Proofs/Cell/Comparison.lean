import RelationalAlgebra.Proofs.Cell.Reading
import RelationalAlgebra.Proofs.Number.Binary64
/-!
# Comparison of cells by rounding

Floats can be compared as floats, by value and by their words where one is no number, and an integer can be
rounded to be compared with a float, where only a tie needs exact integers.  Both agree with the order by
exact places, so that order is lawful, and cells that it does not tell apart have one hash.
-/

namespace RelationalAlgebra

open Cell (comparePlace)

namespace Binary64

/-- The place of a word in the total order of words, which tells apart all that differ. -/
def totalPlace (x : Binary64) : Int := if x.negative then -(x.magnitude : Int) - 1 else x.magnitude

def compareTotal (x y : Binary64) : Ordering := Ord.compare x.totalPlace y.totalPlace

/-- The order by value, and by the words where one of them is no number. -/
def compareFloats (x y : Binary64) : Ordering := (x.compare? y).getD (x.compareTotal y)

/-- The number without its fraction, at most at the bounds of 128 bits. -/
def toWide (x : Binary64) : Int :=
  if x.isNaN then 0 else max (-2 ^ 127) (min (x.units.tdiv one) (2 ^ 127 - 1))

/-- An integer is rounded to be compared with a float.  If the two tie, the float is a whole number. -/
def compareInt (a : Int64) (x : Binary64) : Ordering :=
  match (ofInt a.toInt).compare? x with
  | some .eq => Ord.compare a.toInt x.toWide
  | some o => o
  | none => (ofInt a.toInt).compareTotal x

variable {x y : Binary64}

/-! ## Places -/

theorem comparePlace_lt {a b : Int × Int} (h : a.1 < b.1) : comparePlace a b = .lt := by
  rw [comparePlace, compare_lt_iff_lt.mpr h]
  rfl

theorem comparePlace_gt {a b : Int × Int} (h : b.1 < a.1) : comparePlace a b = .gt := by
  rw [comparePlace, compare_gt_iff_gt.mpr h]
  rfl

theorem comparePlace_mk (i a b : Int) : comparePlace (i, a) (i, b) = Ord.compare a b := by
  rw [comparePlace, compare_eq_iff_eq.mpr rfl]
  rfl

theorem compare?_of_isNaN (h : x.isNaN = true ∨ y.isNaN = true) : x.compare? y = none := by
  rw [compare?, if_pos (by simpa using h)]

theorem compare?_of_numbers (hx : x.isNaN = false) (hy : y.isNaN = false) :
    x.compare? y = some (comparePlace x.rank y.rank) := by
  rw [compare?, hx, hy]
  rfl

theorem isNaN_of_isFinite (h : x.isFinite = true) : x.isNaN = false := by
  have lt : x.magnitude < infiniteMagnitude := of_decide_eq_true h
  exact decide_eq_false (Nat.lt_asymm lt)

theorem compare_sub_one_neg (m n : Int) : Ord.compare (-m - 1) (-n - 1) = Ord.compare (-m) (-n) := by
  rcases lt_trichotomy m n with h | rfl | h
  · rw [compare_gt_iff_gt.mpr (by omega), compare_gt_iff_gt.mpr (by omega)]
  · rw [compare_eq_iff_eq.mpr rfl, compare_eq_iff_eq.mpr rfl]
  · rw [compare_lt_iff_lt.mpr (by omega), compare_lt_iff_lt.mpr (by omega)]

/-- What is no number stands at an end of the order, where the words are as far from zero as the places. -/
theorem compareTotal_of_isNaN (h : x.isNaN = true) :
    x.compareTotal y = comparePlace x.rank y.rank := by
  have large : infiniteMagnitude < x.magnitude := of_decide_eq_true h
  have infinite : ¬x.isFinite = true := by
    rw [isFinite, decide_eq_true_iff]
    exact Nat.lt_asymm large
  rw [compareTotal, totalPlace, totalPlace, rank, rank, if_neg infinite]
  by_cases finite : y.isFinite = true
  · have small : y.magnitude < infiniteMagnitude := of_decide_eq_true finite
    rw [if_pos finite]
    cases x.negative with
    | false =>
      refine (compare_gt_iff_gt.mpr ?_).trans (comparePlace_gt Int.zero_lt_one).symm
      cases y.negative <;> simp only [Bool.false_eq_true, if_false, if_true] <;> omega
    | true =>
      refine (compare_lt_iff_lt.mpr ?_).trans (comparePlace_lt (by simp)).symm
      cases y.negative <;> simp only [Bool.false_eq_true, if_false, if_true] <;> omega
  · rw [if_neg finite]
    cases x.negative <;> cases y.negative
    case false.false => exact (comparePlace_mk 1 _ _).symm
    case true.true => exact (compare_sub_one_neg _ _).trans (comparePlace_mk (-1) _ _).symm
    case false.true =>
      refine (compare_gt_iff_gt.mpr ?_).trans (comparePlace_gt (by simp)).symm
      simp only [Bool.false_eq_true, if_false, if_true]
      omega
    case true.false =>
      refine (compare_lt_iff_lt.mpr ?_).trans (comparePlace_lt (by simp)).symm
      simp only [Bool.false_eq_true, if_false, if_true]
      omega

instance : Std.TransCmp comparePlace :=
  inferInstanceAs (Std.TransCmp (compareLex (compareOn Prod.fst) (compareOn Prod.snd)))

theorem compareTotal_swap (x y : Binary64) : x.compareTotal y = (y.compareTotal x).swap := by
  rw [compareTotal, compareTotal]
  exact Std.OrientedCmp.eq_swap

theorem compareTotal_eq (h : x.isNaN = true ∨ y.isNaN = true) :
    x.compareTotal y = comparePlace x.rank y.rank := by
  rcases h with hx | hy
  · exact compareTotal_of_isNaN hx
  · rw [compareTotal_swap, compareTotal_of_isNaN hy]
    exact Std.OrientedCmp.eq_swap.symm

/-! ## The two comparisons -/

/-- The comparison of floats is the one by their places. -/
theorem compareFloats_eq (x y : Binary64) : x.compareFloats y = comparePlace x.rank y.rank := by
  rw [compareFloats]
  by_cases h : x.isNaN = true ∨ y.isNaN = true
  · rw [compare?_of_isNaN h, compareTotal_eq h]
    rfl
  · obtain ⟨hx, hy⟩ : x.isNaN = false ∧ y.isNaN = false := by simpa using h
    rw [compare?_of_numbers hx hy]
    rfl

theorem natAbs_toInt_lt (a : Int64) : a.toInt.natAbs < 2 ^ 64 := by
  have low := a.le_toInt
  have high := a.toInt_lt
  omega

/-- Where an integer ties with a float when it is rounded, the float is the whole number that it is cut to. -/
theorem toWide_of_tie {a : Int64} (finite : x.isFinite = true) (tie : (ofInt a.toInt).units = x.units) :
    x.toWide * one = x.units := by
  obtain ⟨k, bound, whole⟩ := exists_units_ofInt (natAbs_toInt_lt a)
  have number : ¬x.isNaN = true := by simp [isNaN_of_isFinite finite]
  have cut : x.units.tdiv one = k := by
    rw [← tie, whole]
    exact Int.mul_tdiv_cancel k Cell.one_pos.ne'
  have wide : x.toWide = k := by
    rw [toWide, if_neg number, cut]
    omega
  rw [wide, ← tie, whole]

/-- The numbers that are not finite are beyond all integers. -/
theorem comparePlace_of_infinite (h : ¬x.isFinite = true) :
    ∃ o, o ≠ .eq ∧ ∀ u, comparePlace (0, u) x.rank = o := by
  rw [rank, if_neg h]
  cases x.negative with
  | false => exact ⟨.lt, nofun, fun u => comparePlace_lt (by simp)⟩
  | true => exact ⟨.gt, nofun, fun u => comparePlace_gt (by simp)⟩

/-- The comparison of an integer with a float is the one by their places. -/
theorem compareInt_eq (a : Int64) (x : Binary64) :
    compareInt a x = comparePlace (0, a.toInt * one) x.rank := by
  have fits := natAbs_toInt_lt a
  have rounded := isFinite_ofInt fits
  have number := isNaN_of_isFinite rounded
  have place := rank_of_isFinite rounded
  by_cases finite : x.isFinite = true
  · rw [compareInt, compare?_of_numbers number (isNaN_of_isFinite finite), place, rank_of_isFinite finite,
      comparePlace_mk, comparePlace_mk]
    rcases lt_trichotomy (ofInt a.toInt).units x.units with below | tie | above
    · have exact_below : a.toInt * one < x.units := by
        by_contra not_below
        exact absurd ((units_ofInt fits x).2 (not_lt.mp not_below)) (not_le.mpr below)
      rw [compare_lt_iff_lt.mpr below, compare_lt_iff_lt.mpr exact_below]
    · rw [compare_eq_iff_eq.mpr tie, ← toWide_of_tie finite tie, Cell.compare_mul_pos _ _ Cell.one_pos]
    · have exact_above : x.units < a.toInt * one := by
        by_contra not_above
        exact absurd ((units_ofInt fits x).1 (not_lt.mp not_above)) (not_le.mpr above)
      rw [compare_gt_iff_gt.mpr above, compare_gt_iff_gt.mpr exact_above]
  · obtain ⟨o, apart, beyond⟩ := comparePlace_of_infinite finite
    rw [compareInt, beyond]
    cases none : x.isNaN with
    | false =>
      rw [compare?_of_numbers number none, place, beyond]
      cases o with
      | eq => exact absurd rfl apart
      | lt | gt => rfl
    | true =>
      rw [compare?_of_isNaN (.inr none), compareTotal_eq (.inr none), place, beyond]

end Binary64

namespace Cell

variable {a b : Cell}

/-- Comparison as floats and integers, where only cells of kinds that do not mix are compared by rank. -/
def compareRounded : Cell → Cell → Ordering
  | int m, int n => Ord.compare m.toInt n.toInt
  | float x, float y => x.compareFloats y
  | int m, float x => Binary64.compareInt m x
  | float x, int m => (Binary64.compareInt m x).swap
  | date d, date e => Ord.compare d e
  | text s, text t => Ord.compare s t
  | a, b => Ord.compare a.rank b.rank

theorem compareRounded_eq (a b : Cell) : a.compareRounded b = a.compare b := by
  cases a with
  | int m =>
    cases b with
    | float x => exact Binary64.compareInt_eq m x
    | int | date | text => rfl
  | float x =>
    cases b with
    | int m =>
      rw [compareRounded, Binary64.compareInt_eq]
      exact Std.OrientedCmp.eq_swap.symm
    | float y => exact Binary64.compareFloats_eq x y
    | date | text => rfl
  | date | text => cases b <;> rfl

/-! ## Hashes -/

def bytes (word : UInt64) : List UInt8 :=
  (List.range 8).map fun i => (word >>> UInt64.ofNat (8 * i)).toUInt8

/-- The bytes that a cell feeds into a hash, where dates are fed in by `ofDate`.  A text ends with a byte
that stands in no text. -/
def hashed (ofDate : Date → List UInt8) (c : Cell) : List UInt8 :=
  UInt8.ofNat c.rank ::
    match c.digest with
    | .number bits => bytes bits
    | .date d => ofDate d
    | .text s => s.toUTF8.data.toList ++ [255]

theorem eq_of_comparePlace {p q : Int × Int} (h : comparePlace p q = .eq) : p = q := by
  obtain ⟨first, second⟩ := Ordering.then_eq_eq.mp h
  exact Prod.ext (compare_eq_iff_eq.mp first) (compare_eq_iff_eq.mp second)

theorem eq_of_compare_date {d e : Date} (h : d.compare e = .eq) : d = e := by
  obtain ⟨yearMonth, days⟩ := Ordering.then_eq_eq.mp h
  obtain ⟨years, months⟩ := Ordering.then_eq_eq.mp yearMonth
  cases d
  cases e
  obtain rfl := compare_eq_iff_eq.mp years
  obtain rfl := compare_eq_iff_eq.mp months
  obtain rfl := compare_eq_iff_eq.mp days
  rfl

/-- A float that has the place of an integer is fed into a hash as that integer. -/
theorem floatDigest_of_rank {x : Binary64} {m : Int64} (h : x.rank = (0, m.toInt * Binary64.one)) :
    floatDigest x = m.toUInt64 := by
  have finite : x.isFinite = true := Binary64.isFinite_iff_rank.mpr (congrArg Prod.fst h)
  rw [Binary64.rank_of_isFinite finite] at h
  have units : x.units = m.toInt * Binary64.one := congrArg Prod.snd h
  have whole : x.toInt? = some m.toInt := by
    rw [Binary64.toInt?, units, if_pos ⟨finite, Int.mul_emod_left ..⟩,
      Int.mul_ediv_cancel _ one_pos.ne']
  rw [floatDigest, whole, Option.bind_some, Whole.fit?_toInt]

theorem floatDigest_eq {x y : Binary64} (h : x.rank = y.rank) : floatDigest x = floatDigest y := by
  rcases Binary64.eq_of_rank h with rfl | zero
  · rfl
  · -- zeros of both signs are the integer 0
    have place : (0, (0 : Int64).toInt * Binary64.one) = ((0, 0) : Int × Int) := by
      rw [Int64.toInt_zero, Int.zero_mul]
    rw [floatDigest_of_rank (zero.trans place.symm), floatDigest_of_rank (h ▸ zero.trans place.symm)]

theorem digest_eq (h : a.compare b = .eq) : a.rank = b.rank ∧ a.digest = b.digest := by
  cases a with
  | int m =>
    cases b with
    | int n =>
      obtain rfl := Int64.toInt_inj.mp (compare_eq_iff_eq.mp h)
      exact ⟨rfl, rfl⟩
    | float x =>
      have place : (0, m.toInt * Binary64.one) = x.rank := eq_of_comparePlace h
      exact ⟨rfl, congrArg Digest.number (floatDigest_of_rank place.symm).symm⟩
    | date | text => cases h
  | float x =>
    cases b with
    | int n =>
      have place : x.rank = (0, n.toInt * Binary64.one) := eq_of_comparePlace h
      exact ⟨rfl, congrArg Digest.number (floatDigest_of_rank place)⟩
    | float y => exact ⟨rfl, congrArg Digest.number (floatDigest_eq (eq_of_comparePlace h))⟩
    | date | text => cases h
  | date d =>
    cases b with
    | date e =>
      obtain rfl := eq_of_compare_date h
      exact ⟨rfl, rfl⟩
    | int | float | text => cases h
  | text s =>
    obtain rfl := eq_of_compare_text h
    exact ⟨rfl, rfl⟩

theorem hashed_eq (ofDate : Date → List UInt8) (h : a.compare b = .eq) :
    a.hashed ofDate = b.hashed ofDate := by
  obtain ⟨ranks, digests⟩ := digest_eq h
  rw [hashed, hashed, ranks, digests]

end Cell

/-! ## Lawful orders -/

/-- An order that turns around with its arguments and is transitive, whose ties are an equivalence that
neither the order nor the hash sees through. -/
structure LawfulOrder {α β : Type} (order : α → α → Ordering) (hash : α → β) : Prop where
  reverse : ∀ a b, order b a = (order a b).swap
  trans : ∀ a b c o, order a b = o → order b c = o → order a c = o
  isLE_trans : ∀ a b c, (order a b).isLE = true → (order b c).isLE = true → (order a c).isLE = true
  equivalence : Equivalence fun a b => order a b = .eq
  congr : ∀ a b c, order a b = .eq → order a c = order b c ∧ order c a = order c b
  hash_eq : ∀ a b, order a b = .eq → hash a = hash b

theorem LawfulOrder.of_transCmp {α β : Type} {order : α → α → Ordering} [Std.TransCmp order]
    {hash : α → β} (hash_eq : ∀ a b, order a b = .eq → hash a = hash b) : LawfulOrder order hash where
  reverse _ _ := Std.OrientedCmp.eq_swap
  trans a b c o ab bc := by
    cases o with
    | lt => exact Std.TransCmp.lt_trans ab bc
    | eq => exact Std.TransCmp.eq_trans ab bc
    | gt => exact Std.TransCmp.gt_trans ab bc
  isLE_trans _ _ _ := Std.TransCmp.isLE_trans
  equivalence := ⟨fun _ => Std.ReflCmp.compare_self, Std.OrientedCmp.eq_symm, Std.TransCmp.eq_trans⟩
  congr _ _ _ tie := ⟨Std.TransCmp.congr_left tie, Std.TransCmp.congr_right tie⟩
  hash_eq := hash_eq

/-- Cells of all kinds, compared exactly or by rounding, are in one lawful order. -/
theorem Cell.order_and_hash_are_lawful (ofDate : Date → List UInt8) :
    (∀ a b : Cell, a.compareRounded b = a.compare b) ∧
      LawfulOrder Cell.compare (Cell.hashed ofDate) :=
  ⟨compareRounded_eq, .of_transCmp fun _ _ tie => hashed_eq ofDate tie⟩

/-- The integers `2 ^ 53 + 1` and `2 ^ 63 - 1` are rounded to floats that they differ from; the floats `2 ^ 53`
and `-0.0` are fed into a hash as integers. -/
example :
    (Cell.int 9007199254740993).compareRounded (.float ⟨0x4340000000000000⟩) = .gt ∧
      (Cell.int 9223372036854775807).compareRounded (.float ⟨0x43e0000000000000⟩) = .lt ∧
      (Cell.int 9007199254740992).hashed (fun _ => []) =
        (Cell.float ⟨0x4340000000000000⟩).hashed (fun _ => []) ∧
      (Cell.int 0).hashed (fun _ => []) = (Cell.float ⟨0x8000000000000000⟩).hashed (fun _ => []) := by
  decide +kernel

end RelationalAlgebra
