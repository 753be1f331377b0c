import Mathlib.Data.Rat.Floor
import Mathlib.Tactic.FieldSimp
import Mathlib.Tactic.Linarith
import RelationalAlgebra.Predicate.Scalar
import RelationalAlgebra.Proofs.Cell.Reading
import RelationalAlgebra.Proofs.Date
/-!
# Exact arithmetic

Arithmetic on integers of 64 bits and on dates gives the exact result or none.  Beside the operations on exact
integers there are those of a machine, one step after the other: its division cuts quotients off at zero, so
that they are corrected to be rounded down, and it shifts dates by seconds.  Both give the same, and no step
that is not checked leaves the 64 bits.
-/

namespace RelationalAlgebra

/-! ## Integers of 64 bits -/

namespace Whole

def Fits (n : Int) : Prop := -2 ^ 63 ≤ n ∧ n < 2 ^ 63

variable {n : Int} {v : Int64}

theorem fit?_eq_some_iff : fit? n = some v ↔ v.toInt = n :=
  ⟨toInt_of_fit?, fun h => h ▸ fit?_toInt v⟩

theorem fit?_eq_none_iff_not_fits : fit? n = none ↔ ¬Fits n := by
  rw [fit?_eq_none_iff, Fits, least, greatest]
  omega

theorem exists_fit? (h : Fits n) : ∃ v, fit? n = some v := by
  refine Option.ne_none_iff_exists'.mp fun none => ?_
  exact fit?_eq_none_iff_not_fits.mp none h

end Whole

/-! ## Division that rounds down -/

/-- The quotient of `x` by `y` that is rounded down, and the remainder, which is less than `y` and has its
sign. -/
structure Floored (x y q r : Int) : Prop where
  eq : x = q * y + r
  rest : 0 ≤ r ∧ r < y ∨ y < r ∧ r ≤ 0

namespace Floored

variable {x y q r q' r' : Int}

theorem ne_zero (h : Floored x y q r) : y ≠ 0 := by
  have := h.rest
  omega

theorem unique (h : Floored x y q r) (h' : Floored x y q' r') : q = q' ∧ r = r' := by
  have difference : (q - q') * y = r' - r := by
    have := h.eq.symm.trans h'.eq
    linarith
  have small : (r' - r).natAbs < y.natAbs := by
    have := h.rest
    have := h'.rest
    omega
  have same : r' - r = 0 := Int.eq_zero_of_dvd_of_natAbs_lt_natAbs ⟨q - q', by linarith⟩ small
  rw [same] at difference
  have := (Int.mul_eq_zero.mp difference).resolve_right h.ne_zero
  omega

theorem floor_eq (h : Floored x y q r) : ⌊(x : ℚ) / y⌋ = q := by
  have nonzero : (y : ℚ) ≠ 0 := Int.cast_ne_zero.mpr h.ne_zero
  have quotient : (x : ℚ) / y = q + r / y := by
    rw [h.eq]
    push_cast
    field_simp
  rw [Int.floor_eq_iff, quotient]
  rcases h.rest with ⟨lower, upper⟩ | ⟨lower, upper⟩
  · have positive : (0 : ℚ) < y := by exact_mod_cast lt_of_le_of_lt lower upper
    have := div_nonneg (by exact_mod_cast lower : (0 : ℚ) ≤ r) positive.le
    have := (div_lt_one positive).mpr (by exact_mod_cast upper : (r : ℚ) < y)
    constructor <;> linarith
  · have negative : (y : ℚ) < 0 := by exact_mod_cast lt_of_lt_of_le lower upper
    have := div_nonneg_of_nonpos (by exact_mod_cast upper : (r : ℚ) ≤ 0) negative.le
    have := (div_lt_one_of_neg negative).mpr (by exact_mod_cast lower : (y : ℚ) < r)
    constructor <;> linarith

theorem natAbs_lt (h : Floored x y q r) : r.natAbs < y.natAbs := by
  have := h.rest
  omega

end Floored

theorem floored_fdiv (x : Int) {y : Int} (h : y ≠ 0) : Floored x y (x.fdiv y) (x.fmod y) := by
  refine ⟨?_, ?_⟩
  · rw [Int.mul_comm]
    exact (Int.mul_fdiv_add_fmod x y).symm
  · rcases lt_or_gt_of_ne h with negative | positive
    · have opposite : (-x).fmod (-y) = -x.fmod y := Int.neg_fmod_neg ..
      have := Int.fmod_nonneg_of_pos (-x) (Int.neg_pos_of_neg negative)
      have := Int.fmod_lt_of_pos (-x) (Int.neg_pos_of_neg negative)
      omega
    · exact .inl ⟨Int.fmod_nonneg_of_pos x positive, Int.fmod_lt_of_pos x positive⟩

/-- The remainder of a division that cuts off at zero has the sign of what is divided. -/
theorem tmod_bounds (x : Int) {y : Int} (h : y ≠ 0) :
    (x.tmod y).natAbs < y.natAbs ∧ (0 ≤ x → 0 ≤ x.tmod y) ∧ (x ≤ 0 → x.tmod y ≤ 0) := by
  refine ⟨?_, fun nonneg => Int.tmod_nonneg y nonneg, fun nonpos => ?_⟩
  · rw [Int.natAbs_tmod]
    exact Nat.mod_lt _ (Int.natAbs_pos.mpr h)
  · have := Int.tmod_nonneg y (Int.neg_nonneg_of_nonpos nonpos)
    rw [Int.neg_tmod] at this
    omega

/-- A quotient that was rounded up is one too large, and its remainder lacks the divisor. -/
theorem floored_tdiv (x : Int) {y : Int} (h : y ≠ 0) :
    if x.tmod y ≠ 0 ∧ (x < 0 ↔ ¬y < 0) then Floored x y (x.tdiv y - 1) (x.tmod y + y)
    else Floored x y (x.tdiv y) (x.tmod y) := by
  have division := Int.tdiv_mul_add_tmod x y
  obtain ⟨small, nonneg, nonpos⟩ := tmod_bounds x h
  split
  · refine ⟨by rw [Int.sub_mul]; omega, ?_⟩
    omega
  · exact ⟨division.symm, by omega⟩

namespace Predicate.Arithmetic

open Whole

variable {op : Arithmetic} {a b n : Int64} {d e : Date}

/-! ## Integers -/

theorem fit_eq_ok_iff {n : Int} {v : Scalar} :
    op.fit n = .ok v ↔ ∃ w : Int64, v = .int w ∧ w.toInt = n := by
  rw [fit]
  constructor
  · intro h
    split at h
    · next w fits => exact ⟨w, (Except.ok.inj h).symm, toInt_of_fit? fits⟩
    · cases h
  · rintro ⟨w, rfl, rfl⟩
    rw [fit?_toInt]

theorem fit_eq_overflow_iff {n : Int} : op.fit n = .error (.overflow op.symbol) ↔ ¬Fits n := by
  rw [fit, ← fit?_eq_none_iff_not_fits]
  split
  · next w fits => simp [fits]
  · next none => simp [none]

theorem fit_ne_divisionByZero {n : Int} : op.fit n ≠ .error .divisionByZero := by
  rw [fit]
  split <;> simp

/-- An operation gives an integer if it has 64 bits, and refuses it if it has not. -/
structure Exact (op : Arithmetic) (a b : Int64) (n : Int) : Prop where
  result : ∀ v, op.apply (.int a) (.int b) = .ok v ↔ ∃ w : Int64, v = .int w ∧ w.toInt = n
  refused : op.apply (.int a) (.int b) = .error (.overflow op.symbol) ↔ ¬Fits n

theorem apply_int (op : Arithmetic) (a b : Int64) : op.apply (.int a) (.int b) = op.onWhole a b := by
  cases op <;> rfl

theorem exact_of_fit {n : Int} (h : op.onWhole a b = op.fit n) : Exact op a b n := by
  constructor
  · intro v
    rw [apply_int, h, fit_eq_ok_iff]
  · rw [apply_int, h, fit_eq_overflow_iff]

/-- The one pair whose quotient does not have 64 bits. -/
def IsExtreme (a b : Int64) : Prop := a = Int64.minValue ∧ b = -1

instance : Decidable (IsExtreme a b) := inferInstanceAs (Decidable (_ ∧ _))

theorem isExtreme_iff : IsExtreme a b ↔ a.toInt = -2 ^ 63 ∧ b.toInt = -1 := by
  rw [IsExtreme, ← Int64.toInt_inj, ← Int64.toInt_inj]
  rfl

theorem toInt_ne_zero (h : b ≠ 0) : b.toInt ≠ 0 := fun zero => h (Int64.toInt_inj.mp zero)

/-- The opposite of the least integer is the only quotient that does not fit, however it is rounded. -/
theorem fits_quotient_iff {q r : Int} (division : a.toInt = q * b.toInt + r)
    (small : r.natAbs < b.toInt.natAbs) (bound : q.natAbs ≤ a.toInt.natAbs) :
    Fits q ↔ ¬IsExtreme a b := by
  have least := a.le_toInt
  have most := a.toInt_lt
  rw [isExtreme_iff, Fits]
  constructor
  · rintro fits ⟨dividend, divisor⟩
    rw [dividend, divisor] at division
    rw [divisor] at small
    omega
  · intro others
    refine ⟨by omega, ?_⟩
    by_contra large
    have quotient : q = 2 ^ 63 := by omega
    rw [quotient] at division
    omega

theorem fits_fdiv_iff (h : b ≠ 0) : Fits (a.toInt.fdiv b.toInt) ↔ ¬IsExtreme a b :=
  have floored := floored_fdiv a.toInt (toInt_ne_zero h)
  fits_quotient_iff floored.eq floored.natAbs_lt (Int.natAbs_fdiv_le_natAbs ..)

theorem fits_tdiv_iff (h : b ≠ 0) : Fits (a.toInt.tdiv b.toInt) ↔ ¬IsExtreme a b :=
  fits_quotient_iff (Int.tdiv_mul_add_tmod ..).symm (tmod_bounds a.toInt (toInt_ne_zero h)).1
    (Int.natAbs_tdiv_le_natAbs ..)

theorem fits_of_natAbs_lt {r : Int} (h : r.natAbs < b.toInt.natAbs) : Fits r := by
  have least := b.le_toInt
  have most := b.toInt_lt
  rw [Fits]
  omega

theorem onWhole_floorDiv (h : b ≠ 0) :
    floorDiv.onWhole a b = floorDiv.fit (a.toInt.fdiv b.toInt) := if_neg (toInt_ne_zero h)

theorem onWhole_rem (h : b ≠ 0) : rem.onWhole a b =
    if IsExtreme a b then .error (.overflow rem.symbol) else rem.fit (a.toInt.fmod b.toInt) := by
  rw [onWhole, if_neg (toInt_ne_zero h)]
  by_cases extreme : IsExtreme a b
  · have none := fit?_eq_none_iff_not_fits.mpr fun fits => (fits_fdiv_iff h).mp fits extreme
    rw [if_pos extreme, none]
  · obtain ⟨q, fits⟩ := exists_fit? ((fits_fdiv_iff h).mpr extreme)
    rw [if_neg extreme, fits]

/-! ## Integers step by step -/

/-- The remainder of a division that cuts off at zero.  A machine has none where the quotient does not have
64 bits, though it would be zero. -/
def remainder? (a b : Int64) : Option Int64 :=
  (fit? (a.toInt.tdiv b.toInt)).bind fun _ => fit? (a.toInt.tmod b.toInt)

/-- The operations as operations on 64 bits, one after the other.  Sums, differences, products and the first
division are checked; there is no result at all if one of the other steps leaves the 64 bits. -/
def inSteps (op : Arithmetic) (a b : Int64) : Option (Except Fault Scalar) :=
  match op with
  | add => some (op.fit (a.toInt + b.toInt))
  | sub => some (op.fit (a.toInt - b.toInt))
  | mul => some (op.fit (a.toInt * b.toInt))
  | div => some (op.onWhole a b)
  | floorDiv =>
    if b = 0 then some (.error .divisionByZero)
    else
      match fit? (a.toInt.tdiv b.toInt) with
      | none => some (.error (.overflow op.symbol))
      | some q =>
        (remainder? a b).bind fun r =>
          if r.toInt ≠ 0 ∧ (a.toInt < 0 ↔ ¬b.toInt < 0) then
            (fit? (q.toInt - 1)).map fun q => .ok (.int q)
          else some (.ok (.int q))
  | rem =>
    if b = 0 then some (.error .divisionByZero)
    else
      match remainder? a b with
      | none => some (.error (.overflow op.symbol))
      | some r =>
        if r.toInt ≠ 0 ∧ (r.toInt < 0 ↔ ¬b.toInt < 0) then
          (fit? (r.toInt + b.toInt)).map fun r => .ok (.int r)
        else some (.ok (.int r))

theorem remainder?_eq_none (h : b ≠ 0) (extreme : IsExtreme a b) : remainder? a b = none := by
  rw [remainder?, fit?_eq_none_iff_not_fits.mpr fun fits => (fits_tdiv_iff h).mp fits extreme]
  rfl

theorem exists_remainder? (h : b ≠ 0) (others : ¬IsExtreme a b) :
    ∃ r, remainder? a b = some r ∧ r.toInt = a.toInt.tmod b.toInt := by
  obtain ⟨q, quotient⟩ := exists_fit? ((fits_tdiv_iff h).mpr others)
  obtain ⟨r, rest⟩ := exists_fit? (fits_of_natAbs_lt (tmod_bounds a.toInt (toInt_ne_zero h)).1)
  exact ⟨r, by rw [remainder?, quotient, Option.bind_some, rest], toInt_of_fit? rest⟩

theorem fit_of_fit? {n : Int} {w : Int64} (h : fit? n = some w) : op.fit n = .ok (.int w) := by
  rw [fit, h]

theorem inSteps_floorDiv (h : b ≠ 0) :
    floorDiv.inSteps a b = some (floorDiv.fit (a.toInt.fdiv b.toInt)) := by
  have nonzero := toInt_ne_zero h
  rw [inSteps, if_neg h]
  by_cases extreme : IsExtreme a b
  · have none := fit?_eq_none_iff_not_fits.mpr fun fits => (fits_tdiv_iff h).mp fits extreme
    have refused : floorDiv.fit (a.toInt.fdiv b.toInt) = .error (.overflow floorDiv.symbol) :=
      fit_eq_overflow_iff.mpr fun fits => (fits_fdiv_iff h).mp fits extreme
    rw [none, refused]
  · obtain ⟨q, quotient⟩ := exists_fit? ((fits_tdiv_iff h).mpr extreme)
    obtain ⟨r, remainder, rest⟩ := exists_remainder? h extreme
    obtain ⟨w, fits⟩ := exists_fit? ((fits_fdiv_iff h).mpr extreme)
    have truncated := floored_tdiv a.toInt nonzero
    rw [quotient, remainder, fit_of_fit? fits]
    simp only [Option.bind_some, rest, toInt_of_fit? quotient]
    split at truncated
    · next corrected =>
      obtain ⟨same, -⟩ := truncated.unique (floored_fdiv a.toInt nonzero)
      rw [if_pos corrected, same, fits]
      rfl
    · next exact =>
      obtain ⟨same, -⟩ := truncated.unique (floored_fdiv a.toInt nonzero)
      rw [same, fits] at quotient
      rw [if_neg exact, Option.some.inj quotient]

theorem inSteps_rem (h : b ≠ 0) : rem.inSteps a b =
    some (if IsExtreme a b then .error (.overflow rem.symbol) else rem.fit (a.toInt.fmod b.toInt)) := by
  have nonzero := toInt_ne_zero h
  rw [inSteps, if_neg h]
  by_cases extreme : IsExtreme a b
  · rw [remainder?_eq_none h extreme, if_pos extreme]
  · obtain ⟨r, remainder, rest⟩ := exists_remainder? h extreme
    have floored := floored_fdiv a.toInt nonzero
    obtain ⟨w, fits⟩ := exists_fit? (fits_of_natAbs_lt floored.natAbs_lt)
    have truncated := floored_tdiv a.toInt nonzero
    -- a remainder that is not zero has the sign of the dividend
    have signs : (r.toInt ≠ 0 ∧ (r.toInt < 0 ↔ ¬b.toInt < 0)) ↔
        (a.toInt.tmod b.toInt ≠ 0 ∧ (a.toInt < 0 ↔ ¬b.toInt < 0)) := by
      have := tmod_bounds a.toInt nonzero
      omega
    rw [remainder, if_neg extreme, fit_of_fit? fits]
    dsimp only
    split at truncated
    · next corrected =>
      obtain ⟨-, same⟩ := truncated.unique floored
      rw [if_pos (signs.mpr corrected), rest, same, fits]
      rfl
    · next exact =>
      obtain ⟨-, same⟩ := truncated.unique floored
      rw [← rest, fit?_eq_some_iff.mp fits |>.symm, Int64.toInt_inj] at same
      rw [if_neg (fun c => exact (signs.mp c)), same]

/-- The steps give the exact result or its refusal: none that is not checked leaves the 64 bits. -/
theorem inSteps_eq (op : Arithmetic) (a b : Int64) : op.inSteps a b = some (op.onWhole a b) := by
  by_cases h : b = 0
  · subst h
    cases op <;> rfl
  · cases op with
    | add | sub | mul | div => rfl
    | floorDiv => rw [inSteps_floorDiv h, onWhole_floorDiv h]
    | rem => rw [inSteps_rem h, onWhole_rem h]

/-! ## Dates -/

/-- An operation gives the date some days after another one, and refuses it if there is none. -/
structure Shifts (op : Arithmetic) (d : Date) (n : Int64) (days : Int) : Prop where
  result : ∀ v, op.apply (.date d) (.int n) = .ok v ↔ ∃ e, v = .date e ∧ d.Later days e
  refused : op.apply (.date d) (.int n) = .error (.overflow op.symbol) ↔ d.Outside days

theorem shifts_of_shift {days : Int} (h : op.apply (.date d) (.int n) = op.shift d days) :
    Shifts op d n days := by
  unfold shift at h
  constructor
  · intro v
    rw [h]
    cases shifted : d.addDays? days with
    | none =>
      have none (e : Date) : ¬d.Later days e := fun later => by
        rw [Date.addDays?_eq_some_iff.mpr later] at shifted
        cases shifted
      simp [none]
    | some e =>
      have later := Date.addDays?_eq_some_iff.mp shifted
      constructor
      · intro same
        exact ⟨e, (Except.ok.inj same).symm, later⟩
      · rintro ⟨f, rfl, other⟩
        rw [Date.dayNumber_inj.mp (later.dayNumber_eq.trans other.dayNumber_eq.symm)]
  · rw [h, ← Date.addDays?_eq_none_iff]
    cases d.addDays? days <;> simp

theorem apply_add_date (d : Date) (n : Int64) :
    add.apply (.date d) (.int n) = add.shift d n.toInt := by
  rw [show add.apply (.date d) (.int n) = add.shift d (1 * n.toInt) from rfl, Int.one_mul]

theorem apply_sub_date (d : Date) (n : Int64) :
    sub.apply (.date d) (.int n) = sub.shift d (-n.toInt) := by
  rw [show sub.apply (.date d) (.int n) = sub.shift d (-1 * n.toInt) from rfl, Int.neg_one_mul]

/-- The days between two dates that are `n` days apart. -/
theorem apply_sub_dates (h : d.Later n.toInt e) : sub.apply (.date e) (.date d) = .ok (.int n) := by
  have difference : e.dayNumber - d.dayNumber = n.toInt := by
    have := h.dayNumber_eq
    omega
  rw [show sub.apply (.date e) (.date d) = .ok (.int (Int64.ofInt (e.dayNumber - d.dayNumber))) from rfl,
    difference, Int64.ofInt_toInt]

/-! ## Dates step by step -/

/-- Shifting a date by seconds: the days that are taken away are negated, and a day has 86400 seconds.  Each
step is checked. -/
def shiftInSeconds (op : Arithmetic) (d : Date) (n : Int64) : Except Fault Scalar :=
  let days := if op = sub then fit? (-n.toInt) else some n
  let seconds := days.bind fun days => fit? (days.toInt * 86400)
  match seconds.bind fun seconds => d.addDays? (seconds.toInt.tdiv 86400) with
  | some d => .ok (.date d)
  | none => .error (.overflow op.symbol)

/-- What the seconds refuse is outside of the calendar. -/
theorem bind_seconds (d : Date) (days : Int) :
    ((fit? days).bind fun days => fit? (days.toInt * 86400)).bind
      (fun seconds => d.addDays? (seconds.toInt.tdiv 86400)) = d.addDays? days := by
  cases shifted : d.addDays? days with
  | none =>
    rw [Option.bind_eq_none_iff]
    intro seconds h
    obtain ⟨v, fits, product⟩ := Option.bind_eq_some_iff.mp h
    rw [toInt_of_fit? product, toInt_of_fit? fits, Int.mul_tdiv_cancel _ (by decide), shifted]
  | some e =>
    have small := Date.natAbs_lt_of_addDays? shifted
    obtain ⟨v, fits⟩ := @exists_fit? days ⟨by omega, by omega⟩
    obtain ⟨w, product⟩ := @exists_fit? (days * 86400) ⟨by omega, by omega⟩
    rw [fits, Option.bind_some, toInt_of_fit? fits, product, Option.bind_some, toInt_of_fit? product,
      Int.mul_tdiv_cancel _ (by decide), shifted]

theorem shiftInSeconds_add (d : Date) (n : Int64) :
    add.shiftInSeconds d n = add.apply (.date d) (.int n) := by
  have seconds := bind_seconds d n.toInt
  rw [fit?_toInt] at seconds
  rw [apply_add_date]
  unfold shift
  rw [← seconds]
  rfl

theorem shiftInSeconds_sub (d : Date) (n : Int64) :
    sub.shiftInSeconds d n = sub.apply (.date d) (.int n) := by
  rw [apply_sub_date]
  unfold shift
  rw [← bind_seconds]
  rfl

/-! ## Exact or refused -/

/-- Arithmetic on two integers is exact or refused. -/
structure ExactOnIntegers (a b : Int64) : Prop where
  add : Exact .add a b (a.toInt + b.toInt)
  sub : Exact .sub a b (a.toInt - b.toInt)
  mul : Exact .mul a b (a.toInt * b.toInt)
  byZero : ∀ op : Arithmetic, op = .floorDiv ∨ op = .rem →
    (op.apply (.int a) (.int b) = .error .divisionByZero ↔ b = 0)
  floorDiv : b ≠ 0 → Exact .floorDiv a b ⌊(a.toInt : ℚ) / b.toInt⌋
  overflow : ∀ op : Arithmetic, op = .floorDiv ∨ op = .rem →
    (op.apply (.int a) (.int b) = .error (.overflow op.symbol) ↔ IsExtreme a b)
  rem : b ≠ 0 → ¬IsExtreme a b → ∃ q r : Int64,
    Arithmetic.floorDiv.apply (.int a) (.int b) = .ok (.int q) ∧
    Arithmetic.rem.apply (.int a) (.int b) = .ok (.int r) ∧
    a.toInt = q.toInt * b.toInt + r.toInt ∧
    (r = 0 ∨ (r.toInt < 0 ↔ b.toInt < 0)) ∧ r.toInt.natAbs < b.toInt.natAbs
  steps : ∀ op : Arithmetic, op.inSteps a b = some (op.apply (.int a) (.int b))

/-- Shifting a date gives the date that many days later or earlier, or is refused. -/
structure ExactOnDates (d : Date) (n : Int64) : Prop where
  add : Shifts .add d n n.toInt
  sub : Shifts .sub d n (-n.toInt)
  back : ∀ e, Arithmetic.add.apply (.date d) (.int n) = .ok (.date e) →
    Arithmetic.sub.apply (.date e) (.date d) = .ok (.int n)
  steps : ∀ op : Arithmetic, op = .add ∨ op = .sub →
    op.shiftInSeconds d n = op.apply (.date d) (.int n)

theorem apply_floorDiv (h : b ≠ 0) :
    floorDiv.apply (.int a) (.int b) = floorDiv.fit (a.toInt.fdiv b.toInt) := by
  rw [apply_int, onWhole_floorDiv h]

theorem apply_rem (h : b ≠ 0) : rem.apply (.int a) (.int b) =
    if IsExtreme a b then .error (.overflow rem.symbol) else rem.fit (a.toInt.fmod b.toInt) := by
  rw [apply_int, onWhole_rem h]

theorem ne_zero_of_isExtreme (h : IsExtreme a b) : b ≠ 0 := by
  rintro rfl
  exact absurd h.2 (by decide)

theorem byZero_iff (divides : op = floorDiv ∨ op = rem) :
    op.apply (.int a) (.int b) = .error .divisionByZero ↔ b = 0 := by
  refine ⟨fun fault => ?_, ?_⟩
  · by_contra h
    rcases divides with rfl | rfl
    · rw [apply_floorDiv h] at fault
      exact fit_ne_divisionByZero fault
    · rw [apply_rem h] at fault
      split at fault
      · cases fault
      · exact fit_ne_divisionByZero fault
  · rintro rfl
    rcases divides with rfl | rfl
    · rfl
    · rfl

theorem overflow_iff (divides : op = floorDiv ∨ op = rem) :
    op.apply (.int a) (.int b) = .error (.overflow op.symbol) ↔ IsExtreme a b := by
  by_cases h : b = 0
  · subst h
    have never : ¬IsExtreme a 0 := fun extreme => ne_zero_of_isExtreme extreme rfl
    rw [(byZero_iff divides).mpr rfl]
    simp [never]
  · rcases divides with rfl | rfl
    · rw [apply_floorDiv h, fit_eq_overflow_iff, fits_fdiv_iff h, not_not]
    · rw [apply_rem h]
      split
      · next extreme => simp [extreme]
      · next others =>
        have fits := fits_of_natAbs_lt (floored_fdiv a.toInt (toInt_ne_zero h)).natAbs_lt
        rw [fit_eq_overflow_iff]
        exact iff_of_false (not_not.mpr fits) others

theorem exact_floorDiv (h : b ≠ 0) : Exact floorDiv a b ⌊(a.toInt : ℚ) / b.toInt⌋ := by
  rw [(floored_fdiv a.toInt (toInt_ne_zero h)).floor_eq]
  exact exact_of_fit (onWhole_floorDiv h)

/-- Where a quotient is not refused, it and the remainder put the dividend together again. -/
theorem exists_quotient (h : b ≠ 0) (others : ¬IsExtreme a b) : ∃ q r : Int64,
    floorDiv.apply (.int a) (.int b) = .ok (.int q) ∧ rem.apply (.int a) (.int b) = .ok (.int r) ∧
      Floored a.toInt b.toInt q.toInt r.toInt := by
  have floored := floored_fdiv a.toInt (toInt_ne_zero h)
  obtain ⟨q, quotient⟩ := exists_fit? ((fits_fdiv_iff h).mpr others)
  obtain ⟨r, remainder⟩ := exists_fit? (fits_of_natAbs_lt floored.natAbs_lt)
  rw [← toInt_of_fit? quotient, ← toInt_of_fit? remainder] at floored
  refine ⟨q, r, ?_, ?_, floored⟩
  · rw [apply_floorDiv h, fit_of_fit? quotient]
  · rw [apply_rem h, if_neg others, fit_of_fit? remainder]

theorem exactOnIntegers (a b : Int64) : ExactOnIntegers a b where
  add := exact_of_fit rfl
  sub := exact_of_fit rfl
  mul := exact_of_fit rfl
  byZero _ divides := byZero_iff divides
  floorDiv := exact_floorDiv
  overflow _ divides := overflow_iff divides
  rem h others := by
    obtain ⟨q, r, quotient, remainder, floored⟩ := exists_quotient h others
    refine ⟨q, r, quotient, remainder, floored.eq, ?_, floored.natAbs_lt⟩
    rw [← Int64.toInt_inj, show (0 : Int64).toInt = 0 from rfl]
    have := floored.rest
    omega
  steps op := by rw [inSteps_eq, apply_int]

theorem exactOnDates (d : Date) (n : Int64) : ExactOnDates d n where
  add := shifts_of_shift (apply_add_date d n)
  sub := shifts_of_shift (apply_sub_date d n)
  back e h := by
    obtain ⟨f, same, later⟩ := ((shifts_of_shift (apply_add_date d n)).result _).mp h
    obtain rfl := Scalar.date.inj same
    exact apply_sub_dates later
  steps op shifts := by
    rcases shifts with rfl | rfl
    · exact shiftInSeconds_add d n
    · exact shiftInSeconds_sub d n

/-- Arithmetic on integers and on dates is exact or refused. -/
theorem arithmetic_is_exact_or_refused (a b n : Int64) (d : Date) :
    ExactOnIntegers a b ∧ ExactOnDates d n := ⟨exactOnIntegers a b, exactOnDates d n⟩

end Predicate.Arithmetic

end RelationalAlgebra
