import Mathlib.Order.Monotone.Basic
import Mathlib.Tactic.Common
import Mathlib.Tactic.IntervalCases
import RelationalAlgebra.Date
/-!
# Days of the calendar

The calendar goes from date to date, by the lengths of the months.  Dates are numbered in that order, each
number of the range has one date, and the date `n` days after another one is the date that is reached in `n`
steps.
-/

namespace RelationalAlgebra

namespace Calendar

/-! ## Years -/

def yearLength (year : Int) : Nat := if isLeap year then 366 else 365

theorem daysBeforeYear_succ (year : Int) :
    daysBeforeYear (year + 1) = daysBeforeYear year + yearLength year := by
  simp only [daysBeforeYear, yearLength, isLeap]
  by_cases by4 : year % 4 = 0 <;> by_cases by100 : year % 100 = 0 <;>
    by_cases by400 : year % 400 = 0 <;> simp [by4, by100, by400] <;> omega

theorem daysBeforeYear_lt_iff {year year' : Int} :
    daysBeforeYear year < daysBeforeYear year' ↔ year < year' := by
  have increasing : StrictMono daysBeforeYear := by
    refine strictMono_int_of_lt_succ fun year => ?_
    rw [daysBeforeYear_succ, yearLength]
    split <;> omega
  exact increasing.lt_iff_lt

theorem daysBeforeYear_le_iff {year year' : Int} :
    daysBeforeYear year ≤ daysBeforeYear year' ↔ year ≤ year' := by
  rw [← Int.not_lt, ← Int.not_lt, daysBeforeYear_lt_iff]

/-- Four centuries have 146097 days, so the first guess misses the year by one at most. -/
theorem yearOfDay_bounds (n : Int) :
    daysBeforeYear (yearOfDay n) < n ∧ n ≤ daysBeforeYear (yearOfDay n + 1) := by
  unfold yearOfDay daysBeforeYear
  dsimp only
  split
  · constructor <;> omega
  · split
    · constructor <;> omega
    · constructor <;> omega

theorem yearOfDay_eq {n year : Int} (after : daysBeforeYear year < n)
    (upTo : n ≤ daysBeforeYear (year + 1)) : yearOfDay n = year := by
  obtain ⟨lower, upper⟩ := yearOfDay_bounds n
  have notLater : yearOfDay n < year + 1 := daysBeforeYear_lt_iff.mp (by omega)
  have notEarlier : year < yearOfDay n + 1 := daysBeforeYear_lt_iff.mp (by omega)
  omega

/-! ## Months -/

theorem length_monthLengths (year : Int) : (monthLengths year).length = 12 := rfl

theorem sum_monthLengths (year : Int) : (monthLengths year).sum = yearLength year := by
  unfold monthLengths yearLength
  split <;> rfl

theorem daysBeforeMonth_eq_sum (year : Int) (month : Nat) :
    daysBeforeMonth year (month + 1) = ((monthLengths year).take month).sum := by
  rw [daysBeforeMonth, List.sum_eq_foldl, Nat.add_sub_cancel]

theorem daysBeforeMonth_succ (year : Int) (month : Nat) :
    daysBeforeMonth year (month + 2) =
      daysBeforeMonth year (month + 1) + monthLength year (month + 1) := by
  rw [daysBeforeMonth_eq_sum, daysBeforeMonth_eq_sum, List.take_add_one, List.sum_append, monthLength,
    List.getD_eq_getElem?_getD]
  cases (monthLengths year)[month]? <;> rfl

theorem daysBeforeMonth_last (year : Int) :
    daysBeforeMonth year 12 + monthLength year 12 = yearLength year := by
  rw [← sum_monthLengths, ← daysBeforeMonth_succ year 11, daysBeforeMonth_eq_sum]
  rfl

theorem monthLength_pos {year : Int} {month : Nat} (h : 1 ≤ month ∧ month ≤ 12) :
    1 ≤ monthLength year month := by
  obtain ⟨lower, upper⟩ := h
  interval_cases month <;> simp [monthLength, monthLengths]
  split <;> omega

structure IsDay (year : Int) (month day ofYear : Nat) : Prop where
  month_mem : 1 ≤ month ∧ month ≤ 12
  day_mem : 1 ≤ day ∧ day ≤ monthLength year month
  ofYear_eq : ofYear = daysBeforeMonth year month + day

theorem monthLengths_eq_append {year : Int} {before after : List Nat} {length : Nat}
    (h : monthLengths year = before ++ length :: after) :
    monthLength year (before.length + 1) = length ∧
      daysBeforeMonth year (before.length + 1) = before.sum := by
  rw [daysBeforeMonth_eq_sum, monthLength, h]
  simp

theorem exists_monthLengths_append (year : Int) {month : Nat} (h : 1 ≤ month ∧ month ≤ 12) :
    ∃ before after, monthLengths year = before ++ monthLength year month :: after ∧
      month = before.length + 1 := by
  obtain ⟨m, rfl⟩ := Nat.exists_eq_add_of_le' h.1
  have within : m < (monthLengths year).length := by
    rw [length_monthLengths]
    omega
  have split : monthLengths year =
      (monthLengths year).take m ++ (monthLengths year)[m] :: (monthLengths year).drop (m + 1) := by simp
  have length : ((monthLengths year).take m).length = m := List.length_take_of_le within.le
  obtain ⟨middle, -⟩ := monthLengths_eq_append split
  rw [length] at middle
  exact ⟨_, _, middle ▸ split, by rw [length]⟩

theorem monthOfDay_append {before after : List Nat} {length day : Nat} (start : Nat) (pos : 1 ≤ day)
    (le : day ≤ length) :
    monthOfDay (before ++ length :: after) start (before.sum + day) = (start + before.length, day) := by
  induction before generalizing start with
  | nil => simp [monthOfDay, le]
  | cons first before ih =>
    have later : ¬ first + before.sum + day ≤ first := by omega
    have rest : first + before.sum + day - first = before.sum + day := by omega
    rw [List.cons_append, List.sum_cons, monthOfDay, if_neg later, rest, ih, List.length_cons]
    simp only [Prod.mk.injEq, and_true]
    omega

/-- Each day that some stretches have falls into one of them. -/
theorem exists_stretch {lengths : List Nat} {n : Nat} (pos : 1 ≤ n) (le : n ≤ lengths.sum) :
    ∃ before length after day, lengths = before ++ length :: after ∧ n = before.sum + day ∧
      1 ≤ day ∧ day ≤ length := by
  induction lengths generalizing n with
  | nil =>
    rw [List.sum_nil] at le
    omega
  | cons first lengths ih =>
    by_cases within : n ≤ first
    · exact ⟨[], first, lengths, n, rfl, by simp, pos, within⟩
    · rw [List.sum_cons] at le
      obtain ⟨before, length, after, day, rfl, split, bounds⟩ := @ih (n - first) (by omega) (by omega)
      refine ⟨first :: before, length, after, day, rfl, ?_, bounds⟩
      rw [List.sum_cons]
      omega

theorem exists_isDay (year : Int) {n : Nat} (pos : 1 ≤ n) (le : n ≤ yearLength year) :
    ∃ month day, IsDay year month day n := by
  rw [← sum_monthLengths] at le
  obtain ⟨before, length, after, day, split, rfl, bounds⟩ := exists_stretch pos le
  obtain ⟨rfl, sum⟩ := monthLengths_eq_append split
  have total := congrArg List.length split
  rw [length_monthLengths, List.length_append, List.length_cons] at total
  exact ⟨before.length + 1, day, ⟨by omega, by omega⟩, bounds, by rw [sum]⟩

/-- Each number is that of a day in a year, also where the year is none of the calendar's. -/
theorem exists_isDay_yearOfDay (n : Int) : ∃ month day,
    IsDay (yearOfDay n) month day (n - daysBeforeYear (yearOfDay n)).toNat := by
  obtain ⟨lower, upper⟩ := yearOfDay_bounds n
  have length := daysBeforeYear_succ (yearOfDay n)
  exact exists_isDay (yearOfDay n) (by omega) (by omega)

namespace IsDay

variable {year : Int} {month day n : Nat}

theorem bounds (h : IsDay year month day n) : 1 ≤ n ∧ n ≤ yearLength year := by
  obtain ⟨before, after, split, rfl⟩ := exists_monthLengths_append year h.month_mem
  have total := congrArg List.sum split
  rw [sum_monthLengths, List.sum_append, List.sum_cons, ← (monthLengths_eq_append split).2] at total
  have := h.day_mem
  have := h.ofYear_eq
  omega

theorem monthOfDay_eq (h : IsDay year month day n) :
    monthOfDay (monthLengths year) 1 n = (month, day) := by
  obtain ⟨before, after, split, rfl⟩ := exists_monthLengths_append year h.month_mem
  rw [h.ofYear_eq, (monthLengths_eq_append split).2, split,
    monthOfDay_append 1 h.day_mem.1 h.day_mem.2, Nat.add_comm]

end IsDay

end Calendar

namespace Date

open Calendar

variable {d e f : Date} {n : Int}

/-! ## Numbers of dates -/

def first : Date := ⟨-9999, 1, 1, by decide, by decide, by decide⟩

def last : Date := ⟨9999, 12, 31, by decide, by decide, by decide⟩

theorem eq_iff : d = e ↔ d.year = e.year ∧ d.month = e.month ∧ d.day = e.day := by
  cases d
  cases e
  simp

def dayOfYear (d : Date) : Nat := daysBeforeMonth d.year d.month + d.day

theorem isDay (d : Date) : IsDay d.year d.month d.day d.dayOfYear := ⟨d.month_mem, d.day_mem, rfl⟩

theorem dayNumber_eq (d : Date) : d.dayNumber = daysBeforeYear d.year + d.dayOfYear := by
  rw [dayNumber, dayOfYear]
  omega

theorem dayNumber_mem_year (d : Date) :
    daysBeforeYear d.year < d.dayNumber ∧ d.dayNumber ≤ daysBeforeYear (d.year + 1) := by
  have bounds := d.isDay.bounds
  rw [dayNumber_eq, daysBeforeYear_succ]
  omega

theorem yearOfDay_dayNumber (d : Date) : yearOfDay d.dayNumber = d.year :=
  yearOfDay_eq d.dayNumber_mem_year.1 d.dayNumber_mem_year.2

theorem ofDayNumber?_dayNumber (d : Date) : ofDayNumber? d.dayNumber = some d := by
  have ofYear : (d.dayNumber - daysBeforeYear d.year).toNat = d.dayOfYear := by
    rw [dayNumber_eq]
    omega
  rw [ofDayNumber?, yearOfDay_dayNumber]
  simp only [ofYear, d.isDay.monthOfDay_eq]
  rw [ofCalendar?, dif_pos ⟨d.year_mem, d.month_mem, d.day_mem⟩]

theorem dayNumber_mem (d : Date) : first.dayNumber ≤ d.dayNumber ∧ d.dayNumber ≤ last.dayNumber := by
  obtain ⟨lower, upper⟩ := d.dayNumber_mem_year
  have start : daysBeforeYear (-9999) ≤ daysBeforeYear d.year :=
    daysBeforeYear_le_iff.mpr d.year_mem.1
  have finish : daysBeforeYear (d.year + 1) ≤ daysBeforeYear 10000 :=
    daysBeforeYear_le_iff.mpr (by have := d.year_mem.2; omega)
  have firstNumber : first.dayNumber = daysBeforeYear (-9999) + 1 := by decide
  have lastNumber : last.dayNumber = daysBeforeYear 10000 := by decide
  omega

theorem exists_dayNumber_eq (h : first.dayNumber ≤ n ∧ n ≤ last.dayNumber) :
    ∃ d : Date, d.dayNumber = n := by
  have firstNumber : first.dayNumber = daysBeforeYear (-9999) + 1 := by decide
  have lastNumber : last.dayNumber = daysBeforeYear 10000 := by decide
  obtain ⟨lower, upper⟩ := yearOfDay_bounds n
  have notEarlier : (-9999 : Int) < yearOfDay n + 1 :=
    daysBeforeYear_lt_iff.mp (by omega)
  have notLater : yearOfDay n < 10000 := daysBeforeYear_lt_iff.mp (by omega)
  obtain ⟨month, day, isDay⟩ := exists_isDay_yearOfDay n
  refine ⟨⟨yearOfDay n, month, day, by omega, isDay.month_mem, isDay.day_mem⟩, ?_⟩
  have ofYear := isDay.ofYear_eq
  rw [dayNumber]
  dsimp only
  omega

theorem ofDayNumber?_eq_some_iff : ofDayNumber? n = some d ↔ d.dayNumber = n := by
  refine ⟨fun h => ?_, fun h => h ▸ ofDayNumber?_dayNumber d⟩
  have lower := (yearOfDay_bounds n).1
  obtain ⟨month, day, isDay⟩ := exists_isDay_yearOfDay n
  rw [ofDayNumber?] at h
  simp only [isDay.monthOfDay_eq, ofCalendar?] at h
  split at h
  · obtain rfl := Option.some.inj h
    have ofYear := isDay.ofYear_eq
    rw [dayNumber]
    dsimp only
    omega
  · cases h

theorem ofDayNumber?_eq_none_iff :
    ofDayNumber? n = none ↔ n < first.dayNumber ∨ last.dayNumber < n := by
  rw [← not_iff_not, ← Ne, Option.ne_none_iff_exists']
  simp only [ofDayNumber?_eq_some_iff, not_or, Int.not_lt]
  refine ⟨?_, exists_dayNumber_eq⟩
  rintro ⟨d, rfl⟩
  exact d.dayNumber_mem

theorem dayNumber_inj : d.dayNumber = e.dayNumber ↔ d = e := by
  refine ⟨fun h => ?_, fun h => h ▸ rfl⟩
  have same := ofDayNumber?_dayNumber d
  rw [h, ofDayNumber?_dayNumber e] at same
  exact (Option.some.inj same).symm

/-! ## From date to date -/

inductive Next (d e : Date) : Prop
  | day (year : e.year = d.year) (month : e.month = d.month) (day : e.day = d.day + 1)
  | month (ends : d.day = monthLength d.year d.month) (year : e.year = d.year)
      (month : e.month = d.month + 1) (day : e.day = 1)
  | year (ends : d.day = monthLength d.year d.month) (december : d.month = 12)
      (year : e.year = d.year + 1) (month : e.month = 1) (day : e.day = 1)

theorem Next.dayNumber_eq (h : Next d e) : e.dayNumber = d.dayNumber + 1 := by
  cases h with
  | day year month day =>
    rw [dayNumber, dayNumber, year, month, day]
    omega
  | month ends year month day =>
    obtain ⟨m, hm⟩ := Nat.exists_eq_add_of_le' d.month_mem.1
    have later := daysBeforeMonth_succ d.year m
    rw [dayNumber, dayNumber, year, month, day, ends, hm, later]
    omega
  | year ends december year month day =>
    have length := daysBeforeMonth_last d.year
    have later := daysBeforeYear_succ d.year
    have start : daysBeforeMonth (d.year + 1) 1 = 0 := rfl
    rw [dayNumber, dayNumber, year, month, day, ends, december, later, start]
    omega

theorem exists_next (h : d.dayNumber < last.dayNumber) : ∃ e, Next d e := by
  have ⟨day_pos, day_le⟩ := d.day_mem
  by_cases inside : d.day < monthLength d.year d.month
  · exact ⟨⟨d.year, d.month, d.day + 1, d.year_mem, d.month_mem, by omega⟩, .day rfl rfl rfl⟩
  have ends : d.day = monthLength d.year d.month := by omega
  have ⟨month_pos, month_le⟩ := d.month_mem
  by_cases before : d.month < 12
  · have month_mem : 1 ≤ d.month + 1 ∧ d.month + 1 ≤ 12 := by omega
    exact ⟨⟨d.year, d.month + 1, 1, d.year_mem, month_mem, le_rfl, monthLength_pos month_mem⟩,
      .month ends rfl rfl rfl⟩
  have december : d.month = 12 := by omega
  have ⟨year_ge, year_le⟩ := d.year_mem
  have notLast : d.year ≠ 9999 := by
    intro year
    rw [december] at ends
    have isLast : d = last := eq_iff.mpr ⟨year, december, ends⟩
    rw [isLast] at h
    exact lt_irrefl _ h
  exact ⟨⟨d.year + 1, 1, 1, by omega, by decide, le_rfl, monthLength_pos (by decide)⟩,
    .year ends december rfl rfl rfl⟩

theorem next_iff : Next d e ↔ e.dayNumber = d.dayNumber + 1 := by
  refine ⟨Next.dayNumber_eq, fun h => ?_⟩
  have := e.dayNumber_mem
  obtain ⟨f, next⟩ := @exists_next d (by omega)
  have same : f = e := dayNumber_inj.mp (next.dayNumber_eq.trans h.symm)
  exact same ▸ next

/-- The date `e` is reached from the date `d` by `n` steps in the calendar, each of them a day forward or a
day back. -/
inductive Later : Date → Int → Date → Prop
  | same (d : Date) : Later d 0 d
  | forward {d e f : Date} {n : Int} (steps : Later d n e) (next : Next e f) : Later d (n + 1) f
  | back {d e f : Date} {n : Int} (steps : Later d n e) (next : Next f e) : Later d (n - 1) f

theorem Later.dayNumber_eq (h : Later d n e) : e.dayNumber = d.dayNumber + n := by
  induction h with
  | same => rw [Int.add_zero]
  | forward steps next ih =>
    rw [next.dayNumber_eq, ih]
    omega
  | back steps next ih =>
    have := next.dayNumber_eq
    omega

/-- What is stepped over has dates as well, since the range has no gaps. -/
theorem later_of_dayNumber_eq (h : e.dayNumber = d.dayNumber + n) : Later d n e := by
  have ⟨start, finish⟩ := d.dayNumber_mem
  have ⟨start', finish'⟩ := e.dayNumber_mem
  induction n using Int.induction_on generalizing e with
  | zero =>
    rw [Int.add_zero, dayNumber_inj] at h
    exact h ▸ .same d
  | succ k ih =>
    obtain ⟨f, number⟩ := @exists_dayNumber_eq (d.dayNumber + k) (by omega)
    exact .forward (ih number (by omega) (by omega)) (next_iff.mpr (by omega))
  | pred k ih =>
    obtain ⟨f, number⟩ := @exists_dayNumber_eq (d.dayNumber + -k) (by omega)
    exact .back (ih number (by omega) (by omega)) (next_iff.mpr (by omega))

theorem later_iff : Later d n e ↔ e.dayNumber = d.dayNumber + n :=
  ⟨Later.dayNumber_eq, later_of_dayNumber_eq⟩

/-- The date some days later is found by counting days. -/
theorem addDays?_eq_some_iff : d.addDays? n = some e ↔ Later d n e := by
  rw [addDays?, ofDayNumber?_eq_some_iff, later_iff]

/-- The day `n` days after a date lies before the first date or after the last one: these are passed on the
way. -/
def Outside (d : Date) (n : Int) : Prop :=
  (∃ k, n < k ∧ Later d k first) ∨ ∃ k, k < n ∧ Later d k last

theorem outside_iff :
    Outside d n ↔ d.dayNumber + n < first.dayNumber ∨ last.dayNumber < d.dayNumber + n := by
  simp only [Outside, later_iff]
  constructor
  · rintro (⟨k, lt, number⟩ | ⟨k, lt, number⟩) <;> omega
  · rintro (before | after)
    · exact .inl ⟨first.dayNumber - d.dayNumber, by omega, by omega⟩
    · exact .inr ⟨last.dayNumber - d.dayNumber, by omega, by omega⟩

theorem addDays?_eq_none_iff : d.addDays? n = none ↔ Outside d n := by
  rw [addDays?, ofDayNumber?_eq_none_iff, outside_iff]

/-- Shifting a date stays within the calendar only for numbers of days that are small. -/
theorem natAbs_lt_of_addDays? (h : d.addDays? n = some e) : n.natAbs < 10000000 := by
  have number := (addDays?_eq_some_iff.mp h).dayNumber_eq
  have ⟨start, finish⟩ := d.dayNumber_mem
  have ⟨start', finish'⟩ := e.dayNumber_mem
  have firstNumber : first.dayNumber = -3652424 := by decide
  have lastNumber : last.dayNumber = 3652059 := by decide
  omega

end Date

end RelationalAlgebra
