import RelationalAlgebra.Text.Piece
import RelationalAlgebra.Number.Decimal
/-!
# Calendar dates

Dates of the Gregorian calendar, extended to all years from -9999 to 9999.  `dayNumber` counts the
days from 0001-01-01, which has the number 1; `ofDayNumber?` finds the date of a number, and refuses
the numbers outside the range.
-/

namespace RelationalAlgebra

namespace Calendar

def isLeap (year : Int) : Bool := year % 4 = 0 && (year % 100 ≠ 0 || year % 400 = 0)

def monthLengths (year : Int) : List Nat :=
  [31, if isLeap year then 29 else 28, 31, 30, 31, 30, 31, 31, 30, 31, 30, 31]

/-- The length of a month, counted from 1; there is no day in a month that does not exist. -/
def monthLength (year : Int) (month : Nat) : Nat :=
  match month with
  | 0 => 0
  | m + 1 => (monthLengths year).getD m 0

/-- The days of all years before `year`, counted from 0001-01-01. -/
def daysBeforeYear (year : Int) : Int :=
  let y := year - 1
  365 * y + y / 4 - y / 100 + y / 400

def daysBeforeMonth (year : Int) (month : Nat) : Nat := 
  ((monthLengths year).take (month - 1)).foldl (· + ·) 0

def yearOfDay (n : Int) : Int :=
  let guess := (n - 1) * 400 / 146097 + 1
  if n ≤ daysBeforeYear guess then guess - 1
  else if daysBeforeYear (guess + 1) < n then guess + 1
  else guess

/-- The month and the day of the month of a day of the year: the lengths of the months still to
pass, the number of the first of them, and the days that are left. -/
def monthOfDay : List Nat → Nat → Nat → Nat × Nat
  | [], month, day => (month, day)
  | length :: lengths, month, day =>
    if day ≤ length then (month, day) else monthOfDay lengths (month + 1) (day - length)

end Calendar

structure Date where
  year : Int
  month : Nat
  day : Nat
  year_mem : -9999 ≤ year ∧ year ≤ 9999
  month_mem : 1 ≤ month ∧ month ≤ 12
  day_mem : 1 ≤ day ∧ day ≤ Calendar.monthLength year month
deriving DecidableEq

namespace Date

open Calendar

def ofCalendar? (year : Int) (month day : Nat) : Option Date :=
  if h : (-9999 ≤ year ∧ year ≤ 9999) ∧ (1 ≤ month ∧ month ≤ 12) ∧
      (1 ≤ day ∧ day ≤ monthLength year month) then
    some ⟨year, month, day, h.1, h.2.1, h.2.2⟩
  else none

/-- The number of a date, counted in days; 0001-01-01 has the number 1. -/
def dayNumber (d : Date) : Int :=
  daysBeforeYear d.year + daysBeforeMonth d.year d.month + d.day

def ofDayNumber? (n : Int) : Option Date :=
  let year := yearOfDay n
  let (month, day) := monthOfDay (monthLengths year) 1 (n - daysBeforeYear year).toNat
  ofCalendar? year month day

def addDays? (d : Date) (n : Int) : Option Date := ofDayNumber? (d.dayNumber + n)

/-- The day of the week; Monday is 0. -/
def weekday (d : Date) : Int := (d.dayNumber - 1) % 7

def compare (a b : Date) : Ordering :=
  ((Ord.compare a.year b.year).then (Ord.compare a.month b.month)).then (Ord.compare a.day b.day)

instance : Ord Date := ⟨compare⟩

def padded (width n : Nat) : List Char :=
  let ds := (toString n).toList
  List.replicate (width - ds.length) '0' ++ ds

/-- The text of a date; the four places of the year include its sign. -/
def write (d : Date) : String :=
  let year := if d.year < 0 then '-' :: padded 3 d.year.natAbs else padded 4 d.year.natAbs
  String.ofList (year ++ '-' :: padded 2 d.month ++ '-' :: padded 2 d.day)

def allDigits (cs : List Char) : Bool := cs ≠ [] && cs.all Text.isDigit

/-- The separator that a text of a date uses: the first of the three that stands in it. -/
def separator? (cs : List Char) : Option Char := ['-', '/', '\\'].find? cs.contains

def ofText? (cs : List Char) : Option Date :=
  match separator? cs with
  | none => none
  | some sep =>
    match Text.pieces sep cs with
    | [year, month, day] =>
      if allDigits year && allDigits month && allDigits day then
        ofCalendar? (Text.natValue year) (Text.natValue month) (Text.natValue day)
      else none
    | _ => none

end Date

end RelationalAlgebra
