namespace SkosArchive

/-- A day of the proleptic Gregorian calendar; year 0 precedes year 1. -/
structure Date where
  year : Int
  month : Nat
  day : Nat
deriving DecidableEq

namespace Date

def isLeapYear (year : Int) : Bool :=
  year % 4 = 0 && (year % 100 ≠ 0 || year % 400 = 0)

def daysInMonth (year : Int) (month : Nat) : Nat :=
  if month = 2 then (if isLeapYear year then 29 else 28)
  else if month = 4 ∨ month = 6 ∨ month = 9 ∨ month = 11 then 30
  else 31

def Valid (d : Date) : Prop :=
  1 ≤ d.month ∧ d.month ≤ 12 ∧ 1 ≤ d.day ∧ d.day ≤ daysInMonth d.year d.month

instance : DecidablePred Valid := fun d =>
  inferInstanceAs (Decidable (1 ≤ d.month ∧ d.month ≤ 12 ∧ 1 ≤ d.day ∧
    d.day ≤ daysInMonth d.year d.month))

/-- Days since 1 January 1970. Years are counted from March, so that the leap
day ends a year. -/
def toDays (d : Date) : Int :=
  let year := if d.month ≤ 2 then d.year - 1 else d.year
  let month : Int := ((d.month + 9) % 12 : Nat)
  365 * year + year / 4 - year / 100 + year / 400 + (153 * month + 2) / 5 + d.day - 719469

/-- The day that lies `days` after 1 January 1970: whole cycles of 400 years
first, then centuries, four-year spans, years and months. The last century of
a cycle and the last year of a span are one day longer than the others. -/
def ofDays (days : Int) : Date :=
  let n := days + 719468
  let cycle := n / 146097
  let inCycle := n % 146097
  let century := if inCycle < 109572 then inCycle / 36524 else 3
  let inCentury := inCycle - 36524 * century
  let span := inCentury / 1461
  let inSpan := inCentury % 1461
  let yearInSpan := if inSpan < 1095 then inSpan / 365 else 3
  let inYear := inSpan - 365 * yearInSpan
  let year := 400 * cycle + 100 * century + 4 * span + yearInSpan
  let month := (5 * inYear + 2) / 153
  let day := inYear - (153 * month + 2) / 5 + 1
  ⟨if month < 10 then year else year + 1, (if month < 10 then month + 3 else month - 9).toNat,
    day.toNat⟩

end Date

end SkosArchive
