import SkosArchive.Text.Blank
import SkosArchive.Text.Digits
import SkosArchive.Time.Instant

namespace SkosArchive.Rfc3339

open Text

/-- Years 0 to 9999 have four digits; others have a sign and at least four.
No year of an instant has more than six. -/
def yearText (year : Int) : List Char :=
  let n := year.natAbs
  if 0 ≤ year ∧ year ≤ 9999 then fixedDigits 4 n
  else (if year < 0 then '-' else '+') ::
    fixedDigits (if n < 10000 then 4 else if n < 100000 then 5 else 6) n

def dateText (d : Date) : List Char :=
  yearText d.year ++ '-' :: fixedDigits 2 d.month ++ '-' :: fixedDigits 2 d.day

/-- As few of 0, 3, 6 or 9 digits as are exact. -/
def fractionText (nanos : Nat) : List Char :=
  if nanos = 0 then []
  else if nanos % 1000000 = 0 then '.' :: fixedDigits 3 (nanos / 1000000)
  else if nanos % 1000 = 0 then '.' :: fixedDigits 6 (nanos / 1000)
  else '.' :: fixedDigits 9 nanos

def clockText (c : CivilTime) : List Char :=
  fixedDigits 2 c.hour ++ ':' :: fixedDigits 2 c.minute ++ ':' :: fixedDigits 2 c.second

/-- Universal time to the second. -/
def secondsText (t : Instant) : List Char :=
  let c := CivilTime.ofInstant t
  dateText c.date ++ 'T' :: clockText c ++ ['Z']

/-- Universal time with its fraction. -/
def exactText (t : Instant) : List Char :=
  let c := CivilTime.ofInstant t
  dateText c.date ++ 'T' :: clockText c ++ fractionText c.nanos ++ ['Z']

/-- Universal time to the second without colons, fit for the name of a graph. -/
def compactText (t : Instant) : List Char :=
  let c := CivilTime.ofInstant t
  dateText c.date ++ 'T' :: fixedDigits 2 c.hour ++ fixedDigits 2 c.minute ++
    fixedDigits 2 c.second ++ ['Z']

/-- A fraction, if a point comes next, in nanoseconds; digits after the ninth
are dropped. -/
def readFraction : List Char → Option (Nat × List Char)
  | '.' :: s =>
    let ds := s.takeWhile isDigit
    if ds.isEmpty then none
    else some (decimalValue ((ds ++ List.replicate 9 '0').take 9), s.dropWhile isDigit)
  | s => some (0, s)

def readDateSeparator : List Char → Option (List Char)
  | 'T' :: s | 't' :: s | ' ' :: s => some s
  | _ => none

/-- An offset from universal time in minutes; `skip` reads what stands between
hours and minutes. The sign may be U+2212. -/
def readOffset (skip : List Char → Option (List Char)) : List Char → Option (Int × List Char)
  | 'Z' :: s | 'z' :: s => some (0, s)
  | sign :: s => do
    guard (sign = '+' ∨ sign = '-' ∨ sign = '\u2212')
    let (hours, s) ← takeDigits 2 s
    let s ← skip s
    let (minutes, s) ← takeDigits 2 s
    guard (hours ≤ 23 ∧ minutes ≤ 59)
    let offset : Int := (hours * 60 + minutes : Nat)
    some (if sign = '+' then offset else -offset, s)
  | [] => none

/-- Reads a whole text in the standard's format: all fields at full width and
a year of four digits. -/
def read (s : List Char) : Option Instant := do
  let (year, s) ← takeDigits 4 s
  let s ← takeChar '-' s
  let (month, s) ← takeDigits 2 s
  let s ← takeChar '-' s
  let (day, s) ← takeDigits 2 s
  let s ← readDateSeparator s
  let (hour, s) ← takeDigits 2 s
  let s ← takeChar ':' s
  let (minute, s) ← takeDigits 2 s
  let s ← takeChar ':' s
  let (second, s) ← takeDigits 2 s
  let (nanos, s) ← readFraction s
  let (offset, s) ← readOffset (takeChar ':') s
  guard s.isEmpty
  CivilTime.toInstant? ⟨⟨year, month, day⟩, hour, minute, second, nanos⟩ offset

/-- A year with a sign may have any number of digits, one without has at most
four. -/
def readYear : List Char → Option (Int × List Char)
  | '-' :: s => (takeNumber s.length s).map fun (n, s) => (-(n : Int), s)
  | '+' :: s => (takeNumber s.length s).map fun (n, s) => ((n : Int), s)
  | s => (takeNumber 4 s).map fun (n, s) => ((n : Int), s)

def readLenientOffset (s : List Char) : Option (Int × List Char) :=
  match s with
  | a :: b :: c :: t =>
    if a.toLower = 'u' ∧ b.toLower = 't' ∧ c.toLower = 'c' then some (0, t)
    else readOffset (fun s => some (s.dropWhile fun c => c = ':' || isBlank c)) s
  | _ => readOffset (fun s => some (s.dropWhile fun c => c = ':' || isBlank c)) s

/-- Reads a whole text in a lenient form of the format: years may be signed,
fields may lack leading zeros, blanks may stand around fields, and the offset
may be written `UTC` or without a colon. -/
def readLenient (s : List Char) : Option Instant := do
  let (year, s) ← readYear (trimLeft s)
  let s ← takeChar '-' (trimLeft s)
  let (month, s) ← takeNumber 2 (trimLeft s)
  let s ← takeChar '-' (trimLeft s)
  let (day, s) ← takeNumber 2 (trimLeft s)
  let s ← readDateSeparator s
  let (hour, s) ← takeNumber 2 (trimLeft s)
  let s ← takeChar ':' (trimLeft s)
  let (minute, s) ← takeNumber 2 (trimLeft s)
  let s ← takeChar ':' (trimLeft s)
  let (second, s) ← takeNumber 2 (trimLeft s)
  let (nanos, s) ← readFraction s
  let (offset, s) ← readLenientOffset (trimLeft s)
  guard (trimLeft s).isEmpty
  CivilTime.toInstant? ⟨⟨year, month, day⟩, hour, minute, second, nanos⟩ offset

end SkosArchive.Rfc3339
