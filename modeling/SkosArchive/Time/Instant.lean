import SkosArchive.Order.Ascending
import SkosArchive.Time.Date

namespace SkosArchive

/-- A point in universal time: whole seconds since the start of 1970 and
nanoseconds, within the years -262143 to 262142. A leap second is the second 59
of a minute with nanoseconds from 10^9 on. -/
structure Instant where
  seconds : Int
  nanos : Nat
  inRange : -8334601228800 ≤ seconds ∧ seconds ≤ 8210266876799
  nanos_lt : nanos < 1000000000 ∨ (nanos < 2000000000 ∧ seconds % 60 = 59)
deriving DecidableEq

namespace Instant

def of? (seconds : Int) (nanos : Nat) : Option Instant :=
  if h : -8334601228800 ≤ seconds ∧ seconds ≤ 8210266876799 then
    if k : nanos < 1000000000 ∨ (nanos < 2000000000 ∧ seconds % 60 = 59) then
      some ⟨seconds, nanos, h, k⟩
    else none
  else none

instance : TotalOrder Instant where
  lt a b := a.seconds < b.seconds ∨ (a.seconds = b.seconds ∧ a.nanos < b.nanos)
  decidableLT a b := inferInstanceAs
    (Decidable (a.seconds < b.seconds ∨ (a.seconds = b.seconds ∧ a.nanos < b.nanos)))
  lt_irrefl a h := by rcases h with h | h <;> omega
  lt_trans {a b c} h k := by
    rcases h with h | h <;> rcases k with k | k <;> first | (left; omega) | (right; omega)
  eq_of_not_lt {a b} h k := by
    have hs : a.seconds = b.seconds := by
      rcases Int.lt_trichotomy a.seconds b.seconds with e | e | e
      · exact absurd (.inl e) h
      · exact e
      · exact absurd (.inl e) k
    have hn : a.nanos = b.nanos := by
      rcases Nat.lt_trichotomy a.nanos b.nanos with e | e | e
      · exact absurd (.inr ⟨hs, e⟩) h
      · exact e
      · exact absurd (.inr ⟨hs.symm, e⟩) k
    cases a; cases b
    cases hs; cases hn
    rfl

def isLeap (t : Instant) : Bool := 1000000000 ≤ t.nanos

/-- Drops the fraction of a second; a leap second stays one. -/
def truncate (t : Instant) : Instant where
  seconds := t.seconds
  nanos := if t.isLeap then 1000000000 else 0
  inRange := t.inRange
  nanos_lt := by
    by_cases h : t.isLeap = true
    · have : 1000000000 ≤ t.nanos := by simpa [isLeap] using h
      simp only [h, if_true]
      exact .inr ⟨by omega, (t.nanos_lt.resolve_left (by omega)).2⟩
    · simp [h]

end Instant

/-- A date and a time of day as they are written; second 60 is a leap second. -/
structure CivilTime where
  date : Date
  hour : Nat
  minute : Nat
  second : Nat
  nanos : Nat
deriving DecidableEq

namespace CivilTime

def ofInstant (t : Instant) : CivilTime :=
  let day := (t.seconds % 86400).toNat
  { date := Date.ofDays (t.seconds / 86400)
    hour := day / 3600
    minute := day / 60 % 60
    second := if t.isLeap then 60 else day % 60
    nanos := t.nanos % 1000000000 }

def Valid (c : CivilTime) : Prop :=
  c.date.Valid ∧ c.hour ≤ 23 ∧ c.minute ≤ 59 ∧ c.second ≤ 60 ∧ c.nanos < 1000000000

instance : DecidablePred Valid := fun c =>
  inferInstanceAs (Decidable (c.date.Valid ∧ c.hour ≤ 23 ∧ c.minute ≤ 59 ∧ c.second ≤ 60 ∧
    c.nanos < 1000000000))

/-- The instant at which a clock that is `offset` minutes ahead of universal
time shows `c`. -/
def toInstant? (c : CivilTime) (offset : Int) : Option Instant := do
  guard c.Valid
  let second := if c.second = 60 then 59 else c.second
  let seconds := c.date.toDays * 86400 + (c.hour * 3600 + c.minute * 60 + second : Nat)
  let nanos := if c.second = 60 then 1000000000 + c.nanos else c.nanos
  let wall ← Instant.of? seconds nanos
  Instant.of? (wall.seconds - offset * 60) nanos

end CivilTime

end SkosArchive
