import SkosArchive.Time.Date

namespace SkosArchive.Date

/-- The day that lies `inYear` days after 1 March of `year`. -/
def inMarchYear (year inYear : Int) : Date :=
  let month := (5 * inYear + 2) / 153
  ⟨if month < 10 then year else year + 1, (if month < 10 then month + 3 else month - 9).toNat,
    (inYear - (153 * month + 2) / 5 + 1).toNat⟩

/-- A March year has 366 days if it ends with the February of a leap year. -/
theorem isLeapYear_of_span {cycle century span : Int} (hspan : 0 ≤ span ∧ span ≤ 24)
    (hlast : span = 24 → century = 3) :
    isLeapYear (400 * cycle + 100 * century + 4 * span + 3 + 1) = true := by
  simp only [isLeapYear, Bool.and_eq_true, Bool.or_eq_true, decide_eq_true_eq]
  constructor
  · omega
  · by_cases h : span = 24
    · obtain rfl := hlast h
      exact .inr (by omega)
    · exact .inl (by omega)

/-- A day is found by its year from March on and its place there. -/
theorem exists_inMarchYear (days : Int) :
    ∃ year inYear, ofDays days = inMarchYear year inYear ∧ 0 ≤ inYear ∧ inYear ≤ 365 ∧
      (inYear = 365 → isLeapYear (year + 1) = true) ∧
        days + 719468 = 365 * year + year / 4 - year / 100 + year / 400 + inYear := by
  let n := days + 719468
  let cycle := n / 146097
  let inCycle := n % 146097
  let century := if inCycle < 109572 then inCycle / 36524 else 3
  let inCentury := inCycle - 36524 * century
  let span := inCentury / 1461
  let inSpan := inCentury % 1461
  let yearInSpan := if inSpan < 1095 then inSpan / 365 else 3
  have hcentury : 0 ≤ century ∧ century ≤ 3 ∧ 0 ≤ inCentury ∧
      (inCentury < 36524 ∨ century = 3 ∧ inCentury ≤ 36524) := by
    simp only [inCentury, century]
    split <;> omega
  have hspan : 0 ≤ span ∧ span ≤ 24 ∧ 0 ≤ inSpan ∧ inSpan ≤ 1460 ∧
      (span = 24 → inSpan = 1460 → century = 3) ∧ inCentury = 1461 * span + inSpan := by
    simp only [span, inSpan]
    omega
  have hyear : 0 ≤ yearInSpan ∧ yearInSpan ≤ 3 ∧ 0 ≤ inSpan - 365 * yearInSpan ∧
      inSpan - 365 * yearInSpan ≤ 365 ∧
        (inSpan - 365 * yearInSpan = 365 → yearInSpan = 3 ∧ inSpan = 1460) := by
    simp only [yearInSpan]
    split <;> omega
  refine ⟨400 * cycle + 100 * century + 4 * span + yearInSpan, inSpan - 365 * yearInSpan, rfl,
    hyear.2.2.1, hyear.2.2.2.1, fun h => ?_, ?_⟩
  · obtain ⟨hlast, hinSpan⟩ := hyear.2.2.2.2 h
    rw [hlast]
    exact isLeapYear_of_span ⟨hspan.1, hspan.2.1⟩ fun h => hspan.2.2.2.2.1 h hinSpan
  · have hcycle : days + 719468 = 146097 * cycle + 36524 * century + inCentury := by
      simp only [inCentury, inCycle, cycle, n]
      omega
    -- only the divisions of the year are left, its parts may be any numbers
    generalize century = century at *
    generalize cycle = cycle at *
    generalize span = span at *
    generalize yearInSpan = yearInSpan at *
    generalize inSpan = inSpan at *
    generalize inCentury = inCentury at *
    omega

theorem inMarchYear_of_lt {year inYear : Int} (h : (5 * inYear + 2) / 153 < 10) :
    inMarchYear year inYear = ⟨year, ((5 * inYear + 2) / 153 + 3).toNat,
      (inYear - (153 * ((5 * inYear + 2) / 153) + 2) / 5 + 1).toNat⟩ := by
  simp only [inMarchYear, h, if_true]

theorem inMarchYear_of_not_lt {year inYear : Int} (h : ¬ (5 * inYear + 2) / 153 < 10) :
    inMarchYear year inYear = ⟨year + 1, ((5 * inYear + 2) / 153 - 9).toNat,
      (inYear - (153 * ((5 * inYear + 2) / 153) + 2) / 5 + 1).toNat⟩ := by
  simp only [inMarchYear, h, if_false]

theorem toDays_inMarchYear {year inYear : Int} (hlow : 0 ≤ inYear) (hhigh : inYear ≤ 365) :
    (inMarchYear year inYear).toDays =
      365 * year + year / 4 - year / 100 + year / 400 + inYear - 719468 := by
  by_cases h : (5 * inYear + 2) / 153 < 10
  · have hmonth : ((((5 * inYear + 2) / 153 + 3).toNat + 9) % 12 : Nat) =
        (5 * inYear + 2) / 153 := by omega
    rw [inMarchYear_of_lt h, toDays]
    dsimp only
    rw [if_neg (by omega), hmonth]
    omega
  · have hmonth : ((((5 * inYear + 2) / 153 - 9).toNat + 9) % 12 : Nat) =
        (5 * inYear + 2) / 153 := by omega
    rw [inMarchYear_of_not_lt h, toDays]
    dsimp only
    rw [if_pos (by omega), hmonth, Int.add_sub_cancel]
    omega

theorem toDays_ofDays (days : Int) : (ofDays days).toDays = days := by
  obtain ⟨year, inYear, heq, hlow, hhigh, -, hdays⟩ := exists_inMarchYear days
  rw [heq, toDays_inMarchYear hlow hhigh, ← hdays]
  omega

theorem valid_inMarchYear {year inYear : Int} (hlow : 0 ≤ inYear) (hhigh : inYear ≤ 365)
    (hleap : inYear = 365 → isLeapYear (year + 1) = true) : (inMarchYear year inYear).Valid := by
  by_cases h : (5 * inYear + 2) / 153 < 10
  · rw [inMarchYear_of_lt h]
    refine ⟨?_, ?_, ?_, ?_⟩
    · dsimp only
      omega
    · dsimp only
      omega
    · dsimp only
      omega
    · simp only [daysInMonth]
      rw [if_neg (by omega)]
      split <;> omega
  · rw [inMarchYear_of_not_lt h]
    refine ⟨?_, ?_, ?_, ?_⟩
    · dsimp only
      omega
    · dsimp only
      omega
    · dsimp only
      omega
    · simp only [daysInMonth]
      by_cases hlast : inYear = 365
      · simp only [hleap hlast, if_true]
        split <;> omega
      · split
        · split <;> omega
        · split <;> omega

theorem valid_ofDays (days : Int) : (ofDays days).Valid := by
  obtain ⟨year, inYear, heq, hlow, hhigh, hleap, -⟩ := exists_inMarchYear days
  rw [heq]
  exact valid_inMarchYear hlow hhigh hleap

theorem daysInMonth_le (year : Int) (month : Nat) : daysInMonth year month ≤ 31 := by
  rw [daysInMonth]
  split
  · split <;> omega
  · split <;> omega

theorem toDays_newYear (y : Int) : toDays ⟨y, 1, 1⟩ =
    365 * (y - 1) + (y - 1) / 4 - (y - 1) / 100 + (y - 1) / 400 - 719162 := by
  rw [toDays]
  dsimp only
  rw [if_pos (by decide)]
  omega

/-- A day lies in the year or in a later one if it is not before the first day of
the year. -/
theorem le_year_ofDays_iff (days y : Int) :
    y ≤ (ofDays days).year ↔ toDays ⟨y, 1, 1⟩ ≤ days := by
  obtain ⟨year, inYear, heq, hlow, hhigh, -, hdays⟩ := exists_inMarchYear days
  rw [heq, toDays_newYear]
  by_cases h : (5 * inYear + 2) / 153 < 10
  · rw [inMarchYear_of_lt h]
    dsimp only
    omega
  · rw [inMarchYear_of_not_lt h]
    dsimp only
    omega

end SkosArchive.Date
