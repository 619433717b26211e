import Mathlib.Algebra.Group.Nat.Defs
import Mathlib.Data.Option.Basic
import SkosArchive.Proofs.Calendar
import SkosArchive.Rdf.Literal

namespace SkosArchive

namespace Text

theorem digit_cases {P : Nat → Char → Prop} (h : ∀ k, k < 10 → P k (Char.ofNat (48 + k)))
    (n : Nat) : P (n % 10) (digit n) := h (n % 10) (Nat.mod_lt n (by decide))

theorem isDigit_digit (n : Nat) : isDigit (digit n) = true :=
  digit_cases (P := fun _ c => isDigit c = true) (by decide) n

theorem digitValue_digit (n : Nat) : digitValue (digit n) = n % 10 :=
  digit_cases (P := fun k c => digitValue c = k) (by decide) n

theorem length_fixedDigits (width n : Nat) : (fixedDigits width n).length = width := by
  induction width generalizing n with
  | zero => rfl
  | succ width ih => rw [fixedDigits, List.length_append, ih]; rfl

theorem isDigit_of_mem_fixedDigits {width n : Nat} {c : Char} (h : c ∈ fixedDigits width n) :
    isDigit c = true := by
  induction width generalizing n with
  | zero => cases h
  | succ width ih =>
      rcases List.mem_append.mp h with h | h
      · exact ih h
      · rw [List.mem_singleton.mp h]
        exact isDigit_digit n

theorem decimalValue_fixedDigits (width n : Nat) :
    decimalValue (fixedDigits width n) = n % 10 ^ width := by
  induction width generalizing n with
  | zero => exact (Nat.mod_one n).symm
  | succ width ih =>
      have hvalue : decimalValue (fixedDigits (width + 1) n) =
          10 * decimalValue (fixedDigits width (n / 10)) + digitValue (digit n) := by
        rw [fixedDigits, decimalValue, List.foldl_append]
        rfl
      rw [hvalue, ih, digitValue_digit, Nat.pow_succ, Nat.mul_comm (10 ^ width), Nat.mod_mul]
      exact Nat.add_comm _ _

theorem takeDigits_fixedDigits {width n : Nat} (h : n < 10 ^ width) (rest : List Char) :
    takeDigits width (fixedDigits width n ++ rest) = some (n, rest) := by
  have htake : (fixedDigits width n ++ rest).take width = fixedDigits width n :=
    List.take_left' (length_fixedDigits width n)
  have hdrop : (fixedDigits width n ++ rest).drop width = rest :=
    List.drop_left' (length_fixedDigits width n)
  simp only [takeDigits, htake, hdrop]
  rw [if_pos, decimalValue_fixedDigits, Nat.mod_eq_of_lt h]
  exact ⟨length_fixedDigits width n, List.all_eq_true.mpr fun c => isDigit_of_mem_fixedDigits⟩

theorem takeDigits_of_not_digit {c : Char} (h : isDigit c = false) (count : Nat)
    (s : List Char) : takeDigits (count + 1) (c :: s) = none := by
  simp [takeDigits, h]

theorem not_mem_fixedDigits {width n : Nat} {c : Char} (h : isDigit c = false) :
    c ∉ fixedDigits width n := by
  intro hc
  rw [isDigit_of_mem_fixedDigits hc] at h
  cases h

theorem fixedDigits_append_inj {width n m : Nat} (hn : n < 10 ^ width) (hm : m < 10 ^ width)
    {s t : List Char} (h : fixedDigits width n ++ s = fixedDigits width m ++ t) :
    n = m ∧ s = t := by
  have hread := congrArg (takeDigits width) h
  rw [takeDigits_fixedDigits hn, takeDigits_fixedDigits hm, Option.some.injEq,
    Prod.mk.injEq] at hread
  exact hread

theorem takeNumber_fixedDigits {limit width n : Nat} (hwidth : 0 < width) (hlimit : width ≤ limit)
    (h : n < 10 ^ width) {rest : List Char}
    (hrest : (rest.take (limit - width)).takeWhile isDigit = []) :
    takeNumber limit (fixedDigits width n ++ rest) = some (n, rest) := by
  have hlength := length_fixedDigits width n
  have hdigits : ((fixedDigits width n ++ rest).take limit).takeWhile isDigit =
      fixedDigits width n := by
    rw [List.take_append, hlength, List.take_of_length_le (by omega),
      List.takeWhile_append_of_pos fun c => isDigit_of_mem_fixedDigits, hrest, List.append_nil]
  have hne : fixedDigits width n ≠ [] := by
    rw [← List.length_pos_iff, hlength]
    exact hwidth
  simp only [takeNumber, hdigits, List.isEmpty_iff, hne, if_false,
    decimalValue_fixedDigits, Nat.mod_eq_of_lt h, List.drop_left]

theorem takeChar_cons (c : Char) (s : List Char) : takeChar c (c :: s) = some s := if_pos rfl

end Text

namespace CivilTime

theorem valid_ofInstant (t : Instant) : (ofInstant t).Valid := by
  refine ⟨Date.valid_ofDays _, ?_, ?_, ?_, ?_⟩
  · simp only [ofInstant]
    omega
  · simp only [ofInstant]
    omega
  · simp only [ofInstant]
    split <;> omega
  · exact Nat.mod_lt _ (by decide)

theorem le_year_ofInstant_iff (t : Instant) (y : Int) :
    y ≤ (ofInstant t).date.year ↔ Date.toDays ⟨y, 1, 1⟩ * 86400 ≤ t.seconds := by
  change y ≤ (Date.ofDays (t.seconds / 86400)).year ↔ _
  rw [Date.le_year_ofDays_iff]
  omega

theorem natAbs_year_lt (t : Instant) : (ofInstant t).date.year.natAbs < 1000000 := by
  have hlow : -999999 ≤ (ofInstant t).date.year := by
    have := t.inRange.1
    rw [le_year_ofInstant_iff, Date.toDays_newYear]
    omega
  have hhigh : ¬ 1000000 ≤ (ofInstant t).date.year := by
    have := t.inRange.2
    rw [le_year_ofInstant_iff, Date.toDays_newYear]
    omega
  omega

theorem fields_lt (t : Instant) :
    (ofInstant t).date.month < 10 ^ 2 ∧ (ofInstant t).date.day < 10 ^ 2 ∧
      (ofInstant t).hour < 10 ^ 2 ∧ (ofInstant t).minute < 10 ^ 2 ∧
        (ofInstant t).second < 10 ^ 2 := by
  obtain ⟨⟨-, hmonth, -, hday⟩, hhour, hminute, hsecond, -⟩ := valid_ofInstant t
  have := Date.daysInMonth_le (ofInstant t).date.year (ofInstant t).date.month
  omega

/-- The second of the minute, where the leap second counts as the one before it. -/
theorem second_cases (t : Instant) :
    (ofInstant t).second = 60 ∧ (t.seconds % 86400).toNat % 60 = 59 ∧
        t.nanos = 1000000000 + (ofInstant t).nanos ∨
      (ofInstant t).second = (t.seconds % 86400).toNat % 60 ∧ t.nanos = (ofInstant t).nanos := by
  have hnanos : (ofInstant t).nanos = t.nanos % 1000000000 := rfl
  have := t.nanos_lt
  cases hleap : t.isLeap with
  | true =>
      have hlow : 1000000000 ≤ t.nanos := by simpa [Instant.isLeap] using hleap
      refine .inl ⟨?_, ?_, by omega⟩
      · simp only [ofInstant, hleap, if_true]
      · have hlast := (t.nanos_lt.resolve_left (by omega)).2
        omega
  | false =>
      have hhigh : t.nanos < 1000000000 := by simpa [Instant.isLeap] using hleap
      refine .inr ⟨?_, by omega⟩
      simp only [ofInstant, hleap]
      rfl

theorem toInstant?_ofInstant (t : Instant) : (ofInstant t).toInstant? 0 = some t := by
  obtain ⟨hdate, hhour, hminute, hsecond, hnanos⟩ := valid_ofInstant t
  have hinstant : Instant.of? t.seconds t.nanos = some t := by
    rw [Instant.of?, dif_pos t.inRange, dif_pos t.nanos_lt]
  have hdays : (ofInstant t).date.toDays = t.seconds / 86400 := Date.toDays_ofDays _
  have hday : (ofInstant t).hour * 3600 + (ofInstant t).minute * 60 +
      (t.seconds % 86400).toNat % 60 = (t.seconds % 86400).toNat := by
    simp only [ofInstant]
    omega
  simp only [toInstant?, hdays]
  rw [guard, if_pos ⟨hdate, hhour, hminute, hsecond, hnanos⟩]
  have hseconds : ∀ second, second = (t.seconds % 86400).toNat % 60 →
      t.seconds / 86400 * 86400 + (((ofInstant t).hour * 3600 + (ofInstant t).minute * 60 +
        second : Nat) : Int) = t.seconds := by
    omega
  have hshifted : Instant.of? (t.seconds - 0 * 60) t.nanos = some t := by
    rw [Int.zero_mul, Int.sub_zero]
    exact hinstant
  rcases second_cases t with ⟨hleap, hlast, hnanos⟩ | ⟨hplain, hnanos⟩
  · simp only [hleap, if_true, hseconds 59 hlast.symm, ← hnanos, hinstant]
    exact hshifted
  · have hne : (ofInstant t).second ≠ 60 := by omega
    simp only [hne, if_false, hseconds _ hplain, ← hnanos, hinstant]
    exact hshifted

theorem toInstant?_of_truncate {t : Instant} (h : t.truncate = t) :
    (⟨(ofInstant t).date, (ofInstant t).hour, (ofInstant t).minute, (ofInstant t).second, 0⟩ :
      CivilTime).toInstant? 0 = some t := by
  have hnanos : (ofInstant t).nanos = 0 := by
    change t.nanos % 1000000000 = 0
    rw [← h, Instant.truncate]
    dsimp only
    split
    · rfl
    · rfl
  have hfields := toInstant?_ofInstant t
  rw [show ofInstant t = ⟨(ofInstant t).date, (ofInstant t).hour, (ofInstant t).minute,
    (ofInstant t).second, (ofInstant t).nanos⟩ from rfl, hnanos] at hfields
  exact hfields

end CivilTime

namespace Rfc3339

open Text

theorem read_secondsText {t : Instant} (h : t.truncate = t)
    (hyear : 0 ≤ (CivilTime.ofInstant t).date.year ∧ (CivilTime.ofInstant t).date.year ≤ 9999) :
    read (secondsText t) = some t := by
  obtain ⟨hmonth, hday, hhour, hminute, hsecond⟩ := CivilTime.fields_lt t
  have hinstant := CivilTime.toInstant?_of_truncate h
  have hcast : (((CivilTime.ofInstant t).date.year.natAbs : Nat) : Int) =
      (CivilTime.ofInstant t).date.year := Int.natAbs_of_nonneg hyear.1
  simp only [secondsText, dateText, yearText, clockText, if_pos hyear, List.append_assoc,
    List.cons_append]
  generalize CivilTime.ofInstant t = c at *
  have hread : ∀ {n : Nat}, n < 10 ^ 2 → ∀ rest, takeDigits 2 (fixedDigits 2 n ++ rest) =
      some (n, rest) := takeDigits_fixedDigits
  simp only [read, takeDigits_fixedDigits (show c.date.year.natAbs < 10 ^ 4 by omega),
    hread hmonth, hread hday, hread hhour, hread hminute, hread hsecond, takeChar_cons,
    Option.bind_eq_bind, Option.bind_some, readDateSeparator, hcast]
  -- what is left to read is the offset of universal time
  exact hinstant

theorem read_secondsText_eq_none {t : Instant}
    (h : ¬ (0 ≤ (CivilTime.ofInstant t).date.year ∧ (CivilTime.ofInstant t).date.year ≤ 9999)) :
    read (secondsText t) = none := by
  have hsign : takeDigits 4 (secondsText t) = none := by
    simp only [secondsText, dateText, yearText, h, if_false, List.cons_append]
    apply takeDigits_of_not_digit
    split
    · decide
    · decide
  rw [read, hsign]
  rfl

theorem readYear_of_digit {s : List Char} (h : ∀ c ∈ s.head?, isDigit c = true) :
    readYear s = (takeNumber 4 s).map fun (n, s) => ((n : Int), s) := by
  unfold readYear
  split
  · exact absurd (h '-' rfl) (by decide)
  · exact absurd (h '+' rfl) (by decide)
  · rfl

theorem readYear_yearText {y : Int} (h : y.natAbs < 1000000) (s : List Char) :
    readYear (yearText y ++ '-' :: s) = some (y, '-' :: s) := by
  by_cases hplain : 0 ≤ y ∧ y ≤ 9999
  · have hread : takeNumber 4 (fixedDigits 4 y.natAbs ++ '-' :: s) = some (y.natAbs, '-' :: s) :=
      takeNumber_fixedDigits (by decide) (Nat.le_refl 4) (by omega) rfl
    have hdigit : ∀ c ∈ (fixedDigits 4 y.natAbs ++ '-' :: s).head?, isDigit c = true := by
      intro c hc
      rw [List.head?_append, List.head?_eq_some_head (List.ne_nil_of_length_eq_add_one
        (length_fixedDigits 4 y.natAbs)), Option.some_or, Option.mem_some] at hc
      rw [← hc]
      exact isDigit_of_mem_fixedDigits (List.head_mem _)
    have hyear : (y.natAbs : Int) = y := Int.natAbs_of_nonneg hplain.1
    simp only [yearText, hplain, and_self, if_true, readYear_of_digit hdigit, hread,
      Option.map_some, hyear]
  · rw [yearText, if_neg hplain]
    generalize hwidth : (if y.natAbs < 10000 then 4 else if y.natAbs < 100000 then 5 else 6) = width
    have hlt : 0 < width ∧ y.natAbs < 10 ^ width := by
      subst hwidth
      split
      · omega
      · split <;> omega
    have hread : ∀ limit, width ≤ limit → takeNumber limit
        (fixedDigits width y.natAbs ++ '-' :: s) = some (y.natAbs, '-' :: s) := by
      intro limit hlimit
      apply takeNumber_fixedDigits hlt.1 hlimit hlt.2
      cases limit - width with
      | zero => rfl
      | succ k => rfl
    have hlength : width ≤ (fixedDigits width y.natAbs ++ '-' :: s).length := by
      rw [List.length_append, length_fixedDigits]
      exact Nat.le_add_right _ _
    by_cases hneg : y < 0
    · have hyear : -(y.natAbs : Int) = y := by omega
      simp only [hneg, if_true, List.cons_append, readYear, hread _ hlength, Option.map_some,
        hyear]
    · have hyear : (y.natAbs : Int) = y := Int.natAbs_of_nonneg (Int.not_lt.mp hneg)
      simp only [hneg, if_false, List.cons_append, readYear, hread _ hlength, Option.map_some,
        hyear]

end Rfc3339

theorem Literal.instant?_ofInstant {t : Instant} (h : t.truncate = t)
    (hyear : 0 ≤ (CivilTime.ofInstant t).date.year ∧ (CivilTime.ofInstant t).date.year ≤ 9999) :
    (ofInstant t).instant? = some t := by
  rw [instant?, ofInstant, String.toList_ofList, Rfc3339.read_secondsText h hyear]

namespace Instant

theorem truncate_truncate (t : Instant) : t.truncate.truncate = t.truncate := by
  by_cases h : 1000000000 ≤ t.nanos <;> simp [truncate, isLeap, h]

theorem not_lt_truncate (t : Instant) : ¬ t < t.truncate := by
  have hnanos : t.truncate.nanos ≤ t.nanos := by
    simp only [truncate, isLeap, decide_eq_true_eq]
    split <;> omega
  rintro (h | ⟨-, h⟩)
  · exact absurd h (Int.lt_irrefl _)
  · omega

theorem isLeap_truncate (t : Instant) : t.truncate.isLeap = t.isLeap := by
  by_cases h : 1000000000 ≤ t.nanos <;> simp [truncate, isLeap, h]

end Instant

end SkosArchive
