import SkosArchive.Proofs.TimeTexts

namespace SkosArchive

namespace Rfc3339

open Text

/-- Universal time to the second, with `mark` between the parts of the clock. -/
def markedText (mark : List Char) (t : Instant) : List Char :=
  let c := CivilTime.ofInstant t
  dateText c.date ++ 'T' :: (fixedDigits 2 c.hour ++ (mark ++ (fixedDigits 2 c.minute ++
    (mark ++ (fixedDigits 2 c.second ++ ['Z'])))))

theorem secondsText_eq_markedText (t : Instant) : secondsText t = markedText [':'] t := by
  simp only [secondsText, clockText, markedText, List.append_assoc, List.cons_append,
    List.nil_append]

theorem compactText_eq_markedText (t : Instant) : compactText t = markedText [] t := by
  simp only [compactText, markedText, List.append_assoc, List.cons_append, List.nil_append]

theorem markedText_truncate (mark : List Char) (t : Instant) :
    markedText mark t.truncate = markedText mark t := by
  have hsecond : (CivilTime.ofInstant t.truncate).second = (CivilTime.ofInstant t).second := by
    simp only [CivilTime.ofInstant, Instant.isLeap_truncate]
    rfl
  rw [markedText, hsecond]
  rfl

theorem fields_of_markedText_eq {mark : List Char} {t u : Instant}
    (h : markedText mark t = markedText mark u) :
    (CivilTime.ofInstant t).date = (CivilTime.ofInstant u).date ∧
      (CivilTime.ofInstant t).hour = (CivilTime.ofInstant u).hour ∧
      (CivilTime.ofInstant t).minute = (CivilTime.ofInstant u).minute ∧
      (CivilTime.ofInstant t).second = (CivilTime.ofInstant u).second := by
  have hyear := CivilTime.natAbs_year_lt t
  have hyear' := CivilTime.natAbs_year_lt u
  obtain ⟨hmonth, hday, hhour, hminute, hsecond⟩ := CivilTime.fields_lt t
  obtain ⟨hmonth', hday', hhour', hminute', hsecond'⟩ := CivilTime.fields_lt u
  simp only [markedText, dateText, List.append_assoc, List.cons_append] at h
  generalize CivilTime.ofInstant t = c at *
  generalize CivilTime.ofInstant u = d at *
  obtain ⟨⟨year, month, day⟩, hour, minute, second, _⟩ := c
  obtain ⟨⟨year', month', day'⟩, hour', minute', second', _⟩ := d
  have hread := congrArg readYear h
  rw [readYear_yearText hyear, readYear_yearText hyear', Option.some.injEq, Prod.mk.injEq,
    List.cons.injEq] at hread
  obtain ⟨rfl, -, h⟩ := hread
  obtain ⟨rfl, h⟩ := fixedDigits_append_inj hmonth hmonth' h
  obtain ⟨rfl, h⟩ := fixedDigits_append_inj hday hday' (List.cons.inj h).2
  obtain ⟨rfl, h⟩ := fixedDigits_append_inj hhour hhour' (List.cons.inj h).2
  obtain ⟨rfl, h⟩ := fixedDigits_append_inj hminute hminute' (List.append_cancel_left h)
  obtain ⟨rfl, -⟩ := fixedDigits_append_inj hsecond hsecond' (List.append_cancel_left h)
  exact ⟨rfl, rfl, rfl, rfl⟩

theorem markedText_eq_iff {mark : List Char} {t u : Instant} :
    markedText mark t = markedText mark u ↔ t.truncate = u.truncate := by
  constructor
  · intro h
    rw [← markedText_truncate mark t, ← markedText_truncate mark u] at h
    obtain ⟨hdate, hhour, hminute, hsecond⟩ := fields_of_markedText_eq h
    have ht := CivilTime.toInstant?_of_truncate t.truncate_truncate
    rw [hdate, hhour, hminute, hsecond, CivilTime.toInstant?_of_truncate u.truncate_truncate] at ht
    exact (Option.some.inj ht).symm
  · intro h
    rw [← markedText_truncate mark t, h, markedText_truncate]

end Rfc3339

/-- An instant is read back from its literal without the fraction of its second, if
its year, reckoned in universal time, has four digits; years before 0 and after 9999
are written with a sign, which no literal is read with. A second is cut at its
beginning, also a leap second, and two instants have one literal only if they lie in
one second. -/
theorem Literal.ofInstant_readBack (t : Instant) :
    let year := (CivilTime.ofInstant t).date.year
    (0 ≤ year ∧ year ≤ 9999 ↔ -62167219200 ≤ t.seconds ∧ t.seconds < 253402300800) ∧
    (ofInstant t).instant? = (if 0 ≤ year ∧ year ≤ 9999 then some t.truncate else none) ∧
    t.truncate.truncate = t.truncate ∧ ¬ t < t.truncate ∧ t.truncate.isLeap = t.isLeap ∧
    ∀ u, ofInstant t = ofInstant u ↔ t.truncate = u.truncate := by
  intro year
  have hsame : ∀ u, ofInstant t = ofInstant u ↔ t.truncate = u.truncate := by
    intro u
    rw [← Rfc3339.markedText_eq_iff, ← Rfc3339.secondsText_eq_markedText,
      ← Rfc3339.secondsText_eq_markedText]
    simp only [ofInstant, Literal.mk.injEq, String.ofList_inj, and_true]
  refine ⟨?_, ?_, t.truncate_truncate, t.not_lt_truncate, t.isLeap_truncate, hsame⟩
  · have hfirst : 0 ≤ year ↔ _ := CivilTime.le_year_ofInstant_iff t 0
    have hlast : 10000 ≤ year ↔ _ := CivilTime.le_year_ofInstant_iff t 10000
    rw [Date.toDays_newYear] at hfirst hlast
    omega
  · by_cases hyear : 0 ≤ year ∧ year ≤ 9999
    · rw [if_pos hyear, (hsame t.truncate).mpr t.truncate_truncate.symm]
      exact instant?_ofInstant t.truncate_truncate hyear
    · rw [if_neg hyear, instant?, ofInstant, String.toList_ofList,
        Rfc3339.read_secondsText_eq_none hyear]

end SkosArchive
