import SkosArchive.Proofs.TimeTexts

namespace SkosArchive

namespace Text

theorem isBlank_of_isDigit {c : Char} (h : isDigit c = true) : isBlank c = false := by
  simp only [isDigit, Bool.and_eq_true, decide_eq_true_eq] at h
  simp [isBlank]
  omega

theorem trimLeft_cons {c : Char} (h : isBlank c = false) (s : List Char) :
    trimLeft (c :: s) = c :: s := by
  simp [trimLeft, h]

theorem exists_fixedDigits_eq_cons {width : Nat} (h : 0 < width) (n : Nat) :
    ∃ c ds, fixedDigits width n = c :: ds ∧ isDigit c = true := by
  have hlength := length_fixedDigits width n
  cases hds : fixedDigits width n with
  | nil =>
      rw [hds, List.length_nil] at hlength
      omega
  | cons c ds =>
      have hc : c ∈ fixedDigits width n := by
        rw [hds]
        exact List.mem_cons_self
      exact ⟨c, ds, rfl, isDigit_of_mem_fixedDigits hc⟩

theorem trimLeft_fixedDigits {width : Nat} (h : 0 < width) (n : Nat) (rest : List Char) :
    trimLeft (fixedDigits width n ++ rest) = fixedDigits width n ++ rest := by
  obtain ⟨c, ds, hds, hc⟩ := exists_fixedDigits_eq_cons h n
  rw [hds, List.cons_append, trimLeft_cons (isBlank_of_isDigit hc)]

theorem decimalValue_append_zeros (ds : List Char) (k : Nat) :
    decimalValue (ds ++ List.replicate k '0') = decimalValue ds * 10 ^ k := by
  induction k with
  | zero => simp
  | succ k ih =>
      rw [List.replicate_succ', ← List.append_assoc, decimalValue, List.foldl_append]
      change 10 * decimalValue (ds ++ List.replicate k '0') + 0 = _
      rw [ih, Nat.pow_succ, Nat.mul_left_comm, Nat.mul_comm 10, Nat.add_zero]

end Text

namespace Rfc3339

open Text

theorem readFraction_fixedDigits {width n : Nat} (hlow : 0 < width) (hhigh : width ≤ 9)
    (hn : n < 10 ^ width) {rest : List Char} (hrest : rest.takeWhile isDigit = []) :
    readFraction ('.' :: (fixedDigits width n ++ rest)) = some (n * 10 ^ (9 - width), rest) := by
  have hlength := length_fixedDigits width n
  have hdigits : (fixedDigits width n ++ rest).takeWhile isDigit = fixedDigits width n := by
    rw [List.takeWhile_append_of_pos fun c => isDigit_of_mem_fixedDigits, hrest, List.append_nil]
  have hdrop : (fixedDigits width n ++ rest).dropWhile isDigit = rest := by
    have happend := List.takeWhile_append_dropWhile (p := isDigit)
      (l := fixedDigits width n ++ rest)
    rw [hdigits] at happend
    exact List.append_cancel_left happend
  have hpadded : (fixedDigits width n ++ List.replicate 9 '0').take 9 =
      fixedDigits width n ++ List.replicate (9 - width) '0' := by
    rw [List.take_append, hlength, List.take_of_length_le (by omega), List.take_replicate,
      Nat.min_eq_left (by omega)]
  have hne : fixedDigits width n ≠ [] := by
    rw [← List.length_pos_iff, hlength]
    exact hlow
  simp only [readFraction, hdigits, List.isEmpty_iff, hne, if_false, hpadded,
    decimalValue_append_zeros, decimalValue_fixedDigits, Nat.mod_eq_of_lt hn, hdrop]

theorem readFraction_fractionText {nanos : Nat} (h : nanos < 1000000000) (s : List Char) :
    readFraction (fractionText nanos ++ 'Z' :: s) = some (nanos, 'Z' :: s) := by
  have hread : ∀ {width n}, 0 < width → width ≤ 9 → n < 10 ^ width →
      readFraction ('.' :: (fixedDigits width n ++ 'Z' :: s)) =
        some (n * 10 ^ (9 - width), 'Z' :: s) :=
    fun hlow hhigh hn => readFraction_fixedDigits hlow hhigh hn rfl
  rw [fractionText]
  by_cases hwhole : nanos = 0
  · rw [if_pos hwhole, hwhole]
    rfl
  rw [if_neg hwhole]
  by_cases hmilli : nanos % 1000000 = 0
  · rw [if_pos hmilli, List.cons_append, hread (by decide) (by decide) (by omega),
      show nanos / 1000000 * 10 ^ (9 - 3) = nanos by omega]
  rw [if_neg hmilli]
  by_cases hmicro : nanos % 1000 = 0
  · rw [if_pos hmicro, List.cons_append, hread (by decide) (by decide) (by omega),
      show nanos / 1000 * 10 ^ (9 - 6) = nanos by omega]
  · rw [if_neg hmicro, List.cons_append, hread (by decide) (by decide) (by omega),
      show nanos * 10 ^ (9 - 9) = nanos by omega]

theorem trimLeft_yearText (y : Int) (s : List Char) :
    trimLeft (yearText y ++ s) = yearText y ++ s := by
  rw [yearText]
  split
  · exact trimLeft_fixedDigits (by decide) _ s
  · split
    · exact trimLeft_cons (by decide) _
    · exact trimLeft_cons (by decide) _

theorem readLenient_exactText (t : Instant) : readLenient (exactText t) = some t := by
  have hyear : ∀ s, readYear (trimLeft (yearText (CivilTime.ofInstant t).date.year ++ '-' :: s)) =
      some ((CivilTime.ofInstant t).date.year, '-' :: s) := by
    intro s
    rw [trimLeft_yearText, readYear_yearText (CivilTime.natAbs_year_lt t)]
  obtain ⟨hmonth, hday, hhour, hminute, hsecond⟩ := CivilTime.fields_lt t
  have hnanos : (CivilTime.ofInstant t).nanos < 1000000000 := (CivilTime.valid_ofInstant t).2.2.2.2
  have hinstant := CivilTime.toInstant?_ofInstant t
  simp only [exactText, dateText, clockText, List.append_assoc, List.cons_append]
  generalize CivilTime.ofInstant t = c at *
  have hfield : ∀ {n : Nat}, n < 10 ^ 2 → ∀ rest,
      takeNumber 2 (trimLeft (fixedDigits 2 n ++ rest)) = some (n, rest) := by
    intro n hn rest
    rw [trimLeft_fixedDigits (by decide), takeNumber_fixedDigits (by decide) (Nat.le_refl 2) hn rfl]
  have hdash : ∀ s, takeChar '-' (trimLeft ('-' :: s)) = some s := fun s => rfl
  have hcolon : ∀ s, takeChar ':' (trimLeft (':' :: s)) = some s := fun s => rfl
  have hnext : ∀ {α : Type} {x : Option α} {a : α} {f : α → Option Instant}, x = some a →
      f a = some t → x.bind f = some t := fun hx hf => Option.bind_eq_some_iff.2 ⟨_, hx, hf⟩
  rw [readLenient]
  refine hnext (hyear _) (hnext (hdash _) (hnext (hfield hmonth _) (hnext (hdash _) ?_)))
  refine hnext (hfield hday _) (hnext rfl (hnext (hfield hhour _) (hnext (hcolon _) ?_)))
  refine hnext (hfield hminute _) (hnext (hcolon _) (hnext (hfield hsecond _) ?_))
  -- what is left to read is the offset of universal time
  exact hnext (readFraction_fractionText hnanos _) hinstant

end Rfc3339

end SkosArchive
