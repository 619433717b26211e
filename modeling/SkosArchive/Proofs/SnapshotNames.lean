import SkosArchive.Proofs.Creation
import SkosArchive.Proofs.Timestamps

namespace SkosArchive

/-- A text is cut at its last `mark` in one way. -/
theorem Text.append_mark_inj {mark : Char} {s t rest rest' : List Char} (h : mark ∉ rest)
    (h' : mark ∉ rest') :
    s ++ mark :: rest = t ++ mark :: rest' ↔ s = t ∧ rest = rest' := by
  constructor
  · intro heq
    rcases List.append_eq_append_iff.mp heq with ⟨between, rfl, hrest⟩ | ⟨between, rfl, hrest⟩
    · cases between with
      | nil => exact ⟨(List.append_nil s).symm, (List.cons.inj hrest).2⟩
      | cons c between =>
          rw [(List.cons.inj hrest).2] at h
          exact absurd (List.mem_append_right between List.mem_cons_self) h
    · cases between with
      | nil => exact ⟨List.append_nil t, ((List.cons.inj hrest).2).symm⟩
      | cons c between =>
          rw [(List.cons.inj hrest).2] at h'
          exact absurd (List.mem_append_right between List.mem_cons_self) h'
  · rintro ⟨rfl, rfl⟩
    rfl

theorem Rfc3339.slash_not_mem_compactText (t : Instant) : '/' ∉ compactText t := by
  have hdigits : ∀ width n, '/' ∉ Text.fixedDigits width n :=
    fun width n => Text.not_mem_fixedDigits (by decide)
  have hyear : ∀ y, '/' ∉ yearText y := by
    intro y
    rw [yearText]
    split
    · exact hdigits _ _
    · split <;> simp [hdigits]
  simp [compactText, dateText, hyear, hdigits]

namespace Snapshot

theorem toList_suffix (separator : String) (t : Instant) :
    (suffix separator t).toList =
      separator.toList ++ '/' :: Rfc3339.compactText t.truncate := by
  simp [suffix]

theorem withSuffix_eq_iff (separator : String) (i j : Iri) (t u : Instant) :
    i.withSuffix (suffix separator t) = j.withSuffix (suffix separator u) ↔
      i = j ∧ t.truncate = u.truncate := by
  have htext : i.withSuffix (suffix separator t) = j.withSuffix (suffix separator u) ↔
      (i.text.toList ++ separator.toList) ++ '/' :: Rfc3339.compactText t.truncate =
        (j.text.toList ++ separator.toList) ++ '/' :: Rfc3339.compactText u.truncate := by
    rw [Iri.withSuffix, Iri.withSuffix, Iri.mk.injEq, ← String.toList_inj, String.toList_append,
      String.toList_append, toList_suffix, toList_suffix, List.append_assoc, List.append_assoc]
  rw [htext, Text.append_mark_inj (Rfc3339.slash_not_mem_compactText _)
    (Rfc3339.slash_not_mem_compactText _), List.append_left_inj, String.toList_inj,
    Rfc3339.compactText_eq_markedText, Rfc3339.compactText_eq_markedText,
    Rfc3339.markedText_eq_iff, Instant.truncate_truncate, Instant.truncate_truncate]
  exact and_congr_left fun _ => ⟨fun h => by cases i; cases j; cases h; rfl, congrArg Iri.text⟩

theorem eq_of_createSnapshot {c : Catalogue} {resolver : Resolver} {config : SnapshotConfig}
    {now : Instant} {v : Iri} {snapshot : Snapshot} {t : Store}
    (h : c.createSnapshot resolver config now v = .ok (snapshot, t)) :
    snapshot = ⟨v.withSuffix (suffix config.separator now), now.truncate, v, .vocabulary⟩ := by
  obtain ⟨quads, -, h⟩ := bind_eq_ok h
  obtain ⟨store, -, h⟩ := bind_eq_ok h
  cases h
  rfl

/-- Under one separator, names with a suffix are the same only if they have one source
and one second, whatever slashes or earlier suffixes stand in the source or in the
separator. So the name of what a creation returns tells what it is a version of and
when it was made, whichever store, strategy or relations it was made with. -/
theorem name_determines (separator : String) :
    (∀ (i j : Iri) (t u : Instant),
      i.withSuffix (suffix separator t) = j.withSuffix (suffix separator u) ↔
        i = j ∧ t.truncate = u.truncate) ∧
    ∀ {c c' : Catalogue} {resolver resolver' : Resolver} {config config' : SnapshotConfig}
      {now now' : Instant} {v v' : Iri} {snapshot snapshot' : Snapshot} {t t' : Store},
      config.separator = separator → config'.separator = separator →
      c.createSnapshot resolver config now v = .ok (snapshot, t) →
      c'.createSnapshot resolver' config' now' v' = .ok (snapshot', t') →
      (snapshot.iri = snapshot'.iri ↔
        snapshot.versionOf = snapshot'.versionOf ∧ snapshot.created = snapshot'.created) := by
  refine ⟨withSuffix_eq_iff separator, ?_⟩
  intro c c' resolver resolver' config config' now now' v v' snapshot snapshot' t t' hseparator
    hseparator' hcreate hcreate'
  obtain rfl := eq_of_createSnapshot hcreate
  obtain rfl := eq_of_createSnapshot hcreate'
  rw [hseparator, hseparator']
  exact withSuffix_eq_iff separator v v' now now'

theorem name_determines_leapSecond :
    ∃ (now now' : Instant) (snapshot snapshot' : Snapshot) (t t' : Store),
      now.seconds = now'.seconds ∧ now.isLeap = true ∧
      ((Connection.reliable .linkedPair).catalogue .empty).createSnapshot .recursive .standard now
        ⟨"v"⟩ = .ok (snapshot, t) ∧
      ((Connection.reliable .linkedPair).catalogue .empty).createSnapshot .recursive .standard now'
        ⟨"v"⟩ = .ok (snapshot', t') ∧
      snapshot.iri ≠ snapshot'.iri := by
  let now : Instant := ⟨1483228799, 1500000000, by decide, by decide⟩
  let now' : Instant := ⟨1483228799, 500000000, by decide, by decide⟩
  let c := (Connection.reliable .linkedPair).catalogue .empty
  have hok : (c.createSnapshot .recursive .standard now ⟨"v"⟩).isOk = true := by
    decide +kernel
  have hok' : (c.createSnapshot .recursive .standard now' ⟨"v"⟩).isOk = true := by
    decide +kernel
  obtain ⟨⟨snapshot, t⟩, hcreate⟩ := exists_ok_of_isOk hok
  obtain ⟨⟨snapshot', t'⟩, hcreate'⟩ := exists_ok_of_isOk hok'
  refine ⟨now, now', snapshot, snapshot', t, t', rfl, rfl, hcreate, hcreate', fun hname => ?_⟩
  have hcreated := (((name_determines SnapshotConfig.standard.separator).2 rfl rfl hcreate
    hcreate').mp hname).2
  obtain rfl := eq_of_createSnapshot hcreate
  obtain rfl := eq_of_createSnapshot hcreate'
  exact absurd hcreated (by decide)

end Snapshot

end SkosArchive
