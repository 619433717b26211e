import SkosArchive.Proofs.Neighbours
import SkosArchive.Proofs.RemovedSnapshots

namespace SkosArchive

theorem TotalOrder.lt_of_not_lt {α : Type} [TotalOrder α] {a b c : α} (h : ¬ b < a) (k : b < c) :
    a < c := by
  by_cases hab : a < b
  · exact TotalOrder.lt_trans hab k
  · exact TotalOrder.eq_of_not_lt hab h ▸ k

theorem find?_eq_some_iff_of_pairwise {α : Type} {R : α → α → Prop}
    (hasymm : ∀ a b, R a b → ¬ R b a) {l : List α} (hl : l.Pairwise R) {p : α → Bool} {a : α} :
    l.find? p = some a ↔ a ∈ l ∧ p a = true ∧ ∀ b ∈ l, p b = true → b = a ∨ R a b := by
  have hleast : ∀ a, l.find? p = some a → ∀ b ∈ l, p b = true → b = a ∨ R a b := by
    intro a ha b hb hp
    obtain ⟨-, before, after, rfl, hbefore⟩ := List.find?_eq_some_iff_append.mp ha
    rcases List.mem_append.mp hb with hb | hb
    · exact absurd hp (by simpa using hbefore b hb)
    · rcases List.mem_cons.mp hb with hb | hb
      · exact .inl hb
      · exact .inr ((List.pairwise_cons.mp (List.pairwise_append.mp hl).2.1).1 b hb)
  constructor
  · exact fun ha => ⟨List.mem_of_find?_eq_some ha, List.find?_some ha, hleast a ha⟩
  · rintro ⟨ha, hp, hall⟩
    cases hfind : l.find? p with
    | none => exact absurd hp (List.find?_eq_none.mp hfind a ha)
    | some found =>
        rcases hleast found hfind a ha hp with rfl | hlt
        · rfl
        · rcases hall found (List.mem_of_find?_eq_some hfind) (List.find?_some hfind) with rfl | hgt
          · rfl
          · exact absurd hgt (hasymm _ _ hlt)

namespace Snapshot

/-- The strict order of a listing: newer ones first, and those of one time by
name. -/
def Leads (a b : Snapshot) : Prop :=
  b.created < a.created ∨ a.created = b.created ∧ a.iri < b.iri

variable {a b : Snapshot} {quads : List Quad}

theorem Leads.not_older (h : a.Leads b) : ¬ a.created < b.created := by
  rcases h with h | ⟨hsame, -⟩
  · exact fun h' => TotalOrder.lt_irrefl _ (TotalOrder.lt_trans h h')
  · rw [hsame]
    exact TotalOrder.lt_irrefl _

theorem Leads.asymm (h : a.Leads b) : ¬ b.Leads a := by
  rintro (h' | ⟨hsame, hiri⟩)
  · exact h.not_older h'
  · rcases h with h | ⟨-, h⟩
    · rw [hsame] at h
      exact TotalOrder.lt_irrefl _ h
    · exact TotalOrder.lt_irrefl _ (TotalOrder.lt_trans h hiri)

theorem leads_of_precedes (h : precedes a b = true) (hne : a.iri ≠ b.iri) : a.Leads b := by
  rcases precedes_iff.mp h with h | ⟨hsame, h⟩
  · exact .inl h
  · refine .inr ⟨hsame, Classical.byContradiction fun h' => ?_⟩
    exact hne (TotalOrder.eq_of_not_lt h' h)

/-- The quads give a type of snapshot, their last statement on the origin an IRI
and the last one on the time one that can be read. -/
def Complete (quads : List Quad) : Prop :=
  (∃ kind, Types quads kind) ∧
    (∃ origin, (Vocabulary.objectsOf quads Names.versionOf).getLast? = some (.iri origin)) ∧
    ∃ l created, (Vocabulary.objectsOf quads Names.created).getLast? = some (.literal l) ∧
      l.instant? = some created

theorem exists_ofKind (h : ∃ kind, Types quads kind) : ∃ kind, OfKind quads kind := by
  by_cases hvocabulary : Types quads .vocabulary
  · exact ⟨.vocabulary, hvocabulary⟩
  · obtain ⟨kind, hkind⟩ := h
    cases kind with
    | vocabulary => exact absurd hkind hvocabulary
    | term => exact ⟨.term, hkind, hvocabulary⟩

theorem exists_described_iff (iri : Iri) :
    (∃ snapshot, describe? iri quads = some snapshot) ↔ Complete quads := by
  simp only [describe?_eq_some_iff]
  constructor
  · rintro ⟨snapshot, -, hkind, horigin, l, hcreated, hl⟩
    exact ⟨⟨_, hkind.types⟩, ⟨_, horigin⟩, l, _, hcreated, hl⟩
  · rintro ⟨htype, ⟨origin, horigin⟩, l, created, hcreated, hl⟩
    obtain ⟨kind, hkind⟩ := exists_ofKind htype
    exact ⟨⟨iri, created, origin, kind⟩, rfl, hkind, horigin, l, hcreated, hl⟩

end Snapshot

namespace Connection

variable {c : Connection} {asset : Iri} {l : List Snapshot}

theorem describedAmong_sublist {iris : List Iri} (h : c.describedAmong iris = .ok l) :
    (l.map Snapshot.iri).Sublist iris := by
  induction iris generalizing l with
  | nil =>
      cases h
      exact List.Sublist.refl _
  | cons i iris ih =>
      obtain ⟨o, ho, h⟩ := bind_eq_ok h
      obtain ⟨rest, hrest, h⟩ := bind_eq_ok h
      cases h
      cases o with
      | none => exact (ih hrest).cons i
      | some found =>
          rw [Option.toList_some, List.singleton_append, List.map_cons, iri_of_findSnapshot ho]
          exact (ih hrest).cons_cons i

theorem nodup_snapshotsOf (h : c.snapshotsOf asset = .ok l) : (l.map Snapshot.iri).Nodup := by
  obtain ⟨versions, -, h⟩ := bind_eq_ok h
  obtain ⟨found, hfound, h⟩ := bind_eq_ok h
  cases h
  have hperm := (List.mergeSort_perm found Snapshot.precedes).map Snapshot.iri
  exact hperm.nodup_iff.mpr ((describedAmong_sublist hfound).nodup (nodup_eraseDups _))

theorem pairwise_snapshotsOf (h : c.snapshotsOf asset = .ok l) : l.Pairwise Snapshot.Leads := by
  obtain ⟨-, -, hsorted⟩ := snapshotsOf_eq_ok h
  have hnames := List.pairwise_map.mp (nodup_snapshotsOf h)
  exact (hsorted.and hnames).imp fun h => Snapshot.leads_of_precedes h.1 h.2

theorem exists_snapshotsOf {s : Store} {arrival : Row → Nat} (h : s.Readable) (asset : Iri) :
    ∃ l, (reliable s arrival).snapshotsOf asset = .ok l :=
  (snapshotsOf_failsWith_of_quads (fun _ hp => quads_succeed h hp) asset).exists_ok

theorem snapshotValidAt_of_snapshotsOf (h : c.snapshotsOf asset = .ok l) (t : Instant) :
    c.snapshotValidAt asset t = .ok (l.find? fun x => !decide (t < x.created)) := by
  rw [snapshotValidAt, h]
  rfl

theorem snapshotValidAt_eq_some (h : c.snapshotsOf asset = .ok l) {t : Instant} {x : Snapshot} :
    c.snapshotValidAt asset t = .ok (some x) ↔
      x ∈ l ∧ ¬ t < x.created ∧ ∀ y ∈ l, ¬ t < y.created → y = x ∨ x.Leads y := by
  rw [snapshotValidAt_of_snapshotsOf h, Except.ok.injEq,
    find?_eq_some_iff_of_pairwise (fun _ _ => Snapshot.Leads.asymm) (pairwise_snapshotsOf h)]
  simp only [Bool.not_eq_true', decide_eq_false_iff_not]

theorem snapshotValidAt_eq_none (h : c.snapshotsOf asset = .ok l) {t : Instant} :
    c.snapshotValidAt asset t = .ok none ↔ ∀ x ∈ l, t < x.created := by
  rw [snapshotValidAt_of_snapshotsOf h, Except.ok.injEq, List.find?_eq_none]
  simp only [Bool.not_eq_true', decide_eq_false_iff_not, not_not]

theorem snapshotValidAt_mono (h : c.snapshotsOf asset = .ok l) {t t' : Instant} {x : Snapshot}
    (hx : c.snapshotValidAt asset t = .ok (some x)) (ht : ¬ t' < t) :
    ∃ x', c.snapshotValidAt asset t' = .ok (some x') ∧ ¬ x'.created < x.created := by
  obtain ⟨hmem, hvalid, -⟩ := (snapshotValidAt_eq_some h).mp hx
  have hvalid' : ¬ t' < x.created := fun h => hvalid (TotalOrder.lt_of_not_lt ht h)
  obtain ⟨x', hx', -, -, hnewer⟩ := snapshotValidAt_of_mem h hmem hvalid'
  exact ⟨x', hx', hnewer⟩

theorem exists_mem_snapshotsOf (h : c.snapshotsOf asset = .ok l) {i : Iri} :
    (∃ x ∈ l, x.iri = i) ↔
      (∃ g, .ofQuad ⟨i, Names.versionOf, .iri asset, g⟩ ∈ c.store.rows) ∧
        Snapshot.Complete (c.answered { subject := some i }) := by
  obtain ⟨hfound, hmem, -⟩ := snapshotsOf_eq_ok h
  constructor
  · rintro ⟨x, hx, rfl⟩
    obtain ⟨hversion, hfind⟩ := (hmem x).mp hx
    exact ⟨hversion, (Snapshot.exists_described_iff _).mp ⟨x, (findSnapshot_eq_ok hfind).symm⟩⟩
  · rintro ⟨⟨g, hversion⟩, hcomplete⟩
    obtain ⟨x, hx⟩ := (Snapshot.exists_described_iff i).mpr hcomplete
    obtain ⟨o, hfind⟩ := hfound i g hversion
    obtain rfl := findSnapshot_eq_ok hfind
    obtain rfl := Snapshot.iri_of_describe? hx
    rw [hx] at hfind
    exact ⟨x, (hmem x).mpr ⟨⟨g, hversion⟩, hfind⟩, rfl⟩

/-- The snapshots of an asset are listed once each, newest first and by name among
those of one time: all that are found under a name which is stored as a version of
the asset, so all such names with a complete description. At any time the newest of
those that are not younger is valid, if there are any, and no older one at any later
time. A listing succeeds unless a call fails or something stored cannot be read. -/
theorem snapshotsOf_listed (c : Connection) (asset : Iri) :
    (c = .reliable c.store c.service.arrival → c.store.Readable →
      ∃ l, c.snapshotsOf asset = .ok l) ∧
      ∀ l, c.snapshotsOf asset = .ok l →
        (l.map Snapshot.iri).Nodup ∧ l.Pairwise Snapshot.Leads ∧
        (∀ x, x ∈ l ↔ (∃ g, .ofQuad ⟨x.iri, Names.versionOf, .iri asset, g⟩ ∈ c.store.rows) ∧
          c.findSnapshot x.iri = .ok (some x)) ∧
        (∀ i, (∃ x ∈ l, x.iri = i) ↔
          (∃ g, .ofQuad ⟨i, Names.versionOf, .iri asset, g⟩ ∈ c.store.rows) ∧
            Snapshot.Complete (c.answered { subject := some i })) ∧
        ∀ t, (∃ valid, c.snapshotValidAt asset t = .ok valid) ∧
          (c.snapshotValidAt asset t = .ok none ↔ ∀ x ∈ l, t < x.created) ∧
          (∀ x, c.snapshotValidAt asset t = .ok (some x) ↔
            x ∈ l ∧ ¬ t < x.created ∧ ∀ y ∈ l, ¬ t < y.created → y = x ∨ x.Leads y) ∧
          ∀ x t', c.snapshotValidAt asset t = .ok (some x) → ¬ t' < t →
            ∃ x', c.snapshotValidAt asset t' = .ok (some x') ∧ ¬ x'.created < x.created := by
  refine ⟨fun hcalls hread => ?_, fun l hl => ?_⟩
  · rw [hcalls]
    exact exists_snapshotsOf hread asset
  · obtain ⟨-, hmem, -⟩ := snapshotsOf_eq_ok hl
    refine ⟨nodup_snapshotsOf hl, pairwise_snapshotsOf hl, hmem,
      fun i => exists_mem_snapshotsOf hl, fun t => ⟨?_, ?_, ?_, ?_⟩⟩
    · exact ⟨_, snapshotValidAt_of_snapshotsOf hl t⟩
    · exact snapshotValidAt_eq_none hl
    · exact fun x => snapshotValidAt_eq_some hl
    · exact fun x t' hx ht => snapshotValidAt_mono hl hx ht

end Connection

/-- Two snapshots taken within a leap second, one of which two graphs list; one taken
in the second before; and one without a time. -/
def Store.leapSecond : Store :=
  ofQuads (tags ⟨"a"⟩ "2016-12-31T23:59:60Z" ++ tags ⟨"b"⟩ "2016-12-31T23:59:60Z" ++
    tags ⟨"c"⟩ "2016-12-31T23:59:59Z" ++
    [⟨⟨"b"⟩, Names.versionOf, .iri ⟨"v"⟩, ⟨"z"⟩⟩,
      ⟨⟨"d"⟩, Names.type, .iri Names.vocabularySnapshot, ⟨"d"⟩⟩,
      ⟨⟨"d"⟩, Names.versionOf, .iri ⟨"v"⟩, ⟨"d"⟩⟩])
where
  tags (i : Iri) (created : String) : List Quad :=
    [⟨i, Names.type, .iri Names.vocabularySnapshot, i⟩, ⟨i, Names.versionOf, .iri ⟨"v"⟩, i⟩,
      ⟨i, Names.created, .literal ⟨created, none, some Names.dateTime⟩, i⟩]

theorem Connection.snapshotsOf_listed_leapSecond :
    ∃ (c : Connection) (l : List Snapshot) (x : Snapshot), c.snapshotsOf ⟨"v"⟩ = .ok l ∧
      l.map Snapshot.iri = [⟨"a"⟩, ⟨"b"⟩, ⟨"c"⟩] ∧ l.head? = some x ∧ x.created.isLeap = true ∧
      ∀ t, ¬ t < x.created → c.snapshotValidAt ⟨"v"⟩ t = .ok (some x) := by
  let c : Connection := .reliable .leapSecond
  have hok : (c.versionsOf ⟨"v"⟩ >>= fun versions => do
      let found ← c.describedAmong (versions.map Quad.subject).eraseDups
      if found.map Snapshot.iri = [⟨"a"⟩, ⟨"b"⟩, ⟨"c"⟩] ∧
          found.Pairwise (fun a b => Snapshot.precedes a b = true) ∧
          (found.head?.all fun x => x.created.isLeap) = true then .ok ()
        else .error (.notSnapshot ⟨"v"⟩)).isOk = true := by
    decide +kernel
  obtain ⟨_, hruns⟩ := exists_ok_of_isOk hok
  obtain ⟨versions, hversions, hruns⟩ := bind_eq_ok hruns
  obtain ⟨found, hfound, hruns⟩ := bind_eq_ok hruns
  split at hruns
  · rename_i hnames
    obtain ⟨hnames, hsorted, hleap⟩ := hnames
    cases found with
    | nil => cases hnames
    | cons x rest =>
        have hl : c.snapshotsOf ⟨"v"⟩ = .ok (x :: rest) := by
          rw [snapshotsOf, hversions, ok_bind, hfound, ok_bind, List.mergeSort_of_pairwise hsorted]
          rfl
        obtain ⟨-, hleads, -, -, hvalid⟩ := (snapshotsOf_listed c ⟨"v"⟩).2 _ hl
        refine ⟨c, x :: rest, x, hl, hnames, rfl, hleap, fun t ht => ?_⟩
        refine ((hvalid t).2.2.1 x).mpr ⟨List.mem_cons_self, ht, fun y hy _ => ?_⟩
        rcases List.mem_cons.mp hy with rfl | hy
        · exact .inl rfl
        · exact .inr ((List.pairwise_cons.mp hleads).1 y hy)
  · cases hruns

namespace Connection

variable {c : Connection} {asset : Iri}

/-- Every statement that gives `i` another origin than `asset` is overruled by one that
names `asset` and is found later. -/
def OriginPrevails (c : Connection) (i asset : Iri) : Prop :=
  ∀ r ∈ c.store.statements c.service.arrival i Names.versionOf,
    r.Says (fun o => ¬ o = .iri asset) →
      ∃ r' ∈ c.store.statements c.service.arrival i Names.versionOf,
        Row.Before c.service.arrival r r' ∧ r'.Says fun o => o = .iri asset

theorem versionOf_iff_originPrevails {i : Iri} {snapshot : Snapshot}
    (h : Snapshot.describe? i (c.answered { subject := some i }) = some snapshot) :
    snapshot.versionOf = asset ↔ c.OriginPrevails i asset := by
  obtain ⟨q, hq, hp, -⟩ := Snapshot.versionOf_of_describe? h
  obtain ⟨⟨r, hr, hrq⟩, hu⟩ := Store.reads_of_mem_subject hq
  have hread : ∃ r ∈ c.store.statements c.service.arrival i Names.versionOf,
      ∃ q, r.toQuad = .ok q :=
    ⟨r, Store.mem_statements.mpr ⟨hr, (Row.subject_of_toQuad hrq).symm.trans hu,
      (Row.predicate_of_toQuad hrq).symm.trans hp⟩, q, hrq⟩
  obtain ⟨-, -, hlast, -⟩ := Snapshot.describe?_eq_some_iff.mp h
  rw [OriginPrevails, ← Store.getLast?_objectsOf_iff hread, ← answered]
  simp only [hlast, Option.some.injEq, exists_eq_left', Term.iri.injEq]

/-- What is found as a version of an asset is listed under it. What is listed under
an asset is found as a version of it exactly where no other statement on its origin
prevails, so lookup and listing agree where that holds of all that is listed. -/
theorem snapshotsOf_origin (hlookup : Uninterrupted (c.snapshotsOf asset)) :
    ∃ l, c.snapshotsOf asset = .ok l ∧
      (∀ x ∈ l, c.findSnapshot x.iri = .ok (some x) ∧
        (x.versionOf = asset ↔ c.OriginPrevails x.iri asset)) ∧
      (c.store.Regular → ∀ i found, c.findSnapshot i = .ok (some found) →
        found.versionOf = asset → found ∈ l) ∧
      (c.store.Regular → (∀ x ∈ l, c.OriginPrevails x.iri asset) → ∀ i,
        (∃ found, c.findSnapshot i = .ok (some found) ∧ found.versionOf = asset) ↔
          ∃ x ∈ l, x.iri = i) := by
  obtain ⟨l, hl⟩ := hlookup.exists_ok (c.snapshotsOf_failsWith asset)
  obtain ⟨-, hmem, -⟩ := snapshotsOf_eq_ok hl
  have horigin : ∀ x ∈ l, c.findSnapshot x.iri = .ok (some x) ∧
      (x.versionOf = asset ↔ c.OriginPrevails x.iri asset) := by
    intro x hx
    obtain ⟨-, hfind⟩ := (hmem x).mp hx
    exact ⟨hfind, versionOf_iff_originPrevails (findSnapshot_eq_ok hfind).symm⟩
  have hlisted : c.store.Regular → ∀ i found, c.findSnapshot i = .ok (some found) →
      found.versionOf = asset → found ∈ l := by
    rintro hregular i found hfind rfl
    obtain rfl := iri_of_findSnapshot hfind
    obtain ⟨⟨u, p, o, g⟩, hq, rfl, rfl⟩ :=
      Snapshot.versionOf_of_describe? (findSnapshot_eq_ok hfind).symm
    obtain ⟨hreads, rfl⟩ := Store.reads_of_mem_subject hq
    exact (hmem found).mpr ⟨⟨g, hregular.reads_iri.mp hreads⟩, hfind⟩
  refine ⟨l, hl, horigin, hlisted, fun hregular hprevails i => ⟨?_, ?_⟩⟩
  · rintro ⟨found, hfind, hversion⟩
    exact ⟨found, hlisted hregular i found hfind hversion, iri_of_findSnapshot hfind⟩
  · rintro ⟨x, hx, rfl⟩
    obtain ⟨hfind, hversion⟩ := horigin x hx
    exact ⟨x, hfind, hversion.mpr (hprevails x hx)⟩

end Connection

/-- A snapshot of which two origins are stated. -/
def Store.twoOrigins : Store := snapshotAnd ⟨⟨"s"⟩, Names.versionOf, .iri ⟨"w"⟩, ⟨"s"⟩⟩

namespace Connection

theorem findSnapshot_twoOrigins : ∃ found,
    (reliable .twoOrigins).findSnapshot ⟨"s"⟩ = .ok (some found) ∧ found.versionOf = ⟨"w"⟩ := by
  have hfind : ((reliable .twoOrigins).findSnapshot ⟨"s"⟩).toOption.join.map Snapshot.versionOf =
      some ⟨"w"⟩ := by
    decide +kernel
  obtain ⟨found, hfound, hversion⟩ := Option.map_eq_some_iff.mp hfind
  exact ⟨found, toOption_eq_some.mp (Option.join_eq_some_iff.mp hfound), hversion⟩

theorem snapshotsOf_origin_later :
    ∃ (c : Connection) (l : List Snapshot) (found : Snapshot),
      c.findSnapshot ⟨"s"⟩ = .ok (some found) ∧ found.versionOf = ⟨"w"⟩ ∧
      c.snapshotsOf ⟨"w"⟩ = .ok l ∧ found ∈ l ∧ c.OriginPrevails found.iri ⟨"w"⟩ := by
  obtain ⟨found, hfind, hversion⟩ := findSnapshot_twoOrigins
  have hlookup : Uninterrupted ((reliable .twoOrigins).snapshotsOf ⟨"w"⟩) := by
    obtain ⟨l, hl⟩ := exists_snapshotsOf (Store.readable_ofQuads _) ⟨"w"⟩
    exact hl ▸ FailsWith.ok l
  obtain ⟨l, hl, horigin, hlisted, -⟩ := snapshotsOf_origin hlookup
  have hmem : found ∈ l := hlisted (Store.regular_ofQuads _) ⟨"s"⟩ found hfind hversion
  exact ⟨_, l, found, hfind, hversion, hl, hmem, (horigin found hmem).2.mp hversion⟩

/-- It is listed under the earlier one all the same. -/
theorem snapshotsOf_origin_earlier :
    ∃ (c : Connection) (l : List Snapshot) (found : Snapshot),
      c.findSnapshot ⟨"s"⟩ = .ok (some found) ∧ found.versionOf ≠ ⟨"v"⟩ ∧
      c.snapshotsOf ⟨"v"⟩ = .ok l ∧ found ∈ l := by
  obtain ⟨found, hfind, hversion⟩ := findSnapshot_twoOrigins
  obtain ⟨l, hl⟩ := exists_snapshotsOf (s := .twoOrigins) (Store.readable_ofQuads _) ⟨"v"⟩
  obtain ⟨-, hmem, -⟩ := snapshotsOf_eq_ok hl
  refine ⟨_, l, found, hfind, hversion ▸ by decide, hl, ?_⟩
  rw [hmem, iri_of_findSnapshot hfind]
  exact ⟨⟨⟨"s"⟩, by decide +kernel⟩, hfind⟩

end Connection

end SkosArchive
