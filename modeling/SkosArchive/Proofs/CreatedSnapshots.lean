import SkosArchive.Proofs.Related
import SkosArchive.Proofs.SnapshotLookup
import SkosArchive.Proofs.TimeTexts
import SkosArchive.Proofs.Written

namespace SkosArchive

namespace Cascade

variable {k : Cascade} {s t : Store} {c : Connection} {p : CopyPlan} {v predicate : Iri} {r : Row}

/-- What stands about the new name of `v` beside the tags: it was stored there
before, or it is a copy of what a context of the cascade says about `v`. -/
inductive Rival (k : Cascade) (s : Store) (v : Iri) : Row → Prop
  | stored {r : Row} : r ∈ s.rows → r.subject = v.withSuffix k.suffix → Rival k s v r
  | copied {p : CopyPlan} {q : Quad} : p ∈ k.plans → s.Reads q → q.graph = p.found.context →
      q.subject = v → v ∈ p.owned → Rival k s v (.ofQuad (k.copy p q))

/-- Every rival statement that says something else than `P` is overruled by one that
says `P` and is found later. -/
def Prevails (k : Cascade) (s : Store) (c : Connection) (v predicate : Iri) (P : Term → Prop) :
    Prop :=
  ∀ r, k.Rival s v r → r.predicate = predicate → r.Says (fun o => ¬ P o) →
    ∃ r' ∈ c.store.statements c.service.arrival (v.withSuffix k.suffix) predicate,
      Row.Before c.service.arrival r r' ∧ r'.Says P

namespace Written

theorem mem_of_rival (h : k.Written s t) (hr : k.Rival s v r) :
    r ∈ t.rows ∧ r.subject = v.withSuffix k.suffix := by
  cases hr with
  | stored hr hu => exact ⟨h.keeps hr, hu⟩
  | copied hp hreads hg hu howned =>
      subst hu
      refine ⟨(h.rows _).mpr (.inr ⟨_, hp, _, .inl ⟨_, hreads, hg, howned, rfl⟩, rfl⟩), ?_⟩
      exact rename_of_owned hp howned

theorem rival_or_tag (h : k.Written s t) (hr : r ∈ t.rows)
    (hu : r.subject = v.withSuffix k.suffix) :
    k.Rival s v r ∨ ∃ p ∈ k.plans, ∃ q, k.Tags p q ∧ r = .ofQuad q := by
  rcases (h.rows r).mp hr with hold | ⟨p, hp, q, ⟨q₀, hreads, hg, howned, rfl⟩ | htag, rfl⟩
  · exact .inl (.stored hold hu)
  · have hlive : q₀.subject = v :=
      Iri.withSuffix_inj ((rename_of_owned hp howned).symm.trans hu)
    exact .inl (.copied hp hreads hg hlive (hlive ▸ howned))
  · exact .inr ⟨p, hp, q, htag, rfl⟩

theorem prevails_iff (h : k.Written s c.store) {P : Term → Prop}
    (htags : ∀ p ∈ k.plans, ∀ q, k.Tags p q → q.subject = v.withSuffix k.suffix →
      q.predicate = predicate → P q.object)
    (htag : ∃ p ∈ k.plans, ∃ q, k.Tags p q ∧ q.subject = v.withSuffix k.suffix ∧
      q.predicate = predicate) :
    (∃ o, (Vocabulary.objectsOf (c.answered { subject := some (v.withSuffix k.suffix) })
        predicate).getLast? = some o ∧ P o) ↔ k.Prevails s c v predicate P := by
  obtain ⟨p, hp, q, hq, hu, hpredicate⟩ := htag
  have hread : ∃ r ∈ c.store.statements c.service.arrival (v.withSuffix k.suffix) predicate,
      ∃ q, r.toQuad = .ok q :=
    ⟨_, Store.mem_statements.mpr ⟨(h.rows _).mpr (.inr ⟨p, hp, q, .inr hq, rfl⟩), hu, hpredicate⟩,
      _, Row.toQuad_ofQuad q⟩
  rw [Connection.answered, Store.getLast?_objectsOf_iff hread]
  constructor
  · intro hlast r hr hpredicate
    obtain ⟨hmem, hu⟩ := h.mem_of_rival hr
    exact hlast r (Store.mem_statements.mpr ⟨hmem, hu, hpredicate⟩)
  · intro hprevails r hr hsays
    obtain ⟨hmem, hu, hpredicate⟩ := Store.mem_statements.mp hr
    rcases h.rival_or_tag hmem hu with hrival | ⟨p, hp, q, hq, rfl⟩
    · exact hprevails r hrival hpredicate hsays
    · obtain ⟨q', hq', hnot⟩ := hsays
      rw [Row.toQuad_ofQuad, hq.normal] at hq'
      cases hq'
      exact absurd (htags p hp q hq hu hpredicate) hnot

theorem describe?_iff (h : k.Written s c.store) (hp : p ∈ k.plans)
    (htime : (Literal.ofInstant k.created).instant? = some k.created) :
    (∀ found, Snapshot.describe? (p.iri.withSuffix k.suffix)
        (c.answered { subject := some (p.iri.withSuffix k.suffix) }) = some found →
          found.kind = .vocabulary) ∧
      (Snapshot.describe? (p.iri.withSuffix k.suffix)
          (c.answered { subject := some (p.iri.withSuffix k.suffix) }) =
            some ⟨p.iri.withSuffix k.suffix, k.created, p.iri, .vocabulary⟩ ↔
        k.Prevails s c p.iri Names.versionOf (fun o => o = .iri p.iri) ∧
          k.Prevails s c p.iri Names.created (Snapshot.Dates k.created)) := by
  have hversions : Versions p .vocabulary p.iri := .inl ⟨rfl, rfl⟩
  have htype : ∃ q ∈ c.answered { subject := some (p.iri.withSuffix k.suffix) },
      q.predicate = Names.type ∧ q.object = .iri Names.vocabularySnapshot := by
    let tag : Quad := ⟨p.iri.withSuffix k.suffix, Names.type, .iri Names.vocabularySnapshot,
      k.target p⟩
    have htag : k.Tags p tag := (tags_iff hp).mpr ⟨_, _, hversions, .inl rfl⟩
    refine ⟨tag, Connection.mem_answered.mpr <| Store.mem_quads.mpr ⟨.ofQuad tag,
      (h.rows _).mpr (.inr ⟨p, hp, tag, .inr htag, rfl⟩), ?_, ?_⟩, rfl, rfl⟩
    · exact Pattern.covers_subject.mpr rfl
    · rw [Row.toQuad_ofQuad, htag.normal]
  have horigin := h.prevails_iff (v := p.iri) (P := fun o => o = .iri p.iri)
    (fun p hp q hq hu => (hq.object hp hu).1)
    ⟨p, hp, _, (tags_iff hp).mpr ⟨_, _, hversions, .inr (.inl rfl)⟩, rfl, rfl⟩
  have hcreated := h.prevails_iff (v := p.iri) (P := Snapshot.Dates k.created)
    (fun p hp q hq hu hpredicate => ⟨_, (hq.object hp hu).2 hpredicate, htime⟩)
    ⟨p, hp, _, (tags_iff hp).mpr ⟨_, _, hversions, .inr (.inr rfl)⟩, rfl, rfl⟩
  refine ⟨fun found hfound => ((Snapshot.describe?_iff_of_type htype).mp hfound).2.1, ?_⟩
  rw [Snapshot.describe?_iff_of_type htype, ← horigin, ← hcreated]
  simp only [true_and]

end Written

end Cascade

/-- What a creation returns is what is found under its name, listed among the
snapshots and valid at its time, unless something else prevails about the new
name: a statement on its origin or its time that was stored before, or that is
copied from the live description. The kind is found as it was made in any case. -/
theorem createSnapshot_found {c : Catalogue} {c' : Connection} {resolver : Resolver}
    {config : SnapshotConfig} {now : Instant} {v : Iri} {snapshot : Snapshot}
    (hyear : 0 ≤ (CivilTime.ofInstant now).date.year ∧
      (CivilTime.ofInstant now).date.year ≤ 9999)
    (hcreate : c.createSnapshot resolver config now v = .ok (snapshot, c'.store))
    (hlookup : Uninterrupted (c'.snapshotsOf v)) :
    ∃ k l found, c.cascade resolver config now v = .ok k ∧
      snapshot = ⟨v.withSuffix k.suffix, now.truncate, v, .vocabulary⟩ ∧
      c'.findSnapshot snapshot.iri = .ok found ∧ c'.snapshotsOf v = .ok l ∧
      (∀ other, found = some other → other.kind = .vocabulary) ∧
      (found = some snapshot ↔
        k.Prevails c.connection.store c' v Names.versionOf (fun o => o = .iri v) ∧
          k.Prevails c.connection.store c' v Names.created (Snapshot.Dates now.truncate)) ∧
      (snapshot ∈ l ↔ found = some snapshot) ∧
      (found = some snapshot → ∃ valid, c'.snapshotValidAt v snapshot.created =
        .ok (some valid) ∧ valid.created = snapshot.created) := by
  obtain ⟨hsnapshot, k, hk, hwritten, rfl⟩ := Catalogue.createSnapshot_eq_ok hcreate
  obtain ⟨related, hrelated, hplans, hcreated, -⟩ := Catalogue.cascade_eq_ok hk
  have hcopies := Catalogue.copies_origin hsnapshot (Catalogue.mem_related_self hrelated) hplans
  obtain ⟨p, hp, rfl⟩ := (Catalogue.exists_plan_iff hplans).mpr hcopies
  have htime : (Literal.ofInstant k.created).instant? = some k.created := by
    rw [hcreated]
    exact Literal.instant?_ofInstant (Instant.truncate_truncate now) hyear
  obtain ⟨l, hl⟩ := hlookup.exists_ok (c'.snapshotsOf_failsWith p.iri)
  obtain ⟨hfound, hmem, -⟩ := Connection.snapshotsOf_eq_ok hl
  have htag : .ofQuad ⟨p.iri.withSuffix k.suffix, Names.versionOf, .iri p.iri, k.target p⟩ ∈
      c'.store.rows := (hwritten.rows _).mpr (.inr ⟨p, hp, _, .inr ((Cascade.tags_iff hp).mpr
        ⟨.vocabulary, p.iri, .inl ⟨rfl, rfl⟩, .inr (.inl rfl)⟩), rfl⟩)
  obtain ⟨found, hfind⟩ := hfound _ _ htag
  obtain ⟨hkind, hdescribe⟩ := hwritten.describe?_iff hp htime
  rw [← Connection.findSnapshot_eq_ok hfind] at hkind hdescribe
  have hlisted : ⟨p.iri.withSuffix k.suffix, k.created, p.iri, .vocabulary⟩ ∈ l ↔
      found = some ⟨p.iri.withSuffix k.suffix, k.created, p.iri, .vocabulary⟩ := by
    rw [hmem, hfind, Except.ok.injEq]
    exact and_iff_right ⟨_, htag⟩
  rw [← hcreated]
  refine ⟨k, l, found, hk, rfl, hfind, hl, hkind, hdescribe, hlisted, fun hsame => ?_⟩
  obtain ⟨valid, hvalid, -, hnot, hnot'⟩ :=
    Connection.snapshotValidAt_of_mem hl (hlisted.mpr hsame) (TotalOrder.lt_irrefl k.created)
  exact ⟨valid, hvalid, TotalOrder.eq_of_not_lt hnot' hnot⟩

/-- A vocabulary whose live description has a time. -/
def Store.dated (time : String) : Store :=
  ofQuads [⟨⟨"v"⟩, Names.type, .iri Names.vocabulary, ⟨"v"⟩⟩,
    ⟨⟨"v"⟩, Names.created, .literal ⟨time, none, some Names.dateTime⟩, ⟨"v"⟩⟩]

theorem createSnapshot_found_dated :
    ∃ (now : Instant) (snapshot : Snapshot) (t : Store) (k : Cascade) (l : List Snapshot),
      ((Connection.reliable (.dated "2020-01-01T00:00:00Z")).catalogue .empty).createSnapshot .skos
        .standard now ⟨"v"⟩ = .ok (snapshot, t) ∧
      (Connection.reliable t).findSnapshot snapshot.iri = .ok (some snapshot) ∧
      (Connection.reliable t).snapshotsOf ⟨"v"⟩ = .ok l ∧ snapshot ∈ l ∧
      k.Prevails (.dated "2020-01-01T00:00:00Z") (.reliable t) ⟨"v"⟩ Names.created
        (Snapshot.Dates now.truncate) := by
  let now : Instant := ⟨1700000000, 0, by decide, by decide⟩
  let c := (Connection.reliable (.dated "2020-01-01T00:00:00Z")).catalogue .empty
  have hok : (c.createSnapshot .skos .standard now ⟨"v"⟩ >>= fun x => do
      let found ← (Connection.reliable x.2).findSnapshot x.1.iri
      let l ← (Connection.reliable x.2).snapshotsOf ⟨"v"⟩
      if found = some x.1 then .ok l else .error (.notSnapshot x.1.iri)).isOk = true := by
    decide +kernel
  obtain ⟨_, hruns⟩ := exists_ok_of_isOk hok
  obtain ⟨⟨snapshot, t⟩, hcreate, hruns⟩ := bind_eq_ok hruns
  obtain ⟨o, hfind, hruns⟩ := bind_eq_ok hruns
  obtain ⟨listed, hlisted, hruns⟩ := bind_eq_ok hruns
  split at hruns
  · rename_i hsame
    have hlookup : Uninterrupted ((Connection.reliable t).snapshotsOf ⟨"v"⟩) := by
      rw [hlisted]
      exact FailsWith.ok _
    have hwrote : c.createSnapshot .skos .standard now ⟨"v"⟩ =
      .ok (snapshot, (Connection.reliable t).store) := hcreate
    obtain ⟨k, l, found, -, -, hfound, hl, -, hprevails, hmem, -⟩ :=
      createSnapshot_found (by decide) hwrote hlookup
    rw [hfind] at hfound
    cases hfound
    subst hsame
    exact ⟨now, snapshot, t, k, l, hcreate, hfind, hl, hmem.mpr rfl, (hprevails.mp rfl).2⟩
  · cases hruns

/-- A later time in the live description is copied and prevails: what is created
is neither found nor listed, and nothing is valid at its time. -/
theorem createSnapshot_lost_dated :
    ∃ (snapshot : Snapshot) (t : Store),
      ((Connection.reliable (.dated "2030-01-01T00:00:00Z")).catalogue .empty).createSnapshot .skos
        .standard ⟨1700000000, 0, by decide, by decide⟩ ⟨"v"⟩ = .ok (snapshot, t) ∧
      (Connection.reliable t).findSnapshot snapshot.iri ≠ .ok (some snapshot) ∧
      (∃ l, (Connection.reliable t).snapshotsOf ⟨"v"⟩ = .ok l ∧ snapshot ∉ l) ∧
      (Connection.reliable t).snapshotValidAt ⟨"v"⟩ snapshot.created = .ok none := by
  have hok : (((Connection.reliable (.dated "2030-01-01T00:00:00Z")).catalogue
      .empty).createSnapshot .skos .standard ⟨1700000000, 0, by decide, by decide⟩ ⟨"v"⟩ >>=
        fun x => do
      let found ← (Connection.reliable x.2).findSnapshot x.1.iri
      let l ← (Connection.reliable x.2).snapshotsOf ⟨"v"⟩
      let valid ← (Connection.reliable x.2).snapshotValidAt ⟨"v"⟩ x.1.created
      if found ≠ some x.1 ∧ x.1 ∉ l ∧ valid = none then .ok ()
      else .error (.notSnapshot x.1.iri)).isOk = true := by
    decide +kernel
  obtain ⟨_, hruns⟩ := exists_ok_of_isOk hok
  obtain ⟨⟨snapshot, t⟩, hcreate, hruns⟩ := bind_eq_ok hruns
  obtain ⟨found, hfind, hruns⟩ := bind_eq_ok hruns
  obtain ⟨l, hl, hruns⟩ := bind_eq_ok hruns
  obtain ⟨valid, hvalid, hruns⟩ := bind_eq_ok hruns
  split at hruns
  · rename_i hlost
    obtain ⟨hfound, hlisted, rfl⟩ := hlost
    refine ⟨snapshot, t, hcreate, ?_, ⟨l, hl, hlisted⟩, hvalid⟩
    rw [hfind]
    exact fun h => hfound (Except.ok.inj h)
  · cases hruns

end SkosArchive
