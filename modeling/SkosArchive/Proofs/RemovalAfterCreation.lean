import SkosArchive.Proofs.RelatedGrowth
import SkosArchive.Proofs.RemovalScope
import SkosArchive.Proofs.TimeTexts

namespace SkosArchive

namespace Cascade

/-- What the store has to be like for the removal of a snapshot to undo its
creation: no name ends with the suffix, nothing is dated to the time of the
cascade, what the cascade owns is neither a version nor dated, and its
glossaries are those of the vocabularies of the cascade. -/
structure Reversible (k : Cascade) (s : Store) : Prop where
  avoids : s.Avoids k.suffix
  undated : ∀ q l, s.Reads q → q.predicate = Names.created → q.object = .literal l →
    l.instant? ≠ some k.created
  noVersion : ∀ q, s.Reads q → q.subject ∈ k.owned → q.predicate ≠ Names.versionOf
  noCreated : ∀ q, s.Reads q → q.subject ∈ k.owned → q.predicate ≠ Names.created
  glossary : ∀ q i, s.Reads q → q.subject ∈ k.owned → q.predicate = Names.hasGlossary →
    q.object = .iri i → ∃ p ∈ k.plans, p.found.vocabulary.glossary = some i

variable {k : Cascade} {s t : Store} {p : CopyPlan} {q : Quad}

theorem Reversible.of_rows (havoids : s.Avoids k.suffix)
    (hundated : ∀ r ∈ s.rows.toList, r.predicate = Names.created →
      Rfc3339.read r.object.toList ≠ some k.created)
    (howned : ∀ r ∈ s.rows.toList, r.subject ∈ k.owned →
      r.predicate ≠ Names.versionOf ∧ r.predicate ≠ Names.created)
    (hglossary : ∀ r ∈ s.rows.toList, r.subject ∈ k.owned → r.predicate = Names.hasGlossary →
      some ⟨r.object⟩ ∈ k.plans.map fun p => p.found.vocabulary.glossary) :
    k.Reversible s where
  avoids := havoids
  undated := by
    rintro q l ⟨r, hr, hrq⟩ hp hl
    rw [Literal.instant?, Row.value_of_toQuad hrq hl]
    exact hundated r hr ((Row.predicate_of_toQuad hrq).symm.trans hp)
  noVersion := by
    rintro q ⟨r, hr, hrq⟩ hu
    rw [Row.subject_of_toQuad hrq] at hu
    rw [Row.predicate_of_toQuad hrq]
    exact (howned r hr hu).1
  noCreated := by
    rintro q ⟨r, hr, hrq⟩ hu
    rw [Row.subject_of_toQuad hrq] at hu
    rw [Row.predicate_of_toQuad hrq]
    exact (howned r hr hu).2
  glossary := ClosesGlossaries.of_rows hglossary

theorem Written.grows (h : k.Written s t) (hs : k.Reversible s) : s.Grows k.suffix t :=
  h.grows_of_avoids hs.avoids hs.glossary

theorem Written.reads_snapshot (h : k.Written s t) (hs : k.Reversible s) {i : Iri}
    (hq : t.Reads q) (hi : q.subject = i.withSuffix k.suffix) :
    (q.predicate = Names.versionOf → q.object = .iri i) ∧
      (q.predicate = Names.created → q.object = .literal (.ofInstant k.created)) := by
  obtain ⟨r, hr, hrq⟩ := hq
  have hnew : r ∉ s.rows := by
    intro hold
    have hends := Iri.endsWith_withSuffix i k.suffix
    rw [← hi, Row.subject_of_toQuad hrq] at hends
    exact (hs.avoids r hold).2.1 hends
  obtain ⟨p, hp, q', hq', rfl⟩ := h.of_new hr hnew
  rw [Row.toQuad_ofQuad, hq'.elim Copies.normal Tags.normal] at hrq
  cases hrq
  rcases hq' with ⟨q₀, hreads, -, howned, rfl⟩ | htags
  · have howned := mem_owned.mpr ⟨p, hp, howned⟩
    exact ⟨fun hp => absurd hp (hs.noVersion q₀ hreads howned),
      fun hp => absurd hp (hs.noCreated q₀ hreads howned)⟩
  · exact htags.object hp hi

section

variable (h : k.Written s t) (hs : k.Reversible s)
  (htime : (Literal.ofInstant k.created).instant? = some k.created)

include h hs htime

/-- The snapshot of a vocabulary is read back as it was made, from all graphs
as well as from its own. -/
theorem Written.describe?_target (hp : p ∈ k.plans) {pattern : Pattern} {quads : List Quad}
    (hquads : ∀ q, q ∈ quads ↔ q ∈ t.quads pattern)
    (hsubject : ∀ r, pattern.covers r = true → r.subject = p.iri.withSuffix k.suffix)
    (hcovers : ∀ r, r.graph = k.target p → r.subject = p.iri.withSuffix k.suffix →
      pattern.covers r = true) :
    Snapshot.describe? (p.iri.withSuffix k.suffix) quads =
      some ⟨p.iri.withSuffix k.suffix, k.created, p.iri, .vocabulary⟩ := by
  have htag : ∀ q, k.Tags p q → q.subject = p.iri.withSuffix k.suffix → q ∈ quads := by
    intro q hq hu
    rw [hquads]
    refine Store.mem_quads.mpr ⟨.ofQuad q, (h.rows _).mpr (.inr ⟨p, hp, q, .inr hq, rfl⟩),
      hcovers _ hq.graph hu, ?_⟩
    rw [Row.toQuad_ofQuad, hq.normal]
  have hreads : ∀ q ∈ quads, t.Reads q ∧ q.subject = p.iri.withSuffix k.suffix := by
    intro q hq
    obtain ⟨r, hr, hcovered, hrq⟩ := Store.mem_quads.mp ((hquads q).mp hq)
    exact ⟨⟨r, hr, hrq⟩, (Row.subject_of_toQuad hrq).trans (hsubject r hcovered)⟩
  have hversions : Versions p .vocabulary p.iri := .inl ⟨rfl, rfl⟩
  refine Snapshot.describe?_eq_some ?_ ?_ (fun q hq => ?_) ?_ fun q hq hpredicate => ?_
  · exact ⟨_, htag _ ((tags_iff hp).mpr ⟨_, _, hversions, .inl rfl⟩) rfl, rfl, rfl⟩
  · exact ⟨_, htag _ ((tags_iff hp).mpr ⟨_, _, hversions, .inr (.inl rfl)⟩) rfl, rfl⟩
  · exact (h.reads_snapshot hs (hreads q hq).1 (hreads q hq).2).1
  · exact ⟨_, htag _ ((tags_iff hp).mpr ⟨_, _, hversions, .inr (.inr rfl)⟩) rfl, rfl⟩
  · exact ⟨_, (h.reads_snapshot hs (hreads q hq).1 (hreads q hq).2).2 hpredicate, htime⟩

theorem Written.vocabularySnapshot_target (hp : p ∈ k.plans) {c : Catalogue}
    (hc : c.connection.store = t) (hcheck : Uninterrupted (c.vocabularySnapshot (k.target p))) :
    c.vocabularySnapshot (k.target p) =
      .ok ⟨k.target p, k.created, p.iri, .vocabulary⟩ := by
  subst hc
  have hdescribe := h.describe?_target hs htime hp (fun _ => Connection.mem_answered)
    (fun r => Pattern.covers_subject.mp) fun r _ => Pattern.covers_subject.mpr
  exact Catalogue.vocabularySnapshot_eq_ok hcheck hdescribe rfl

theorem Written.holdsVersion_target (hp : p ∈ k.plans) :
    t.HoldsVersion k.created p.iri (k.target p) := by
  have hversions : Versions p .vocabulary p.iri := .inl ⟨rfl, rfl⟩
  refine ⟨p.iri.withSuffix k.suffix, (h.rows _).mpr (.inr ⟨p, hp, _, .inr ((tags_iff hp).mpr
    ⟨_, _, hversions, .inr (.inl rfl)⟩), rfl⟩), _,
    h.describe?_target hs htime hp (fun _ => Iff.rfl) ?_ ?_, rfl, rfl⟩
  · exact fun r hr => (Pattern.covers_description.mp hr).2
  · exact fun r hg hu => Pattern.covers_description.mpr ⟨hg, hu⟩

omit htime in
theorem Written.target_of_holdsVersion {w g : Iri} (hversion : t.HoldsVersion k.created w g) :
    ∃ p ∈ k.plans, g = k.target p := by
  obtain ⟨x, hr, snapshot, hdescribe, -, hcreated⟩ := hversion
  by_cases hold : .ofQuad ⟨x, Names.versionOf, .iri w, g⟩ ∈ s.rows
  · have hlive : ¬ g.EndsWith k.suffix := (hs.avoids _ hold).1
    rw [Store.quads_congr ((h.grows hs).select_graph rfl hlive)] at hdescribe
    obtain ⟨q, hq, hpredicate, l, hl, hinstant⟩ := Snapshot.created_of_describe? hdescribe
    obtain ⟨r, hr, -, hrq⟩ := Store.mem_quads.mp hq
    rw [hcreated] at hinstant
    exact absurd hinstant (hs.undated q l ⟨r, hr, hrq⟩ hpredicate hl)
  · exact h.graph_of_new hr hold

end

theorem Written.readable_store (h : k.Written s t) (hs : s.Readable) : t.Readable := by
  intro r hr
  rcases (h.rows r).mp hr with hold | ⟨p, -, q, -, rfl⟩
  · exact hs r hold
  · exact ⟨_, Row.toQuad_ofQuad q⟩

theorem Written.mem_new_graphs (h : k.Written s t) {g : Iri} :
    (∃ p ∈ k.plans, g = k.target p) ↔ g ∈ t.graphs ∧ g ∉ s.graphs := by
  rw [h.mem_graphs]
  constructor
  · rintro ⟨p, hp, rfl⟩
    exact ⟨.inr ⟨p, hp, rfl⟩, h.fresh p hp⟩
  · rintro ⟨hg | hg, hnew⟩
    · exact absurd hg hnew
    · exact hg

theorem Written.eq_of_dropped {t' : Store} (h : k.Written s t) {graphs : List Iri}
    (hgraphs : ∀ g, g ∈ graphs ↔ ∃ p ∈ k.plans, g = k.target p) (hsealed : t'.sealed = t.sealed)
    (hrows : ∀ r, r ∈ t'.rows ↔ r ∈ t.rows ∧ r.graph ∉ graphs) : t' = s := by
  refine Store.eq_of_rows (hsealed.trans h.sealed) fun r => ?_
  rw [hrows, hgraphs]
  constructor
  · rintro ⟨hr, hkept⟩
    exact Decidable.byContradiction fun hs => hkept (h.graph_of_new hr hs)
  · intro hr
    refine ⟨h.keeps hr, ?_⟩
    rintro ⟨p, hp, hg⟩
    exact h.fresh p hp (Store.mem_graphs.mpr ⟨r, hr, hg⟩)

end Cascade

/-- A snapshot that has just been created is removed without a trace, with
every strategy: the removal drops the graphs that the creation added, each
once, and leaves the store as it was before. Contexts are those of the store or
of an index that was loaded before or after the creation. -/
theorem removeSnapshot_restores {s t : Store} {service service' : Service}
    {cache cache' : ContextCache} {resolver : Resolver} {config : SnapshotConfig} {now : Instant}
    {v : Iri} {k : Cascade} {snapshot : Snapshot}
    (hyear : 0 ≤ (CivilTime.ofInstant now).date.year ∧
      (CivilTime.ofInstant now).date.year ≤ 9999)
    (hlink : ∀ linkGraph, resolver = .externalLink linkGraph →
      ¬ linkGraph.EndsWith (Snapshot.suffix config.separator now))
    (hcache : cache.Reflects s) (hcache' : cache'.Reflects s ∨ cache'.Reflects t)
    (hk : (Connection.catalogue ⟨s, service⟩ cache).cascade resolver config now v = .ok k)
    (hs : k.Reversible s)
    (hcreate : (Connection.catalogue ⟨s, service⟩ cache).createSnapshot resolver config now v =
      .ok (snapshot, t))
    (hremove : Uninterrupted ((Connection.catalogue ⟨t, service'⟩ cache').removeSnapshot resolver
      config snapshot.iri)) :
    ∃ graphs, (Connection.catalogue ⟨t, service'⟩ cache').removeSnapshot resolver config
        snapshot.iri = .ok (graphs, s) ∧
      graphs.Nodup ∧ ∀ g, g ∈ graphs ↔ g ∈ t.graphs ∧ g ∉ s.graphs := by
  obtain ⟨hsnapshot, k', hk', hwritten, rfl⟩ := Catalogue.createSnapshot_eq_ok hcreate
  rw [hk] at hk'
  cases hk'
  obtain ⟨related, hrelated, hplans, hcreated, hsuffix⟩ := Catalogue.cascade_eq_ok hk
  have hcopies := Catalogue.copies_origin hsnapshot (Catalogue.mem_related_self hrelated) hplans
  obtain ⟨p, hp, rfl⟩ := (Catalogue.exists_plan_iff hplans).mpr hcopies
  have hlive : ¬ p.iri.EndsWith k.suffix := by
    obtain ⟨-, -, context, -, r, hr, -, hu⟩ := hcopies
    rw [← hu]
    exact (hs.avoids r hr).2.1
  have htime : (Literal.ofInstant k.created).instant? = some k.created := by
    rw [hcreated]
    exact Literal.instant?_ofInstant (Instant.truncate_truncate now) hyear
  rw [← hsuffix] at hlink
  have hgrows : (Connection.catalogue ⟨s, service⟩ cache).Grows k.suffix
      (Connection.catalogue ⟨t, service'⟩ cache') :=
    Connection.catalogue_grows (hwritten.grows hs) hcache hcache'
  have hsnapshot' := hwritten.vocabularySnapshot_target hs htime hp rfl hremove.first
  have hrelated' := (hgrows.related config.cascade hlink hlive).eq_ok
    (hremove.second hsnapshot').first hrelated
  obtain ⟨⟨graphs, t'⟩, h⟩ :=
    hremove.exists_ok (Catalogue.removeSnapshot_failsWith hsnapshot' hrelated')
  obtain ⟨_, _, hsnapshot'', hrelated'', hnodup, hgraphs, hsealed, hrows⟩ :=
    Catalogue.removeSnapshot_eq_ok h
  cases hsnapshot'.symm.trans hsnapshot''
  cases hrelated'.symm.trans hrelated''
  have htargets : ∀ g, g ∈ graphs ↔ ∃ p ∈ k.plans, g = k.target p := by
    intro g
    rw [hgraphs]
    constructor
    · rintro ⟨w, -, hversion⟩
      exact hwritten.target_of_holdsVersion hs hversion
    · rintro ⟨p', hp', rfl⟩
      have hmember : p'.iri ∈ related := ((Catalogue.exists_plan_iff hplans).mp ⟨p', hp', rfl⟩).1
      exact ⟨p'.iri, hmember, hwritten.holdsVersion_target hs htime hp'⟩
  obtain rfl := hwritten.eq_of_dropped htargets hsealed hrows
  exact ⟨graphs, h, hnodup, fun g => (htargets g).trans hwritten.mem_new_graphs⟩

/-- The linked pair, and an older snapshot of its first vocabulary. -/
def Store.agedPair : Store :=
  let old : List Quad :=
    [⟨⟨"v/old"⟩, Names.type, .iri Names.vocabularySnapshot, ⟨"v/old"⟩⟩,
      ⟨⟨"v/old"⟩, Names.versionOf, .iri ⟨"v"⟩, ⟨"v/old"⟩⟩,
      ⟨⟨"v/old"⟩, Names.created, .literal ⟨"2020-01-01T00:00:00Z", none, none⟩, ⟨"v/old"⟩⟩]
  { linkedPair with rows := linkedPair.rows.insertAll (old.map .ofQuad) }

theorem removeSnapshot_restores_agedPair :
    ∃ (snapshot : Snapshot) (t : Store) (graphs : List Iri),
      ((Connection.reliable .agedPair).catalogue .empty).createSnapshot .skos .standard
        ⟨1700000000, 0, by decide, by decide⟩ ⟨"v"⟩ = .ok (snapshot, t) ∧
      ((Connection.reliable t).catalogue .empty).removeSnapshot .skos .standard snapshot.iri =
        .ok (graphs, .agedPair) ∧
      graphs.Nodup ∧ ∀ g, g ∈ graphs ↔
        g = ⟨"v/version/2023-11-14T221320Z"⟩ ∨ g = ⟨"w/version/2023-11-14T221320Z"⟩ := by
  have hcreates : (((Connection.reliable .agedPair).catalogue .empty).createSnapshot .skos .standard
      ⟨1700000000, 0, by decide, by decide⟩ ⟨"v"⟩).isOk = true := by
    decide +kernel
  have hcascade : (((Connection.reliable .agedPair).catalogue .empty).cascade .skos .standard
      ⟨1700000000, 0, by decide, by decide⟩ ⟨"v"⟩).map
        (fun k => (k.owned, k.plans.map (fun p => p.found.vocabulary.glossary),
          k.plans.map k.target)) =
      .ok ([⟨"v"⟩, ⟨"v/glossary"⟩, ⟨"v/term"⟩, ⟨"w"⟩, ⟨"w/glossary"⟩, ⟨"w/term"⟩],
        [some ⟨"v/glossary"⟩, some ⟨"w/glossary"⟩],
        [⟨"v/version/2023-11-14T221320Z"⟩, ⟨"w/version/2023-11-14T221320Z"⟩]) := by
    decide +kernel
  obtain ⟨⟨snapshot, t⟩, hcreate⟩ := exists_ok_of_isOk hcreates
  obtain ⟨-, k, hk, hwritten, -⟩ := Catalogue.createSnapshot_eq_ok hcreate
  obtain ⟨-, -, -, hcreated, hsuffix⟩ := Catalogue.cascade_eq_ok hk
  rw [hk] at hcascade
  obtain ⟨howned, hplans⟩ := Prod.mk.inj (Except.ok.inj hcascade)
  obtain ⟨hglossaries, htargets⟩ := Prod.mk.inj hplans
  have hread : ∀ r ∈ Store.agedPair.rows.toList, r.toQuad.isOk = true := by decide +kernel
  have hun : Uninterrupted (((Connection.reliable t).catalogue .empty).removeSnapshot .skos
      .standard snapshot.iri) := by
    have ht : t.Readable := hwritten.readable_store fun r hr => exists_ok_of_isOk (hread r hr)
    exact Catalogue.uninterrupted_removeSnapshot ht (ContextCache.empty.uninterrupted_contextOf ht)
      .skos .standard snapshot.iri
  have hs : k.Reversible .agedPair := by
    refine Cascade.Reversible.of_rows ?_ ?_ ?_ ?_
    · rw [hsuffix]
      decide +kernel
    · rw [hcreated]
      decide +kernel
    · rw [howned]
      decide +kernel
    · rw [howned, hglossaries]
      decide +kernel
  have hreflects : ∀ s, ContextCache.empty.Reflects s := fun s => nofun
  obtain ⟨graphs, hremove, hnodup, hgraphs⟩ := removeSnapshot_restores (by decide)
    (by rintro _ ⟨⟩) (hreflects _) (.inl (hreflects _)) hk hs hcreate hun
  refine ⟨snapshot, t, graphs, hcreate, hremove, hnodup, fun g => ?_⟩
  have hmem : g ∈ k.plans.map k.target ↔ ∃ p ∈ k.plans, g = k.target p := by
    simp only [List.mem_map, eq_comm]
  rw [htargets] at hmem
  simpa using ((hgraphs g).trans hwritten.mem_new_graphs.symm).trans hmem.symm

end SkosArchive
