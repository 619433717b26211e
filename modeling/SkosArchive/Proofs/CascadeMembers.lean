import SkosArchive.Proofs.FaithfulCopies
import SkosArchive.Proofs.RemovalAfterCreation

namespace SkosArchive

theorem Snapshot.not_endsWith_suffix {i : Iri} (hlast : i.text.toList.getLast? ≠ some 'Z')
    (separator : String) (now : Instant) : ¬ i.EndsWith (suffix separator now) := by
  intro h
  obtain ⟨before, htext⟩ := Iri.endsWith_iff.mp h
  apply hlast
  rw [← htext, suffix, String.toList_append, String.toList_ofList, Rfc3339.compactText]
  simp only [← List.append_assoc, List.getLast?_concat]

namespace Cascade

variable {k : Cascade} {s t : Store} {p : CopyPlan} {q : Quad}

/-- Nothing that the cascade owns is typed as a snapshot of a vocabulary. -/
def Untyped (k : Cascade) (s : Store) : Prop :=
  ∀ q, s.Reads q → q.subject ∈ k.owned → q.predicate = Names.type →
    q.object ≠ .iri Names.vocabularySnapshot

theorem Untyped.of_rows (h : ∀ r ∈ s.rows.toList, r.subject ∈ k.owned →
    r.predicate = Names.type → r.object ≠ Names.vocabularySnapshot.text) : k.Untyped s := by
  rintro q ⟨r, hr, hrq⟩ hu hp ho
  rw [Row.subject_of_toQuad hrq] at hu
  rw [Row.predicate_of_toQuad hrq] at hp
  exact h r hr hu hp (Row.object_of_toQuad hrq ho).2

theorem Copies.not_vocabularySnapshot (h : k.Copies s p q) (hp : p ∈ k.plans)
    (htypes : k.Untyped s) (hname : ¬ Names.vocabularySnapshot.EndsWith k.suffix)
    (htype : q.predicate = Names.type) : q.object ≠ .iri Names.vocabularySnapshot := by
  obtain ⟨q₀, hreads, -, howned, rfl⟩ := h
  have hlive := htypes q₀ hreads (mem_owned.mpr ⟨p, hp, howned⟩) htype
  change k.renameTerm q₀.object ≠ _
  cases ho : q₀.object with
  | literal l => exact nofun
  | iri i =>
      rw [ho] at hlive
      rintro hrenamed
      have hi : k.rename i = Names.vocabularySnapshot := Term.iri.inj hrenamed
      by_cases howned : i ∈ k.owned
      · rw [rename_of_mem howned] at hi
        exact hname ⟨i, hi⟩
      · rw [rename_of_not_mem howned] at hi
        exact hlive (congrArg Term.iri hi)

theorem Written.origin_of_holdsVersion (h : k.Written s t) (hs : k.Reversible s)
    (htypes : k.Untyped s) (hname : ¬ Names.vocabularySnapshot.EndsWith k.suffix)
    (hp : p ∈ k.plans) (hext : ∀ p' ∈ k.plans, p'.iri = p.iri → p' = p) {created : Instant}
    {w : Iri} (hversion : t.HoldsVersion created w (k.target p)) : w = p.iri := by
  have htypeVersion : Names.type ≠ Names.versionOf := by decide
  have htypeCreated : Names.type ≠ Names.created := by decide
  have hversionCreated : Names.versionOf ≠ Names.created := by decide
  obtain ⟨x, hr, snapshot, hdescribe, hkind, -⟩ := hversion
  have horigin : ∃ live, x = live.withSuffix k.suffix ∧ w = live := by
    rcases (h.reads_target hp hext ⟨x, Names.versionOf, .iri w, k.target p⟩).mp
      ⟨⟨_, hr, Row.toQuad_ofQuad _⟩, rfl⟩ with ⟨q₀, hreads, -, howned, hcopy⟩ | htag
    · exact absurd (congrArg Quad.predicate hcopy).symm
        (hs.noVersion q₀ hreads (mem_owned.mpr ⟨p, hp, howned⟩))
    · obtain ⟨kind, live, -, htag | htag | htag⟩ := (tags_iff hp).mp htag
      · exact absurd (congrArg Quad.predicate htag).symm htypeVersion
      · cases htag
        exact ⟨_, rfl, rfl⟩
      · exact absurd (congrArg Quad.predicate htag) hversionCreated
  obtain ⟨live, rfl, rfl⟩ := horigin
  obtain ⟨q, hq, hpredicate, hobject⟩ := Snapshot.type_of_describe? hdescribe
  obtain ⟨r, hr', hcovers, hrq⟩ := Store.mem_quads.mp hq
  obtain ⟨hg, hu⟩ := Pattern.covers_description.mp hcovers
  rw [← Row.graph_of_toQuad hrq] at hg
  rw [← Row.subject_of_toQuad hrq] at hu
  rw [hkind] at hobject
  rcases (h.reads_target hp hext q).mp ⟨⟨r, hr', hrq⟩, hg⟩ with hcopy | htag
  · exact absurd hobject (hcopy.not_vocabularySnapshot hp htypes hname hpredicate)
  · obtain ⟨kind, live', hversions, rfl | rfl | rfl⟩ := (tags_iff hp).mp htag
    · cases Iri.withSuffix_inj hu
      rcases hversions with ⟨-, hlive⟩ | ⟨rfl, -⟩
      · exact hlive
      · exact absurd (Term.iri.inj hobject) (by decide)
    · exact absurd hpredicate.symm htypeVersion
    · exact absurd hpredicate.symm htypeCreated

theorem Written.holdsVersion_iff (h : k.Written s t) (hs : k.Reversible s) (htypes : k.Untyped s)
    (hname : ¬ Names.vocabularySnapshot.EndsWith k.suffix)
    (htime : (Literal.ofInstant k.created).instant? = some k.created)
    (hext : ∀ p ∈ k.plans, ∀ p' ∈ k.plans, p'.iri = p.iri → p' = p) {w g : Iri} :
    t.HoldsVersion k.created w g ↔ ∃ p ∈ k.plans, w = p.iri ∧ g = k.target p := by
  constructor
  · intro hversion
    obtain ⟨p, hp, rfl⟩ := h.target_of_holdsVersion hs hversion
    exact ⟨p, hp, h.origin_of_holdsVersion hs htypes hname hp (hext p hp) hversion, rfl⟩
  · rintro ⟨p, hp, rfl, rfl⟩
    exact h.holdsVersion_target hs htime hp

end Cascade

/-- The removal of any one snapshot of a cascade that has just been created
drops the snapshots of those members that are related to its origin, and leaves
the others; relations are followed from the origin of that snapshot, not from
that of the cascade. So it drops the whole cascade just if all members are
related to that origin. -/
theorem removeSnapshot_drops_related {s t t' : Store} {service service' : Service}
    {cache cache' : ContextCache} {resolver : Resolver} {config : SnapshotConfig} {now : Instant}
    {v : Iri} {k : Cascade} {snapshot : Snapshot} {p : CopyPlan} {graphs : List Iri}
    (hyear : 0 ≤ (CivilTime.ofInstant now).date.year ∧
      (CivilTime.ofInstant now).date.year ≤ 9999)
    (hk : (Connection.catalogue ⟨s, service⟩ cache).cascade resolver config now v = .ok k)
    (hs : k.Reversible s) (htypes : k.Untyped s)
    (hcreate : (Connection.catalogue ⟨s, service⟩ cache).createSnapshot resolver config now v =
      .ok (snapshot, t))
    (hp : p ∈ k.plans)
    (hremove : (Connection.catalogue ⟨t, service'⟩ cache').removeSnapshot resolver config
      (k.target p) = .ok (graphs, t')) :
    ∃ related, (Connection.catalogue ⟨t, service'⟩ cache').related resolver config.cascade p.iri =
        .ok related ∧
      (∀ g, g ∈ graphs ↔ ∃ p' ∈ k.plans, p'.iri ∈ related ∧ g = k.target p') ∧
      (∀ p' ∈ k.plans, k.target p' ∈ t'.graphs ↔ p'.iri ∉ related) ∧
      ((∀ p' ∈ k.plans, k.target p' ∈ graphs) ↔ ∀ p' ∈ k.plans, p'.iri ∈ related) := by
  obtain ⟨-, k', hk', hwritten, -⟩ := Catalogue.createSnapshot_eq_ok hcreate
  rw [hk] at hk'
  cases hk'
  obtain ⟨-, -, -, hcreated, hsuffix⟩ := Catalogue.cascade_eq_ok hk
  have htime : (Literal.ofInstant k.created).instant? = some k.created := by
    rw [hcreated]
    exact Literal.instant?_ofInstant (Instant.truncate_truncate now) hyear
  have hname : ¬ Names.vocabularySnapshot.EndsWith k.suffix := by
    rw [hsuffix]
    exact Snapshot.not_endsWith_suffix (by decide) _ _
  have hext : ∀ p ∈ k.plans, ∀ p' ∈ k.plans, p'.iri = p.iri → p' = p :=
    fun p hp p' hp' => Catalogue.plan_ext hk hp' hp
  obtain ⟨_, related, hsnapshot, hrelated, -, hgraphs, -, hrows⟩ :=
    Catalogue.removeSnapshot_eq_ok hremove
  have hcheck : Uninterrupted
      ((Connection.catalogue ⟨t, service'⟩ cache').vocabularySnapshot (k.target p)) :=
    hsnapshot ▸ FailsWith.ok _
  rw [hwritten.vocabularySnapshot_target hs htime hp rfl hcheck] at hsnapshot
  cases hsnapshot
  have htargets : ∀ g, g ∈ graphs ↔ ∃ p' ∈ k.plans, p'.iri ∈ related ∧ g = k.target p' := by
    intro g
    rw [hgraphs]
    constructor
    · rintro ⟨w, hw, hversion⟩
      obtain ⟨p', hp', rfl, rfl⟩ :=
        (hwritten.holdsVersion_iff hs htypes hname htime hext).mp hversion
      exact ⟨p', hp', hw, rfl⟩
    · rintro ⟨p', hp', hmember, rfl⟩
      exact ⟨p'.iri, hmember, hwritten.holdsVersion_target hs htime hp'⟩
  have hdropped : ∀ p' ∈ k.plans, k.target p' ∈ graphs ↔ p'.iri ∈ related := by
    intro p' hp'
    rw [htargets]
    constructor
    · rintro ⟨p'', -, hmember, htarget⟩
      rwa [Iri.withSuffix_inj htarget]
    · exact fun hmember => ⟨p', hp', hmember, rfl⟩
  refine ⟨related, hrelated, htargets, fun p' hp' => ?_, forall₂_congr hdropped⟩
  have hkept : k.target p' ∈ t'.graphs ↔ k.target p' ∈ t.graphs ∧ k.target p' ∉ graphs :=
    Store.mem_graphs_of_dropped hrows
  rw [hkept, hdropped p' hp', and_iff_right (hwritten.target_mem_graphs hp')]

/-- Two vocabularies, of which the first imports the second. -/
def Store.importingPair : Store :=
  ofQuads [⟨⟨"v"⟩, Names.type, .iri Names.vocabulary, ⟨"v"⟩⟩,
    ⟨⟨"v"⟩, Names.importsVocabulary, .iri ⟨"w"⟩, ⟨"v"⟩⟩,
    ⟨⟨"w"⟩, Names.type, .iri Names.vocabulary, ⟨"w"⟩⟩]

theorem importingPair_reversible {k : Cascade}
    (hk : ((Connection.reliable .importingPair).catalogue .empty).cascade .recursive .standard
      ⟨1700000000, 0, by decide, by decide⟩ ⟨"v"⟩ = .ok k) (howned : k.owned = [⟨"v"⟩, ⟨"w"⟩]) :
    k.Reversible .importingPair ∧ k.Untyped .importingPair := by
  obtain ⟨-, -, -, hcreated, hsuffix⟩ := Catalogue.cascade_eq_ok hk
  constructor
  · refine Cascade.Reversible.of_rows ?_ ?_ ?_ ?_
    · rw [hsuffix]
      decide +kernel
    · rw [hcreated]
      decide +kernel
    · rw [howned]
      decide +kernel
    · have hnone : ∀ r ∈ Store.importingPair.rows.toList, r.predicate ≠ Names.hasGlossary := by
        decide +kernel
      exact fun r hr _ hp => absurd hp (hnone r hr)
  · apply Cascade.Untyped.of_rows
    rw [howned]
    decide +kernel

theorem removeSnapshot_drops_related_importingPair :
    ∃ (snapshot : Snapshot) (t t' : Store) (graphs : List Iri),
      ((Connection.reliable .importingPair).catalogue .empty).createSnapshot .recursive .standard
        ⟨1700000000, 0, by decide, by decide⟩ ⟨"v"⟩ = .ok (snapshot, t) ∧
      ((Connection.reliable t).catalogue .empty).removeSnapshot .recursive .standard
        ⟨"w/version/2023-11-14T221320Z"⟩ = .ok (graphs, t') ∧
      ((Connection.reliable t).catalogue .empty).related .recursive .standard ⟨"w"⟩ =
        .ok (Ascending.ofList [⟨"w"⟩]) ∧
      ∀ g, g ∈ graphs ↔ g = ⟨"w/version/2023-11-14T221320Z"⟩ := by
  have hcascade : (((Connection.reliable .importingPair).catalogue .empty).cascade .recursive
      .standard ⟨1700000000, 0, by decide, by decide⟩ ⟨"v"⟩).map
        (fun k => (k.owned, k.plans.map CopyPlan.iri)) =
      .ok ([⟨"v"⟩, ⟨"w"⟩], [⟨"v"⟩, ⟨"w"⟩]) := by
    decide +kernel
  have hruns : (do
      let (_, t) ← ((Connection.reliable .importingPair).catalogue .empty).createSnapshot
        .recursive .standard ⟨1700000000, 0, by decide, by decide⟩ ⟨"v"⟩
      let related ← ((Connection.reliable t).catalogue .empty).related .recursive .standard ⟨"w"⟩
      let _ ← ((Connection.reliable t).catalogue .empty).removeSnapshot .recursive .standard
        ⟨"w/version/2023-11-14T221320Z"⟩
      return related) = .ok (Ascending.ofList [⟨"w"⟩]) := by
    decide +kernel
  obtain ⟨⟨snapshot, t⟩, hcreate, hruns⟩ := bind_eq_ok hruns
  obtain ⟨related, hrelated, hruns⟩ := bind_eq_ok hruns
  obtain ⟨⟨graphs, t'⟩, hremove, hruns⟩ := bind_eq_ok hruns
  obtain rfl : related = Ascending.ofList [⟨"w"⟩] := Except.ok.inj hruns
  obtain ⟨-, k, hk, -⟩ := Catalogue.createSnapshot_eq_ok hcreate
  obtain ⟨-, -, -, -, hsuffix⟩ := Catalogue.cascade_eq_ok hk
  rw [hk] at hcascade
  obtain ⟨howned, hiris⟩ := Prod.mk.inj (Except.ok.inj hcascade)
  obtain ⟨hs, htypes⟩ := importingPair_reversible hk howned
  have hmember : ⟨"w"⟩ ∈ k.plans.map CopyPlan.iri := by
    rw [hiris]
    decide
  obtain ⟨p, hp, hw⟩ := List.mem_map.mp hmember
  have htarget : k.target p = ⟨"w/version/2023-11-14T221320Z"⟩ := by
    rw [Cascade.target, hw, hsuffix]
    decide +kernel
  rw [← htarget] at hremove
  obtain ⟨related', hrelated', hgraphs, -⟩ :=
    removeSnapshot_drops_related (by decide) hk hs htypes hcreate hp hremove
  rw [hw] at hrelated'
  cases hrelated.symm.trans hrelated'
  rw [htarget] at hremove
  refine ⟨snapshot, t, t', graphs, hcreate, hremove, hrelated, fun g => ?_⟩
  rw [hgraphs]
  constructor
  · rintro ⟨p', -, hp', rfl⟩
    have hw' : p'.iri = p.iri := by simpa [hw] using Ascending.mem_ofList.mp hp'
    rw [← htarget, Cascade.target, hw', Cascade.target]
  · rintro rfl
    exact ⟨p, hp, hw ▸ Ascending.mem_ofList.mpr List.mem_cons_self, htarget.symm⟩

/-- Where the origin of a cascade imports another member but not the other way
round, removing the snapshot of that member leaves the snapshot of the origin,
which still imports what was dropped. -/
theorem removeSnapshot_leaves_importingPair :
    ∃ (snapshot : Snapshot) (t t' : Store),
      ((Connection.reliable .importingPair).catalogue .empty).createSnapshot .recursive .standard
        ⟨1700000000, 0, by decide, by decide⟩ ⟨"v"⟩ = .ok (snapshot, t) ∧
      t.graphs = Ascending.ofList [⟨"v"⟩, ⟨"v/version/2023-11-14T221320Z"⟩, ⟨"w"⟩,
        ⟨"w/version/2023-11-14T221320Z"⟩] ∧
      ((Connection.reliable t).catalogue .empty).removeSnapshot .recursive .standard
        ⟨"w/version/2023-11-14T221320Z"⟩ = .ok ([⟨"w/version/2023-11-14T221320Z"⟩], t') ∧
      t'.graphs = Ascending.ofList [⟨"v"⟩, ⟨"v/version/2023-11-14T221320Z"⟩, ⟨"w"⟩] ∧
      t'.Reads ⟨⟨"v/version/2023-11-14T221320Z"⟩, Names.importsVocabulary,
        .iri ⟨"w/version/2023-11-14T221320Z"⟩, ⟨"v/version/2023-11-14T221320Z"⟩⟩ := by
  have hruns : (do
      let (_, t) ← ((Connection.reliable .importingPair).catalogue .empty).createSnapshot
        .recursive .standard ⟨1700000000, 0, by decide, by decide⟩ ⟨"v"⟩
      let (graphs, t') ← ((Connection.reliable t).catalogue .empty).removeSnapshot .recursive
        .standard ⟨"w/version/2023-11-14T221320Z"⟩
      return (t.graphs, graphs, t'.graphs,
        decide (Row.ofQuad ⟨⟨"v/version/2023-11-14T221320Z"⟩, Names.importsVocabulary,
          .iri ⟨"w/version/2023-11-14T221320Z"⟩, ⟨"v/version/2023-11-14T221320Z"⟩⟩ ∈ t'.rows))) =
      .ok (Ascending.ofList [⟨"v"⟩, ⟨"v/version/2023-11-14T221320Z"⟩, ⟨"w"⟩,
          ⟨"w/version/2023-11-14T221320Z"⟩], [⟨"w/version/2023-11-14T221320Z"⟩],
        Ascending.ofList [⟨"v"⟩, ⟨"v/version/2023-11-14T221320Z"⟩, ⟨"w"⟩], true) := by
    decide +kernel
  obtain ⟨⟨snapshot, t⟩, hcreate, hruns⟩ := bind_eq_ok hruns
  obtain ⟨⟨graphs, t'⟩, hremove, hruns⟩ := bind_eq_ok hruns
  have hanswers := Except.ok.inj hruns
  simp only [Prod.mk.injEq, decide_eq_true_eq] at hanswers
  obtain ⟨hgraphs, rfl, hgraphs', himports⟩ := hanswers
  exact ⟨snapshot, t, t', hcreate, hgraphs, hremove, hgraphs', _, himports, Row.toQuad_ofQuad _⟩

end SkosArchive
