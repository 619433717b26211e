import SkosArchive.Proofs.Creation
import SkosArchive.Proofs.Growth

namespace SkosArchive

namespace CopyPlan

variable {p : CopyPlan}

theorem mem_owned {i : Iri} :
    i ∈ p.owned ↔ i = p.iri ∨ p.found.vocabulary.glossary = some i ∨
      p.found.vocabulary.document = some i ∨ ∃ term ∈ p.terms, term.iri = i := by
  simp only [owned, List.mem_append, List.mem_cons, Option.mem_toList, List.mem_map, or_assoc]

theorem iri_mem_owned (p : CopyPlan) : p.iri ∈ p.owned := mem_owned.mpr (.inl rfl)

end CopyPlan

namespace Cascade

variable {k : Cascade} {s t : Store} {p : CopyPlan} {q : Quad}

/-- `q` copies a quad of the vocabulary's context in `s` about what `p` owns. -/
def Copies (k : Cascade) (s : Store) (p : CopyPlan) (q : Quad) : Prop :=
  ∃ q₀, s.Reads q₀ ∧ q₀.graph = p.found.context ∧ q₀.subject ∈ p.owned ∧ q = k.copy p q₀

/-- `q` makes the vocabulary or one of its terms a snapshot. -/
def Tags (k : Cascade) (p : CopyPlan) (q : Quad) : Prop :=
  q ∈ k.tags p .vocabulary p.iri ∨ ∃ term ∈ p.terms, q ∈ k.tags p .term term.iri

theorem mem_graphQuads {source : List Quad} :
    q ∈ k.graphQuads p source ↔
      (∃ q₀ ∈ source, q₀.subject ∈ p.owned ∧ q = k.copy p q₀) ∨ k.Tags p q := by
  simp only [graphQuads, copied, Tags, List.mem_append, List.mem_flatMap, List.mem_map,
    List.mem_filter, decide_eq_true_eq, or_assoc, and_assoc]
  exact or_congr_left (exists_congr fun q₀ => and_congr_right fun _ =>
    and_congr_right fun _ => eq_comm)

theorem Copies.graph (h : k.Copies s p q) : q.graph = k.target p := by
  obtain ⟨q₀, -, -, -, rfl⟩ := h
  rfl

theorem graph_of_mem_tags {kind : SnapshotKind} {live : Iri} (h : q ∈ k.tags p kind live) :
    q.graph = k.target p := by
  simp only [tags, List.mem_cons, List.not_mem_nil, or_false] at h
  rcases h with rfl | rfl | rfl <;> rfl

theorem Tags.graph (h : k.Tags p q) : q.graph = k.target p := by
  rcases h with h | ⟨term, -, h⟩
  · exact graph_of_mem_tags h
  · exact graph_of_mem_tags h

theorem rename_of_mem {i : Iri} (h : i ∈ k.owned) : k.rename i = i.withSuffix k.suffix := if_pos h

theorem rename_of_not_mem {i : Iri} (h : i ∉ k.owned) : k.rename i = i := if_neg h

theorem mem_owned {i : Iri} : i ∈ k.owned ↔ ∃ p ∈ k.plans, i ∈ p.owned := List.mem_flatMap

theorem rename_of_owned (hp : p ∈ k.plans) {i : Iri} (h : i ∈ p.owned) :
    k.rename i = i.withSuffix k.suffix := rename_of_mem (mem_owned.mpr ⟨p, hp, h⟩)

/-- `live` is what the plan makes a snapshot of, of the given kind. -/
def Versions (p : CopyPlan) (kind : SnapshotKind) (live : Iri) : Prop :=
  kind = .vocabulary ∧ live = p.iri ∨ kind = .term ∧ live ∈ p.terms.map VocabularyTerm.iri

theorem Versions.mem_owned {kind : SnapshotKind} {live : Iri} (h : Versions p kind live) :
    live ∈ p.owned := by
  rcases h with ⟨-, rfl⟩ | ⟨-, hterm⟩
  · exact p.iri_mem_owned
  · exact List.mem_append_right _ hterm

theorem tags_iff (hp : p ∈ k.plans) : k.Tags p q ↔ ∃ kind live, Versions p kind live ∧
    (q = ⟨live.withSuffix k.suffix, Names.type, .iri kind.type, k.target p⟩ ∨
      q = ⟨live.withSuffix k.suffix, Names.versionOf, .iri live, k.target p⟩ ∨
        q = ⟨live.withSuffix k.suffix, Names.created, .literal (.ofInstant k.created),
          k.target p⟩) := by
  have htags : ∀ kind live, live ∈ p.owned → (q ∈ k.tags p kind live ↔
      (q = ⟨live.withSuffix k.suffix, Names.type, .iri kind.type, k.target p⟩ ∨
        q = ⟨live.withSuffix k.suffix, Names.versionOf, .iri live, k.target p⟩ ∨
          q = ⟨live.withSuffix k.suffix, Names.created, .literal (.ofInstant k.created),
            k.target p⟩)) := by
    intro kind live hlive
    simp only [tags, rename_of_owned hp hlive, List.mem_cons,
      List.not_mem_nil, or_false]
  constructor
  · rintro (h | ⟨term, hterm, h⟩)
    · exact ⟨.vocabulary, p.iri, .inl ⟨rfl, rfl⟩,
        (htags _ _ p.iri_mem_owned).mp h⟩
    · have hlive := List.mem_map_of_mem (f := VocabularyTerm.iri) hterm
      exact ⟨.term, term.iri, .inr ⟨rfl, hlive⟩,
        (htags _ _ (List.mem_append_right _ hlive)).mp h⟩
  · rintro ⟨kind, live, ⟨rfl, rfl⟩ | ⟨rfl, hlive⟩, h⟩
    · exact .inl ((htags _ _ p.iri_mem_owned).mpr h)
    · obtain ⟨term, hterm, rfl⟩ := List.mem_map.mp hlive
      exact .inr ⟨term, hterm, (htags _ _ (List.mem_append_right _ hlive)).mpr h⟩

/-- What a tag says of a new name: the resource that had the name before, or the
time of the cascade. -/
theorem Tags.object (hp : p ∈ k.plans) (h : k.Tags p q) {i : Iri}
    (hi : q.subject = i.withSuffix k.suffix) :
    (q.predicate = Names.versionOf → q.object = .iri i) ∧
      (q.predicate = Names.created → q.object = .literal (.ofInstant k.created)) := by
  have htypeVersion : Names.type ≠ Names.versionOf := by decide
  have htypeCreated : Names.type ≠ Names.created := by decide
  have hversionCreated : Names.versionOf ≠ Names.created := by decide
  obtain ⟨kind, live, -, rfl | rfl | rfl⟩ := (tags_iff hp).mp h
  · exact ⟨fun hp => absurd hp htypeVersion, fun hp => absurd hp htypeCreated⟩
  · obtain rfl := Iri.withSuffix_inj hi
    exact ⟨fun _ => rfl, fun hp => absurd hp hversionCreated⟩
  · exact ⟨fun hp => absurd hp hversionCreated.symm, fun _ => rfl⟩

theorem Copies.normal (h : k.Copies s p q) : q.normal = q := by
  obtain ⟨q₀, hreads, -, -, rfl⟩ := h
  have hnormal : q₀.object.normal = q₀.object :=
    congrArg Quad.object (Store.normal_of_reads hreads)
  have hobject : (k.renameTerm q₀.object).normal = k.renameTerm q₀.object := by
    cases ho : q₀.object with
    | iri i => rfl
    | literal l => rwa [ho] at hnormal
  simp only [Quad.normal, copy, hobject]

theorem normal_of_mem_tags {kind : SnapshotKind} {live : Iri} (h : q ∈ k.tags p kind live) :
    q.normal = q := by
  simp only [tags, List.mem_cons, List.not_mem_nil, or_false] at h
  rcases h with rfl | rfl | rfl
  · rfl
  · rfl
  · have hdatatype : Names.dateTime.text ≠ "" := by decide
    simp [Quad.normal, Term.normal, Literal.normal, Literal.ofInstant, Option.filter, hdatatype]

theorem Tags.normal (h : k.Tags p q) : q.normal = q := by
  rcases h with h | ⟨term, -, h⟩
  · exact normal_of_mem_tags h
  · exact normal_of_mem_tags h

/-- The predicates of what makes a copy a snapshot. -/
def tagPredicates : List Iri := [Names.type, Names.versionOf, Names.created]

theorem Tags.predicate (h : k.Tags p q) : q.predicate ∈ tagPredicates := by
  have htags : ∀ kind live, q ∈ k.tags p kind live → q.predicate ∈ tagPredicates := by
    intro kind live h
    simp only [tags, List.mem_cons, List.not_mem_nil, or_false] at h
    rcases h with rfl | rfl | rfl <;> simp [tagPredicates]
  rcases h with h | ⟨term, -, h⟩
  · exact htags _ _ h
  · exact htags _ _ h

/-- What a creation that succeeds makes of the store: the targets are new, and
they hold the copies and the tags. -/
structure Written (k : Cascade) (s t : Store) : Prop where
  fresh : ∀ p ∈ k.plans, k.target p ∉ s.graphs
  sealed : t.sealed = s.sealed
  rows : ∀ r, r ∈ t.rows ↔
    r ∈ s.rows ∨ ∃ p ∈ k.plans, ∃ q, (k.Copies s p q ∨ k.Tags p q) ∧ r = .ofQuad q

namespace Written

theorem keeps (h : k.Written s t) {r : Row} (hr : r ∈ s.rows) : r ∈ t.rows :=
  (h.rows r).mpr (.inl hr)

theorem of_new (h : k.Written s t) {r : Row} (hr : r ∈ t.rows) (hs : r ∉ s.rows) :
    ∃ p ∈ k.plans, ∃ q, (k.Copies s p q ∨ k.Tags p q) ∧ r = .ofQuad q :=
  ((h.rows r).mp hr).resolve_left hs

theorem reads_iff (h : k.Written s t) :
    t.Reads q ↔ s.Reads q ∨ ∃ p ∈ k.plans, k.Copies s p q ∨ k.Tags p q := by
  constructor
  · rintro ⟨r, hr, hrq⟩
    rcases (h.rows r).mp hr with hs | ⟨p, hp, q', hq', rfl⟩
    · exact .inl ⟨r, hs, hrq⟩
    · rw [Row.toQuad_ofQuad, hq'.elim Copies.normal Tags.normal] at hrq
      cases hrq
      exact .inr ⟨p, hp, hq'⟩
  · rintro (⟨r, hr, hrq⟩ | ⟨p, hp, hq⟩)
    · exact ⟨r, h.keeps hr, hrq⟩
    · refine ⟨.ofQuad q, (h.rows _).mpr (.inr ⟨p, hp, q, hq, rfl⟩), ?_⟩
      rw [Row.toQuad_ofQuad, hq.elim Copies.normal Tags.normal]

theorem regular (h : k.Written s t) (hs : s.Regular) : t.Regular := by
  intro r hr
  rcases (h.rows r).mp hr with hr | ⟨_, _, q, _, rfl⟩
  · exact hs r hr
  · exact Row.regular_ofQuad q

/-- The rows of a target are those of its plan. -/
theorem of_mem_target (h : k.Written s t) (hp : p ∈ k.plans)
    {r : Row} (hr : r ∈ t.rows) (hg : r.graph = k.target p) :
    ∃ p' ∈ k.plans, p'.iri = p.iri ∧ ∃ q, (k.Copies s p' q ∨ k.Tags p' q) ∧ r = .ofQuad q := by
  have hs : r ∉ s.rows := fun hs => h.fresh p hp (Store.mem_graphs.mpr ⟨r, hs, hg⟩)
  obtain ⟨p', hp', q, hq, rfl⟩ := h.of_new hr hs
  have htarget : k.target p' = k.target p := (hq.elim Copies.graph Tags.graph).symm.trans hg
  exact ⟨p', hp', Iri.withSuffix_inj htarget, q, hq, rfl⟩

theorem graph_of_new (h : k.Written s t) {r : Row} (hr : r ∈ t.rows) (hs : r ∉ s.rows) :
    ∃ p ∈ k.plans, r.graph = k.target p := by
  obtain ⟨p, hp, q, hq, rfl⟩ := h.of_new hr hs
  exact ⟨p, hp, hq.elim Copies.graph Tags.graph⟩

/-- What is written about a resource stands in the target of a plan that owns
it. -/
theorem owner_of_new (h : k.Written s t) {r : Row} (hr : r ∈ t.rows) (hs : r ∉ s.rows) :
    ∃ p ∈ k.plans, r.graph = k.target p ∧ ∃ u ∈ p.owned, r.subject = u.withSuffix k.suffix := by
  obtain ⟨p, hp, q, hq, rfl⟩ := h.of_new hr hs
  refine ⟨p, hp, hq.elim Copies.graph Tags.graph, ?_⟩
  rcases hq with ⟨q₀, -, -, howned, rfl⟩ | htag
  · exact ⟨q₀.subject, howned, rename_of_owned hp howned⟩
  · obtain ⟨kind, live, hversions, rfl | rfl | rfl⟩ := (tags_iff hp).mp htag <;>
      exact ⟨live, hversions.mem_owned, rfl⟩

theorem target_mem_graphs (h : k.Written s t) (hp : p ∈ k.plans) : k.target p ∈ t.graphs := by
  have htag : k.Tags p ⟨k.rename p.iri, Names.type, .iri Names.vocabularySnapshot, k.target p⟩ :=
    .inl List.mem_cons_self
  exact Store.mem_graphs.mpr ⟨_, (h.rows _).mpr (.inr ⟨p, hp, _, .inr htag, rfl⟩), rfl⟩

theorem mem_graphs (h : k.Written s t) {g : Iri} :
    g ∈ t.graphs ↔ g ∈ s.graphs ∨ ∃ p ∈ k.plans, g = k.target p := by
  constructor
  · intro hg
    obtain ⟨r, hr, rfl⟩ := Store.mem_graphs.mp hg
    by_cases hs : r ∈ s.rows
    · exact .inl (Store.mem_graphs.mpr ⟨r, hs, rfl⟩)
    · exact .inr (h.graph_of_new hr hs)
  · rintro (hg | ⟨p, hp, rfl⟩)
    · obtain ⟨r, hr, rfl⟩ := Store.mem_graphs.mp hg
      exact Store.mem_graphs.mpr ⟨r, h.keeps hr, rfl⟩
    · exact h.target_mem_graphs hp

end Written

/-- What the cascade owns has no glossaries but those of the vocabularies of the
cascade. -/
def ClosesGlossaries (k : Cascade) (s : Store) : Prop :=
  ∀ q i, s.Reads q → q.subject ∈ k.owned → q.predicate = Names.hasGlossary →
    q.object = .iri i → ∃ p ∈ k.plans, p.found.vocabulary.glossary = some i

theorem ClosesGlossaries.of_rows
    (h : ∀ r ∈ s.rows.toList, r.subject ∈ k.owned → r.predicate = Names.hasGlossary →
      some ⟨r.object⟩ ∈ k.plans.map fun p => p.found.vocabulary.glossary) :
    k.ClosesGlossaries s := by
  rintro q i ⟨r, hr, hrq⟩ hu hp hi
  rw [Row.subject_of_toQuad hrq] at hu
  rw [Row.predicate_of_toQuad hrq] at hp
  have hmem := h r hr hu hp
  rw [(Row.object_of_toQuad hrq hi).2] at hmem
  exact List.mem_map.mp hmem

theorem mem_owned_of_glossary (hp : p ∈ k.plans) {i : Iri}
    (h : p.found.vocabulary.glossary = some i) : i ∈ k.owned :=
  mem_owned.mpr ⟨p, hp, by simp [CopyPlan.owned, h]⟩

/-- A copied statement on a glossary names one with the suffix. -/
theorem Copies.glossary (hs : k.ClosesGlossaries s) (hp : p ∈ k.plans) (h : k.Copies s p q)
    (hpredicate : q.predicate = Names.hasGlossary) {i : Iri} (hi : q.object = .iri i) :
    i.EndsWith k.suffix := by
  obtain ⟨q₀, hreads, -, howned, rfl⟩ := h
  change k.renameTerm q₀.object = .iri i at hi
  cases ho : q₀.object with
  | literal l =>
      rw [ho] at hi
      cases hi
  | iri j =>
      rw [ho] at hi
      cases hi
      obtain ⟨p', hp', hglossary⟩ :=
        hs q₀ j hreads (mem_owned.mpr ⟨p, hp, howned⟩) hpredicate ho
      rw [rename_of_mem (mem_owned_of_glossary hp' hglossary)]
      exact Iri.endsWith_withSuffix _ _

/-- What a creation adds lies beyond all that is read on behalf of names
without the suffix. -/
theorem Written.grows_of_avoids (h : k.Written s t) (havoids : s.Avoids k.suffix)
    (hs : k.ClosesGlossaries s) : s.Grows k.suffix t where
  avoids := havoids
  keeps _ := h.keeps
  graph r hr hnew := by
    obtain ⟨p, -, hg⟩ := h.graph_of_new hr hnew
    rw [hg]
    exact Iri.endsWith_withSuffix _ _
  subject r hr hnew := by
    obtain ⟨p, -, -, u, -, hsubject⟩ := h.owner_of_new hr hnew
    rw [hsubject]
    exact Iri.endsWith_withSuffix _ _
  glossary r hr hnew hpredicate hkind := by
    obtain ⟨p, hp, q, hq | hq, rfl⟩ := h.of_new hr hnew
    · obtain ⟨o, ho, ⟨-, hi⟩ | ⟨hliteral, -⟩⟩ := Row.toQuad_eq_ok (Row.toQuad_ofQuad q)
      · refine hq.glossary hs hp hpredicate ?_
        rw [← congrArg Quad.object hq.normal]
        exact (congrArg Quad.object ho).trans hi
      · rw [hkind] at hliteral
        exact absurd hliteral (by decide)
    · have htag : (Row.ofQuad q).predicate ∈ tagPredicates := hq.predicate
      rw [hpredicate] at htag
      exact absurd htag (by decide)

end Cascade

theorem Connection.mem_graph {c : Connection} {g : Iri} {quads : List Quad} {q : Quad}
    (h : c.quads { graph := some g } = .ok quads) :
    q ∈ quads ↔ c.store.Reads q ∧ q.graph = g := by
  rw [quads_eq_ok rfl rfl h, Store.mem_quads_graph]

namespace Catalogue

variable {c : Catalogue}

theorem written_of_cascadeQuads {k : Cascade} {quads : List Quad} {t : Store}
    (hfresh : ∀ p ∈ k.plans, k.target p ∉ c.connection.store.graphs)
    (hquads : c.cascadeQuads k k.plans = .ok quads)
    (ht : c.connection.store.insert quads = .ok t) : k.Written c.connection.store t where
  fresh := hfresh
  sealed := Store.sealed_insert ht
  rows r := by
    rw [Store.mem_rows_insert ht]
    refine or_congr_right ⟨?_, ?_⟩
    · rintro ⟨q, hq, rfl⟩
      obtain ⟨p, hp, source, hsource, hq⟩ := (mem_cascadeQuads hquads).mp hq
      refine ⟨p, hp, q, (Cascade.mem_graphQuads.mp hq).imp_left ?_, rfl⟩
      rintro ⟨q₀, hq₀, howned, rfl⟩
      obtain ⟨hreads, hg⟩ := (Connection.mem_graph hsource).mp hq₀
      exact ⟨q₀, hreads, hg, howned, rfl⟩
    · rintro ⟨p, hp, q, hq, rfl⟩
      obtain ⟨source, hsource⟩ := exists_source hquads hp
      refine ⟨q, (mem_cascadeQuads hquads).mpr ⟨p, hp, source, hsource,
        Cascade.mem_graphQuads.mpr (hq.imp_left ?_)⟩, rfl⟩
      rintro ⟨q₀, hreads, hg, howned, rfl⟩
      exact ⟨q₀, (Connection.mem_graph hsource).mpr ⟨hreads, hg⟩, howned, rfl⟩

/-- A plan is determined by the name of its vocabulary. -/
theorem plan_ext {resolver : Resolver} {config : SnapshotConfig} {now : Instant} {v : Iri}
    {k : Cascade} (hk : c.cascade resolver config now v = .ok k) {p p' : CopyPlan}
    (hp : p ∈ k.plans) (hp' : p' ∈ k.plans) (h : p.iri = p'.iri) : p = p' := by
  obtain ⟨related, -, hplans, -⟩ := cascade_eq_ok hk
  exact plans_ext hplans hp hp' h

/-- What a creation that succeeds has gone through. -/
theorem createSnapshot_eq_ok {resolver : Resolver} {config : SnapshotConfig} {now : Instant}
    {v : Iri} {snapshot : Snapshot} {t : Store}
    (h : c.createSnapshot resolver config now v = .ok (snapshot, t)) :
    c.connection.isSnapshot v = .ok false ∧
      ∃ k, c.cascade resolver config now v = .ok k ∧ k.Written c.connection.store t ∧
        snapshot = ⟨v.withSuffix k.suffix, k.created, v, .vocabulary⟩ := by
  obtain ⟨quads, hquads, h⟩ := bind_eq_ok h
  obtain ⟨t, ht, h⟩ := bind_eq_ok h
  cases h
  replace ht := Connection.insert_eq_ok ht
  obtain ⟨isSnapshot, hsnapshot, hquads⟩ := bind_eq_ok hquads
  cases isSnapshot with
  | true => cases hquads
  | false =>
      obtain ⟨isDeclared, -, hquads⟩ := bind_eq_ok hquads
      cases isDeclared with
      | false => cases hquads
      | true =>
          obtain ⟨k, hk, hquads⟩ := bind_eq_ok hquads
          obtain ⟨⟨⟩, htargets, hquads⟩ := bind_eq_ok hquads
          obtain ⟨-, -, -, hcreated, hsuffix⟩ := cascade_eq_ok hk
          have hfresh := fresh_of_checkTargets htargets
          refine ⟨hsnapshot, k, hk, written_of_cascadeQuads hfresh hquads ht, ?_⟩
          rw [hcreated, hsuffix]

end Catalogue

end SkosArchive
