import SkosArchive.Proofs.Written

namespace SkosArchive

def Term.withoutSuffix (suffix : String) : Term → Term
  | .iri i => .iri (i.withoutSuffix suffix)
  | .literal l => .literal l

/-- The copied quad with the suffix taken off its subject and off an object that
is an IRI, moved to `context`. -/
def Quad.restored (suffix : String) (context : Iri) (q : Quad) : Quad where
  subject := q.subject.withoutSuffix suffix
  predicate := q.predicate
  object := q.object.withoutSuffix suffix
  graph := context

namespace Cascade

variable {k : Cascade} {s t : Store} {p : CopyPlan} {q q₀ : Quad}

theorem withoutSuffix_rename {i : Iri} (h : i ∉ k.owned → ¬ i.EndsWith k.suffix) :
    (k.rename i).withoutSuffix k.suffix = i := by
  by_cases hi : i ∈ k.owned
  · rw [rename_of_mem hi, Iri.withoutSuffix_withSuffix]
  · rw [rename_of_not_mem hi, Iri.withoutSuffix_of_not_endsWith (h hi)]

theorem restored_copy (hfree : ∀ i, q₀.Mentions i → ¬ i.EndsWith k.suffix) :
    (k.copy p q₀).restored k.suffix q₀.graph = q₀ := by
  obtain ⟨u, predicate, o, g⟩ := q₀
  have hsubject : (k.rename u).withoutSuffix k.suffix = u :=
    withoutSuffix_rename fun _ => hfree u (.inl rfl)
  have hobject : (k.renameTerm o).withoutSuffix k.suffix = o := by
    cases o with
    | iri i => exact congrArg Term.iri (withoutSuffix_rename fun _ => hfree i (.inr rfl))
    | literal l => rfl
  simp only [Quad.restored, copy, hsubject, hobject]

theorem rename_not_mem_owned {i : Iri} (howned : ∀ j ∈ k.owned, ¬ j.EndsWith k.suffix) :
    k.rename i ∉ k.owned := by
  by_cases hi : i ∈ k.owned
  · rw [rename_of_mem hi]
    exact fun h => howned _ h (Iri.endsWith_withSuffix i k.suffix)
  · rwa [rename_of_not_mem hi]

theorem not_mentions_copy (howned : ∀ j ∈ k.owned, ¬ j.EndsWith k.suffix) {i : Iri}
    (hi : i ∈ k.owned) : ¬ (k.copy p q₀).Mentions i := by
  rintro (rfl | h)
  · exact rename_not_mem_owned howned hi
  · cases ho : q₀.object with
    | iri j =>
        simp only [copy, ho, renameTerm, Term.iri.injEq] at h
        subst h
        exact rename_not_mem_owned howned hi
    | literal l => simp only [copy, ho, renameTerm, reduceCtorEq] at h

/-- No resource that the copied contexts mention has a name with the suffix. -/
def SuffixFree (k : Cascade) (s : Store) : Prop :=
  ∀ p ∈ k.plans, ∀ q, s.Reads q → q.graph = p.found.context →
    ∀ i, q.Mentions i → ¬ i.EndsWith k.suffix

theorem renameTerm_iri (k : Cascade) (i : Iri) : k.renameTerm (.iri i) = .iri (k.rename i) := rfl

theorem renameTerm_literal (k : Cascade) (l : Literal) :
    k.renameTerm (.literal l) = .literal l := rfl

theorem rename_of_none_owns {i : Iri} (h : ∀ p ∈ k.plans, i ∉ p.owned) : k.rename i = i := by
  refine rename_of_not_mem fun hi => ?_
  obtain ⟨p, hp, hi⟩ := mem_owned.mp hi
  exact h p hp hi

theorem suffixFree_of_avoids (h : s.Avoids k.suffix) : k.SuffixFree s := by
  rintro p - q ⟨r, hr, hrq⟩ - i hi
  obtain ⟨-, hsubject, -, hobject⟩ := h r hr
  rcases hi with rfl | hi
  · rwa [Row.subject_of_toQuad hrq]
  · obtain ⟨hkind, hi⟩ := Row.object_of_toQuad hrq hi
    rw [hi] at hobject
    exact hobject hkind

end Cascade

namespace Catalogue

variable {c : Catalogue}

theorem mentioned_of_mem_owned {p : CopyPlan} (hfind : c.find p.iri = .ok (some p.found))
    (hterms : c.terms p.found = .ok p.terms) {i : Iri} (hi : i ∈ p.owned) :
    ∃ q, c.connection.store.Reads q ∧ q.graph = p.found.context ∧ q.Mentions i := by
  obtain ⟨quads, hnil, hfound, hread⟩ := find_eq_some hfind
  have hobject : ∀ predicate, (Vocabulary.objectsOf quads predicate).findSome? Term.iri? = some i →
      ∃ q, c.connection.store.Reads q ∧ q.graph = p.found.context ∧ q.Mentions i := by
    intro predicate h
    obtain ⟨q, hq, -, hqi⟩ := Vocabulary.mem_of_findSome?_iri? h
    exact ⟨q, (hread q hq).1, (hread q hq).2.1, .inr hqi⟩
  rcases CopyPlan.mem_owned.mp hi with rfl | hglossary | hdocument | ⟨term, hterm, rfl⟩
  · obtain ⟨q, hq⟩ := List.exists_mem_of_ne_nil quads hnil
    obtain ⟨hreads, hg, hu⟩ := hread q hq
    exact ⟨q, hreads, hg, .inl hu⟩
  · refine hobject Names.hasGlossary ?_
    rwa [hfound] at hglossary
  · refine hobject Names.describesDocument ?_
    rwa [hfound] at hdocument
  · obtain ⟨glossary, -, hr⟩ := (mem_terms hterms).mp (List.mem_map_of_mem hterm)
    exact ⟨_, ⟨_, hr, Row.toQuad_ofQuad _⟩, rfl, .inl rfl⟩

end Catalogue

/-- The graph of `p` in `t` is a copy of what `s` says in the context of `p`
about what `p` owns: it holds the renamed description and the marks of the new
snapshots and nothing else, the description is regained from the copies, and
no copy mentions a renamed resource by its former name. -/
structure Cascade.CopiesFaithfully (k : Cascade) (s t : Store) (p : CopyPlan) : Prop where
  readable : ∀ r ∈ t.rows, r.graph = k.target p → ∃ q, r.toQuad = .ok q
  holds : ∀ q, t.Reads q ∧ q.graph = k.target p ↔
    (∃ q₀, s.Reads q₀ ∧ q₀.graph = p.found.context ∧ q₀.subject ∈ p.owned ∧
      q = ⟨k.rename q₀.subject, q₀.predicate, k.renameTerm q₀.object, k.target p⟩) ∨
    ∃ kind live, Versions p kind live ∧
      (q = ⟨live.withSuffix k.suffix, Names.type, .iri kind.type, k.target p⟩ ∨
        q = ⟨live.withSuffix k.suffix, Names.versionOf, .iri live, k.target p⟩ ∨
          q = ⟨live.withSuffix k.suffix, Names.created, .literal (.ofInstant k.created),
            k.target p⟩)
  regained : ∀ q₀, s.Reads q₀ ∧ q₀.graph = p.found.context ∧ q₀.subject ∈ p.owned ↔
    ∃ q, k.Copies s p q ∧ q.restored k.suffix p.found.context = q₀
  unmerged : ∀ q q', k.Copies s p q → k.Copies s p q' →
    q.restored k.suffix p.found.context = q'.restored k.suffix p.found.context → q = q'
  renamed : ∀ q, k.Copies s p q → ∀ i ∈ k.owned, ¬ q.Mentions i

namespace Cascade

variable {k : Cascade} {s t : Store} {p : CopyPlan}

theorem Written.reads_target (h : k.Written s t) (hp : p ∈ k.plans)
    (hext : ∀ p' ∈ k.plans, p'.iri = p.iri → p' = p) (q : Quad) :
    t.Reads q ∧ q.graph = k.target p ↔ k.Copies s p q ∨ k.Tags p q := by
  constructor
  · rintro ⟨⟨r, hr, hrq⟩, hg⟩
    rw [Row.graph_of_toQuad hrq] at hg
    obtain ⟨p', hp', hiri, q', hq', rfl⟩ := h.of_mem_target hp hr hg
    obtain rfl := hext p' hp' hiri
    rw [Row.toQuad_ofQuad, hq'.elim Copies.normal Tags.normal] at hrq
    cases hrq
    exact hq'
  · intro hq
    refine ⟨⟨.ofQuad q, (h.rows _).mpr (.inr ⟨p, hp, q, hq, rfl⟩), ?_⟩,
      hq.elim Copies.graph Tags.graph⟩
    rw [Row.toQuad_ofQuad, hq.elim Copies.normal Tags.normal]

theorem Written.copiesFaithfully (h : k.Written s t) (hp : p ∈ k.plans)
    (hext : ∀ p' ∈ k.plans, p'.iri = p.iri → p' = p) (hfree : k.SuffixFree s)
    (howned : ∀ i ∈ k.owned, ¬ i.EndsWith k.suffix) : k.CopiesFaithfully s t p := by
  have hrestored : ∀ q₀, s.Reads q₀ → q₀.graph = p.found.context →
      (k.copy p q₀).restored k.suffix p.found.context = q₀ := by
    intro q₀ hreads hg
    rw [← hg]
    exact restored_copy (hfree p hp q₀ hreads hg)
  refine ⟨fun r hr hg => ?_, fun q => ?_, fun q₀ => ⟨?_, ?_⟩, ?_, ?_⟩
  · obtain ⟨_, -, -, q, -, rfl⟩ := h.of_mem_target hp hr hg
    exact ⟨_, Row.toQuad_ofQuad q⟩
  · rw [h.reads_target hp hext, tags_iff hp]
    rfl
  · rintro ⟨hreads, hg, hu⟩
    exact ⟨_, ⟨q₀, hreads, hg, hu, rfl⟩, hrestored q₀ hreads hg⟩
  · rintro ⟨_, ⟨q₁, hreads, hg, hu, rfl⟩, rfl⟩
    rw [hrestored q₁ hreads hg]
    exact ⟨hreads, hg, hu⟩
  · rintro _ _ ⟨q₀, hreads, hg, -, rfl⟩ ⟨q₁, hreads', hg', -, rfl⟩ heq
    rw [hrestored q₀ hreads hg, hrestored q₁ hreads' hg'] at heq
    rw [heq]
  · rintro _ ⟨q₀, -, -, -, rfl⟩ i hi
    exact not_mentions_copy howned hi

end Cascade

/-- A creation that succeeds writes a faithful copy for every vocabulary of its
cascade, each read from the vocabulary's context, if no name that the copied
contexts mention ends with the suffix. A vocabulary owns itself, its glossary, its
document and its terms; the suffix is appended to every name that a vocabulary of
the cascade owns, and all else is copied as it is. -/
theorem createSnapshot_copiesFaithfully {c : Catalogue} {resolver : Resolver}
    {config : SnapshotConfig} {now : Instant} {v : Iri} {snapshot : Snapshot} {t : Store}
    (h : c.createSnapshot resolver config now v = .ok (snapshot, t)) :
    ∃ k, c.cascade resolver config now v = .ok k ∧ k.created = now.truncate ∧
      k.suffix = Snapshot.suffix config.separator now ∧
      (∀ p ∈ k.plans, ∀ i, i ∈ p.owned ↔ i = p.iri ∨ p.found.vocabulary.glossary = some i ∨
        p.found.vocabulary.document = some i ∨ ∃ term ∈ p.terms, term.iri = i) ∧
      (∀ i, (∃ p ∈ k.plans, i ∈ p.owned) → k.rename i = i.withSuffix k.suffix) ∧
      (∀ i, (∀ p ∈ k.plans, i ∉ p.owned) → k.rename i = i) ∧
      (∀ i, k.renameTerm (.iri i) = .iri (k.rename i)) ∧
      (∀ l, k.renameTerm (.literal l) = .literal l) ∧
      (k.SuffixFree c.connection.store → ∀ p ∈ k.plans,
        c.contextOf p.iri = .ok p.found.context ∧ c.find p.iri = .ok (some p.found) ∧
          c.terms p.found = .ok p.terms ∧ k.CopiesFaithfully c.connection.store t p) := by
  obtain ⟨-, k, hk, hwritten, -⟩ := Catalogue.createSnapshot_eq_ok h
  obtain ⟨related, -, hplans, hcreated, hsuffix⟩ := Catalogue.cascade_eq_ok hk
  refine ⟨k, hk, hcreated, hsuffix, fun p _ i => CopyPlan.mem_owned,
    fun i ⟨p, hp, hi⟩ => Cascade.rename_of_owned hp hi, fun i => Cascade.rename_of_none_owns,
    k.renameTerm_iri, k.renameTerm_literal, fun hfree p hp => ?_⟩
  have hread : ∀ p ∈ k.plans, c.find p.iri = .ok (some p.found) ∧ c.terms p.found = .ok p.terms :=
    fun p hp => ((Catalogue.of_plans_eq_ok hplans).2 p hp).2
  -- what a vocabulary owns is mentioned in its context, hence free of the suffix too
  have howned : ∀ i ∈ k.owned, ¬ i.EndsWith k.suffix := by
    intro i hi
    obtain ⟨p', hp', hi⟩ := Cascade.mem_owned.mp hi
    obtain ⟨hfind, hterms⟩ := hread p' hp'
    obtain ⟨q, hreads, hg, hmentions⟩ := Catalogue.mentioned_of_mem_owned hfind hterms hi
    exact hfree p' hp' q hreads hg i hmentions
  obtain ⟨hfind, hterms⟩ := hread p hp
  have hcontext : c.contextOf p.iri = .ok p.found.context := by
    obtain ⟨context, hcontext, ⟨ho, -⟩ | ⟨_, ho, -, hfound, -⟩⟩ := Catalogue.find_cases hfind
    · cases ho
    · cases ho
      rwa [hfound]
  exact ⟨hcontext, hfind, hterms,
    hwritten.copiesFaithfully hp (fun p' hp' => Catalogue.plan_ext hk hp' hp) hfree howned⟩

theorem createSnapshot_copiesFaithfully_linkedPair :
    ∃ (snapshot : Snapshot) (t : Store) (k : Cascade),
      ((Connection.reliable .linkedPair).catalogue .empty).createSnapshot .skos .standard
        ⟨1700000000, 0, by decide, by decide⟩ ⟨"v"⟩ = .ok (snapshot, t) ∧
      k.plans.map CopyPlan.iri = [⟨"v"⟩, ⟨"w"⟩] ∧ k.SuffixFree .linkedPair ∧
        ∀ p ∈ k.plans, k.CopiesFaithfully .linkedPair t p := by
  have hok : (((Connection.reliable .linkedPair).catalogue .empty).createSnapshot .skos .standard
      ⟨1700000000, 0, by decide, by decide⟩ ⟨"v"⟩).isOk = true := by
    decide +kernel
  have hplans : (((Connection.reliable .linkedPair).catalogue .empty).cascade .skos .standard
      ⟨1700000000, 0, by decide, by decide⟩ ⟨"v"⟩).map (fun k => k.plans.map CopyPlan.iri) =
        .ok [⟨"v"⟩, ⟨"w"⟩] := by
    decide +kernel
  obtain ⟨⟨snapshot, t⟩, h⟩ := exists_ok_of_isOk hok
  obtain ⟨k, hk, -, hsuffix, -, -, -, -, -, hcopies⟩ := createSnapshot_copiesFaithfully h
  have hfree : k.SuffixFree .linkedPair :=
    Cascade.suffixFree_of_avoids (by rw [hsuffix]; decide +kernel)
  rw [hk] at hplans
  exact ⟨snapshot, t, k, h, Except.ok.inj hplans, hfree,
    fun p hp => (hcopies hfree p hp).2.2.2⟩

end SkosArchive
