import SkosArchive.Proofs.RecursiveClosure

namespace SkosArchive

namespace RelationSet

variable {relations wider : RelationSet}

theorem follows_of_subset (hsub : ∀ p ∈ relations, p ∈ wider) {predicate : Iri}
    (h : relations.follows predicate = true) : wider.follows predicate = true := by
  obtain ⟨p, hp, hpredicate⟩ := List.any_eq_true.mp h
  exact List.any_eq_true.mpr ⟨p, hsub p hp, hpredicate⟩

theorem isEmpty_of_subset (hsub : ∀ p ∈ relations, p ∈ wider) (h : wider.isEmpty = true) :
    relations.isEmpty = true := by
  have hnone : wider.toList = [] := List.isEmpty_iff.mp h
  refine List.isEmpty_iff.mpr (List.eq_nil_iff_forall_not_mem.mpr fun p hp => ?_)
  have hwider : p ∈ wider.toList := hsub p hp
  rw [hnone] at hwider
  cases hwider

end RelationSet

namespace Store

variable {s : Store} {relations wider : RelationSet}

theorem Links.mono (hsub : ∀ p ∈ relations, p ∈ wider) {context resource target : Iri}
    (h : s.Links relations context resource target) : s.Links wider context resource target := by
  obtain ⟨predicate, hfollows, hreads⟩ := h
  exact ⟨predicate, RelationSet.follows_of_subset hsub hfollows, hreads⟩

theorem LinksOut.mono (hsub : ∀ p ∈ relations, p ∈ wider) {found : Located} {target : Iri}
    (h : s.LinksOut relations found target) : s.LinksOut wider found target := by
  obtain ⟨glossary, term, hglossary, hterm, hlinks⟩ := h
  exact ⟨glossary, term, hglossary, hterm, hlinks.mono hsub⟩

end Store

namespace Catalogue

variable {c : Catalogue} {relations wider : RelationSet} {u v w : Iri}

theorem LeadsTo.mono (hsub : ∀ p ∈ relations, p ∈ wider) (h : c.LeadsTo relations u w) :
    c.LeadsTo wider u w := by
  obtain ⟨found, hfound, himports | ⟨target, hlinks, howner⟩⟩ := h
  · exact ⟨found, hfound, .inl himports⟩
  · exact ⟨found, hfound, .inr ⟨target, hlinks.mono hsub, howner⟩⟩

theorem LeadsOn.mono (hsub : ∀ p ∈ relations, p ∈ wider) (h : c.LeadsOn relations u w) :
    c.LeadsOn wider u w :=
  Relation.ReflTransGen.mono (fun _ _ => LeadsTo.mono hsub) _ _ h

theorem exists_linkedFrom {context term : Iri} {targets : List Iri}
    (h : c.linkedFrom wider context term = .ok targets) (relations : RelationSet) :
    ∃ targets, c.linkedFrom relations context term = .ok targets := by
  obtain ⟨quads, hquads, -⟩ := bind_eq_ok h
  rw [linkedFrom, hquads, ok_bind]
  exact ⟨_, rfl⟩

/-- To follow fewer links takes no look-up that following more of them does not
take. -/
theorem exists_mappedFrom (hsub : ∀ p ∈ relations, p ∈ wider) {context : Iri}
    {terms : List VocabularyTerm} {owners : List Iri}
    (h : c.mappedFrom wider context terms = .ok owners) :
    ∃ owners, c.mappedFrom relations context terms = .ok owners := by
  induction terms generalizing owners with
  | nil => exact ⟨[], rfl⟩
  | cons term terms ih =>
      obtain ⟨all, hall, h⟩ := bind_eq_ok h
      obtain ⟨allOwners, hallOwners, h⟩ := bind_eq_ok h
      obtain ⟨rest, hrest, -⟩ := bind_eq_ok h
      obtain ⟨targets, htargets⟩ := exists_linkedFrom hall relations
      have hlookup : ∀ target ∈ targets, ∃ o, c.connection.vocabularyOfTerm target = .ok o := by
        intro target htarget
        have hlinks := ((linkedFrom_eq_ok htargets).mp htarget).mono hsub
        exact (Connection.owners_eq_ok hallOwners).2 target ((linkedFrom_eq_ok hall).mpr hlinks)
      obtain ⟨first, hfirst⟩ := (Connection.owners_succeed hlookup).exists_ok
      obtain ⟨others, hothers⟩ := ih hrest
      rw [mappedFrom, htargets, ok_bind, hfirst, ok_bind, hothers]
      exact ⟨_, rfl⟩

theorem exists_neighbourhood (hsub : ∀ p ∈ relations, p ∈ wider) {l : List Iri}
    (h : c.neighbours wider u = .ok l) : ∃ next, c.neighbourhood relations u = .ok next := by
  obtain ⟨all, hall, -⟩ := bind_eq_ok h
  obtain ⟨o, ho, hall⟩ := bind_eq_ok hall
  rw [neighbourhood, ho, ok_bind]
  cases o with
  | none => exact ⟨_, rfl⟩
  | some found =>
      by_cases hempty : relations.isEmpty = true
      · simp only [hempty, if_true]
        exact ⟨_, rfl⟩
      · have hwider : ¬ wider.isEmpty = true :=
          fun h => hempty (RelationSet.isEmpty_of_subset hsub h)
        simp only [hwider] at hall
        obtain ⟨terms, hterms, hall⟩ := bind_eq_ok hall
        obtain ⟨owners, howners, -⟩ := bind_eq_ok hall
        obtain ⟨fewer, hfewer⟩ := exists_mappedFrom hsub howners
        simp only [hempty, hterms, ok_bind, hfewer]
        exact ⟨_, rfl⟩

theorem exists_recursiveRelated_of_wider (hsub : ∀ p ∈ relations, p ∈ wider) {all : IriSet}
    (h : c.recursiveRelated wider v = .ok all) (hu : c.LeadsOn relations v u) :
    ∃ related, c.recursiveRelated relations u = .ok related := by
  refine exists_recursiveRelated fun y hy => ?_
  have hleads : c.LeadsOn wider v y := LeadsOn.mono hsub (hu.trans (leadsOn_of_reachable hy))
  have hall : y ∈ all := ((recursiveRelated_leadsOn h).1 y).mpr hleads
  obtain ⟨l, hl⟩ := (recursiveRelated_eq_ok h).2 y hall
  obtain ⟨next, hnext⟩ := exists_neighbourhood hsub hl
  rw [neighbours, hnext]
  exact ⟨_, rfl⟩

/-- Where the recursive search over some properties succeeds, so do the one over
fewer properties, the single hop over these, and the search that sets out from
anything found. A hop finds no more than the search, which finds no more than over
more properties; what sets out from something found leaves nothing found before.
No other lookups are made than in the search that is known to succeed, so nothing
need be said about calls that fail. -/
theorem related_ordered (hsub : ∀ p ∈ relations, p ∈ wider) {all : IriSet}
    (hall : c.related .recursive wider v = .ok all) :
    ∃ hop related, c.related .skos relations v = .ok hop ∧
      c.related .recursive relations v = .ok related ∧
      v ∈ hop ∧ (∀ y ∈ hop, y ∈ related) ∧ (∀ y ∈ related, y ∈ all) ∧
      ∀ u ∈ related, ∃ inner, c.related .recursive relations u = .ok inner ∧ u ∈ inner ∧
        ∀ y ∈ inner, y ∈ related := by
  obtain ⟨related, hrelated⟩ := exists_recursiveRelated_of_wider hsub hall .refl
  have hmem := (recursiveRelated_leadsOn hrelated).1
  have hself : v ∈ related := (hmem v).mpr .refl
  obtain ⟨l, hl⟩ := (recursiveRelated_eq_ok hrelated).2 v hself
  obtain ⟨next, hnext, hlist⟩ := bind_eq_ok hl
  have hhop : c.related .skos relations v = .ok (next.mapped.insert v) := by
    rw [Catalogue.related, skosRelated, hnext]
    rfl
  refine ⟨next.mapped.insert v, related, hhop, hrelated, mem_related_self hhop, ?_, ?_, ?_⟩
  · intro y hy
    rcases Ascending.mem_insert.mp hy with rfl | hy
    · exact hself
    · have hneighbour : y ∈ l := by
        cases hlist
        exact List.mem_append_left _ hy
      exact (hmem y).mpr (.single (leadsTo_of_mem_neighbours hl hneighbour))
  · intro y hy
    exact ((recursiveRelated_leadsOn hall).1 y).mpr (LeadsOn.mono hsub ((hmem y).mp hy))
  · intro u hu
    obtain ⟨inner, hinner⟩ := exists_recursiveRelated_of_wider hsub hall ((hmem u).mp hu)
    have hinner' : c.related .recursive relations u = .ok inner := hinner
    refine ⟨inner, hinner', mem_related_self hinner', fun y hy => ?_⟩
    have hleads := ((recursiveRelated_leadsOn hinner).1 y).mp hy
    exact (hmem y).mpr (((hmem u).mp hu).trans hleads)

end Catalogue

/-- A term of `v` matches one of `w` exactly, which has one of `x` above it; `w`
imports `y`. -/
def Store.linkedChain : Store :=
  ofQuads [⟨⟨"v"⟩, Names.type, .iri Names.vocabulary, ⟨"v"⟩⟩,
    ⟨⟨"v"⟩, Names.hasGlossary, .iri ⟨"v/glossary"⟩, ⟨"v"⟩⟩,
    ⟨⟨"v/term"⟩, Names.inScheme, .iri ⟨"v/glossary"⟩, ⟨"v"⟩⟩,
    ⟨⟨"v/term"⟩, SkosProperty.exactMatch.iri, .iri ⟨"w/term"⟩, ⟨"v"⟩⟩,
    ⟨⟨"w"⟩, Names.type, .iri Names.vocabulary, ⟨"w"⟩⟩,
    ⟨⟨"w"⟩, Names.hasGlossary, .iri ⟨"w/glossary"⟩, ⟨"w"⟩⟩,
    ⟨⟨"w"⟩, Names.importsVocabulary, .iri ⟨"y"⟩, ⟨"w"⟩⟩,
    ⟨⟨"w/term"⟩, Names.inScheme, .iri ⟨"w/glossary"⟩, ⟨"w"⟩⟩,
    ⟨⟨"w/term"⟩, SkosProperty.broader.iri, .iri ⟨"x/term"⟩, ⟨"w"⟩⟩,
    ⟨⟨"x"⟩, Names.type, .iri Names.vocabulary, ⟨"x"⟩⟩,
    ⟨⟨"x"⟩, Names.hasGlossary, .iri ⟨"x/glossary"⟩, ⟨"x"⟩⟩,
    ⟨⟨"x/term"⟩, Names.inScheme, .iri ⟨"x/glossary"⟩, ⟨"x"⟩⟩]

theorem Catalogue.related_ordered_linkedChain :
    ∃ (c : Catalogue) (wider : RelationSet) (hop related all inner : IriSet),
      (∀ p ∈ RelationSet.standard, p ∈ wider) ∧
      c.related .recursive wider ⟨"v"⟩ = .ok all ∧
      c.related .skos .standard ⟨"v"⟩ = .ok hop ∧
      c.related .recursive .standard ⟨"v"⟩ = .ok related ∧
      c.related .recursive .standard ⟨"w"⟩ = .ok inner ∧
      (∀ y ∈ hop, y ∈ related) ∧ (∀ y ∈ related, y ∈ all) ∧ (∀ y ∈ inner, y ∈ related) ∧
      ⟨"y"⟩ ∉ hop ∧ ⟨"x"⟩ ∉ related ∧ ⟨"v"⟩ ∉ inner := by
  let c : Catalogue := (Connection.reliable .linkedChain).catalogue .empty
  let wider : RelationSet := Ascending.ofList SkosProperty.all
  have hsub : ∀ p ∈ RelationSet.standard, p ∈ wider := by
    intro p _
    exact Ascending.mem_ofList.mpr (by cases p <;> decide)
  have hall : c.related .recursive wider ⟨"v"⟩ =
      .ok (Ascending.ofList [⟨"v"⟩, ⟨"w"⟩, ⟨"x"⟩, ⟨"y"⟩]) := by
    decide +kernel
  have hhop : c.related .skos .standard ⟨"v"⟩ = .ok (Ascending.ofList [⟨"v"⟩, ⟨"w"⟩]) := by
    decide +kernel
  have hrelated : c.related .recursive .standard ⟨"v"⟩ =
      .ok (Ascending.ofList [⟨"v"⟩, ⟨"w"⟩, ⟨"y"⟩]) := by
    decide +kernel
  have hinner : c.related .recursive .standard ⟨"w"⟩ = .ok (Ascending.ofList [⟨"w"⟩, ⟨"y"⟩]) := by
    decide +kernel
  obtain ⟨hop, related, hhop', hrelated', -, hwithin, hwithin', hinside⟩ :=
    related_ordered hsub hall
  cases hhop.symm.trans hhop'
  cases hrelated.symm.trans hrelated'
  obtain ⟨inner, hinner', -, hkept⟩ := hinside ⟨"w"⟩ (by decide)
  cases hinner.symm.trans hinner'
  exact ⟨c, wider, _, _, _, _, hsub, hall, hhop, hrelated, hinner, hwithin, hwithin', hkept,
    by decide, by decide, by decide⟩

end SkosArchive
