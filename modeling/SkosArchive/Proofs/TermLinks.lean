import SkosArchive.Proofs.RecursiveClosure

namespace SkosArchive

namespace Store

/-- An active link of the graph leads from `a` to `b`. -/
def ActiveLink (s : Store) (linkGraph a b : Iri) : Prop :=
  ∃ node l, s.Reads ⟨node, Names.linkSource, .iri a, linkGraph⟩ ∧
    s.Reads ⟨node, Names.linkTarget, .iri b, linkGraph⟩ ∧
    s.Reads ⟨node, Names.linkActive, .literal l, linkGraph⟩ ∧ l.bool? = some true

/-- An active link of the graph leads from one of the two to the other. -/
def Joins (s : Store) (linkGraph a b : Iri) : Prop :=
  s.ActiveLink linkGraph a b ∨ s.ActiveLink linkGraph b a

theorem Joins.symm {s : Store} {linkGraph a b : Iri} (h : s.Joins linkGraph a b) :
    s.Joins linkGraph b a := Or.symm h

/-- No node of the graph states two sources, two targets or two activities. -/
def LinksOnce (s : Store) (linkGraph : Iri) : Prop :=
  ∀ predicate ∈ [Names.linkSource, Names.linkTarget, Names.linkActive], ∀ node o o',
    s.Reads ⟨node, predicate, o, linkGraph⟩ → s.Reads ⟨node, predicate, o', linkGraph⟩ → o = o'

theorem linksOnce_iff (s : Store) (linkGraph : Iri) :
    s.LinksOnce linkGraph ↔
      ∀ predicate ∈ [Names.linkSource, Names.linkTarget, Names.linkActive],
        ∀ q ∈ s.quads { graph := some linkGraph }, ∀ q' ∈ s.quads { graph := some linkGraph },
          q.predicate = predicate → q'.predicate = predicate → q.subject = q'.subject →
            q.object = q'.object := by
  simp only [mem_quads_graph]
  constructor
  · rintro h predicate hpredicate q ⟨hq, rfl⟩ q' ⟨hq', hg⟩ rfl hp hu
    refine h q.predicate hpredicate q.subject q.object q'.object hq ?_
    rw [hu, ← hp, ← hg]
    exact hq'
  · intro h predicate hpredicate node o o' ho ho'
    exact h predicate hpredicate _ ⟨ho, rfl⟩ _ ⟨ho', rfl⟩ rfl rfl rfl

instance (s : Store) (linkGraph : Iri) : Decidable (s.LinksOnce linkGraph) :=
  decidable_of_iff _ (s.linksOnce_iff linkGraph).symm

/-- What the rows of a predicate are about. -/
def subjectsOf (s : Store) (predicate : Iri) : List Iri :=
  (s.rows.toList.filter fun r => r.predicate = predicate).map Row.subject

theorem mem_subjectsOf {s : Store} {predicate i : Iri} :
    i ∈ s.subjectsOf predicate ↔ ∃ r ∈ s.rows, r.predicate = predicate ∧ r.subject = i := by
  simp only [subjectsOf, List.mem_map, List.mem_filter, decide_eq_true_eq, and_assoc]
  rfl

theorem mem_subjectsOf_of_reads {s : Store} {q : Quad} (h : s.Reads q) :
    q.subject ∈ s.subjectsOf q.predicate := by
  obtain ⟨r, hr, hq⟩ := h
  exact mem_subjectsOf.mpr
    ⟨r, hr, (Row.predicate_of_toQuad hq).symm, (Row.subject_of_toQuad hq).symm⟩

end Store

namespace Vocabulary

theorem getLast?_objectsOf {quads : List Quad} {predicate : Iri}
    (hone : ∀ a ∈ objectsOf quads predicate, ∀ b ∈ objectsOf quads predicate, a = b) {o : Term} :
    (objectsOf quads predicate).getLast? = some o ↔ o ∈ objectsOf quads predicate := by
  constructor
  · exact List.mem_of_getLast?
  · intro ho
    cases hlast : (objectsOf quads predicate).getLast? with
    | none =>
        rw [List.getLast?_eq_none_iff.mp hlast] at ho
        cases ho
    | some last => rw [hone last (List.mem_of_getLast? hlast) o ho]

end Vocabulary

namespace TermLink

section

variable {s : Store} {linkGraph : Iri} {quads : List Quad}
  (hquads : ∀ q, q ∈ quads ↔ s.Reads q ∧ q.graph = linkGraph) (honce : s.LinksOnce linkGraph)

include hquads

theorem mem_objectsOf_node {node predicate : Iri} {o : Term} :
    o ∈ Vocabulary.objectsOf (quads.filter fun q => q.subject = node) predicate ↔
      s.Reads ⟨node, predicate, o, linkGraph⟩ := by
  simp only [Vocabulary.mem_objectsOf, List.mem_filter, decide_eq_true_eq, hquads]
  constructor
  · rintro ⟨q, ⟨⟨hreads, rfl⟩, rfl⟩, rfl, rfl⟩
    exact hreads
  · exact fun hreads => ⟨_, ⟨⟨hreads, rfl⟩, rfl⟩, rfl, rfl⟩

include honce

theorem getLast?_objectsOf_node {node predicate : Iri}
    (hpredicate : predicate ∈ [Names.linkSource, Names.linkTarget, Names.linkActive]) {o : Term} :
    (Vocabulary.objectsOf (quads.filter fun q => q.subject = node) predicate).getLast? = some o ↔
      s.Reads ⟨node, predicate, o, linkGraph⟩ := by
  rw [Vocabulary.getLast?_objectsOf, mem_objectsOf_node hquads]
  intro a ha b hb
  rw [mem_objectsOf_node hquads] at ha hb
  exact honce predicate hpredicate node a b ha hb

theorem describe_eq_iff {node a b : Iri} :
    describe (quads.filter fun q => q.subject = node) = ⟨some a, some b, true⟩ ↔
      s.Reads ⟨node, Names.linkSource, .iri a, linkGraph⟩ ∧
        s.Reads ⟨node, Names.linkTarget, .iri b, linkGraph⟩ ∧
        ∃ l, s.Reads ⟨node, Names.linkActive, .literal l, linkGraph⟩ ∧ l.bool? = some true := by
  have hactive : ∀ o : Option Bool, o.getD false = true ↔ o = some true := by
    rintro (_ | b) <;> simp
  simp only [describe, mk.injEq, hactive, Option.bind_eq_some_iff,
    getLast?_objectsOf_node hquads honce, List.mem_cons, true_or, or_true, Term.iri?_eq_some,
    Term.literal?_eq_some, exists_eq_right]
  constructor
  · rintro ⟨hsource, htarget, o, hreads, l, rfl, hl⟩
    exact ⟨hsource, htarget, l, hreads, hl⟩
  · rintro ⟨hsource, htarget, l, hreads, hl⟩
    exact ⟨hsource, htarget, _, hreads, l, rfl, hl⟩

theorem mem_ofQuads_iff {a b : Iri} :
    ⟨some a, some b, true⟩ ∈ ofQuads quads ↔ s.ActiveLink linkGraph a b := by
  simp only [ofQuads, List.mem_map, describe_eq_iff hquads honce, Store.ActiveLink]
  constructor
  · rintro ⟨node, -, hsource, htarget, l, hl⟩
    exact ⟨node, l, hsource, htarget, hl⟩
  · rintro ⟨node, l, hsource, htarget, hl⟩
    refine ⟨node, Ascending.mem_ofList.mpr ?_, hsource, htarget, l, hl⟩
    exact List.mem_map.mpr ⟨_, (hquads _).mpr ⟨hsource, rfl⟩, rfl⟩

end

variable {s : Store} {linkGraph : Iri} {quads : List Quad}

theorem mem_outerEnds_iff (hquads : ∀ q, q ∈ quads ↔ s.Reads q ∧ q.graph = linkGraph)
    (honce : s.LinksOnce linkGraph) {terms : List Iri} {o : Iri} :
    o ∈ (ofQuads quads).filterMap (outerEnd? terms) ↔
      ∃ a, s.Joins linkGraph a o ∧ a ∈ terms ∧ o ∉ terms := by
  simp only [List.mem_filterMap, outerEnd?_eq_some]
  constructor
  · rintro ⟨link, hlink, ho, a, ha, rfl | rfl⟩
    · exact ⟨a, .inl ((mem_ofQuads_iff hquads honce).mp hlink), ha, ho⟩
    · exact ⟨a, .inr ((mem_ofQuads_iff hquads honce).mp hlink), ha, ho⟩
  · rintro ⟨a, hjoins | hjoins, ha, ho⟩
    · exact ⟨_, (mem_ofQuads_iff hquads honce).mpr hjoins, ho, a, ha, .inl rfl⟩
    · exact ⟨_, (mem_ofQuads_iff hquads honce).mpr hjoins, ho, a, ha, .inr rfl⟩

end TermLink

namespace Catalogue

/-- `t` stands in the glossary of `u`, both within the context of `u`. -/
def HasTerm (c : Catalogue) (u t : Iri) : Prop :=
  ∃ found glossary, c.find u = .ok (some found) ∧ found.vocabulary.glossary = some glossary ∧
    .ofQuad ⟨t, Names.inScheme, .iri glossary, found.context⟩ ∈ c.connection.store.rows

/-- The owner looked up over all graphs has the resource as a term, and nothing
else has. -/
def OwnsTerms (c : Catalogue) : Prop :=
  ∀ t u, c.connection.vocabularyOfTerm t = .ok (some u) ↔ c.HasTerm u t

/-- An active link joins a term of `v` to a resource of `w` that is no term of `v`. -/
def JoinsOut (c : Catalogue) (linkGraph v w : Iri) : Prop :=
  ∃ a o, c.connection.store.Joins linkGraph a o ∧ c.HasTerm v a ∧ ¬ c.HasTerm v o ∧
    c.connection.vocabularyOfTerm o = .ok (some w)

variable {c : Catalogue} {linkGraph v w : Iri}

theorem hasTerm_iff {found : Located} {terms : List VocabularyTerm} {t : Iri}
    (hfound : c.find v = .ok (some found)) (hterms : c.terms found = .ok terms) :
    c.HasTerm v t ↔ t ∈ terms.map VocabularyTerm.iri := by
  rw [mem_terms hterms, HasTerm]
  constructor
  · rintro ⟨found', glossary, hfound', h⟩
    rw [hfound] at hfound'
    cases hfound'
    exact ⟨glossary, h⟩
  · rintro ⟨glossary, h⟩
    exact ⟨found, glossary, hfound, h⟩

theorem not_hasTerm_of_find_none (h : c.find v = .ok none) (t : Iri) : ¬ c.HasTerm v t := by
  rintro ⟨found, glossary, hfound, -⟩
  rw [h] at hfound
  cases hfound

theorem mem_links {links : List TermLink} (h : c.links linkGraph = .ok links)
    (honce : c.connection.store.LinksOnce linkGraph) {terms : List Iri} {o : Iri} :
    o ∈ links.filterMap (TermLink.outerEnd? terms) ↔
      ∃ a, c.connection.store.Joins linkGraph a o ∧ a ∈ terms ∧ o ∉ terms := by
  obtain ⟨quads, hquads, h⟩ := bind_eq_ok h
  cases h
  rw [Connection.quads_eq_ok rfl rfl hquads]
  exact TermLink.mem_outerEnds_iff (fun q => Store.mem_quads_graph) honce

theorem linkRelated_eq_ok {related : IriSet} (h : c.linkRelated linkGraph v = .ok related)
    (honce : c.connection.store.LinksOnce linkGraph) :
    w ∈ related ↔ w = v ∨ c.JoinsOut linkGraph v w := by
  rcases linkRelated_cases h with ⟨hfind, rfl⟩ | ⟨found, terms, hfind, hterms, hcases⟩
  · have hnone : ¬ c.JoinsOut linkGraph v w := by
      rintro ⟨a, o, -, ha, -⟩
      exact not_hasTerm_of_find_none hfind a ha
    simp [Ascending.mem_ofList, hnone]
  · simp only [JoinsOut, hasTerm_iff hfind hterms]
    rcases hcases with ⟨hempty, rfl⟩ | ⟨links, owners, hlinks, howners, rfl⟩
    · simp [Ascending.mem_ofList, hempty]
    · rw [Ascending.mem_ofList, List.mem_cons, (Connection.owners_eq_ok howners).1]
      simp only [mem_links hlinks honce]
      refine or_congr_right ⟨?_, ?_⟩
      · rintro ⟨o, ⟨a, hjoins, ha, ho⟩, howner⟩
        exact ⟨a, o, hjoins, ha, ho, howner⟩
      · rintro ⟨a, o, hjoins, ha, ho, howner⟩
        exact ⟨o, ⟨a, hjoins, ha, ho⟩, howner⟩

instance (c : Catalogue) (u t : Iri) : Decidable (c.HasTerm u t) :=
  match hfind : c.find u with
  | .ok (some found) =>
    match hglossary : found.vocabulary.glossary with
    | some glossary =>
      decidable_of_iff (.ofQuad ⟨t, Names.inScheme, .iri glossary, found.context⟩ ∈
        c.connection.store.rows) (by simp [HasTerm, hfind, hglossary])
    | none => isFalse (by simp [HasTerm, hfind, hglossary])
  | .ok none => isFalse (by simp [HasTerm, hfind])
  | .error e => isFalse (by simp [HasTerm, hfind])

theorem subjects_of_hasTerm {u t : Iri} (h : c.HasTerm u t) :
    t ∈ c.connection.store.subjectsOf Names.inScheme ∧
      u ∈ c.connection.store.subjectsOf Names.hasGlossary := by
  obtain ⟨found, glossary, hfind, hglossary, hr⟩ := h
  refine ⟨Store.mem_subjectsOf.mpr ⟨_, hr, rfl, rfl⟩, ?_⟩
  obtain ⟨quads, -, hfound, hquads⟩ := find_eq_some hfind
  rw [hfound] at hglossary
  obtain ⟨q, hq, hpredicate, -⟩ := Vocabulary.mem_of_findSome?_iri? hglossary
  obtain ⟨hreads, -, hu⟩ := hquads q hq
  rw [← hpredicate, ← hu]
  exact Store.mem_subjectsOf_of_reads hreads

theorem subjects_of_vocabularyOfTerm {u t : Iri}
    (h : c.connection.vocabularyOfTerm t = .ok (some u)) :
    t ∈ c.connection.store.subjectsOf Names.inScheme ∧
      u ∈ c.connection.store.subjectsOf Names.hasGlossary := by
  obtain ⟨glossary, ⟨g, hreads⟩, g', hr⟩ := (Connection.vocabularyOfTerm_eq_ok h).1 u rfl
  exact ⟨Store.mem_subjectsOf_of_reads hreads, Store.mem_subjectsOf.mpr ⟨_, hr, rfl, rfl⟩⟩

theorem ownsTerms_iff (c : Catalogue) :
    c.OwnsTerms ↔ ∀ t ∈ c.connection.store.subjectsOf Names.inScheme,
      ∀ u ∈ c.connection.store.subjectsOf Names.hasGlossary,
        (c.connection.vocabularyOfTerm t = .ok (some u) ↔ c.HasTerm u t) := by
  constructor
  · exact fun h t _ u _ => h t u
  · intro h t u
    constructor
    · intro howner
      obtain ⟨ht, hu⟩ := subjects_of_vocabularyOfTerm howner
      exact (h t ht u hu).mp howner
    · intro hterm
      obtain ⟨ht, hu⟩ := subjects_of_hasTerm hterm
      exact (h t ht u hu).mpr hterm

instance (c : Catalogue) : Decidable c.OwnsTerms := decidable_of_iff _ c.ownsTerms_iff.symm

theorem JoinsOut.symm (howns : c.OwnsTerms) (h : c.JoinsOut linkGraph v w) (hne : w ≠ v) :
    c.JoinsOut linkGraph w v := by
  obtain ⟨a, o, hjoins, ha, -, howner⟩ := h
  -- the other end of the link is a term of `w`, and the own end is none, as `v` owns it
  have hav := (howns a v).mpr ha
  refine ⟨o, a, hjoins.symm, (howns o w).mp howner, ?_, hav⟩
  intro haw
  rw [← howns, hav] at haw
  cases haw
  exact hne rfl

theorem contextOf_of_hasTerm {u t : Iri} (h : c.HasTerm u t) :
    ∃ context, c.contextOf u = .ok context := by
  obtain ⟨found, -, hfind, -⟩ := h
  exact ⟨found.context, contextOf_of_find hfind⟩

theorem linkRelated_failsWith_of_readable {s : Store} {arrival : Row → Nat}
    {contextOf : Iri → Except Error Iri} (hs : s.Readable) (linkGraph v : Iri) :
    FailsWith (fun e => contextOf v = .error e)
      ((Catalogue.mk (.reliable s arrival) contextOf).linkRelated linkGraph v) := by
  apply linkRelated_failsWith_of_calls
  · exact find_failsWith_of_readable hs v
  · intro found
    rw [terms, Connection.termsAt]
    split
    · exact FailsWith.ok []
    · exact ((Connection.quads_succeed hs rfl).mono fun _ he => he.elim).bind
        fun quads _ => FailsWith.ok _
  · exact ((Connection.quads_succeed hs rfl).mono fun _ he => he.elim).bind
      fun quads _ => FailsWith.ok _
  · have howner : ∀ target, ∃ o,
        (Connection.reliable s arrival).vocabularyOfTerm target = .ok o :=
      fun target => Connection.exists_vocabularyOfTerm fun r hr _ _ => hs r hr
    exact fun resources => (Connection.owners_succeed fun target _ => howner target).mono
      fun _ he => he.elim

/-- Over a link graph a vocabulary is related to itself and to the owners of what
active links, read in either direction, join to its terms from outside; which
properties are followed does not matter. Where the owner looked up for a resource
is the vocabulary that has it as a term, the relation is symmetric. What is linked
to a vocabulary with a context is always found where no call fails and every row
can be read. -/
theorem externalLink_oneLayer (c : Catalogue) {linkGraph : Iri}
    (honce : c.connection.store.LinksOnce linkGraph) :
    (∀ relations v related, c.related (.externalLink linkGraph) relations v = .ok related →
      (∀ relations', c.related (.externalLink linkGraph) relations' v = .ok related) ∧
        ∀ w, w ∈ related ↔ w = v ∨ c.JoinsOut linkGraph v w) ∧
    (c.OwnsTerms → ∀ relations v related,
      c.related (.externalLink linkGraph) relations v = .ok related → ∀ w,
        (w ∈ related → ∃ context, c.contextOf w = .ok context) ∧
          ∀ relations' related', c.related (.externalLink linkGraph) relations' w = .ok related' →
            (w ∈ related ↔ v ∈ related')) ∧
    (c.connection = .reliable c.connection.store c.connection.service.arrival →
      c.connection.store.Readable → ∀ relations v context, c.contextOf v = .ok context →
        ∃ related, c.related (.externalLink linkGraph) relations v = .ok related) := by
  refine ⟨fun relations v related h => ⟨fun _ => h, fun w => linkRelated_eq_ok h honce⟩, ?_, ?_⟩
  · intro howns relations v related h w
    rw [linkRelated_eq_ok h honce]
    refine ⟨?_, fun relations' related' h' => ?_⟩
    · rintro (rfl | ⟨a, o, -, -, -, howner⟩)
      · obtain ⟨o, hfind, -⟩ := bind_eq_ok h
        obtain ⟨context, hcontext, -⟩ := find_cases hfind
        exact ⟨context, hcontext⟩
      · exact contextOf_of_hasTerm ((howns o w).mp howner)
    · rw [linkRelated_eq_ok h' honce]
      by_cases hne : w = v
      · simp [hne]
      · simp only [hne, Ne.symm hne, false_or]
        exact ⟨fun hjoins => hjoins.symm howns hne, fun hjoins => hjoins.symm howns (Ne.symm hne)⟩
  · intro hcalls hread relations v context hcontext
    obtain ⟨connection, contextOf⟩ := c
    dsimp only at hcalls hread hcontext
    rw [hcalls]
    have hfails : FailsWith (fun e => contextOf v = .error e)
        ((Catalogue.mk (.reliable connection.store connection.service.arrival)
          contextOf).linkRelated linkGraph v) :=
      linkRelated_failsWith_of_readable hread linkGraph v
    refine FailsWith.exists_ok (hfails.mono fun e he => ?_)
    rw [hcontext] at he
    cases he

theorem externalLink_oneLayer_linkedPair :
    let s := Store.ofQuads
      [⟨⟨"v"⟩, Names.type, .iri Names.vocabulary, ⟨"v"⟩⟩,
        ⟨⟨"v"⟩, Names.hasGlossary, .iri ⟨"v/glossary"⟩, ⟨"v"⟩⟩,
        ⟨⟨"v/term"⟩, Names.inScheme, .iri ⟨"v/glossary"⟩, ⟨"v"⟩⟩,
        ⟨⟨"w"⟩, Names.type, .iri Names.vocabulary, ⟨"w"⟩⟩,
        ⟨⟨"w"⟩, Names.hasGlossary, .iri ⟨"w/glossary"⟩, ⟨"w"⟩⟩,
        ⟨⟨"w/term"⟩, Names.inScheme, .iri ⟨"w/glossary"⟩, ⟨"w"⟩⟩,
        ⟨⟨"link"⟩, Names.linkSource, .iri ⟨"w/term"⟩, ⟨"links"⟩⟩,
        ⟨⟨"link"⟩, Names.linkTarget, .iri ⟨"v/term"⟩, ⟨"links"⟩⟩,
        ⟨⟨"link"⟩, Names.linkActive, .literal ⟨"true", none, none⟩, ⟨"links"⟩⟩]
    let c := (Connection.reliable s).catalogue .empty
    s.LinksOnce ⟨"links"⟩ ∧ c.OwnsTerms ∧ ∃ related related',
      c.related (.externalLink ⟨"links"⟩) .standard ⟨"v"⟩ = .ok related ∧ ⟨"w"⟩ ∈ related ∧
        c.related (.externalLink ⟨"links"⟩) .standard ⟨"w"⟩ = .ok related' ∧
          ⟨"v"⟩ ∈ related' := by
  intro s c
  have honce : s.LinksOnce ⟨"links"⟩ := by decide +kernel
  have howns : c.OwnsTerms := by decide +kernel
  have hread : s.Readable := Store.readable_ofQuads _
  obtain ⟨hrelated, hsymm, hfound⟩ := externalLink_oneLayer c honce
  obtain ⟨related, hv⟩ := hfound rfl hread .standard ⟨"v"⟩ ⟨"v"⟩ (by decide +kernel)
  have hw : ⟨"w"⟩ ∈ related := by
    have hlink : s.ActiveLink ⟨"links"⟩ ⟨"w/term"⟩ ⟨"v/term"⟩ :=
      ⟨⟨"link"⟩, ⟨"true", none, none⟩,
        Store.reads_ofQuads (q := ⟨⟨"link"⟩, Names.linkSource, .iri ⟨"w/term"⟩, ⟨"links"⟩⟩)
          (by simp),
        Store.reads_ofQuads (q := ⟨⟨"link"⟩, Names.linkTarget, .iri ⟨"v/term"⟩, ⟨"links"⟩⟩)
          (by simp),
        Store.reads_ofQuads (q := ⟨⟨"link"⟩, Names.linkActive, .literal ⟨"true", none, none⟩,
          ⟨"links"⟩⟩) (by simp),
        by decide +kernel⟩
    exact ((hrelated _ _ _ hv).2 ⟨"w"⟩).mpr (.inr ⟨⟨"v/term"⟩, ⟨"w/term"⟩, .inr hlink,
      by decide +kernel, by decide +kernel, by decide +kernel⟩)
  obtain ⟨hcontext, hback⟩ := hsymm howns _ _ _ hv ⟨"w"⟩
  obtain ⟨context, hcontext⟩ := hcontext hw
  obtain ⟨related', hw'⟩ := hfound rfl hread .standard ⟨"w"⟩ context hcontext
  exact ⟨honce, howns, related, related', hv, hw, hw', (hback _ _ hw').mp hw⟩

end Catalogue

end SkosArchive
