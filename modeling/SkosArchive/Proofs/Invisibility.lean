import SkosArchive.Proofs.RelatedGrowth
import SkosArchive.Proofs.Written

namespace SkosArchive

namespace Connection

variable {suffix : String} {c c' : Connection}

/-- The same calls fail in both stores, and the rows came at the same times. -/
structure SameCalls (c c' : Connection) : Prop where
  fails : ∀ call, c'.service.fails c'.store call = c.service.fails c.store call
  arrival : c'.service.arrival = c.service.arrival

theorem SameCalls.attempt (h : c.SameCalls c') {α : Type} (call : Call)
    (result : Except StorageError α) : c'.attempt call result = c.attempt call result := by
  simp only [Connection.attempt, h.fails call]

theorem SameCalls.quads_eq (h : c.SameCalls c') {p : Pattern}
    (hp : c'.store.select p = c.store.select p) : c'.quads p = c.quads p := by
  simp only [Connection.quads, Connection.find, h.attempt, h.arrival,
    Store.find_congr (Store.answer_of_select c.service.arrival hp)]

theorem SameCalls.holds_eq (h : c.SameCalls c') {p : Pattern}
    (hp : c'.store.select p = c.store.select p) : c'.holds p = c.holds p := by
  simp only [Connection.holds, Connection.ask, h.attempt, Store.ask_congr hp]

theorem SameCalls.growsUnless (h : c.SameCalls c') (hstore : c.store.Grows suffix c'.store)
    (E : Error → Prop) : c.GrowsUnless E suffix c' :=
  ⟨hstore, fun _ hp _ => .of_eq (h.quads_eq hp),
    fun _ hp _ => .of_eq (congrArg (Except.map _) (h.quads_eq hp))⟩

theorem isSnapshot_eq (h : c.SameCalls c') (hstore : c.store.Grows suffix c'.store) {u : Iri}
    (hu : ¬ u.EndsWith suffix) : c'.isSnapshot u = c.isSnapshot u := by
  have htype : ∀ type, c'.hasType u type = c.hasType u type :=
    fun type => h.holds_eq (hstore.select_subject rfl hu)
  rw [isSnapshot, isSnapshot, htype, htype]

theorem live_of_parentOf (h : c.store.Avoids suffix) {g p : Iri}
    (hp : c.parentOf g = .ok (some p)) : ¬ p.EndsWith suffix := by
  obtain ⟨quads, hquads, hfirst⟩ := bind_eq_ok hp
  obtain ⟨q, hq, hobject⟩ := List.exists_of_findSome?_eq_some (Except.ok.inj hfirst)
  exact (h.live_of_reads (reads_of_quads hquads hq)).2.2 p (Term.iri?_eq_some.mp hobject)

theorem graph_of_parentOf {g p : Iri} (hp : c.parentOf g = .ok (some p)) :
    g ∈ c.store.rows.toList.map Row.graph := by
  obtain ⟨quads, hquads, hfirst⟩ := bind_eq_ok hp
  obtain ⟨q, hq, -⟩ := List.exists_of_findSome?_eq_some (Except.ok.inj hfirst)
  obtain ⟨r, hr, hcovers, -⟩ := (mem_quads rfl hquads).mp hq
  exact List.mem_map.mpr ⟨r, hr, Pattern.graph_of_covers rfl hcovers⟩

theorem contextOf_grown (h : c.SameCalls c') (hstore : c.store.Grows suffix c'.store) {u : Iri}
    (hu : ¬ u.EndsWith suffix) : c'.contextOf u = c.contextOf u := by
  have hdeclaring : c'.declaringGraphs u = c.declaringGraphs u := by
    rw [declaringGraphs, declaringGraphs, h.quads_eq (hstore.select_subject rfl hu)]
  have hparent : ∀ g, ¬ g.EndsWith suffix → c'.parentOf g = c.parentOf g := by
    intro g hg
    rw [parentOf, parentOf, h.quads_eq (hstore.select_graph rfl hg)]
  rw [contextOf, contextOf, hdeclaring]
  cases hl : c.declaringGraphs u with
  | error e => rfl
  | ok l =>
      have hamong : Choice.among c'.parentOf (c'.store.rows.toList.length + 1) u l =
          Choice.among c.parentOf (c.store.rows.toList.length + 1) u l := by
        apply Choice.among_congr u (fun _ => Iff.rfl)
        intro g hg
        have hlive : ¬ g.EndsWith suffix := by
          obtain ⟨quads, hquads, hgraphs⟩ := bind_eq_ok hl
          cases hgraphs
          obtain ⟨q, hq, rfl⟩ := List.mem_map.mp hg
          exact (hstore.avoids.live_of_reads (reads_of_quads hquads hq)).1
        have hlength := hstore.length_le
        rw [Choice.isDerived_congr hparent (fun _ _ _ => live_of_parentOf hstore.avoids) _ _ hlive]
        -- the grown store allows more steps, but the old number is enough already
        apply Choice.isDerived_eq_of_steps (fun _ _ => graph_of_parentOf) (by simp)
          (List.nil_subset _)
        · simp only [List.length_map, List.length_nil]
          omega
        · simp only [List.length_map, List.length_nil]
          omega
      rw [ok_bind, ok_bind, hamong]

theorem uninterrupted_contextOf {s : Store} {service : Service} {index : ContextIndex}
    (hcalls : ∀ call, c.service.fails c.store call = none)
    (hbuild : ContextIndex.build ⟨s, service⟩ = .ok index) (hrows : ∀ r ∈ c.store.rows, r ∈ s.rows)
    (u : Iri) : Uninterrupted (c.contextOf u) := by
  have hquads : ∀ p : Pattern, p.limit = none →
      (∀ r ∈ c.store.rows, p.covers r = true → ∃ q, r.toQuad = .ok q) →
        Uninterrupted (c.quads p) := by
    intro p hp hread
    simp only [quads, find, attempt, hcalls, Store.find_eq_answered hp hread]
    exact FailsWith.ok _
  have hdeclaring : Uninterrupted (c.declaringGraphs u) := by
    refine (hquads _ rfl fun r _ hcovers => ?_).bind fun _ _ => FailsWith.ok _
    exact Row.exists_toQuad_of_iri (Pattern.object_of_covers rfl hcovers).1
  have hparent : ∀ g, Uninterrupted (c.parentOf g) := by
    intro g
    refine (hquads _ rfl fun r hr hcovers => ?_).bind fun _ _ => FailsWith.ok _
    obtain ⟨_, -, hbuild⟩ := bind_eq_ok hbuild
    obtain ⟨derivations, hderivations, -⟩ := bind_eq_ok hbuild
    apply (Store.find_eq_ok rfl (attempt_eq_ok hderivations)).2 r (hrows r hr)
    simp [Pattern.covers, Pattern.predicate_of_covers rfl hcovers]
  refine hdeclaring.bind fun l _ => ?_
  refine (Choice.among_failsWith hparent _ u l).bind fun choice _ => ?_
  refine (Choice.toExcept_failsWith u choice).mono ?_
  rintro _ ⟨candidates, rfl⟩ ⟨cause, h⟩
  cases h

end Connection

/-- Contexts are read in the same way in both places, or no call fails. -/
def ContextCache.ReadAlike (cache cache' : ContextCache) (c : Connection) : Prop :=
  (cache.index = none ↔ cache'.index = none) ∨ ∀ call, c.service.fails c.store call = none

theorem ContextCache.contextOf_grown {suffix : String} {c c' : Connection}
    {cache cache' : ContextCache} (h : c.SameCalls c') (hstore : c.store.Grows suffix c'.store)
    (hcache : cache.Reflects c.store)
    (hcache' : cache'.Reflects c.store ∨ cache'.Reflects c'.store)
    (halike : cache.ReadAlike cache' c) {u : Iri} (hu : ¬ u.EndsWith suffix) :
    cache'.contextOf c' u = cache.contextOf c u := by
  have hindex : ∀ index, cache.index = some index →
      cache.contextOf c u = c.store.contextOf u ∧
        ∃ service, ContextIndex.build ⟨c.store, service⟩ = .ok index := by
    intro index hindex
    obtain ⟨service, hbuild⟩ := hcache index hindex
    rw [contextOf, hindex]
    exact ⟨ContextIndex.contextOf_build hbuild u, service, hbuild⟩
  have hindex' : ∀ index, cache'.index = some index →
      cache'.contextOf c' u = c.store.contextOf u ∧ ∃ s service,
        ContextIndex.build ⟨s, service⟩ = .ok index ∧ ∀ r ∈ c.store.rows, r ∈ s.rows := by
    intro index hindex
    rw [contextOf, hindex]
    rcases hcache' with hcache' | hcache'
    · obtain ⟨service, hbuild⟩ := hcache' index hindex
      exact ⟨ContextIndex.contextOf_build hbuild u, _, service, hbuild, fun _ => id⟩
    · obtain ⟨service, hbuild⟩ := hcache' index hindex
      exact ⟨(ContextIndex.contextOf_build hbuild u).trans (hstore.contextOf_eq hu), _, service,
        hbuild, hstore.keeps⟩
  have hdirect : c'.contextOf u = c.contextOf u := Connection.contextOf_grown h hstore hu
  cases hbefore : cache.index with
  | none =>
      cases hafter : cache'.index with
      | none => rw [contextOf, contextOf, hbefore, hafter, hdirect]
      | some index =>
          obtain ⟨hafter', s, service, hbuild, hrows⟩ := hindex' index hafter
          have hcalls := halike.resolve_left (by simp [hbefore, hafter])
          rw [hafter', contextOf, hbefore]
          exact (Connection.contextOf_eq
            (Connection.uninterrupted_contextOf hcalls hbuild hrows u)).symm
  | some index =>
      obtain ⟨hbefore', service, hbuild⟩ := hindex index hbefore
      cases hafter : cache'.index with
      | none =>
          have hcalls := halike.resolve_left (by simp [hbefore, hafter])
          rw [hbefore', contextOf, hafter, hdirect]
          exact Connection.contextOf_eq
            (Connection.uninterrupted_contextOf hcalls hbuild (fun _ => id) u)
      | some index' => exact (hindex' index' hafter).1.trans hbefore'.symm

namespace Catalogue

/-- Whatever is looked up on behalf of a name with the property `P` is the same
in both catalogues, down to the errors. -/
structure SameFor (P : Iri → Prop) (c c' : Catalogue) : Prop where
  contextOf : ∀ u, P u → c'.contextOf u = c.contextOf u
  find : ∀ u, P u → c'.find u = c.find u
  terms : ∀ u found, P u → c.find u = .ok (some found) → c'.terms found = c.terms found
  vocabularyOfTerm : ∀ u, P u →
    c'.connection.vocabularyOfTerm u = c.connection.vocabularyOfTerm u
  isSnapshot : ∀ u, P u → c'.connection.isSnapshot u = c.connection.isSnapshot u
  related : ∀ resolver relations u, P u → (∀ linkGraph, resolver = .externalLink linkGraph →
    P linkGraph) → c'.related resolver relations u = c.related resolver relations u

variable {suffix : String} {c c' : Catalogue}

theorem sameFor_of_grows (hcalls : c.connection.SameCalls c'.connection)
    (hstore : c.connection.store.Grows suffix c'.connection.store)
    (hcontext : ∀ u, ¬ u.EndsWith suffix → c'.contextOf u = c.contextOf u)
    (hlive : ∀ u g, ¬ u.EndsWith suffix → c.contextOf u = .ok g → ¬ g.EndsWith suffix) :
    SameFor (fun u => ¬ u.EndsWith suffix) c c' := by
  have hgrows : GrowsUnless (fun _ => False) suffix c c' :=
    ⟨hcalls.growsUnless hstore _, fun u hu => .of_eq (hcontext u hu), hlive⟩
  constructor
  · exact hcontext
  · intro u hu
    exact (hgrows.find hu).eq
  · intro u found hu hfound
    exact (hgrows.terms (hgrows.live_context hu hfound)).eq
  · intro u hu
    exact (hgrows.connection.vocabularyOfTerm_agrees hu).eq
  · intro u hu
    exact Connection.isSnapshot_eq hcalls hstore hu
  · intro resolver relations u hu hlink
    exact (hgrows.related relations hlink hu).eq

end Catalogue

/-- Taking a snapshot leaves no trace in what is looked up on behalf of names
without its suffix, whichever the resolver and the relation set, as long as the
same calls fail after the creation as before and no row changes its place among
those of the same texts. Contexts are those of the store or of an index that was
loaded before or after the creation. -/
theorem createSnapshot_invisible {origin : Catalogue} {resolver : Resolver}
    {config : SnapshotConfig} {now : Instant} {v : Iri} {k : Cascade} {snapshot : Snapshot}
    {t : Store} {c c' : Connection} {cache cache' : ContextCache}
    (hk : origin.cascade resolver config now v = .ok k)
    (havoids : origin.connection.store.Avoids k.suffix)
    (hglossary : k.ClosesGlossaries origin.connection.store)
    (hcreate : origin.createSnapshot resolver config now v = .ok (snapshot, t))
    (hc : c.store = origin.connection.store) (hc' : c'.store = t) (hcalls : c.SameCalls c')
    (hcache : cache.Reflects c.store)
    (hcache' : cache'.Reflects c.store ∨ cache'.Reflects c'.store)
    (halike : cache.ReadAlike cache' c) :
    Catalogue.SameFor (fun u => ¬ u.EndsWith k.suffix) (c.catalogue cache)
      (c'.catalogue cache') := by
  obtain ⟨-, k', hk', hwritten, -⟩ := Catalogue.createSnapshot_eq_ok hcreate
  rw [hk] at hk'
  cases hk'
  rw [← hc] at havoids hglossary hwritten
  rw [← hc'] at hwritten
  have hstore : c.store.Grows k.suffix c'.store := hwritten.grows_of_avoids havoids hglossary
  apply Catalogue.sameFor_of_grows hcalls hstore
  · intro u hu
    exact ContextCache.contextOf_grown hcalls hstore hcache hcache' halike hu
  · exact (Connection.catalogue_grows hstore hcache hcache').live

theorem createSnapshot_invisible_linkedPair :
    ∃ (snapshot : Snapshot) (t : Store),
      ((Connection.reliable .linkedPair).catalogue .empty).createSnapshot .skos .standard
        ⟨1700000000, 0, by decide, by decide⟩ ⟨"v"⟩ = .ok (snapshot, t) ∧
      Catalogue.SameFor (fun u => ¬ u.EndsWith "/version/2023-11-14T221320Z")
        ((Connection.reliable .linkedPair).catalogue .empty)
        ((Connection.reliable t).catalogue .empty) := by
  have hok : (((Connection.reliable .linkedPair).catalogue .empty).createSnapshot .skos .standard
      ⟨1700000000, 0, by decide, by decide⟩ ⟨"v"⟩).isOk = true := by
    decide +kernel
  have hcascade : (((Connection.reliable .linkedPair).catalogue .empty).cascade .skos .standard
      ⟨1700000000, 0, by decide, by decide⟩ ⟨"v"⟩).map
        (fun k => (k.suffix, k.owned, k.plans.map fun p => p.found.vocabulary.glossary)) =
      .ok ("/version/2023-11-14T221320Z",
        [⟨"v"⟩, ⟨"v/glossary"⟩, ⟨"v/term"⟩, ⟨"w"⟩, ⟨"w/glossary"⟩, ⟨"w/term"⟩],
        [some ⟨"v/glossary"⟩, some ⟨"w/glossary"⟩]) := by
    decide +kernel
  obtain ⟨⟨snapshot, t⟩, hcreate⟩ := exists_ok_of_isOk hok
  obtain ⟨-, k, hk, -⟩ := Catalogue.createSnapshot_eq_ok hcreate
  rw [hk] at hcascade
  obtain ⟨hsuffix, hplans⟩ := Prod.mk.inj (Except.ok.inj hcascade)
  obtain ⟨howned, hglossaries⟩ := Prod.mk.inj hplans
  have havoids : Store.linkedPair.Avoids k.suffix := by
    rw [hsuffix]
    decide +kernel
  have hcloses : k.ClosesGlossaries .linkedPair := by
    apply Cascade.ClosesGlossaries.of_rows
    rw [howned, hglossaries]
    decide +kernel
  have hreflects : ∀ s, ContextCache.empty.Reflects s := fun s => nofun
  rw [← hsuffix]
  exact ⟨snapshot, t, hcreate, createSnapshot_invisible hk havoids hcloses hcreate rfl rfl
    ⟨fun _ => rfl, rfl⟩ (hreflects _) (.inl (hreflects _)) (.inr fun _ => rfl)⟩

end SkosArchive
