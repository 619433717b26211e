import SkosArchive.Proofs.Growth
import SkosArchive.Proofs.Mentions
import SkosArchive.Proofs.Traversal

namespace SkosArchive

theorem Store.Avoids.live_of_mentions {s : Store} {suffix : String} (h : s.Avoids suffix) {i : Iri}
    (hi : s.Mentions i) : ¬ i.EndsWith suffix := by
  obtain ⟨q, hq, rfl | hi⟩ := hi
  · exact (h.live_of_reads hq).2.1
  · exact (h.live_of_reads hq).2.2 i hi

namespace Connection

theorem vocabularyOfTerm_eq (c : Connection) (term : Iri) :
    c.vocabularyOfTerm term =
      (c.quads { subject := some term, predicate := some Names.inScheme }).map
        (List.filterMap Quad.objectIri?) >>= c.firstOwner := by
  rw [vocabularyOfTerm]
  cases c.quads { subject := some term, predicate := some Names.inScheme } with
  | error e => rfl
  | ok quads => rfl

/-- The store of `c'` has grown from that of `c`, and a query that covers the
same rows in both gives the same, unless it fails with an error of `E`; of rows that
are found as they came it gives the same IRIs. -/
structure GrowsUnless (E : Error → Prop) (suffix : String) (c c' : Connection) : Prop where
  store : c.store.Grows suffix c'.store
  quads : ∀ p, c'.store.select p = c.store.select p → p.byArrival = false →
    AgreesUnless E (c'.quads p) (c.quads p)
  iris : ∀ p, c'.store.select p = c.store.select p → p.limit = none →
    AgreesUnless E ((c'.quads p).map (List.filterMap Quad.objectIri?))
      ((c.quads p).map (List.filterMap Quad.objectIri?))

namespace GrowsUnless

variable {E : Error → Prop} {suffix : String} {c c' : Connection} (h : GrowsUnless E suffix c c')

include h

theorem firstOwner_agrees {glossaries : List Iri} (hlive : ∀ g ∈ glossaries, ¬ g.EndsWith suffix) :
    AgreesUnless E (c'.firstOwner glossaries) (c.firstOwner glossaries) := by
  induction glossaries with
  | nil => exact AgreesUnless.refl _
  | cons glossary glossaries ih =>
      obtain ⟨hglossary, hlive⟩ := List.forall_mem_cons.mp hlive
      have howner : AgreesUnless E (c'.ownerOfGlossary glossary) (c.ownerOfGlossary glossary) :=
        (h.quads _ (h.store.select_glossary rfl rfl hglossary) rfl).bind
          fun _ _ => AgreesUnless.refl _
      refine howner.bind fun o _ => ?_
      cases o with
      | none => exact ih hlive
      | some owner => exact AgreesUnless.refl _

theorem vocabularyOfTerm_agrees {resource : Iri} (hlive : ¬ resource.EndsWith suffix) :
    AgreesUnless E (c'.vocabularyOfTerm resource) (c.vocabularyOfTerm resource) := by
  rw [vocabularyOfTerm_eq, vocabularyOfTerm_eq]
  refine (h.iris _ (h.store.select_subject rfl hlive) rfl).bind fun glossaries hglossaries => ?_
  obtain ⟨quads, hquads, rfl⟩ := map_eq_ok hglossaries
  refine h.firstOwner_agrees fun g hg => ?_
  exact h.store.avoids.live_of_mentions
    (Store.mentions_of_mem_objects (fun q => reads_of_quads hquads) hg)

theorem owners_agrees {resources : List Iri} (hlive : ∀ i ∈ resources, ¬ i.EndsWith suffix) :
    AgreesUnless E (c'.owners resources) (c.owners resources) := by
  induction resources with
  | nil => exact AgreesUnless.refl _
  | cons resource resources ih =>
      obtain ⟨hresource, hlive⟩ := List.forall_mem_cons.mp hlive
      exact (h.vocabularyOfTerm_agrees hresource).bind
        fun _ _ => (ih hlive).bind fun _ _ => AgreesUnless.refl _

end GrowsUnless

end Connection

namespace Catalogue

/-- The store of `c'` has grown from that of `c`, and the two find the same
context for a vocabulary whose name does not end with the suffix, unless they
fail with an error of `E`. -/
structure GrowsUnless (E : Error → Prop) (suffix : String) (c c' : Catalogue) : Prop where
  connection : c.connection.GrowsUnless E suffix c'.connection
  agrees : ∀ u, ¬ u.EndsWith suffix → AgreesUnless E (c'.contextOf u) (c.contextOf u)
  live : ∀ u g, ¬ u.EndsWith suffix → c.contextOf u = .ok g → ¬ g.EndsWith suffix

/-- Unless calls to the storage fail. -/
abbrev Grows (suffix : String) (c c' : Catalogue) : Prop :=
  GrowsUnless Error.IsStorage suffix c c'

namespace GrowsUnless

variable {E : Error → Prop} {suffix : String} {c c' : Catalogue} (h : GrowsUnless E suffix c c')

include h

theorem live_of_mentions {i : Iri} (hi : c.connection.store.Mentions i) : ¬ i.EndsWith suffix :=
  h.connection.store.avoids.live_of_mentions hi

theorem find {w : Iri} (hw : ¬ w.EndsWith suffix) : AgreesUnless E (c'.find w) (c.find w) := by
  refine (h.agrees w hw).bind fun context hcontext => ?_
  refine AgreesUnless.bind ?_ fun _ _ => AgreesUnless.refl _
  refine AgreesUnless.bind ?_ fun _ _ => AgreesUnless.refl _
  exact h.connection.quads _
    (h.connection.store.select_graph rfl (h.live w context hw hcontext)) rfl

theorem live_context {w : Iri} {found : Located} (hw : ¬ w.EndsWith suffix)
    (hfound : c.find w = .ok (some found)) : ¬ found.context.EndsWith suffix := by
  obtain ⟨context, hcontext, ⟨ho, -⟩ | ⟨_, ho, -, rfl, -⟩⟩ := find_cases hfound
  · cases ho
  · cases ho
    exact h.live w _ hw hcontext

theorem terms {found : Located} (hcontext : ¬ found.context.EndsWith suffix) :
    AgreesUnless E (c'.terms found) (c.terms found) := by
  rw [Catalogue.terms, Catalogue.terms, Connection.termsAt, Connection.termsAt]
  cases found.vocabulary.glossary with
  | none => exact AgreesUnless.refl _
  | some glossary =>
      exact (h.connection.quads _ (h.connection.store.select_graph rfl hcontext) rfl).bind
        fun _ _ => AgreesUnless.refl _

theorem mappedFrom (relations : RelationSet) {context : Iri} (hcontext : ¬ context.EndsWith suffix)
    (terms : List VocabularyTerm) :
    AgreesUnless E (c'.mappedFrom relations context terms)
      (c.mappedFrom relations context terms) := by
  induction terms with
  | nil => exact AgreesUnless.refl _
  | cons term terms ih =>
      have hlinked : AgreesUnless E (c'.linkedFrom relations context term.iri)
          (c.linkedFrom relations context term.iri) :=
        (h.connection.quads _ (h.connection.store.select_graph rfl hcontext) rfl).bind
          fun _ _ => AgreesUnless.refl _
      refine hlinked.bind fun targets htargets => ?_
      refine (h.connection.owners_agrees fun i hi => ?_).bind fun owners _ => ?_
      · exact h.live_of_mentions (c.linkedFrom_mentioned _ _ _ targets htargets i hi)
      · exact ih.bind fun _ _ => AgreesUnless.refl _

theorem neighbourhood (relations : RelationSet) {w : Iri} (hw : ¬ w.EndsWith suffix) :
    AgreesUnless E (c'.neighbourhood relations w) (c.neighbourhood relations w) := by
  refine (h.find hw).bind fun o ho => ?_
  cases o with
  | none => exact AgreesUnless.refl _
  | some found =>
      have hcontext := h.live_context hw ho
      by_cases hempty : relations.isEmpty = true
      · simp only [hempty, if_true]
        exact AgreesUnless.refl _
      · simp only [hempty]
        refine (h.terms hcontext).bind fun terms _ => ?_
        exact (h.mappedFrom relations hcontext terms).bind fun _ _ => AgreesUnless.refl _

theorem recursiveRelated (relations : RelationSet) {v : Iri} (hv : ¬ v.EndsWith suffix) :
    AgreesUnless E (c'.recursiveRelated relations v) (c.recursiveRelated relations v) := by
  have hsteps : ∀ w, ¬ w.EndsWith suffix →
      AgreesUnless E (c'.neighbours relations w) (c.neighbours relations w) :=
    fun w hw => (h.neighbourhood relations hw).bind fun _ _ => AgreesUnless.refl _
  have hclosed : ∀ w found, ¬ w.EndsWith suffix → c.neighbours relations w = .ok found →
      ∀ i ∈ found, ¬ i.EndsWith suffix :=
    fun w found _ hfound i hi =>
      h.live_of_mentions (c.neighbours_mentioned relations w found hfound i hi)
  have hsearch := Reachable.explore_agrees hsteps hclosed
    (2 * c'.connection.store.rows.toList.length + 1) (List.forall_mem_singleton.mpr hv) [v]
  have hall : ∀ w found, c.neighbours relations w = .ok found →
      found ⊆ v :: c.connection.store.positions := by
    intro w found hfound i hi
    exact List.mem_cons_of_mem _ (Store.mem_positions_of_mentions
      (c.neighbours_mentioned relations w found hfound i hi))
  -- the grown store gives its search more fuel, but the old amount is enough already
  have hlength := h.connection.store.length_le
  have hpositions := c.connection.store.length_positions
  have hfuel : Reachable.explore (c.neighbours relations)
      (2 * c'.connection.store.rows.toList.length + 1) [v] [v] =
        Reachable.explore (c.neighbours relations)
          (2 * c.connection.store.rows.toList.length + 1) [v] [v] := by
    refine Reachable.explore_eq_of_fuel hall (by simp) ?_ ?_ ?_
    · exact List.cons_subset.mpr ⟨List.mem_cons_self, List.nil_subset _⟩
    · rw [List.length_cons, List.length_singleton]
      omega
    · rw [List.length_cons, List.length_singleton]
      omega
  rw [hfuel] at hsearch
  exact hsearch.bind fun _ _ => AgreesUnless.refl _

theorem linkRelated {linkGraph v : Iri} (hlink : ¬ linkGraph.EndsWith suffix)
    (hv : ¬ v.EndsWith suffix) :
    AgreesUnless E (c'.linkRelated linkGraph v) (c.linkRelated linkGraph v) := by
  refine (h.find hv).bind fun o ho => ?_
  cases o with
  | none => exact AgreesUnless.refl _
  | some found =>
      refine (h.terms (h.live_context hv ho)).bind fun terms _ => ?_
      by_cases hempty : (terms.map VocabularyTerm.iri).isEmpty = true
      · simp only [hempty, if_true]
        exact AgreesUnless.refl _
      · simp only [hempty]
        have hlinks : AgreesUnless E (c'.links linkGraph) (c.links linkGraph) := by
          refine AgreesUnless.bind ?_ fun _ _ => AgreesUnless.refl _
          exact h.connection.quads _ (h.connection.store.select_graph rfl hlink) rfl
        refine hlinks.bind fun links hlinks => ?_
        refine (h.connection.owners_agrees fun i hi => ?_).bind fun _ _ => AgreesUnless.refl _
        obtain ⟨link, hlink, hi⟩ := List.mem_filterMap.mp hi
        exact h.live_of_mentions
          (c.links_mentioned linkGraph links hlinks link hlink i (TermLink.end_of_outerEnd? hi))

theorem related {resolver : Resolver} (relations : RelationSet) {v : Iri}
    (hlink : ∀ linkGraph, resolver = .externalLink linkGraph → ¬ linkGraph.EndsWith suffix)
    (hv : ¬ v.EndsWith suffix) :
    AgreesUnless E (c'.related resolver relations v) (c.related resolver relations v) := by
  cases resolver with
  | skos => exact (h.neighbourhood relations hv).bind fun _ _ => AgreesUnless.refl _
  | recursive => exact h.recursiveRelated relations hv
  | externalLink linkGraph => exact h.linkRelated (hlink linkGraph rfl) hv

end GrowsUnless

end Catalogue

theorem Connection.catalogue_grows {suffix : String} {c c' : Connection}
    (h : c.store.Grows suffix c'.store) {cache cache' : ContextCache}
    (hcache : cache.Reflects c.store)
    (hcache' : cache'.Reflects c.store ∨ cache'.Reflects c'.store) :
    (c.catalogue cache).Grows suffix (c'.catalogue cache') where
  connection := ⟨h, fun _ hp hkey => quads_agrees hkey hp, fun _ hp hlimit => iris_agrees hlimit hp⟩
  agrees u hu hx hy := by
    have hc : cache.contextOf c u = c.store.contextOf u :=
      (ContextCache.contextOf_cases hcache hy).elim id id
    have hc' : cache'.contextOf c' u = c.store.contextOf u := by
      rcases hcache' with hcache' | hcache'
      · rcases ContextCache.contextOf_cases hcache' hx with heq | heq
        · exact heq
        · exact heq.trans (h.contextOf_eq hu)
      · exact ((ContextCache.contextOf_cases hcache' hx).elim id id).trans (h.contextOf_eq hu)
    exact hc'.trans hc.symm
  live u g hu hg := by
    have hun : Uninterrupted (cache.contextOf c u) := by
      rw [show cache.contextOf c u = .ok g from hg]
      exact FailsWith.ok g
    refine h.avoids.live_contextOf hu ?_
    rw [← (ContextCache.contextOf_cases hcache hun).elim id id]
    exact hg

end SkosArchive
