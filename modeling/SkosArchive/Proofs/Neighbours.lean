import SkosArchive.Proofs.Mentions
import SkosArchive.Proofs.Reachability

namespace SkosArchive

namespace Store

variable {s : Store}

/-- Some graph gives `owner` the glossary. -/
def Owns (s : Store) (owner glossary : Iri) : Prop :=
  ∃ graph, .ofQuad ⟨owner, Names.hasGlossary, .iri glossary, graph⟩ ∈ s.rows

/-- `resource` stands in the scheme of a glossary of `owner`. -/
def OwnsResource (s : Store) (owner resource : Iri) : Prop :=
  ∃ glossary, s.Relates resource Names.inScheme glossary ∧ s.Owns owner glossary

/-- `context` links `resource` to `target` over one of the properties. -/
def Links (s : Store) (relations : RelationSet) (context resource target : Iri) : Prop :=
  ∃ predicate, relations.follows predicate = true ∧
    s.Reads ⟨resource, predicate, .iri target, context⟩

/-- A term of the vocabulary links to `target`. -/
def LinksOut (s : Store) (relations : RelationSet) (found : Located) (target : Iri) : Prop :=
  ∃ glossary term, found.vocabulary.glossary = some glossary ∧
    .ofQuad ⟨term, Names.inScheme, .iri glossary, found.context⟩ ∈ s.rows ∧
      s.Links relations found.context term target

/-- The rows in which glossaries are looked up. -/
def glossaryOwners (glossary : Iri) : Pattern :=
  { predicate := some Names.hasGlossary, object := some (.iri glossary), limit := some 1 }

theorem owns_iff {owner glossary : Iri} :
    s.Owns owner glossary ↔
      ∃ r ∈ s.select (glossaryOwners glossary), r.subject = owner := by
  constructor
  · rintro ⟨graph, hr⟩
    refine ⟨_, mem_select.mpr ⟨hr, ?_⟩, rfl⟩
    simp [glossaryOwners, Pattern.covers, Row.ofQuad, Row.objectColumns]
  · rintro ⟨⟨g, u, p, o, kind, language, datatype⟩, hr, rfl⟩
    obtain ⟨hr, hcovers⟩ := mem_select.mp hr
    simp only [glossaryOwners, Pattern.covers, Row.objectColumns, Option.all_some, Option.all_none,
      Bool.true_and, Bool.and_eq_true, decide_eq_true_eq, Prod.mk.injEq] at hcovers
    obtain ⟨rfl, rfl, rfl, rfl, rfl⟩ := hcovers
    exact ⟨g, hr⟩

theorem Regular.owns_iff (h : s.Regular) {owner glossary : Iri} :
    s.Owns owner glossary ↔ s.Relates owner Names.hasGlossary glossary :=
  exists_congr fun _ => h.reads_iri.symm

end Store

namespace Connection

variable {c : Connection}

theorem ownerOfGlossary_eq_ok {glossary : Iri} {o : Option Iri}
    (h : c.ownerOfGlossary glossary = .ok o) :
    (∀ owner, o = some owner → c.store.Owns owner glossary) ∧
      (o = none → ∀ owner, ¬ c.store.Owns owner glossary) := by
  obtain ⟨quads, hquads, h⟩ := bind_eq_ok h
  cases h
  have hfind := find_of_quads hquads
  have hlimit : 1 ≤ Store.maxLimit := by decide
  simp only [Store.find, hlimit, if_true] at hfind
  change ((c.store.answer c.service.arrival (Store.glossaryOwners glossary)).take 1).mapM
    Row.toQuad = _ at hfind
  rw [Store.answer_eq_select rfl] at hfind
  cases hselect : c.store.select (Store.glossaryOwners glossary) with
  | nil =>
      rw [hselect] at hfind
      cases hfind
      constructor
      · rintro _ ⟨⟩
      · rintro - owner howner
        obtain ⟨r, hr, -⟩ := Store.owns_iff.mp howner
        rw [hselect] at hr
        cases hr
  | cons r rows =>
      rw [hselect] at hfind
      obtain ⟨hquads, hread⟩ := mapM_eq_ok hfind
      obtain ⟨q, hq⟩ := hread r (by simp)
      simp only [List.take_succ_cons, List.take_zero, List.filterMap_cons, hq, Except.toOption,
        List.filterMap_nil] at hquads
      subst hquads
      constructor
      · rintro _ ⟨⟩
        exact Store.owns_iff.mpr ⟨r, by simp [hselect], (Row.subject_of_toQuad hq).symm⟩
      · rintro ⟨⟩

theorem firstOwner_eq_ok {glossaries : List Iri} {o : Option Iri}
    (h : c.firstOwner glossaries = .ok o) :
    (∀ owner, o = some owner → ∃ glossary ∈ glossaries, c.store.Owns owner glossary) ∧
      (o = none → ∀ glossary ∈ glossaries, ∀ owner, ¬ c.store.Owns owner glossary) := by
  induction glossaries with
  | nil =>
      cases h
      constructor
      · rintro _ ⟨⟩
      · rintro - _ ⟨⟩
  | cons glossary glossaries ih =>
      obtain ⟨first, hfirst, h⟩ := bind_eq_ok h
      obtain ⟨hsome, hnone⟩ := ownerOfGlossary_eq_ok hfirst
      cases first with
      | some owner =>
          cases h
          constructor
          · rintro _ ⟨⟩
            exact ⟨glossary, List.mem_cons_self, hsome owner rfl⟩
          · rintro ⟨⟩
      | none =>
          obtain ⟨ihsome, ihnone⟩ := ih h
          constructor
          · intro owner ho
            obtain ⟨glossary', hmem, howns⟩ := ihsome owner ho
            exact ⟨glossary', List.mem_cons_of_mem _ hmem, howns⟩
          · intro ho
            exact List.forall_mem_cons.mpr ⟨hnone rfl, ihnone ho⟩

theorem mem_schemes {resource glossary : Iri} {quads : List Quad}
    (h : c.quads { subject := some resource, predicate := some Names.inScheme } = .ok quads) :
    glossary ∈ quads.filterMap Quad.objectIri? ↔
      c.store.Relates resource Names.inScheme glossary := by
  simp only [List.mem_filterMap, Quad.objectIri?, Term.iri?_eq_some, mem_quads rfl h]
  constructor
  · rintro ⟨⟨u, p, o, g⟩, ⟨r, hr, hcovers, hq⟩, rfl⟩
    obtain rfl : u = resource :=
      (Row.subject_of_toQuad hq).trans (Pattern.subject_of_covers rfl hcovers)
    obtain rfl : p = Names.inScheme :=
      (Row.predicate_of_toQuad hq).trans (Pattern.predicate_of_covers rfl hcovers)
    exact ⟨g, r, hr, hq⟩
  · rintro ⟨g, r, hr, hq⟩
    have hu : resource = r.subject := Row.subject_of_toQuad hq
    have hp : Names.inScheme = r.predicate := Row.predicate_of_toQuad hq
    exact ⟨_, ⟨r, hr, by simp [Pattern.covers, hu, hp], hq⟩, rfl⟩

theorem vocabularyOfTerm_eq_ok {resource : Iri} {o : Option Iri}
    (h : c.vocabularyOfTerm resource = .ok o) :
    (∀ owner, o = some owner → c.store.OwnsResource owner resource) ∧
      (o = none → ∀ owner, ¬ c.store.OwnsResource owner resource) := by
  obtain ⟨quads, hquads, h⟩ := bind_eq_ok h
  obtain ⟨hsome, hnone⟩ := firstOwner_eq_ok h
  constructor
  · intro owner ho
    obtain ⟨glossary, hmem, howns⟩ := hsome owner ho
    exact ⟨glossary, (mem_schemes hquads).mp hmem, howns⟩
  · rintro ho owner ⟨glossary, hscheme, howns⟩
    exact hnone ho glossary ((mem_schemes hquads).mpr hscheme) owner howns

theorem vocabularyOfTerm_eq_some {resource : Iri} {o : Option Iri}
    (h : c.vocabularyOfTerm resource = .ok o)
    (hone : ∀ owner owner', c.store.OwnsResource owner resource →
      c.store.OwnsResource owner' resource → owner = owner') {owner : Iri} :
    c.vocabularyOfTerm resource = .ok (some owner) ↔ c.store.OwnsResource owner resource := by
  obtain ⟨hsome, hnone⟩ := vocabularyOfTerm_eq_ok h
  rw [h]
  cases o with
  | none => simpa using hnone rfl owner
  | some first =>
      rw [Except.ok.injEq, Option.some.injEq]
      constructor
      · rintro rfl
        exact hsome first rfl
      · exact hone first owner (hsome first rfl)

theorem readable_of_vocabularyOfTerm {resource : Iri} {o : Option Iri}
    (h : c.vocabularyOfTerm resource = .ok o) {r : Row} (hr : r ∈ c.store.rows)
    (hsubject : r.subject = resource) (hpredicate : r.predicate = Names.inScheme) :
    ∃ q, r.toQuad = .ok q := by
  obtain ⟨quads, hquads, -⟩ := bind_eq_ok h
  apply (Store.find_eq_ok rfl (find_of_quads hquads)).2 r hr
  simp [Pattern.covers, hsubject, hpredicate]

theorem owners_eq_ok {resources owners : List Iri} (h : c.owners resources = .ok owners) :
    (∀ owner, owner ∈ owners ↔
      ∃ resource ∈ resources, c.vocabularyOfTerm resource = .ok (some owner)) ∧
    ∀ resource ∈ resources, ∃ o, c.vocabularyOfTerm resource = .ok o := by
  induction resources generalizing owners with
  | nil =>
      cases h
      simp
  | cons resource resources ih =>
      obtain ⟨o, ho, h⟩ := bind_eq_ok h
      obtain ⟨rest, hrest, h⟩ := bind_eq_ok h
      obtain ⟨hmem, hall⟩ := ih hrest
      refine ⟨?_, List.forall_mem_cons.mpr ⟨⟨o, ho⟩, hall⟩⟩
      intro owner
      cases o with
      | none =>
          cases h
          simp [hmem, ho]
      | some first =>
          cases h
          simp [hmem, ho, eq_comm]

theorem owners_succeed {resources : List Iri}
    (h : ∀ resource ∈ resources, ∃ o, c.vocabularyOfTerm resource = .ok o) :
    FailsWith (fun _ => False) (c.owners resources) := by
  induction resources with
  | nil => exact FailsWith.ok []
  | cons resource resources ih =>
      obtain ⟨⟨o, ho⟩, hall⟩ := List.forall_mem_cons.mp h
      rw [owners, ho, ok_bind]
      exact (ih hall).bind fun rest _ => FailsWith.ok _

end Connection

namespace Catalogue

variable {c : Catalogue} {relations : RelationSet}

theorem linkedFrom_eq_ok {context resource : Iri} {targets : List Iri}
    (h : c.linkedFrom relations context resource = .ok targets) {target : Iri} :
    target ∈ targets ↔ c.connection.store.Links relations context resource target := by
  obtain ⟨quads, hquads, h⟩ := bind_eq_ok h
  cases h
  simp only [List.mem_filterMap, List.mem_filter, Quad.objectIri?, Term.iri?_eq_some,
    Connection.mem_description hquads]
  constructor
  · rintro ⟨⟨u, p, o, g⟩, ⟨⟨hreads, rfl, rfl⟩, hfollows⟩, rfl⟩
    exact ⟨p, hfollows, hreads⟩
  · rintro ⟨p, hfollows, hreads⟩
    exact ⟨_, ⟨⟨hreads, rfl, rfl⟩, hfollows⟩, rfl⟩

theorem mappedFrom_eq_ok {context : Iri} {terms : List VocabularyTerm} {owners : List Iri}
    (h : c.mappedFrom relations context terms = .ok owners) :
    (∀ owner, owner ∈ owners ↔ ∃ term ∈ terms.map VocabularyTerm.iri, ∃ target,
      c.connection.store.Links relations context term target ∧
        c.connection.vocabularyOfTerm target = .ok (some owner)) ∧
    ∀ term ∈ terms.map VocabularyTerm.iri, ∀ target,
      c.connection.store.Links relations context term target →
        ∃ o, c.connection.vocabularyOfTerm target = .ok o := by
  induction terms generalizing owners with
  | nil =>
      cases h
      simp
  | cons term terms ih =>
      obtain ⟨targets, htargets, h⟩ := bind_eq_ok h
      obtain ⟨first, hfirst, h⟩ := bind_eq_ok h
      obtain ⟨rest, hrest, h⟩ := bind_eq_ok h
      cases h
      obtain ⟨hmem, hall⟩ := ih hrest
      obtain ⟨hmemFirst, hallFirst⟩ := Connection.owners_eq_ok hfirst
      simp only [linkedFrom_eq_ok htargets] at hmemFirst hallFirst
      constructor
      · intro owner
        rw [List.mem_append, hmemFirst, hmem, List.map_cons]
        simp only [List.mem_cons, exists_eq_or_imp]
      · rw [List.map_cons]
        exact List.forall_mem_cons.mpr ⟨hallFirst, hall⟩

theorem mappedFrom_succeeds {context : Iri} {terms : List VocabularyTerm}
    (hlinked : ∀ term, FailsWith (fun _ => False) (c.linkedFrom relations context term))
    (howner : ∀ term ∈ terms.map VocabularyTerm.iri, ∀ target,
      c.connection.store.Links relations context term target →
        ∃ o, c.connection.vocabularyOfTerm target = .ok o) :
    FailsWith (fun _ => False) (c.mappedFrom relations context terms) := by
  induction terms with
  | nil => exact FailsWith.ok []
  | cons term terms ih =>
      rw [List.map_cons] at howner
      obtain ⟨hfirst, hrest⟩ := List.forall_mem_cons.mp howner
      refine (hlinked term.iri).bind fun targets htargets => ?_
      refine FailsWith.bind (Connection.owners_succeed ?_) fun owners _ => ?_
      · intro target htarget
        exact hfirst target ((linkedFrom_eq_ok htargets).mp htarget)
      · exact (ih hrest).bind fun rest _ => FailsWith.ok _

theorem not_linksOut_of_isEmpty {s : Store} {found : Located} {target : Iri}
    (h : relations.isEmpty = true) : ¬ s.LinksOut relations found target := by
  rintro ⟨-, -, -, -, predicate, hfollows, -⟩
  rw [RelationSet.follows, List.isEmpty_iff.mp h] at hfollows
  cases hfollows

theorem neighbours_eq_ok {w : Iri} {found : Located} {neighbours : List Iri}
    (hfound : c.find w = .ok (some found)) (h : c.neighbours relations w = .ok neighbours) :
    (∀ y, y ∈ neighbours ↔ y ∈ found.vocabulary.imports ∨ y ≠ w ∧ ∃ target,
      c.connection.store.LinksOut relations found target ∧
        c.connection.vocabularyOfTerm target = .ok (some y)) ∧
    ∀ target, c.connection.store.LinksOut relations found target →
      ∃ o, c.connection.vocabularyOfTerm target = .ok o := by
  obtain ⟨next, hnext, h⟩ := bind_eq_ok h
  cases h
  rw [neighbourhood, hfound, ok_bind] at hnext
  by_cases hempty : relations.isEmpty = true
  · simp only [hempty, if_true] at hnext
    cases hnext
    have hnone : ∀ target, ¬ c.connection.store.LinksOut relations found target :=
      fun _ => not_linksOut_of_isEmpty hempty
    simp [hnone, Ascending.empty, Ascending.mem_def]
  · simp only [hempty] at hnext
    obtain ⟨terms, hterms, hnext⟩ := bind_eq_ok hnext
    obtain ⟨owners, howners, hnext⟩ := bind_eq_ok hnext
    cases hnext
    obtain ⟨hmem, hall⟩ := mappedFrom_eq_ok howners
    have hlinks : ∀ target, c.connection.store.LinksOut relations found target ↔
        ∃ term ∈ terms.map VocabularyTerm.iri,
          c.connection.store.Links relations found.context term target := by
      intro target
      simp only [mem_terms hterms, Store.LinksOut]
      constructor
      · rintro ⟨glossary, term, hglossary, hr, hlinks⟩
        exact ⟨term, ⟨glossary, hglossary, hr⟩, hlinks⟩
      · rintro ⟨term, ⟨glossary, hglossary, hr⟩, hlinks⟩
        exact ⟨glossary, term, hglossary, hr, hlinks⟩
    constructor
    · intro y
      have hmapped : y ∈ (Ascending.ofList (owners.filter fun o => o ≠ w) : IriSet) ↔
          y ≠ w ∧ ∃ target, c.connection.store.LinksOut relations found target ∧
            c.connection.vocabularyOfTerm target = .ok (some y) := by
        simp only [Ascending.mem_ofList, List.mem_filter, hmem, hlinks, decide_eq_true_eq]
        constructor
        · rintro ⟨⟨term, hterm, target, hlinks, howner⟩, hne⟩
          exact ⟨hne, target, ⟨term, hterm, hlinks⟩, howner⟩
        · rintro ⟨hne, target, ⟨term, hterm, hlinks⟩, howner⟩
          exact ⟨⟨term, hterm, target, hlinks, howner⟩, hne⟩
      rw [List.mem_append, ← Ascending.mem_def, ← Ascending.mem_def, hmapped, or_comm]
    · intro target htarget
      obtain ⟨term, hterm, hlinks⟩ := (hlinks target).mp htarget
      exact hall term hterm target hlinks

theorem mem_neighbours {w : Iri} {found : Located} {neighbours : List Iri}
    (hfound : c.find w = .ok (some found)) (h : c.neighbours relations w = .ok neighbours)
    (hone : ∀ target, c.connection.store.LinksOut relations found target → ∀ y y',
      c.connection.store.OwnsResource y target → c.connection.store.OwnsResource y' target →
        y = y') {y : Iri} :
    y ∈ neighbours ↔ y ∈ found.vocabulary.imports ∨ y ≠ w ∧ ∃ target,
      c.connection.store.LinksOut relations found target ∧
        c.connection.store.OwnsResource y target := by
  obtain ⟨hmem, hlookup⟩ := neighbours_eq_ok hfound h
  rw [hmem]
  refine or_congr_right (and_congr_right fun _ => exists_congr fun target =>
    and_congr_right fun hlinks => ?_)
  obtain ⟨o, ho⟩ := hlookup target hlinks
  exact Connection.vocabularyOfTerm_eq_some ho (hone target hlinks)

/-- The search for the recursive related set ends on its own: no more is reached
than the origin and what stands in the store. -/
theorem searches_from? (c : Catalogue) (relations : RelationSet) (w : Iri) :
    Reachable.Searches (c.neighbours relations) [w] [w]
      (Reachable.from? (c.neighbours relations)
        (2 * c.connection.store.rows.toList.length + 1) w) := by
  have hnext : ∀ a found, c.neighbours relations a = .ok found →
      found ⊆ w :: c.connection.store.positions := by
    intro a found hfound b hb
    have hmentions := c.neighbours_mentioned relations a found hfound b hb
    exact List.mem_cons_of_mem w (Store.mem_positions_of_mentions hmentions)
  have hfuel : (w :: c.connection.store.positions).length =
      2 * c.connection.store.rows.toList.length + 1 := by
    rw [List.length_cons, Store.length_positions]
  exact Reachable.searches_from? hnext List.mem_cons_self (Nat.le_of_eq hfuel)

theorem recursiveRelated_eq_ok {w : Iri} {related : IriSet}
    (h : c.recursiveRelated relations w = .ok related) :
    (∀ y, y ∈ related ↔ Reachable (c.neighbours relations) w y) ∧
      ∀ y ∈ related, ∃ l, c.neighbours relations y = .ok l := by
  obtain ⟨reached, hreached, h⟩ := bind_eq_ok h
  cases h
  simp only [Ascending.mem_ofList]
  exact (hreached ▸ c.searches_from? relations w).eq_ok

theorem exists_recursiveRelated {w : Iri}
    (h : ∀ y, Reachable (c.neighbours relations) w y → ∃ l, c.neighbours relations y = .ok l) :
    ∃ related, c.recursiveRelated relations w = .ok related := by
  obtain ⟨l, hl⟩ := Reachable.exists_from? h (2 * c.connection.store.rows.toList.length + 1)
  refine ⟨Ascending.ofList l, ?_⟩
  simp only [recursiveRelated, hl, ok_bind]
  rfl

end Catalogue

section

variable {t : Store} {arrival : Row → Nat}

theorem Connection.exists_ownerOfGlossary (glossary : Iri) :
    ∃ o, (Connection.reliable t arrival).ownerOfGlossary glossary = .ok o := by
  have hread : ∀ r ∈ (t.answer arrival (Store.glossaryOwners glossary)).take 1,
      ∃ q, r.toQuad = .ok q := by
    intro r hr
    obtain ⟨-, hcovers⟩ := Store.mem_answer.mp (List.mem_of_mem_take hr)
    exact Row.exists_toQuad_of_iri (Pattern.object_of_covers rfl hcovers).1
  have hlimit : 1 ≤ Store.maxLimit := by decide
  have hfind : t.find arrival (Store.glossaryOwners glossary) = .ok
      (((t.answer arrival (Store.glossaryOwners glossary)).take 1).filterMap fun r =>
        r.toQuad.toOption) := by
    rw [← mapM_of_forall hread]
    simp only [Store.find, Store.glossaryOwners, hlimit, if_true]
  have hquads : (Connection.reliable t arrival).quads (Store.glossaryOwners glossary) =
      (t.find arrival (Store.glossaryOwners glossary)).mapError Error.persistence := rfl
  rw [hfind] at hquads
  exact ⟨_, congrArg (· >>= _) hquads⟩

theorem Connection.exists_vocabularyOfTerm {resource : Iri}
    (h : ∀ r ∈ t.rows, r.subject = resource → r.predicate = Names.inScheme →
      ∃ q, r.toQuad = .ok q) :
    ∃ o, (Connection.reliable t arrival).vocabularyOfTerm resource = .ok o := by
  have hfirst : ∀ glossaries, FailsWith (fun _ => False)
      ((Connection.reliable t arrival).firstOwner glossaries) := by
    intro glossaries
    induction glossaries with
    | nil => exact FailsWith.ok none
    | cons glossary glossaries ih =>
        obtain ⟨o, ho⟩ : ∃ o, (Connection.reliable t arrival).ownerOfGlossary glossary = .ok o :=
          Connection.exists_ownerOfGlossary glossary
        rw [Connection.firstOwner, ho, ok_bind]
        cases o with
        | none => exact ih
        | some owner => exact FailsWith.ok _
  let p : Pattern := { subject := some resource, predicate := some Names.inScheme }
  have hquads : (Connection.reliable t arrival).quads p = .ok (t.answered arrival p) :=
    Connection.reliable_quads rfl fun r hr hcovers =>
      h r hr (Pattern.subject_of_covers rfl hcovers) (Pattern.predicate_of_covers rfl hcovers)
  rw [Connection.vocabularyOfTerm, hquads, ok_bind]
  exact (hfirst _).exists_ok

namespace Catalogue

variable {relations : RelationSet} {contextOf : Iri → Except Error Iri}

theorem exists_neighbours {w : Iri} {found : Located}
    (hfound : (Catalogue.mk (.reliable t arrival) contextOf).find w = .ok (some found))
    (hread : ∀ r ∈ t.rows, r.graph = found.context → ∃ q, r.toQuad = .ok q)
    (howner : ∀ target, t.LinksOut relations found target →
      ∃ o, (Connection.reliable t arrival).vocabularyOfTerm target = .ok o) :
    ∃ neighbours, (Catalogue.mk (.reliable t arrival) contextOf).neighbours relations w =
      .ok neighbours := by
  have hquads : ∀ p : Pattern, p.limit = none → p.graph = some found.context →
      FailsWith (fun _ => False) ((Connection.reliable t arrival).quads p) := by
    intro p hp hg
    rw [Connection.reliable_quads hp fun r hr hcovers =>
      hread r hr (Pattern.graph_of_covers hg hcovers)]
    exact FailsWith.ok _
  have hterms : FailsWith (fun _ => False)
      ((Catalogue.mk (.reliable t arrival) contextOf).terms found) := by
    rw [terms, Connection.termsAt]
    split
    · exact FailsWith.ok []
    · exact (hquads _ rfl rfl).bind fun quads _ => FailsWith.ok _
  have hlinked : ∀ term, FailsWith (fun _ => False)
      ((Catalogue.mk (.reliable t arrival) contextOf).linkedFrom relations found.context term) :=
    fun term => (hquads _ rfl rfl).bind fun quads _ => FailsWith.ok _
  refine FailsWith.exists_ok (FailsWith.bind ?_ fun next _ => FailsWith.ok _)
  rw [neighbourhood, hfound, ok_bind]
  by_cases hempty : relations.isEmpty = true
  · simp only [hempty, if_true]
    exact FailsWith.ok _
  · simp only [hempty]
    refine hterms.bind fun terms hterms => ?_
    refine FailsWith.bind (mappedFrom_succeeds hlinked ?_) fun owners _ => FailsWith.ok _
    intro term hterm target hlinks
    obtain ⟨glossary, hglossary, hr⟩ := (mem_terms hterms).mp hterm
    exact howner target ⟨glossary, term, hglossary, hr, hlinks⟩

end Catalogue

end

end SkosArchive
