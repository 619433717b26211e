import SkosArchive.Proofs.Neighbours

namespace SkosArchive

namespace Connection

variable {E : Error → Prop}

theorem firstOwner_failsWith (c : Connection) (glossaries : List Iri) :
    FailsWith Error.IsStorage (c.firstOwner glossaries) := by
  induction glossaries with
  | nil => exact FailsWith.ok none
  | cons glossary glossaries ih =>
      refine FailsWith.bind ((c.quads_failsWith _).bind fun quads _ => FailsWith.ok _) fun o _ => ?_
      cases o with
      | none => exact ih
      | some owner => exact FailsWith.ok _

theorem owners_failsWith (c : Connection) (resources : List Iri) :
    FailsWith Error.IsStorage (c.owners resources) := by
  induction resources with
  | nil => exact FailsWith.ok []
  | cons resource resources ih =>
      refine FailsWith.bind ?_ fun owner _ => ih.bind fun rest _ => ?_
      · exact (c.quads_failsWith _).bind fun quads _ => c.firstOwner_failsWith _
      · cases owner <;> exact FailsWith.ok _

end Connection

namespace Catalogue

variable {c : Catalogue} {E : Error → Prop}

theorem mappedFrom_failsWith (c : Catalogue) (relations : RelationSet) (context : Iri)
    (terms : List VocabularyTerm) :
    FailsWith Error.IsStorage (c.mappedFrom relations context terms) := by
  induction terms with
  | nil => exact FailsWith.ok []
  | cons term terms ih =>
      refine FailsWith.bind ((c.connection.quads_failsWith _).bind fun quads _ => FailsWith.ok _)
        fun targets _ => ?_
      refine (c.connection.owners_failsWith targets).bind fun owners _ => ?_
      exact ih.bind fun rest _ => FailsWith.ok _

/-- Besides the storage, only the context of the vocabulary itself can keep its
neighbours from being found. -/
theorem neighbourhood_failsWith_own (c : Catalogue) (relations : RelationSet) (w : Iri) :
    FailsWith (fun e => e.IsStorage ∨ c.contextOf w = .error e) (c.neighbourhood relations w) := by
  refine (c.find_failsWith w).bind fun o _ => ?_
  cases o with
  | none => exact FailsWith.ok _
  | some found =>
      by_cases hempty : relations.isEmpty = true
      · simp only [hempty, if_true]
        exact FailsWith.ok _
      · simp only [hempty]
        refine ((c.terms_failsWith found).bind fun terms _ => ?_).mono fun e => .inl
        exact (c.mappedFrom_failsWith relations _ terms).bind fun owners _ => FailsWith.ok _

theorem linkRelated_failsWith_of_calls {linkGraph w : Iri} (hfind : FailsWith E (c.find w))
    (hterms : ∀ found, FailsWith E (c.terms found)) (hlinks : FailsWith E (c.links linkGraph))
    (howners : ∀ resources, FailsWith E (c.connection.owners resources)) :
    FailsWith E (c.linkRelated linkGraph w) := by
  refine hfind.bind fun o _ => ?_
  cases o with
  | none => exact FailsWith.ok _
  | some found =>
      refine (hterms found).bind fun terms _ => ?_
      by_cases hempty : (terms.map VocabularyTerm.iri).isEmpty = true
      · simp only [hempty, if_true]
        exact FailsWith.ok _
      · simp only [hempty]
        exact hlinks.bind fun links _ => (howners _).bind fun owners _ => FailsWith.ok _

section

variable (hstorage : ∀ e : Error, e.IsStorage → E e)
  (hcontext : ∀ w, FailsWith E (c.contextOf w))

include hstorage hcontext

theorem find_failsWith_of_context (w : Iri) : FailsWith E (c.find w) :=
  (c.find_failsWith w).mono fun e he => he.elim (hstorage e) (hcontext w e)

theorem neighbourhood_failsWith (relations : RelationSet) (w : Iri) :
    FailsWith E (c.neighbourhood relations w) :=
  (c.neighbourhood_failsWith_own relations w).mono fun e he => he.elim (hstorage e) (hcontext w e)

theorem linkRelated_failsWith (linkGraph w : Iri) : FailsWith E (c.linkRelated linkGraph w) := by
  apply linkRelated_failsWith_of_calls
  · exact find_failsWith_of_context hstorage hcontext w
  · exact fun found => (c.terms_failsWith found).mono hstorage
  · exact ((c.connection.quads_failsWith _).mono hstorage).bind fun quads _ => FailsWith.ok _
  · exact fun resources => (c.connection.owners_failsWith resources).mono hstorage

/-- The errors of a related set are those of the storage and of the contexts. -/
theorem related_failsWith (resolver : Resolver) (relations : RelationSet) (w : Iri) :
    FailsWith E (c.related resolver relations w) := by
  cases resolver with
  | skos =>
      exact (neighbourhood_failsWith hstorage hcontext relations w).bind fun next _ =>
        FailsWith.ok _
  | recursive =>
      refine FailsWith.bind (Reachable.explore_failsWith (fun a => ?_) _ _ _) fun reached _ =>
        FailsWith.ok _
      exact (neighbourhood_failsWith hstorage hcontext relations a).bind fun next _ =>
        FailsWith.ok _
  | externalLink linkGraph => exact linkRelated_failsWith hstorage hcontext linkGraph w

end

/-- What a search over a link graph that succeeds has gone through. A vocabulary
without terms is related to itself alone, and its links are not looked at. -/
theorem linkRelated_cases {linkGraph w : Iri} {related : IriSet}
    (h : c.linkRelated linkGraph w = .ok related) :
    (c.find w = .ok none ∧ related = Ascending.ofList [w]) ∨
    ∃ found terms, c.find w = .ok (some found) ∧ c.terms found = .ok terms ∧
      ((terms.map VocabularyTerm.iri = [] ∧ related = Ascending.ofList [w]) ∨
        ∃ links owners, c.links linkGraph = .ok links ∧
          c.connection.owners (links.filterMap
            (TermLink.outerEnd? (terms.map VocabularyTerm.iri))) = .ok owners ∧
          related = Ascending.ofList (w :: owners)) := by
  obtain ⟨o, hfind, h⟩ := bind_eq_ok h
  cases o with
  | none =>
      cases h
      exact .inl ⟨hfind, rfl⟩
  | some found =>
      obtain ⟨terms, hterms, h⟩ := bind_eq_ok h
      refine .inr ⟨found, terms, hfind, hterms, ?_⟩
      by_cases hempty : (terms.map VocabularyTerm.iri).isEmpty = true
      · simp only [hempty, if_true] at h
        cases h
        exact .inl ⟨List.isEmpty_iff.mp hempty, rfl⟩
      · simp only [hempty] at h
        obtain ⟨links, hlinks, h⟩ := bind_eq_ok h
        obtain ⟨owners, howners, h⟩ := bind_eq_ok h
        cases h
        exact .inr ⟨links, owners, hlinks, howners, rfl⟩

theorem mem_related_self {resolver : Resolver} {relations : RelationSet} {w : Iri}
    {related : IriSet} (h : c.related resolver relations w = .ok related) : w ∈ related := by
  cases resolver with
  | skos =>
      obtain ⟨next, -, h⟩ := bind_eq_ok h
      cases h
      exact Ascending.mem_insert.mpr (.inl rfl)
  | recursive => exact ((recursiveRelated_eq_ok h).1 w).mpr .refl
  | externalLink linkGraph =>
      rcases linkRelated_cases h with
        ⟨-, rfl⟩ | ⟨found, terms, -, -, ⟨-, rfl⟩ | ⟨links, owners, -, -, rfl⟩⟩ <;>
        exact Ascending.mem_ofList.mpr List.mem_cons_self

end Catalogue

end SkosArchive
