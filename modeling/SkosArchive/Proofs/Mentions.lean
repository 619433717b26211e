import SkosArchive.Proofs.Catalogue
import SkosArchive.Relation.Related

namespace SkosArchive

namespace Store

variable {s : Store} {q : Quad}

theorem mentions_subject (h : s.Reads q) : s.Mentions q.subject := ⟨q, h, .inl rfl⟩

theorem mentions_object {i : Iri} (h : s.Reads q) (hi : q.object = .iri i) : s.Mentions i :=
  ⟨q, h, .inr hi⟩

theorem mentions_of_mem_objects {quads : List Quad} (h : ∀ q ∈ quads, s.Reads q) {i : Iri}
    (hi : i ∈ quads.filterMap Quad.objectIri?) : s.Mentions i := by
  obtain ⟨q, hq, hi⟩ := List.mem_filterMap.mp hi
  exact mentions_object (h q hq) (Term.iri?_eq_some.mp hi)

end Store

namespace Connection

/-- Every owner found is mentioned in the store. -/
theorem firstOwner_mentioned (c : Connection) (glossaries : List Iri) :
    Yields (fun o => ∀ i, o = some i → c.store.Mentions i) (c.firstOwner glossaries) := by
  have howner : ∀ glossary, Yields (fun o => ∀ i, o = some i → c.store.Mentions i)
      (c.ownerOfGlossary glossary) := by
    intro glossary o ho i hi
    obtain ⟨quads, hquads, ho⟩ := bind_eq_ok ho
    cases ho
    obtain ⟨q, hq, rfl⟩ := Option.map_eq_some_iff.mp hi
    exact Store.mentions_subject (reads_of_quads hquads (List.mem_of_mem_head? hq))
  induction glossaries with
  | nil => exact Yields.ok nofun
  | cons glossary glossaries ih =>
      refine (howner glossary).bind fun o ho => ?_
      cases o with
      | none => exact ih
      | some owner => exact Yields.ok ho

theorem owners_mentioned (c : Connection) (resources : List Iri) :
    Yields (fun l => ∀ i ∈ l, c.store.Mentions i) (c.owners resources) := by
  induction resources with
  | nil => exact Yields.ok nofun
  | cons resource resources ih =>
      have howner : Yields (fun o => ∀ i, o = some i → c.store.Mentions i)
          (c.vocabularyOfTerm resource) := by
        intro o ho
        obtain ⟨quads, -, ho⟩ := bind_eq_ok ho
        exact c.firstOwner_mentioned _ o ho
      refine howner.bind fun o ho => ih.bind fun rest hrest => ?_
      cases o with
      | none => exact Yields.ok hrest
      | some owner => exact Yields.ok (List.forall_mem_cons.mpr ⟨ho owner rfl, hrest⟩)

end Connection

namespace Catalogue

variable {c : Catalogue}

theorem imports_mentioned {w i : Iri} {found : Located} (h : c.find w = .ok (some found))
    (hi : i ∈ found.vocabulary.imports) : c.connection.store.Mentions i := by
  obtain ⟨quads, -, hfound, hread⟩ := find_eq_some h
  rw [hfound] at hi
  obtain ⟨q, hq, -, ho⟩ := Vocabulary.mem_imports.mp hi
  exact Store.mentions_object (hread q hq).1 ho

theorem linkedFrom_mentioned (c : Catalogue) (relations : RelationSet) (context term : Iri) :
    Yields (fun l => ∀ i ∈ l, c.connection.store.Mentions i)
      (c.linkedFrom relations context term) := by
  intro l hl i hi
  obtain ⟨quads, hquads, hl⟩ := bind_eq_ok hl
  cases hl
  exact Store.mentions_of_mem_objects
    (fun q hq => Connection.reads_of_quads hquads (List.mem_filter.mp hq).1) hi

theorem mappedFrom_mentioned (c : Catalogue) (relations : RelationSet) (context : Iri)
    (terms : List VocabularyTerm) :
    Yields (fun l => ∀ i ∈ l, c.connection.store.Mentions i)
      (c.mappedFrom relations context terms) := by
  induction terms with
  | nil => exact Yields.ok nofun
  | cons term terms ih =>
      refine (c.linkedFrom_mentioned _ _ _).bind fun targets _ => ?_
      refine (c.connection.owners_mentioned targets).bind fun owners howners => ?_
      refine ih.bind fun rest hrest => Yields.ok fun i hi => ?_
      exact (List.mem_append.mp hi).elim (howners i) (hrest i)

theorem neighbours_mentioned (c : Catalogue) (relations : RelationSet) (w : Iri) :
    Yields (fun l => ∀ i ∈ l, c.connection.store.Mentions i) (c.neighbours relations w) := by
  have hneighbourhood : Yields (fun next => (∀ i ∈ next.mapped, c.connection.store.Mentions i) ∧
      ∀ i ∈ next.imports, c.connection.store.Mentions i) (c.neighbourhood relations w) := by
    intro next hnext
    obtain ⟨o, ho, hnext⟩ := bind_eq_ok hnext
    cases o with
    | none =>
        cases hnext
        exact ⟨nofun, nofun⟩
    | some found =>
        have himports := fun i (hi : i ∈ found.vocabulary.imports) => imports_mentioned ho hi
        by_cases hempty : relations.isEmpty = true
        · simp only [hempty, if_true] at hnext
          cases hnext
          exact ⟨nofun, himports⟩
        · simp only [hempty] at hnext
          obtain ⟨terms, -, hnext⟩ := bind_eq_ok hnext
          obtain ⟨owners, howners, hnext⟩ := bind_eq_ok hnext
          cases hnext
          refine ⟨fun i hi => ?_, himports⟩
          exact c.mappedFrom_mentioned _ _ _ _ howners i
            (List.mem_filter.mp (Ascending.mem_ofList.mp hi)).1
  refine hneighbourhood.bind fun next hnext => Yields.ok fun i hi => ?_
  exact (List.mem_append.mp hi).elim (hnext.1 i) (hnext.2 i)

/-- The ends of the links of a graph are mentioned in the store. -/
theorem links_mentioned (c : Catalogue) (linkGraph : Iri) :
    Yields (fun links => ∀ link ∈ links, ∀ i, link.source = some i ∨ link.target = some i →
      c.connection.store.Mentions i) (c.links linkGraph) := by
  intro links hlinks link hlink i hi
  obtain ⟨quads, hquads, hlinks⟩ := bind_eq_ok hlinks
  cases hlinks
  obtain ⟨node, -, rfl⟩ := List.mem_map.mp hlink
  have hend : ∀ predicate, ((Vocabulary.objectsOf (quads.filter fun q => q.subject = node)
      predicate).getLast?.bind Term.iri?) = some i → c.connection.store.Mentions i := by
    intro predicate h
    obtain ⟨o, ho, hoi⟩ := Option.bind_eq_some_iff.mp h
    obtain ⟨q, hq, -, rfl⟩ := Vocabulary.mem_objectsOf.mp (List.mem_of_getLast? ho)
    exact Store.mentions_object
      (Connection.reads_of_quads hquads (List.mem_filter.mp hq).1) (Term.iri?_eq_some.mp hoi)
  exact hi.elim (hend _) (hend _)

end Catalogue

namespace TermLink

theorem outerEnd?_eq_some {terms : List Iri} {link : TermLink} {o : Iri} :
    link.outerEnd? terms = some o ↔ o ∉ terms ∧
      ∃ a ∈ terms, link = ⟨some a, some o, true⟩ ∨ link = ⟨some o, some a, true⟩ := by
  constructor
  · intro h
    obtain ⟨source, target, active⟩ := link
    rcases source with _ | source
    · cases h
    · rcases target with _ | target
      · cases h
      · cases active with
        | false => cases h
        | true =>
            rw [outerEnd?] at h
            split at h
            · rename_i hends
              cases h
              exact ⟨hends.2, source, hends.1, .inl rfl⟩
            · split at h
              · rename_i hends
                cases h
                exact ⟨hends.1, target, hends.2, .inr rfl⟩
              · cases h
  · rintro ⟨ho, a, ha, rfl | rfl⟩
    · simp [outerEnd?, ho, ha]
    · simp [outerEnd?, ho, ha]

theorem end_of_outerEnd? {link : TermLink} {terms : List Iri} {i : Iri}
    (h : link.outerEnd? terms = some i) : link.source = some i ∨ link.target = some i := by
  obtain ⟨-, _, -, rfl | rfl⟩ := outerEnd?_eq_some.mp h
  · exact .inr rfl
  · exact .inl rfl

end TermLink

end SkosArchive
