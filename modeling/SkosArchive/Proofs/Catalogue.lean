import SkosArchive.Context.Index
import SkosArchive.Proofs.Storage
import SkosArchive.Snapshot.Basic
import SkosArchive.Vocabulary.Catalogue

namespace SkosArchive

/-- The catalogue that snapshots are taken from: contexts are those of the
cache. -/
def Connection.catalogue (c : Connection) (cache : ContextCache) : Catalogue :=
  ⟨c, cache.contextOf c⟩

/-- Some graph gives `asset` the type of a snapshot. -/
def Store.IsSnapshot (s : Store) (asset : Iri) : Prop :=
  ∃ kind : SnapshotKind, ∃ g, .ofQuad ⟨asset, Names.type, .iri kind.type, g⟩ ∈ s.rows

/-- Some graph declares `vocabulary` a vocabulary. -/
def Store.Declares (s : Store) (vocabulary : Iri) : Prop :=
  ∃ g, .ofQuad ⟨vocabulary, Names.type, .iri Names.vocabulary, g⟩ ∈ s.rows

theorem Store.ask_type {s : Store} {asset type : Iri} :
    s.ask { subject := some asset, predicate := some Names.type, object := some (.iri type) } =
      true ↔ ∃ g, .ofQuad ⟨asset, Names.type, .iri type, g⟩ ∈ s.rows := by
  rw [ask_eq_true]
  constructor
  · rintro ⟨⟨g, u, p, o, kind, language, datatype⟩, hr, hcovers⟩
    simp only [Pattern.covers, Row.objectColumns, Option.all_some, Option.all_none,
      Bool.true_and, Bool.and_eq_true, decide_eq_true_eq, Prod.mk.injEq] at hcovers
    obtain ⟨⟨rfl, rfl⟩, rfl, rfl, rfl, rfl⟩ := hcovers
    exact ⟨g, hr⟩
  · rintro ⟨g, hr⟩
    exact ⟨_, hr, by simp [Pattern.covers, Row.ofQuad, Row.objectColumns]⟩

namespace Connection

variable {c : Connection}

theorem hasType_eq_ok {asset type : Iri} {b : Bool} (h : c.hasType asset type = .ok b) :
    b = true ↔ ∃ g, .ofQuad ⟨asset, Names.type, .iri type, g⟩ ∈ c.store.rows := by
  rw [← ask_of_holds h]
  exact Store.ask_type

theorem isDeclared_eq_ok {vocabulary : Iri} {b : Bool} (h : c.isDeclared vocabulary = .ok b) :
    b = true ↔ c.store.Declares vocabulary := by
  rw [← ask_of_holds h]
  exact Store.ask_type

theorem isSnapshot_eq_ok {asset : Iri} {b : Bool} (h : c.isSnapshot asset = .ok b) :
    b = true ↔ c.store.IsSnapshot asset := by
  obtain ⟨ofVocabulary, hvocabulary, h⟩ := bind_eq_ok h
  replace hvocabulary := hasType_eq_ok hvocabulary
  cases ofVocabulary with
  | true =>
      cases h
      exact iff_of_true rfl ⟨.vocabulary, hvocabulary.mp rfl⟩
  | false =>
      rw [hasType_eq_ok h]
      constructor
      · rintro ⟨g, hg⟩
        exact ⟨.term, g, hg⟩
      · rintro ⟨kind, hkind⟩
        cases kind with
        | vocabulary => exact absurd (hvocabulary.mpr hkind) Bool.false_ne_true
        | term => exact hkind

theorem isSnapshot_failsWith (c : Connection) (asset : Iri) :
    FailsWith Error.IsStorage (c.isSnapshot asset) := by
  refine (c.holds_failsWith _).bind fun b _ => ?_
  cases b with
  | true => exact FailsWith.ok true
  | false => exact c.holds_failsWith _

end Connection

namespace Vocabulary

theorem mem_objectsOf {quads : List Quad} {predicate : Iri} {o : Term} :
    o ∈ objectsOf quads predicate ↔ ∃ q ∈ quads, q.predicate = predicate ∧ q.object = o := by
  simp only [objectsOf, List.mem_map, List.mem_filter, decide_eq_true_eq, and_assoc]

theorem mem_of_findSome?_iri? {quads : List Quad} {predicate i : Iri}
    (h : (objectsOf quads predicate).findSome? Term.iri? = some i) :
    ∃ q ∈ quads, q.predicate = predicate ∧ q.object = .iri i := by
  obtain ⟨o, ho, hi⟩ := List.exists_of_findSome?_eq_some h
  rw [Term.iri?_eq_some] at hi
  subst hi
  exact mem_objectsOf.mp ho

theorem mem_imports {w i : Iri} {quads : List Quad} :
    i ∈ (describe w quads).imports ↔
      ∃ q ∈ quads, q.predicate = Names.importsVocabulary ∧ q.object = .iri i := by
  simp only [describe, Ascending.mem_ofList, List.mem_filterMap, Term.iri?_eq_some,
    exists_eq_right, mem_objectsOf]

/-- Where the quads name one glossary at most, it is the one that counts. -/
theorem glossary_eq_some {w glossary : Iri} {quads : List Quad}
    (hone : ∀ q ∈ quads, ∀ q' ∈ quads, q.predicate = Names.hasGlossary →
      q'.predicate = Names.hasGlossary → ∀ g g', q.object = .iri g → q'.object = .iri g' → g = g') :
    (describe w quads).glossary = some glossary ↔
      ∃ q ∈ quads, q.predicate = Names.hasGlossary ∧ q.object = .iri glossary := by
  constructor
  · exact mem_of_findSome?_iri?
  · rintro ⟨q, hq, hpredicate, ho⟩
    cases hfirst : (describe w quads).glossary with
    | none =>
        have hall := List.findSome?_eq_none_iff.mp hfirst
        have hnone := hall _ (mem_objectsOf.mpr ⟨q, hq, hpredicate, ho⟩)
        cases hnone
    | some first =>
        obtain ⟨q', hq', hpredicate', ho'⟩ := mem_of_findSome?_iri? hfirst
        rw [hone q' hq' q hq hpredicate' hpredicate first glossary ho' ho]

end Vocabulary

namespace Catalogue

variable {c : Catalogue}

theorem find_eq_ok {w : Iri} {o : Option Located} (h : c.find w = .ok o) :
    ∃ context quads, c.contextOf w = .ok context ∧
      c.connection.quads { graph := some context, subject := some w } = .ok quads ∧
        o = if quads = [] then none else some ⟨Vocabulary.describe w quads, context⟩ := by
  obtain ⟨context, hcontext, h⟩ := bind_eq_ok h
  obtain ⟨found, hfound, h⟩ := bind_eq_ok h
  obtain ⟨quads, hquads, hfound⟩ := bind_eq_ok hfound
  cases h
  cases hfound
  refine ⟨context, quads, hcontext, hquads, ?_⟩
  cases quads <;> rfl

/-- A vocabulary that is found is read from its context, which describes it;
one that is not found has a context without a description of it. -/
theorem find_cases {w : Iri} {o : Option Located} (h : c.find w = .ok o) :
    ∃ context, c.contextOf w = .ok context ∧
      (o = none ∧ ¬ c.connection.store.Describes context w ∨
        ∃ found, o = some found ∧ c.connection.store.Describes context w ∧
          found.context = context ∧ found.vocabulary.iri = w) := by
  obtain ⟨context, quads, hcontext, hquads, rfl⟩ := find_eq_ok h
  have hdescribes : quads ≠ [] ↔ c.connection.store.Describes context w := by
    rw [Connection.quads_ne_nil rfl hquads]
    exact exists_congr fun r => and_congr_right fun _ => Pattern.covers_description
  refine ⟨context, hcontext, ?_⟩
  by_cases hnil : quads = []
  · exact .inl ⟨if_pos hnil, fun hd => hdescribes.mpr hd hnil⟩
  · exact .inr ⟨_, if_neg hnil, hdescribes.mp hnil, rfl, rfl⟩

/-- A vocabulary that is found is described by the quads about it in its
context. -/
theorem find_description {w : Iri} {found : Located} (h : c.find w = .ok (some found)) :
    ∃ quads, quads ≠ [] ∧ found.vocabulary = Vocabulary.describe w quads ∧
      ∀ q, q ∈ quads ↔
        c.connection.store.Reads q ∧ q.graph = found.context ∧ q.subject = w := by
  obtain ⟨context, quads, -, hquads, ho⟩ := find_eq_ok h
  by_cases hnil : quads = []
  · rw [if_pos hnil] at ho
    cases ho
  · rw [if_neg hnil] at ho
    cases ho
    exact ⟨quads, hnil, rfl, fun q => Connection.mem_description hquads⟩

theorem contextOf_of_find {w : Iri} {found : Located} (h : c.find w = .ok (some found)) :
    c.contextOf w = .ok found.context := by
  obtain ⟨context, hcontext, ⟨ho, -⟩ | ⟨_, ho, -, hfound, -⟩⟩ := find_cases h
  · cases ho
  · cases ho
    rwa [hfound]

theorem exists_find {w context : Iri} {quads : List Quad} (hcontext : c.contextOf w = .ok context)
    (hquads : c.connection.quads { graph := some context, subject := some w } = .ok quads)
    (hdescribes : c.connection.store.Describes context w) :
    ∃ found, c.find w = .ok (some found) ∧ found.context = context := by
  have hfind : ∃ o, c.find w = .ok o := by
    rw [find, hcontext, ok_bind, Connection.vocabularyAt, hquads]
    exact ⟨_, rfl⟩
  obtain ⟨o, ho⟩ := hfind
  obtain ⟨context', hcontext', ⟨-, hnot⟩ | ⟨found, rfl, -, rfl, -⟩⟩ := find_cases ho
  · rw [hcontext] at hcontext'
    cases hcontext'
    exact absurd hdescribes hnot
  · rw [hcontext] at hcontext'
    cases hcontext'
    exact ⟨found, ho, rfl⟩

theorem mem_statements {w predicate i : Iri} {found : Located} {quads : List Quad}
    (hquads : ∀ q, q ∈ quads ↔
      c.connection.store.Reads q ∧ q.graph = found.context ∧ q.subject = w) :
    (∃ q ∈ quads, q.predicate = predicate ∧ q.object = .iri i) ↔
      c.connection.store.Reads ⟨w, predicate, .iri i, found.context⟩ := by
  constructor
  · rintro ⟨⟨u, p, o, g⟩, hq, rfl, rfl⟩
    obtain ⟨hreads, rfl, rfl⟩ := (hquads _).mp hq
    exact hreads
  · exact fun hreads => ⟨_, (hquads _).mpr ⟨hreads, rfl, rfl⟩, rfl, rfl⟩

theorem imports_of_find {w i : Iri} {found : Located} (h : c.find w = .ok (some found)) :
    i ∈ found.vocabulary.imports ↔
      c.connection.store.Reads ⟨w, Names.importsVocabulary, .iri i, found.context⟩ := by
  obtain ⟨quads, -, hfound, hquads⟩ := find_description h
  rw [hfound, Vocabulary.mem_imports, mem_statements hquads]

theorem glossary_of_find {w glossary : Iri} {found : Located} (h : c.find w = .ok (some found))
    (hone : ∀ g g', c.connection.store.Reads ⟨w, Names.hasGlossary, .iri g, found.context⟩ →
      c.connection.store.Reads ⟨w, Names.hasGlossary, .iri g', found.context⟩ → g = g') :
    found.vocabulary.glossary = some glossary ↔
      c.connection.store.Reads ⟨w, Names.hasGlossary, .iri glossary, found.context⟩ := by
  obtain ⟨quads, -, hfound, hquads⟩ := find_description h
  rw [hfound, Vocabulary.glossary_eq_some, mem_statements hquads]
  intro q hq q' hq' hp hp' g g' ho ho'
  exact hone g g' ((mem_statements hquads).mp ⟨q, hq, hp, ho⟩)
    ((mem_statements hquads).mp ⟨q', hq', hp', ho'⟩)

theorem find_eq_some {w : Iri} {found : Located} (h : c.find w = .ok (some found)) :
    ∃ quads, quads ≠ [] ∧ found.vocabulary = Vocabulary.describe w quads ∧
      ∀ q ∈ quads, c.connection.store.Reads q ∧ q.graph = found.context ∧ q.subject = w := by
  obtain ⟨quads, hnil, hfound, hquads⟩ := find_description h
  exact ⟨quads, hnil, hfound, fun q => (hquads q).mp⟩

theorem find_failsWith (c : Catalogue) (w : Iri) :
    FailsWith (fun e => e.IsStorage ∨ c.contextOf w = .error e) (c.find w) := by
  refine FailsWith.bind (fun e he => .inr he) fun context _ => ?_
  refine (FailsWith.bind (c.connection.quads_failsWith _) fun quads _ => ?_).bind
    (fun o _ => FailsWith.ok _) |>.mono fun e he => .inl he
  exact FailsWith.ok _

/-- The terms are what stands in the scheme of the glossary within the context. -/
theorem mem_terms {found : Located} {terms : List VocabularyTerm}
    (h : c.terms found = .ok terms) {i : Iri} :
    i ∈ terms.map VocabularyTerm.iri ↔ ∃ glossary, found.vocabulary.glossary = some glossary ∧
      .ofQuad ⟨i, Names.inScheme, .iri glossary, found.context⟩ ∈ c.connection.store.rows := by
  rw [Catalogue.terms, Connection.termsAt] at h
  split at h
  · rename_i hglossary
    cases h
    simp [hglossary]
  · rename_i glossary hglossary
    obtain ⟨quads, hquads, h⟩ := bind_eq_ok h
    cases h
    rw [Connection.quads_eq_ok rfl rfl hquads, List.map_map, List.mem_map]
    simp only [hglossary, Option.some.injEq, exists_eq_left']
    constructor
    · rintro ⟨⟨u, p, o, g⟩, hq, rfl⟩
      obtain ⟨ho, hr, hg, -, hp⟩ := Store.mem_quads_iri.mp hq
      simp only [Option.all_some, decide_eq_true_eq] at ho hg hp
      subst ho hg hp
      exact hr
    · intro hr
      exact ⟨_, Store.mem_quads_iri.mpr ⟨rfl, hr, by simp, rfl, by simp⟩, rfl⟩

theorem terms_failsWith (c : Catalogue) (found : Located) :
    FailsWith Error.IsStorage (c.terms found) := by
  rw [terms, Connection.termsAt]
  split
  · exact FailsWith.ok []
  · exact (c.connection.quads_failsWith _).bind fun quads _ => FailsWith.ok _

end Catalogue

end SkosArchive
