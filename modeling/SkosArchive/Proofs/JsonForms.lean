import SkosArchive.Config.Json
import SkosArchive.Json.Records
import SkosArchive.Json.Terms
import SkosArchive.Proofs.ExactTimes
import SkosArchive.Proofs.MemberOrder

namespace SkosArchive

open Json

theorem Json.readsAs_instant (t : Instant) : ReadsAs instant? (.instant t) t := by
  rintro _ ⟨⟩
  simp only [instant?, string?, Option.bind_eq_bind, Option.bind_some, String.toList_ofList,
    Rfc3339.readLenient_exactText]

theorem SnapshotKind.ofName?_name (k : SnapshotKind) : ofName? k.name = some k := by
  cases k <;> decide

theorem VocabularyChange.ofName?_name (c : VocabularyChange) : ofName? c.name = some c := by
  cases c <;> decide

theorem SkosProperty.ofName?_name (p : SkosProperty) : ofName? p.name = some p := by
  cases p <;> decide

theorem Strategy.ofName?_name (s : Strategy) : ofName? s.name = some s := by
  cases s <;> decide

theorem Literal.readsAs (l : Literal) : ReadsAs ofJson? l.toJson l := by
  refine readsAs_record (.inl rfl) rfl (by decide) ?_
  -- one value for each field, in the order of the names
  rintro _ (_ | ⟨hvalue, _ | ⟨hlanguage, _ | ⟨hdatatype, _ | _⟩⟩⟩)
  have hvalue := readsAs_string _ _ hvalue
  have hlanguage := readsAs_option rfl readsAs_string _ _ hlanguage
  have hdatatype := readsAs_option rfl readsAs_iri _ _ hdatatype
  simp [hvalue, hlanguage, hdatatype]

theorem Term.readsAs (t : Term) : ReadsAs ofJson? t.toJson t := by
  intro j hj
  cases t with
  | iri i =>
      obtain ⟨content, hcontent, htag⟩ := hj.tagged? ["iri"] rfl (by decide)
      obtain ⟨_, _ | ⟨hiri, _ | _⟩, hfields, -⟩ := hcontent.fields? ["iri"] rfl (by decide)
      have hiri := readsAs_iri _ _ hiri
      simp [ofJson?, htag, hfields, hiri]
  | literal l =>
      obtain ⟨content, hcontent, htag⟩ := hj.tagged? ["literal"] rfl (by decide)
      obtain ⟨_, _ | ⟨hliteral, _ | _⟩, hfields, -⟩ := hcontent.fields? ["literal"] rfl (by decide)
      have hliteral := l.readsAs _ hliteral
      simp [ofJson?, htag, hfields, hliteral]

theorem Quad.readsAs (q : Quad) : ReadsAs ofJson? q.toJson q := by
  refine readsAs_record (.inl rfl) rfl (by decide) ?_
  rintro _ (_ | ⟨hsubject, _ | ⟨hpredicate, _ | ⟨hobject, _ | ⟨hgraph, _ | _⟩⟩⟩⟩)
  have hsubject := readsAs_iri _ _ hsubject
  have hpredicate := readsAs_iri _ _ hpredicate
  have hobject := q.object.readsAs _ hobject
  have hgraph := readsAs_iri _ _ hgraph
  simp [hsubject, hpredicate, hobject, hgraph]

theorem Vocabulary.readsAs (v : Vocabulary) : ReadsAs ofJson? v.toJson v := by
  refine readsAs_record (.inl rfl) rfl (by decide) ?_
  rintro _ (_ | ⟨hiri, _ | ⟨hglossary, _ | ⟨hdocument, _ | ⟨himports, _ | ⟨hlanguage, _ | _⟩⟩⟩⟩⟩)
  have hiri := readsAs_iri _ _ hiri
  have hglossary := readsAs_option rfl readsAs_iri _ _ hglossary
  have hdocument := readsAs_option rfl readsAs_iri _ _ hdocument
  have himports : iris? _ = _ := readsAs_ascending readsAs_iri _ _ himports
  have hlanguage := readsAs_option rfl readsAs_string _ _ hlanguage
  simp [hiri, hglossary, hdocument, himports, hlanguage]

theorem VocabularyTerm.readsAs (t : VocabularyTerm) : ReadsAs ofJson? t.toJson t := by
  refine readsAs_record (.inl rfl) rfl (by decide) ?_
  rintro _ (_ | ⟨hiri, _ | ⟨hvocabulary, _ | ⟨hglossary, _ | _⟩⟩⟩)
  have hiri := readsAs_iri _ _ hiri
  have hvocabulary := readsAs_iri _ _ hvocabulary
  have hglossary := readsAs_iri _ _ hglossary
  simp [hiri, hvocabulary, hglossary]

theorem Snapshot.readsAs (s : Snapshot) : ReadsAs ofJson? s.toJson s := by
  refine readsAs_record (.inl rfl) rfl (by decide) ?_
  rintro _ (_ | ⟨hiri, _ | ⟨hcreated, _ | ⟨hversionOf, _ | ⟨hkind, _ | _⟩⟩⟩⟩)
  have hiri := readsAs_iri _ _ hiri
  have hcreated := readsAs_instant _ _ hcreated
  have hversionOf := readsAs_iri _ _ hversionOf
  have hkind := readsAs_constant SnapshotKind.ofName?_name _ _ hkind
  simp [hiri, hcreated, hversionOf, hkind]

theorem VocabularyEvent.readsAs (e : VocabularyEvent) : ReadsAs ofJson? e.toJson e := by
  intro j hj
  obtain ⟨content, hcontent, htag⟩ := hj.tagged? ["vocabulary"] rfl (by decide)
  obtain ⟨_, _ | ⟨hvocabulary, _ | _⟩, hfields, -⟩ :=
    hcontent.fields? ["vocabulary"] rfl (by decide)
  have hvocabulary := readsAs_iri _ _ hvocabulary
  simp [ofJson?, htag, hfields, hvocabulary, VocabularyChange.ofName?_name]

theorem WorkingCopy.readsAs (c : WorkingCopy) : ReadsAs ofJson? c.toJson c := by
  refine readsAs_record (.inl rfl) rfl (by decide) ?_
  rintro _ (_ | ⟨hvocabulary, _ | ⟨hcontext, _ | ⟨hchanges, _ | _⟩⟩⟩)
  have hvocabulary := readsAs_iri _ _ hvocabulary
  have hcontext := readsAs_iri _ _ hcontext
  have hchanges := readsAs_option rfl readsAs_iri _ _ hchanges
  simp [hvocabulary, hcontext, hchanges]

namespace Workspace

/-- The copies are read back in whatever order a map has written them. -/
theorem copies_readsAs (copies : IriMap WorkingCopy) : ReadsAs copiesOfJson?
    (.object (copies.entries.map fun e => (e.1.text, e.2.toJson))) copies := by
  rintro _ (_ | _ | _ | _ | _ | ⟨hmembers, hperm⟩)
  have hread : ∀ (e : Iri × WorkingCopy) (m : String × Json),
      ReordersMember (e.1.text, e.2.toJson) m →
      (do return (Iri.mk m.1, ← WorkingCopy.ofJson? m.2)) = some e := by
    rintro e _ ⟨_, hcopy⟩
    have hcopy := e.2.readsAs _ hcopy
    simp [hcopy]
  rw [List.forall₂_map_left_iff] at hmembers
  obtain ⟨entries, hentries, hsame⟩ :=
    List.perm_comp_forall₂ hperm.symm (hmembers.imp hread).flip
  have hall := mapM_eq_some hentries
  rw [copiesOfJson?, hall]
  exact congrArg some (IriMap.ofList_of_perm hsame)

theorem readsAs (w : Workspace) : ReadsAs ofJson? w.toJson w := by
  refine readsAs_record (.inl rfl) rfl (by decide) ?_
  rintro _ (_ | ⟨hiri, _ | ⟨hcopies, _ | _⟩⟩)
  have hiri := readsAs_iri _ _ hiri
  have hcopies := copies_readsAs _ _ hcopies
  simp [hiri, hcopies]

end Workspace

theorem RelationSet.readsAs (s : RelationSet) : ReadsAs RelationSet.ofJson? s.toJson s :=
  readsAs_ascending (readsAs_constant SkosProperty.ofName?_name) s

theorem RelationConfig.readsAs (c : RelationConfig) : ReadsAs ofJson? c.toJson c := by
  refine readsAs_record (.inr rfl) rfl (by decide) ?_
  rintro _ (_ | ⟨hstrategy, _ | ⟨hproperties, _ | ⟨hlinkGraph, _ | _⟩⟩⟩)
  have hstrategy := readsAs_constant Strategy.ofName?_name _ _ hstrategy
  have hproperties := c.properties.readsAs _ hproperties
  have hlinkGraph := readsAs_option rfl readsAs_iri _ _ hlinkGraph
  simp [hstrategy, hproperties, hlinkGraph]

theorem SnapshotConfig.readsAs (c : SnapshotConfig) : ReadsAs ofJson? c.toJson c := by
  refine readsAs_record (.inr rfl) rfl (by decide) ?_
  rintro _ (_ | ⟨hseparator, _ | ⟨hcascade, _ | _⟩⟩)
  have hseparator := readsAs_string _ _ hseparator
  have hcascade := c.cascade.readsAs _ hcascade
  simp [hseparator, hcascade]

theorem DropConfig.readsAs (c : DropConfig) : ReadsAs ofJson? c.toJson c := by
  refine readsAs_record (.inr rfl) rfl (by decide) ?_
  rintro _ (_ | ⟨hseconds, _ | _⟩)
  have hseconds := readsAs_word _ _ hseconds
  simp [hseconds]

theorem Config.readsAs (c : Config) : ReadsAs ofJson? c.toJson c := by
  refine readsAs_record (.inr rfl) rfl (by decide) ?_
  rintro _ (_ | ⟨hcache, _ | ⟨hrelations, _ | ⟨hsnapshots, _ | ⟨hdrops, _ | _⟩⟩⟩⟩)
  have hcache := readsAs_bool _ _ hcache
  have hrelations := c.relations.readsAs _ hrelations
  have hsnapshots := c.snapshots.readsAs _ hsnapshots
  have hdrops := c.drops.readsAs _ hdrops
  simp [hcache, hrelations, hsnapshots, hdrops]

namespace Json

/-- A value is read from what is written for it, and from the same with the members of
objects in another order. -/
structure ReadsBack {α : Type} (write : α → Json) (read : Json → Option α) : Prop where
  asWritten : ∀ a, read (write a) = some a
  reordered : ∀ a j, Reorders (write a) j → read j = some a

theorem readsBack_of_readsAs {α : Type} {write : α → Json} {read : Json → Option α}
    (h : ∀ a, ReadsAs read (write a) a) : ReadsBack write read :=
  ⟨fun a => h a _ (.refl _), h⟩

/-- Every form that is written is read back: of terms and quads, of vocabularies and
their terms, of snapshots at any instant, of workspaces and of configurations. -/
theorem forms_readBack :
    ReadsBack Json.iri Json.iri? ∧
    ReadsBack Literal.toJson Literal.ofJson? ∧
    ReadsBack Term.toJson Term.ofJson? ∧
    ReadsBack Quad.toJson Quad.ofJson? ∧
    ReadsBack Vocabulary.toJson Vocabulary.ofJson? ∧
    ReadsBack VocabularyTerm.toJson VocabularyTerm.ofJson? ∧
    ReadsBack Snapshot.toJson Snapshot.ofJson? ∧
    ReadsBack RelationSet.toJson RelationSet.ofJson? ∧
    ReadsBack VocabularyEvent.toJson VocabularyEvent.ofJson? ∧
    ReadsBack Workspace.toJson Workspace.ofJson? ∧
    ReadsBack Config.toJson Config.ofJson? :=
  ⟨readsBack_of_readsAs readsAs_iri, readsBack_of_readsAs Literal.readsAs,
    readsBack_of_readsAs Term.readsAs, readsBack_of_readsAs Quad.readsAs,
    readsBack_of_readsAs Vocabulary.readsAs, readsBack_of_readsAs VocabularyTerm.readsAs,
    readsBack_of_readsAs Snapshot.readsAs, readsBack_of_readsAs RelationSet.readsAs,
    readsBack_of_readsAs VocabularyEvent.readsAs, readsBack_of_readsAs Workspace.readsAs,
    readsBack_of_readsAs Config.readsAs⟩

example :
    Workspace.ofJson? (.object [
      ("vocabularies", .object [
        ("b", .object [("context", .string "y"), ("vocabulary", .string "b")]),
        ("a", .object [("vocabulary", .string "a"), ("context", .string "x")])]),
      ("workspace", .string "w")]) =
    some ⟨⟨"w"⟩, IriMap.ofList [(⟨"a"⟩, ⟨⟨"a"⟩, ⟨"x"⟩, none⟩), (⟨"b"⟩, ⟨⟨"b"⟩, ⟨"y"⟩, none⟩)]⟩ := by
  decide

end Json

end SkosArchive
