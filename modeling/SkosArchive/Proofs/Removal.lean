import SkosArchive.Proofs.Catalogue
import SkosArchive.Snapshot.Removal

namespace SkosArchive

theorem SnapshotKind.ofType?_eq_some {i : Iri} {kind : SnapshotKind} :
    ofType? i = some kind ↔ i = kind.type := by
  constructor
  · intro h
    simpa [eq_comm] using List.find?_some h
  · rintro rfl
    cases kind <;> decide

namespace Snapshot

theorem getLast?_objectsOf {quads : List Quad} {predicate : Iri}
    (h : ∃ q ∈ quads, q.predicate = predicate) :
    ∃ q ∈ quads, q.predicate = predicate ∧
      (Vocabulary.objectsOf quads predicate).getLast? = some q.object := by
  obtain ⟨q, hq, hp⟩ := h
  have hne : Vocabulary.objectsOf quads predicate ≠ [] :=
    List.ne_nil_of_mem (Vocabulary.mem_objectsOf.mpr ⟨q, hq, hp, rfl⟩)
  obtain ⟨q', hq', hp', ho⟩ := Vocabulary.mem_objectsOf.mp (List.getLast_mem hne)
  exact ⟨q', hq', hp', by rw [List.getLast?_eq_some_getLast hne, ho]⟩

/-- Some quad gives the type of a snapshot of this kind. -/
def Types (quads : List Quad) (kind : SnapshotKind) : Prop :=
  ∃ q ∈ quads, q.predicate = Names.type ∧ q.object = .iri kind.type

/-- The kind that the quads give a snapshot. -/
def OfKind (quads : List Quad) : SnapshotKind → Prop
  | .vocabulary => Types quads .vocabulary
  | .term => Types quads .term ∧ ¬ Types quads .vocabulary

theorem OfKind.types {quads : List Quad} {kind : SnapshotKind} (h : OfKind quads kind) :
    Types quads kind := by
  cases kind with
  | vocabulary => exact h
  | term => exact h.1

/-- The kinds of snapshot whose types the quads state. -/
def kinds (quads : List Quad) : List SnapshotKind :=
  (Vocabulary.objectsOf quads Names.type).filterMap fun o => o.iri?.bind SnapshotKind.ofType?

theorem mem_kinds {quads : List Quad} {kind : SnapshotKind} :
    kind ∈ kinds quads ↔ Types quads kind := by
  simp only [kinds, List.mem_filterMap, Option.bind_eq_some_iff, Term.iri?_eq_some,
    SnapshotKind.ofType?_eq_some]
  constructor
  · rintro ⟨_, ho, _, rfl, rfl⟩
    exact Vocabulary.mem_objectsOf.mp ho
  · exact fun h => ⟨_, Vocabulary.mem_objectsOf.mpr h, _, rfl, rfl⟩

/-- Of the kinds stated, that of a vocabulary snapshot prevails. -/
def kind? (quads : List Quad) : Option SnapshotKind :=
  if .vocabulary ∈ kinds quads then some .vocabulary else (kinds quads).head?

theorem kind?_eq_some {quads : List Quad} {kind : SnapshotKind} :
    kind? quads = some kind ↔ OfKind quads kind := by
  rw [kind?]
  by_cases hvocabulary : .vocabulary ∈ kinds quads
  · rw [if_pos hvocabulary, Option.some.injEq]
    rw [mem_kinds] at hvocabulary
    cases kind with
    | vocabulary => exact iff_of_true rfl hvocabulary
    | term => exact iff_of_false (fun h => nomatch h) fun h => h.2 hvocabulary
  · rw [if_neg hvocabulary]
    have hterm : ∀ kind ∈ kinds quads, kind = .term := by
      intro kind hkind
      cases kind with
      | vocabulary => exact absurd hkind hvocabulary
      | term => rfl
    have hhead : (kinds quads).head? = some kind ↔ kind ∈ kinds quads := by
      cases hkinds : kinds quads with
      | nil => simp
      | cons first rest =>
          rw [hkinds] at hterm
          rw [List.head?_cons, Option.some.injEq]
          refine ⟨fun h => h ▸ List.mem_cons_self, fun h => ?_⟩
          rw [hterm kind h, hterm first List.mem_cons_self]
    rw [hhead, mem_kinds]
    rw [mem_kinds] at hvocabulary
    cases kind with
    | vocabulary => exact Iff.rfl
    | term => exact (and_iff_left hvocabulary).symm

theorem ofKind_unique {quads : List Quad} {kind kind' : SnapshotKind} (h : OfKind quads kind)
    (h' : OfKind quads kind') : kind = kind' :=
  Option.some.inj ((kind?_eq_some.mpr h).symm.trans (kind?_eq_some.mpr h'))

theorem ofKind_congr {quads quads' : List Quad} (h : ∀ q, q ∈ quads ↔ q ∈ quads')
    {kind : SnapshotKind} : OfKind quads kind ↔ OfKind quads' kind := by
  have htypes : ∀ kind, Types quads kind ↔ Types quads' kind := fun kind => by
    simp only [Types, h]
  cases kind <;> simp only [OfKind, htypes]

theorem describe?_eq (iri : Iri) (quads : List Quad) : describe? iri quads =
    (kind? quads).bind fun kind =>
      ((Vocabulary.objectsOf quads Names.versionOf).getLast?.bind Term.iri?).bind fun versionOf =>
        ((Vocabulary.objectsOf quads Names.created).getLast?.bind fun o =>
          o.literal?.bind Literal.instant?).bind fun created =>
          some { iri, created, versionOf, kind } := by
  rw [describe?, kind?, kinds]
  split <;> rfl

/-- A description is complete if a kind is stated, the last statement on the
origin names an IRI and the last one on the time can be read. -/
theorem describe?_eq_some_iff {iri : Iri} {quads : List Quad} {snapshot : Snapshot} :
    describe? iri quads = some snapshot ↔ snapshot.iri = iri ∧ OfKind quads snapshot.kind ∧
      (Vocabulary.objectsOf quads Names.versionOf).getLast? = some (.iri snapshot.versionOf) ∧
      ∃ l, (Vocabulary.objectsOf quads Names.created).getLast? = some (.literal l) ∧
        l.instant? = some snapshot.created := by
  simp only [describe?_eq, Option.bind_eq_some_iff, kind?_eq_some, Term.iri?_eq_some,
    Term.literal?_eq_some, Option.some.injEq]
  constructor
  · rintro ⟨_, hkind, _, ⟨_, horigin, rfl⟩, _, ⟨_, hcreated, l, rfl, hl⟩, rfl⟩
    exact ⟨rfl, hkind, horigin, l, hcreated, hl⟩
  · rintro ⟨rfl, hkind, horigin, l, hcreated, hl⟩
    exact ⟨_, hkind, _, ⟨_, horigin, rfl⟩, _, ⟨_, hcreated, l, rfl, hl⟩, rfl⟩

/-- A vocabulary snapshot is described by its type, and by statements on origin
and time of which each kind says the same. -/
theorem describe?_eq_some {iri origin : Iri} {created : Instant} {quads : List Quad}
    (htype : ∃ q ∈ quads, q.predicate = Names.type ∧ q.object = .iri Names.vocabularySnapshot)
    (hversion : ∃ q ∈ quads, q.predicate = Names.versionOf)
    (hversions : ∀ q ∈ quads, q.predicate = Names.versionOf → q.object = .iri origin)
    (htime : ∃ q ∈ quads, q.predicate = Names.created)
    (htimes : ∀ q ∈ quads, q.predicate = Names.created →
      ∃ l, q.object = .literal l ∧ l.instant? = some created) :
    describe? iri quads = some ⟨iri, created, origin, .vocabulary⟩ := by
  obtain ⟨q, hq, hp, horigin⟩ := getLast?_objectsOf hversion
  rw [hversions q hq hp] at horigin
  obtain ⟨q', hq', hp', hcreated⟩ := getLast?_objectsOf htime
  obtain ⟨l, ho, hinstant⟩ := htimes q' hq' hp'
  rw [ho] at hcreated
  exact describe?_eq_some_iff.mpr ⟨rfl, htype, horigin, l, hcreated, hinstant⟩

theorem type_of_describe? {iri : Iri} {quads : List Quad} {snapshot : Snapshot}
    (h : describe? iri quads = some snapshot) :
    ∃ q ∈ quads, q.predicate = Names.type ∧ q.object = .iri snapshot.kind.type :=
  (describe?_eq_some_iff.mp h).2.1.types

theorem versionOf_of_describe? {iri : Iri} {quads : List Quad} {snapshot : Snapshot}
    (h : describe? iri quads = some snapshot) :
    ∃ q ∈ quads, q.predicate = Names.versionOf ∧ q.object = .iri snapshot.versionOf := by
  obtain ⟨-, -, horigin, -⟩ := describe?_eq_some_iff.mp h
  exact Vocabulary.mem_objectsOf.mp (List.mem_of_getLast? horigin)

/-- The time of a snapshot is that of a literal in its description. -/
theorem created_of_describe? {iri : Iri} {quads : List Quad} {snapshot : Snapshot}
    (h : describe? iri quads = some snapshot) :
    ∃ q ∈ quads, q.predicate = Names.created ∧
      ∃ l, q.object = .literal l ∧ l.instant? = some snapshot.created := by
  obtain ⟨-, -, -, l, hcreated, hinstant⟩ := describe?_eq_some_iff.mp h
  obtain ⟨q, hq, hp, ho⟩ := Vocabulary.mem_objectsOf.mp (List.mem_of_getLast? hcreated)
  exact ⟨q, hq, hp, l, ho, hinstant⟩

end Snapshot

/-- What `graph` says about `iri` describes a vocabulary snapshot taken at the
given time. -/
def Store.HoldsSnapshot (s : Store) (created : Instant) (graph iri : Iri) : Prop :=
  ∃ snapshot, Snapshot.describe? iri (s.quads { graph := some graph, subject := some iri }) =
    some snapshot ∧ snapshot.kind = .vocabulary ∧ snapshot.created = created

/-- Within `graph`, a vocabulary snapshot taken at the given time is named as a
version of `vocabulary`. -/
def Store.HoldsVersion (s : Store) (created : Instant) (vocabulary graph : Iri) : Prop :=
  ∃ iri, .ofQuad ⟨iri, Names.versionOf, .iri vocabulary, graph⟩ ∈ s.rows ∧
    s.HoldsSnapshot created graph iri

namespace Connection

variable {c : Connection} {E : Error → Prop} {created : Instant}

theorem holdsSnapshot_eq_ok {graph iri : Iri} {b : Bool}
    (h : c.holdsSnapshot created graph iri = .ok b) :
    b = true ↔ c.store.HoldsSnapshot created graph iri := by
  obtain ⟨quads, hquads, h⟩ := bind_eq_ok h
  cases h
  rw [quads_eq_ok rfl rfl hquads, Store.HoldsSnapshot]
  cases Snapshot.describe? iri (c.store.quads { graph := some graph, subject := some iri }) with
  | none => simp
  | some snapshot => simp

theorem holdsSnapshot_failsWith
    (h : ∀ p : Pattern, p.limit = none → FailsWith E (c.quads p)) (created : Instant)
    (graph iri : Iri) : FailsWith E (c.holdsSnapshot created graph iri) :=
  (h _ rfl).bind fun _ _ => FailsWith.ok _

/-- The graphs found are those found before and those in which one of the
versions is held, each once. -/
theorem graphsAmong_eq_ok {found graphs : List Iri} {versions : List Quad}
    (h : c.graphsAmong created found versions = .ok graphs) :
    (found.Nodup → graphs.Nodup) ∧ ∀ g, g ∈ graphs ↔ g ∈ found ∨
      ∃ q ∈ versions, q.graph = g ∧ c.store.HoldsSnapshot created g q.subject := by
  induction versions generalizing found with
  | nil =>
      cases h
      exact ⟨id, fun g => by simp⟩
  | cons version versions ih =>
      rw [graphsAmong] at h
      split at h
      · rename_i hfound
        refine ⟨(ih h).1, fun g => ((ih h).2 g).trans ?_⟩
        simp only [List.mem_cons, exists_eq_or_imp]
        refine ⟨Or.imp_right .inr, ?_⟩
        rintro (hg | ⟨rfl, -⟩ | hrest)
        · exact .inl hg
        · exact .inl hfound
        · exact .inr hrest
      · rename_i hfound
        obtain ⟨b, hb, h⟩ := bind_eq_ok h
        replace hb := holdsSnapshot_eq_ok hb
        have hmem : ∀ g, g ∈ (if b then found ++ [version.graph] else found) ↔
            g ∈ found ∨ version.graph = g ∧ c.store.HoldsSnapshot created g version.subject := by
          intro g
          cases b with
          | true =>
              simp only [if_true, List.mem_append, List.mem_singleton]
              refine or_congr_right ⟨?_, fun h => h.1.symm⟩
              rintro rfl
              exact ⟨rfl, hb.mp rfl⟩
          | false =>
              refine (or_iff_left ?_).symm
              rintro ⟨rfl, hholds⟩
              exact Bool.false_ne_true (hb.mpr hholds)
        obtain ⟨hnodup, hgraphs⟩ := ih h
        constructor
        · intro hnd
          refine hnodup ?_
          cases b with
          | true =>
              refine List.nodup_append.mpr ⟨hnd, by simp, ?_⟩
              rintro a ha b hb rfl
              exact hfound (List.mem_singleton.mp hb ▸ ha)
          | false => exact hnd
        · intro g
          simp only [hgraphs, hmem, List.mem_cons, exists_eq_or_imp, or_assoc]

theorem graphsAmong_failsWith (h : ∀ p : Pattern, p.limit = none → FailsWith E (c.quads p))
    (created : Instant) (found : List Iri) (versions : List Quad) :
    FailsWith E (c.graphsAmong created found versions) := by
  induction versions generalizing found with
  | nil => exact FailsWith.ok found
  | cons version versions ih =>
      rw [graphsAmong]
      split
      · exact ih found
      · exact (holdsSnapshot_failsWith h _ _ _).bind fun b _ => ih _

theorem snapshotGraphs_eq_ok {vocabulary : Iri} {graphs : List Iri}
    (h : c.snapshotGraphs vocabulary created = .ok graphs) :
    graphs.Nodup ∧ ∀ g, g ∈ graphs ↔ c.store.HoldsVersion created vocabulary g := by
  obtain ⟨versions, hversions, h⟩ := bind_eq_ok h
  obtain ⟨hnodup, hgraphs⟩ := graphsAmong_eq_ok h
  refine ⟨hnodup List.nodup_nil, fun g => ?_⟩
  rw [hgraphs, quads_eq_ok rfl rfl hversions, or_iff_right List.not_mem_nil]
  constructor
  · rintro ⟨⟨u, p, o, g'⟩, hq, rfl, hholds⟩
    obtain ⟨ho, hr, -, -, hp⟩ := Store.mem_quads_iri.mp hq
    simp only [Option.all_some, decide_eq_true_eq] at ho hp
    subst ho hp
    exact ⟨u, hr, hholds⟩
  · rintro ⟨iri, hr, hholds⟩
    exact ⟨_, Store.mem_quads_iri.mpr ⟨rfl, hr, rfl, rfl, by simp⟩, rfl, hholds⟩

theorem snapshotGraphs_failsWith (h : ∀ p : Pattern, p.limit = none → FailsWith E (c.quads p))
    (vocabulary : Iri) (created : Instant) :
    FailsWith E (c.snapshotGraphs vocabulary created) :=
  (h _ rfl).bind fun _ _ => graphsAmong_failsWith h _ _ _

end Connection

namespace Catalogue

variable {c : Catalogue} {created : Instant}

theorem cascadeGraphs_eq_ok {found graphs vocabularies : List Iri}
    (h : c.cascadeGraphs created found vocabularies = .ok graphs) :
    (found.Nodup → graphs.Nodup) ∧ ∀ g, g ∈ graphs ↔ g ∈ found ∨
      ∃ w ∈ vocabularies, c.connection.store.HoldsVersion created w g := by
  induction vocabularies generalizing found with
  | nil =>
      cases h
      exact ⟨id, fun g => by simp⟩
  | cons vocabulary vocabularies ih =>
      obtain ⟨l, hl, h⟩ := bind_eq_ok h
      obtain ⟨hlnodup, hlgraphs⟩ := Connection.snapshotGraphs_eq_ok hl
      obtain ⟨hnodup, hgraphs⟩ := ih h
      constructor
      · intro hnd
        refine hnodup (List.nodup_append.mpr ⟨hnd, hlnodup.filter _, ?_⟩)
        rintro a ha b hb rfl
        simp only [List.mem_filter, decide_eq_true_eq] at hb
        exact hb.2 ha
      · intro g
        simp only [hgraphs, List.mem_append, List.mem_filter, decide_eq_true_eq, List.mem_cons,
          exists_eq_or_imp, ← hlgraphs, ← or_assoc]
        refine or_congr_left ?_
        by_cases hg : g ∈ found <;> simp [hg]

theorem cascadeGraphs_failsWith {E : Error → Prop}
    (h : ∀ p : Pattern, p.limit = none → FailsWith E (c.connection.quads p)) (created : Instant)
    (found vocabularies : List Iri) :
    FailsWith E (c.cascadeGraphs created found vocabularies) := by
  induction vocabularies generalizing found with
  | nil => exact FailsWith.ok found
  | cons vocabulary vocabularies ih =>
      exact (Connection.snapshotGraphs_failsWith h _ _).bind fun graphs _ => ih _

/-- What the check before a removal comes to, by what stands in the store. -/
theorem vocabularySnapshot_eq {iri : Iri} (h : Uninterrupted (c.vocabularySnapshot iri)) :
    c.vocabularySnapshot iri =
      if c.connection.store.ask { subject := some iri } = true then
        match Snapshot.describe? iri (c.connection.answered { subject := some iri }) with
        | none => .error (.notSnapshot iri)
        | some s => if s.kind = .vocabulary then .ok s else .error (.termSnapshot iri)
      else .error (.notFound .snapshot iri) := by
  obtain ⟨b, hb⟩ := h.first.exists_ok (c.connection.holds_failsWith _)
  rw [Connection.ask_of_holds hb]
  cases b with
  | false =>
      rw [vocabularySnapshot, hb]
      rfl
  | true =>
      have hfind : Uninterrupted (c.connection.findSnapshot iri >>= _) := h.second hb
      obtain ⟨quads, hquads⟩ := hfind.first.first.exists_ok (c.connection.quads_failsWith _)
      rw [vocabularySnapshot, hb, ← Connection.quads_eq_answered rfl hquads, if_pos rfl]
      change (c.connection.findSnapshot iri >>= _) = _
      rw [Connection.findSnapshot, hquads]
      rfl

theorem vocabularySnapshot_eq_ok {iri : Iri} {snapshot : Snapshot}
    (h : Uninterrupted (c.vocabularySnapshot iri))
    (hdescribe : Snapshot.describe? iri (c.connection.answered { subject := some iri }) =
      some snapshot) (hkind : snapshot.kind = .vocabulary) :
    c.vocabularySnapshot iri = .ok snapshot := by
  have hask : c.connection.store.ask { subject := some iri } = true := by
    rw [Store.ask_eq_true]
    obtain ⟨q, hq, -⟩ := Snapshot.created_of_describe? hdescribe
    obtain ⟨r, hr, hcovers, -⟩ := Store.mem_quads.mp (Connection.mem_answered.mp hq)
    exact ⟨r, hr, hcovers⟩
  rw [vocabularySnapshot_eq h, if_pos hask, hdescribe]
  exact if_pos hkind

/-- The errors of a removal are those of its check, of the related set and of the
storage. -/
theorem removeSnapshot_errors (c : Catalogue) (resolver : Resolver) (config : SnapshotConfig)
    (iri : Iri) :
    FailsWith (fun e => c.vocabularySnapshot iri = .error e ∨
        (∃ snapshot, c.vocabularySnapshot iri = .ok snapshot ∧
          c.related resolver config.cascade snapshot.versionOf = .error e) ∨ e.IsStorage)
      (c.removeSnapshot resolver config iri) := by
  refine FailsWith.bind (fun e he => .inl he) fun snapshot hsnapshot => ?_
  refine FailsWith.bind (fun e he => .inr (.inl ⟨snapshot, hsnapshot, he⟩)) fun related _ => ?_
  refine FailsWith.mono (E := Error.IsStorage) ?_ fun e he => .inr (.inr he)
  refine (cascadeGraphs_failsWith (fun p _ => c.connection.quads_failsWith p) _ _ _).bind
    fun graphs _ => ?_
  exact (persistence_failsWith _).bind fun store _ => FailsWith.ok _

theorem removeSnapshot_failsWith {resolver : Resolver} {config : SnapshotConfig} {iri : Iri}
    {snapshot : Snapshot} {related : IriSet} (hsnapshot : c.vocabularySnapshot iri = .ok snapshot)
    (hrelated : c.related resolver config.cascade snapshot.versionOf = .ok related) :
    FailsWith Error.IsStorage (c.removeSnapshot resolver config iri) := by
  refine (c.removeSnapshot_errors resolver config iri).mono fun e he => ?_
  rcases he with he | ⟨snapshot', hsnapshot', he⟩ | he
  · cases hsnapshot.symm.trans he
  · cases hsnapshot.symm.trans hsnapshot'
    cases hrelated.symm.trans he
  · exact he

/-- What a removal that succeeds has gone through: the graphs that hold a
version of a related vocabulary from the time of the snapshot are dropped. -/
theorem removeSnapshot_eq_ok {resolver : Resolver} {config : SnapshotConfig} {iri : Iri}
    {graphs : List Iri} {t : Store} (h : c.removeSnapshot resolver config iri = .ok (graphs, t)) :
    ∃ snapshot related, c.vocabularySnapshot iri = .ok snapshot ∧
      c.related resolver config.cascade snapshot.versionOf = .ok related ∧ graphs.Nodup ∧
      (∀ g, g ∈ graphs ↔ ∃ w ∈ related,
        c.connection.store.HoldsVersion snapshot.created w g) ∧
      t.sealed = c.connection.store.sealed ∧
        ∀ r, r ∈ t.rows ↔ r ∈ c.connection.store.rows ∧ r.graph ∉ graphs := by
  obtain ⟨snapshot, hsnapshot, h⟩ := bind_eq_ok h
  obtain ⟨related, hrelated, h⟩ := bind_eq_ok h
  obtain ⟨l, hl, h⟩ := bind_eq_ok h
  obtain ⟨t', ht, h⟩ := bind_eq_ok h
  cases h
  obtain ⟨hnodup, hgraphs⟩ := cascadeGraphs_eq_ok hl
  obtain ⟨t', ht', hsealed, hrows⟩ := c.connection.store.apply_dropGraph graphs
  have hdropped : c.connection.store.apply (graphs.map Update.dropGraph) = .ok t :=
    Connection.attempt_eq_ok (mapError_eq_ok ht)
  rw [ht'] at hdropped
  cases hdropped
  refine ⟨snapshot, related, hsnapshot, hrelated, hnodup List.nodup_nil, fun g => ?_, hsealed,
    hrows⟩
  rw [hgraphs, or_iff_right List.not_mem_nil]
  rfl

end Catalogue

end SkosArchive
