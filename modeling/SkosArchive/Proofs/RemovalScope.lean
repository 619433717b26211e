import SkosArchive.Proofs.SnapshotListing
import SkosArchive.Proofs.TermLinks

namespace SkosArchive

namespace Error

def IsNotFound (e : Error) : Prop := ∃ what iri, e = .notFound what iri

/-- What was asked for is there, but the operation is not for what it is. -/
def IsUnsupported : Error → Prop
  | .alreadySnapshot _ | .notSnapshot _ | .termSnapshot _ => True
  | _ => False

/-- An error by which a removal refuses what it was asked to remove. -/
def IsRefusal (e : Error) : Prop := e.IsNotFound ∨ e.IsUnsupported

theorem IsStorage.not_refusal {e : Error} (h : e.IsStorage) : ¬ e.IsRefusal := by
  obtain ⟨cause, rfl⟩ := h
  rintro (⟨what, iri, h⟩ | h)
  · cases h
  · exact h

theorem not_refusal_of_ambiguous (v : Iri) (candidates : IriSet) :
    ¬ (ambiguousContext v candidates).IsRefusal := by
  rintro (⟨what, iri, h⟩ | h)
  · cases h
  · exact h

end Error

namespace Catalogue

section

variable {s : Store} {arrival : Row → Nat} {contextOf : Iri → Except Error Iri}

theorem related_failsWith_of_readable (hs : s.Readable) (resolver : Resolver)
    (relations : RelationSet) (v : Iri) :
    FailsWith (fun e => ∃ y, contextOf y = .error e)
      ((Catalogue.mk (.reliable s arrival) contextOf).related resolver relations v) := by
  cases resolver with
  | skos =>
      have hneighbours : FailsWith (fun e => ∃ y, contextOf y = .error e)
          ((Catalogue.mk (.reliable s arrival) contextOf).neighbours relations v) :=
        (neighbours_failsWith_of_readable hs relations v).mono fun e he => ⟨v, he⟩
      exact hneighbours.first.bind fun next _ => FailsWith.ok _
  | recursive => exact recursiveRelated_failsWith_of_readable hs relations v
  | externalLink linkGraph =>
      exact (linkRelated_failsWith_of_readable hs linkGraph v).mono fun e he => ⟨v, he⟩

theorem uninterrupted_vocabularySnapshot (hs : s.Readable) (i : Iri) :
    Uninterrupted ((Catalogue.mk (.reliable s arrival) contextOf).vocabularySnapshot i) := by
  have hfind : Uninterrupted ((Connection.reliable s arrival).findSnapshot i) :=
    ((Connection.quads_succeed hs rfl).mono fun _ he => he.elim).bind fun _ _ => FailsWith.ok _
  have hask : (Connection.reliable s arrival).holds { subject := some i } =
      .ok (s.ask { subject := some i }) := rfl
  rw [vocabularySnapshot, hask, ok_bind]
  cases s.ask { subject := some i } with
  | false => exact FailsWith.error fun h => h.not_refusal (.inl ⟨_, _, rfl⟩)
  | true =>
      refine FailsWith.bind (x := (Connection.reliable s arrival).findSnapshot i) hfind
        fun o _ => ?_
      cases o with
      | none => exact FailsWith.error fun h => h.not_refusal (.inr trivial)
      | some found =>
          simp only
          split
          · exact FailsWith.ok _
          · exact FailsWith.error fun h => h.not_refusal (.inr trivial)

theorem uninterrupted_removeSnapshot (hs : s.Readable)
    (hcontext : ∀ v, Uninterrupted (contextOf v)) (resolver : Resolver) (config : SnapshotConfig)
    (i : Iri) :
    Uninterrupted
      ((Catalogue.mk (.reliable s arrival) contextOf).removeSnapshot resolver config i) := by
  refine (uninterrupted_vocabularySnapshot hs i).bind fun snapshot _ => ?_
  refine FailsWith.bind ?_ fun related _ => ?_
  · refine (related_failsWith_of_readable hs resolver config.cascade snapshot.versionOf).mono ?_
    rintro e ⟨y, hy⟩
    exact hcontext y e hy
  · refine FailsWith.bind ?_ fun graphs _ => ?_
    · exact (cascadeGraphs_failsWith (fun p hp => Connection.quads_succeed hs hp) _ _ _).mono
        fun _ he => he.elim
    · obtain ⟨t, ht, -⟩ := s.apply_dropGraph graphs
      have happly : (Connection.reliable s arrival).apply (graphs.map Update.dropGraph) =
          .ok t := ht
      rw [happly]
      exact FailsWith.ok _

end

variable {k : Catalogue} {resolver : Resolver} {config : SnapshotConfig} {i : Iri}

theorem removeSnapshot_eq_refusal
    (hcontext : ∀ w, FailsWith (fun e => ¬ e.IsRefusal) (k.contextOf w)) {e : Error}
    (he : e.IsRefusal) :
    k.removeSnapshot resolver config i = .error e ↔ k.vocabularySnapshot i = .error e := by
  constructor
  · intro h
    rcases k.removeSnapshot_errors resolver config i e h with h | ⟨snapshot, -, h⟩ | hstorage
    · exact h
    · have hrelated := related_failsWith (fun e => Error.IsStorage.not_refusal) hcontext resolver
        config.cascade snapshot.versionOf
      exact absurd he (hrelated e h)
    · exact absurd he hstorage.not_refusal
  · intro h
    rw [removeSnapshot, h]
    rfl

theorem vocabularySnapshot_refuses (h : Uninterrupted (k.vocabularySnapshot i)) :
    let s := k.connection.store
    ((∃ e, k.vocabularySnapshot i = .error e ∧ e.IsNotFound) ↔ ∀ r ∈ s.rows, r.subject ≠ i) ∧
      ((∃ e, k.vocabularySnapshot i = .error e ∧ e.IsUnsupported) ↔
        (∃ r ∈ s.rows, r.subject = i) ∧ ∀ found,
          Snapshot.describe? i (k.connection.answered { subject := some i }) = some found →
            found.kind ≠ .vocabulary) := by
  intro s
  have hask : s.ask { subject := some i } = true ↔ ∃ r ∈ s.rows, r.subject = i := by
    simp only [Store.ask_eq_true, Pattern.covers_subject]
  have hnone : (∀ r ∈ s.rows, r.subject ≠ i) ↔ ¬ s.ask { subject := some i } = true := by
    simp only [hask, not_exists, not_and, ne_eq]
  rw [vocabularySnapshot_eq h, hnone, ← hask]
  cases s.ask { subject := some i } with
  | false => simp [Error.IsNotFound, Error.IsUnsupported]
  | true =>
      cases Snapshot.describe? i (k.connection.answered { subject := some i }) with
      | none => simp [Error.IsNotFound, Error.IsUnsupported]
      | some found =>
          by_cases hkind : found.kind = .vocabulary <;>
            simp [hkind, Error.IsNotFound, Error.IsUnsupported]

end Catalogue

theorem Store.describe?_of_tagsOnlyIn {s : Store} {arrival : Row → Nat} {g x : Iri}
    (htags : s.TagsOnlyIn g x) {P : Quad → Bool} (hP : ∀ q : Quad, q.graph = g → P q = true) :
    Snapshot.describe? x ((s.answered arrival { subject := some x }).filter P) =
      Snapshot.describe? x (s.answered arrival { subject := some x }) := by
  apply Snapshot.describe?_filter
  intro q hq hp
  obtain ⟨hreads, hsubject⟩ := reads_of_mem_subject hq
  exact hP q (htags q hreads hsubject hp)

namespace Connection

variable {c : Connection} {x g : Iri} {other : Snapshot} {created : Instant}

theorem created_of_holdsSnapshot (hfind : c.findSnapshot x = .ok (some other))
    (htags : c.store.TagsOnlyIn g x) (h : c.store.HoldsSnapshot created g x) :
    other.created = created := by
  obtain ⟨snapshot, hdescribe, -, rfl⟩ := h
  rw [Store.quads_description, ← Store.answered_together,
    Store.describe?_of_tagsOnlyIn htags fun _ => decide_eq_true] at hdescribe
  rw [Snapshot.describe?_unique (findSnapshot_eq_ok hfind).symm hdescribe]

theorem findSnapshot_of_kept (hfind : c.findSnapshot x = .ok (some other))
    (htags : c.store.TagsOnlyIn g x) {t : Store} {graphs : List Iri} (hkept : g ∉ graphs)
    (hrows : ∀ r, r ∈ t.rows ↔ r ∈ c.store.rows ∧ r.graph ∉ graphs) :
    (reliable t c.service.arrival).findSnapshot x = .ok (some other) := by
  have hP : ∀ q : Quad, q.graph = g → decide (q.graph ∉ graphs) = true :=
    fun q hq => decide_eq_true (hq ▸ hkept)
  rw [findSnapshot_of_dropped hfind hrows, answered, Store.describe?_of_tagsOnlyIn htags hP,
    ← answered, ← findSnapshot_eq_ok hfind]

end Connection

/-- A removal drops the graphs that by themselves hold a snapshot of a related
vocabulary from the time of the one it was asked for, each named once, and changes no
other graph. It finds nothing if nothing is stored under the name, and is not
supported if what is stored does not describe a vocabulary snapshot. A snapshot of
another time, the tags of which stand in a graph without other snapshots of the time
removed, is found as before. If no call fails and all rows can be read, the storage
does not keep any of this from being done. -/
theorem removeSnapshot_exact (c : Connection) (cache : ContextCache) (resolver : Resolver)
    (config : SnapshotConfig) (i : Iri) :
    let s := c.store
    let k := c.catalogue cache
    let described := Snapshot.describe? i (c.answered { subject := some i })
    let outcome := k.removeSnapshot resolver config i
    (c = .reliable s c.service.arrival → s.Readable → Uninterrupted outcome) ∧
    (Uninterrupted outcome →
      ((∃ e, outcome = .error e ∧ e.IsNotFound) ↔ ∀ r ∈ s.rows, r.subject ≠ i) ∧
      ((∃ e, outcome = .error e ∧ e.IsUnsupported) ↔ (∃ r ∈ s.rows, r.subject = i) ∧
        ∀ found, described = some found → found.kind ≠ .vocabulary) ∧
      ∀ found related, described = some found → found.kind = .vocabulary →
        k.related resolver config.cascade found.versionOf = .ok related →
        ∃ graphs t, outcome = .ok (graphs, t) ∧ graphs.Nodup ∧
          (∀ g, g ∈ graphs ↔ ∃ u ∈ related, s.HoldsVersion found.created u g) ∧
          t.sealed = s.sealed ∧ (∀ r, r ∈ t.rows ↔ r ∈ s.rows ∧ r.graph ∉ graphs) ∧
          ∀ x other g, c.findSnapshot x = .ok (some other) → other.created ≠ found.created →
            s.TagsOnlyIn g x → (∀ y, s.HoldsSnapshot found.created g y → y = x) →
            g ∉ graphs ∧
              (Connection.reliable t c.service.arrival).findSnapshot x = .ok (some other)) := by
  intro s k described outcome
  refine ⟨fun hcalls hs => ?_, fun huninterrupted => ?_⟩
  · change Uninterrupted ((c.catalogue cache).removeSnapshot resolver config i)
    rw [hcalls]
    exact Catalogue.uninterrupted_removeSnapshot hs (cache.uninterrupted_contextOf hs) resolver
      config i
  have hcontext : ∀ w, FailsWith (fun e => ¬ e.IsRefusal) (k.contextOf w) := by
    refine fun w => (cache.contextOf_failsWith c w).mono ?_
    rintro e (hstorage | ⟨candidates, rfl⟩)
    · exact hstorage.not_refusal
    · exact Error.not_refusal_of_ambiguous w candidates
  obtain ⟨hnotFound, hunsupported⟩ := Catalogue.vocabularySnapshot_refuses huninterrupted.first
  refine ⟨Iff.trans ?_ hnotFound, Iff.trans ?_ hunsupported, ?_⟩
  · exact exists_congr fun e => and_congr_left fun he =>
      Catalogue.removeSnapshot_eq_refusal hcontext (.inl he)
  · exact exists_congr fun e => and_congr_left fun he =>
      Catalogue.removeSnapshot_eq_refusal hcontext (.inr he)
  · intro found related hdescribed hkind hrelated
    have hsnapshot := Catalogue.vocabularySnapshot_eq_ok huninterrupted.first hdescribed hkind
    obtain ⟨⟨graphs, t⟩, houtcome⟩ :=
      huninterrupted.exists_ok (Catalogue.removeSnapshot_failsWith hsnapshot hrelated)
    obtain ⟨found', related', hsnapshot', hrelated', hnodup, hgraphs, hsealed, hrows⟩ :=
      Catalogue.removeSnapshot_eq_ok houtcome
    cases hsnapshot.symm.trans hsnapshot'
    cases hrelated.symm.trans hrelated'
    refine ⟨graphs, t, houtcome, hnodup, hgraphs, hsealed, hrows, ?_⟩
    intro x other g hfind hother htags hown
    -- of the time removed, `g` could only hold `x` itself
    have hkept : g ∉ graphs := by
      intro hg
      obtain ⟨u, -, y, -, hholds⟩ := (hgraphs g).mp hg
      obtain rfl := hown y hholds
      exact hother (Connection.created_of_holdsSnapshot hfind htags hholds)
    exact ⟨hkept, Connection.findSnapshot_of_kept hfind htags hkept hrows⟩

theorem removeSnapshot_exact_leapSecond :
    ∃ (s t : Store) (other : Snapshot),
      ((Connection.reliable s).catalogue .empty).removeSnapshot .recursive .standard ⟨"a"⟩ =
        .ok ([⟨"a"⟩, ⟨"b"⟩], t) ∧
      (Connection.reliable s).findSnapshot ⟨"c"⟩ = .ok (some other) ∧
      (Connection.reliable t).findSnapshot ⟨"c"⟩ = .ok (some other) := by
  let s : Store := .leapSecond
  let c : Connection := .reliable s
  obtain ⟨hcalls, hexact⟩ := removeSnapshot_exact c .empty .recursive .standard ⟨"a"⟩
  obtain ⟨-, -, hremoves⟩ := hexact (hcalls rfl (Store.readable_ofQuads _))
  have hdescribed : ((Snapshot.describe? ⟨"a"⟩
      (c.answered { subject := some ⟨"a"⟩ })).any fun found =>
      found.kind = .vocabulary && found.versionOf = ⟨"v"⟩ &&
        (c.findSnapshot ⟨"c"⟩).toOption.join.any fun other =>
          other.created ≠ found.created) = true := by
    decide +kernel
  simp only [Option.any_eq_true, Bool.and_eq_true, decide_eq_true_eq, Option.join_eq_some_iff,
    toOption_eq_some] at hdescribed
  obtain ⟨found, hfound, ⟨hkind, hversion⟩, other, hfind, hother⟩ := hdescribed
  have hrelated : (c.catalogue .empty).related .recursive SnapshotConfig.standard.cascade
      found.versionOf = .ok (Ascending.ofList [⟨"v"⟩]) := by
    rw [hversion]
    decide +kernel
  obtain ⟨graphs, t, houtcome, -, -, -, -, hkeeps⟩ := hremoves found _ hfound hkind hrelated
  have hrows : ∀ r ∈ s.rows.toList, (r.subject = ⟨"c"⟩ ↔ r.graph = ⟨"c"⟩) := by
    decide +kernel
  have htags : s.TagsOnlyIn ⟨"c"⟩ ⟨"c"⟩ := by
    rintro q ⟨r, hr, hq⟩ hu -
    rw [Row.subject_of_toQuad hq] at hu
    rw [Row.graph_of_toQuad hq]
    exact (hrows r hr).mp hu
  have hown : ∀ y, s.HoldsSnapshot found.created ⟨"c"⟩ y → y = ⟨"c"⟩ := by
    rintro y ⟨snapshot, hdescribe, -⟩
    obtain ⟨q, hq, -⟩ := Snapshot.type_of_describe? hdescribe
    obtain ⟨r, hr, hcovers, -⟩ := Store.mem_quads.mp hq
    obtain ⟨hg, rfl⟩ := Pattern.covers_description.mp hcovers
    exact (hrows r hr).mpr hg
  have hgraphs : ((c.catalogue .empty).removeSnapshot .recursive .standard ⟨"a"⟩).toOption.map
      Prod.fst = some [⟨"a"⟩, ⟨"b"⟩] := by
    decide +kernel
  rw [houtcome] at hgraphs
  obtain rfl : graphs = [⟨"a"⟩, ⟨"b"⟩] := Option.some.inj hgraphs
  exact ⟨s, t, other, houtcome, hfind, (hkeeps ⟨"c"⟩ other ⟨"c"⟩ hfind hother htags hown).2⟩

end SkosArchive
