import SkosArchive.Proofs.Contexts
import SkosArchive.Proofs.Neighbours
import SkosArchive.Proofs.Related
import SkosArchive.Proofs.SnapshotLookup
import SkosArchive.Proofs.Written

namespace SkosArchive

namespace Store

variable {s t : Store}

theorem answered_of_dropped {graphs : List Iri}
    (hrows : ∀ r, r ∈ t.rows ↔ r ∈ s.rows ∧ r.graph ∉ graphs) (arrival : Row → Nat)
    (p : Pattern) :
    t.answered arrival p = (s.answered arrival p).filter fun q => q.graph ∉ graphs := by
  have ht : t.rows = s.rows.filter fun r => r.graph ∉ graphs := by
    apply Ascending.eq_of_mem_iff
    intro r
    rw [hrows, Ascending.mem_filter, decide_eq_true_eq]
  have hselect : t.select p = (s.select p).filter fun r => r.graph ∉ graphs := by
    rw [select, select, ht, Ascending.filter, List.filter_filter, List.filter_filter]
    exact List.filter_congr fun r _ => Bool.and_comm _ _
  have hordered : (s.select p).Pairwise (· < ·) :=
    s.rows.ascending.sublist List.filter_sublist
  refine Eq.trans ?_ (ContextIndex.filter_read (fun g _ => decide (g ∉ graphs)) _)
  rw [answered, answer, answer, hselect]
  split
  · rw [Row.arrange_filter hordered]
  · rfl

theorem quads_description (s : Store) (g i : Iri) :
    s.quads { graph := some g, subject := some i } =
      (s.quads { subject := some i }).filter fun q => q.graph = g := by
  refine Eq.trans ?_ (ContextIndex.filter_read (fun g' _ => decide (g' = g)) _)
  rw [quads, select, select, List.filter_filter]
  refine congrArg _ (List.filter_congr fun r _ => Bool.eq_iff_iff.mpr ?_)
  rw [Pattern.covers_description, Bool.and_eq_true, Pattern.covers_subject, decide_eq_true_eq]

/-- `graph` types `i` as a snapshot. -/
def TypesSnapshot (s : Store) (graph i : Iri) : Prop :=
  ∃ kind : SnapshotKind, s.Reads ⟨i, Names.type, .iri kind.type, graph⟩

/-- Only `graph` says of what, when and as what kind of snapshot `i` was made. -/
def TagsOnlyIn (s : Store) (graph i : Iri) : Prop :=
  ∀ q, s.Reads q → q.subject = i → q.predicate ∈ Cascade.tagPredicates → q.graph = graph

theorem reads_of_mem_subject {arrival : Row → Nat} {i : Iri} {q : Quad}
    (h : q ∈ s.answered arrival { subject := some i }) : s.Reads q ∧ q.subject = i := by
  obtain ⟨r, hr, hcovers, hq⟩ := mem_quads.mp (mem_answered.mp h)
  exact ⟨⟨r, hr, hq⟩, (Row.subject_of_toQuad hq).trans (Pattern.covers_subject.mp hcovers)⟩

end Store

namespace Snapshot

variable {iri : Iri} {quads : List Quad} {snapshot : Snapshot}

theorem objectsOf_filter {P : Quad → Bool} {predicate : Iri}
    (h : ∀ q ∈ quads, q.predicate = predicate → P q = true) :
    Vocabulary.objectsOf (quads.filter P) predicate = Vocabulary.objectsOf quads predicate := by
  rw [Vocabulary.objectsOf, Vocabulary.objectsOf, List.filter_filter]
  refine congrArg _ (List.filter_congr fun q hq => Bool.eq_iff_iff.mpr ?_)
  rw [Bool.and_eq_true, decide_eq_true_eq]
  exact and_iff_left_of_imp (h q hq)

/-- A description depends on the tags alone. -/
theorem describe?_filter {P : Quad → Bool}
    (h : ∀ q ∈ quads, q.predicate ∈ Cascade.tagPredicates → P q = true) :
    describe? iri (quads.filter P) = describe? iri quads := by
  have hobjects : ∀ predicate ∈ Cascade.tagPredicates,
      Vocabulary.objectsOf (quads.filter P) predicate = Vocabulary.objectsOf quads predicate :=
    fun predicate hp => objectsOf_filter fun q hq hq' => h q hq (hq' ▸ hp)
  simp only [describe?, hobjects Names.type (by simp [Cascade.tagPredicates]),
    hobjects Names.versionOf (by simp [Cascade.tagPredicates]),
    hobjects Names.created (by simp [Cascade.tagPredicates])]

end Snapshot

namespace Catalogue

variable {c : Catalogue} {i : Iri} {snapshot : Snapshot}

theorem found_of_vocabularySnapshot (h : c.vocabularySnapshot i = .ok snapshot) :
    c.connection.findSnapshot i = .ok (some snapshot) ∧ snapshot.kind = .vocabulary := by
  obtain ⟨b, -, h⟩ := bind_eq_ok h
  cases b with
  | false => cases h
  | true =>
      obtain ⟨o, ho, h⟩ := bind_eq_ok h
      cases o with
      | none => cases h
      | some found =>
          simp only at h
          split at h
          · rename_i hkind
            cases h
            exact ⟨ho, hkind⟩
          · cases h

end Catalogue

theorem Connection.findSnapshot_of_dropped {c : Connection} {i : Iri} {o : Option Snapshot}
    (h : c.findSnapshot i = .ok o) {t : Store} {graphs : List Iri}
    (hrows : ∀ r, r ∈ t.rows ↔ r ∈ c.store.rows ∧ r.graph ∉ graphs) :
    (reliable t c.service.arrival).findSnapshot i = .ok (Snapshot.describe? i
      ((c.answered { subject := some i }).filter fun q => q.graph ∉ graphs)) := by
  obtain ⟨quads, hquads, -⟩ := bind_eq_ok h
  have hreadable := (Store.find_eq_ok rfl (find_of_quads hquads)).2
  have hquads' : (reliable t c.service.arrival).quads { subject := some i } =
      .ok (t.answered c.service.arrival { subject := some i }) :=
    reliable_quads rfl fun r hr => hreadable r ((hrows r).mp hr).1
  rw [findSnapshot, hquads', ok_bind, Store.answered_of_dropped hrows]
  rfl

/-- What can be found under the name of a snapshot after its removal succeeded. The
check describes the name from all graphs at once, while a graph is dropped if it
describes a version by itself. So the name is found as what the kept graphs
describe, which is nothing if all graphs are dropped that type it as a snapshot;
and then at least one graph was dropped. That is so if all tags of the name stand
in one graph, where creation puts them, and none has the text of another kind of
object as well. -/
theorem removeSnapshot_lookup {c : Catalogue} {resolver : Resolver} {config : SnapshotConfig}
    {i : Iri} {graphs : List Iri} {t : Store}
    (h : c.removeSnapshot resolver config i = .ok (graphs, t)) :
    let s := c.connection.store
    let left := Snapshot.describe? i
      ((c.connection.answered { subject := some i }).filter fun q => q.graph ∉ graphs)
    (∃ snapshot related, c.connection.findSnapshot i = .ok (some snapshot) ∧
        snapshot.kind = .vocabulary ∧
        c.related resolver config.cascade snapshot.versionOf = .ok related ∧
        snapshot.versionOf ∈ related ∧
        ∀ g, g ∈ graphs ↔ ∃ w ∈ related, s.HoldsVersion snapshot.created w g) ∧
      (Connection.reliable t c.connection.service.arrival).findSnapshot i = .ok left ∧
      (left = none → graphs ≠ []) ∧
      ((∀ g, s.TypesSnapshot g i → g ∈ graphs) → graphs ≠ [] ∧ left = none) ∧
      (s.Regular → s.Unmixed i → ∀ g, s.TagsOnlyIn g i → g ∈ graphs ∧ left = none) := by
  intro s left
  obtain ⟨snapshot, related, hsnapshot, hrelated, -, hgraphs, -, hrows⟩ :=
    Catalogue.removeSnapshot_eq_ok h
  obtain ⟨hfind, hkind⟩ := Catalogue.found_of_vocabularySnapshot hsnapshot
  have hself : snapshot.versionOf ∈ related := Catalogue.mem_related_self hrelated
  have hdescribe : Snapshot.describe? i (c.connection.answered { subject := some i }) =
      some snapshot := (Connection.findSnapshot_eq_ok hfind).symm
  have hnonempty : left = none → graphs ≠ [] := by
    rintro hleft rfl
    have hall : left = Snapshot.describe? i (c.connection.answered { subject := some i }) :=
      Snapshot.describe?_filter fun q _ _ => decide_eq_true List.not_mem_nil
    rw [hleft, hdescribe] at hall
    cases hall
  have htyped : (∀ g, s.TypesSnapshot g i → g ∈ graphs) → left = none := by
    intro hdropped
    rw [Option.eq_none_iff_forall_ne_some]
    intro found hfound
    obtain ⟨⟨u, p, o, g⟩, hq, rfl, rfl⟩ := Snapshot.type_of_describe? hfound
    obtain ⟨hq, hkept⟩ := List.mem_filter.mp hq
    obtain ⟨hreads, rfl⟩ := Store.reads_of_mem_subject hq
    exact of_decide_eq_true hkept (hdropped g ⟨found.kind, hreads⟩)
  refine ⟨⟨snapshot, related, hfind, hkind, hrelated, hself, hgraphs⟩,
    Connection.findSnapshot_of_dropped hfind hrows, hnonempty,
    fun hdropped => ⟨hnonempty (htyped hdropped), htyped hdropped⟩, ?_⟩
  intro hregular hunmixed g htags
  have hwithin : Snapshot.describe? i (s.quads { graph := some g, subject := some i }) =
      some snapshot := by
    rw [Store.quads_description, ← Store.answered_together, Snapshot.describe?_filter]
    · exact Snapshot.describe?_of_unmixed hunmixed hdescribe
    · intro q hq hp
      obtain ⟨hreads, hsubject⟩ := Store.reads_of_mem_subject hq
      exact decide_eq_true (htags q hreads hsubject hp)
  obtain ⟨⟨u, p, o, g'⟩, hq, rfl, rfl⟩ := Snapshot.versionOf_of_describe? hdescribe
  obtain ⟨hreads, rfl⟩ := Store.reads_of_mem_subject hq
  obtain rfl : g' = g := htags _ hreads rfl (by simp [Cascade.tagPredicates])
  have hdropped : g' ∈ graphs := (hgraphs g').mpr ⟨snapshot.versionOf, hself, u,
    hregular.reads_iri.mp hreads, snapshot, hwithin, hkind, rfl⟩
  refine ⟨hdropped, htyped ?_⟩
  rintro g ⟨kind, hreads⟩
  obtain rfl : g = g' := htags _ hreads rfl (by simp [Cascade.tagPredicates])
  exact hdropped

/-- A vocabulary, a snapshot of it in a graph of its own, and one more quad. -/
def Store.snapshotAnd (q : Quad) : Store :=
  ofQuads [⟨⟨"v"⟩, Names.type, .iri Names.vocabulary, ⟨"v"⟩⟩,
    ⟨⟨"s"⟩, Names.type, .iri Names.vocabularySnapshot, ⟨"s"⟩⟩,
    ⟨⟨"s"⟩, Names.versionOf, .iri ⟨"v"⟩, ⟨"s"⟩⟩,
    ⟨⟨"s"⟩, Names.created, .literal ⟨"2024-01-01T00:00:00Z", none, some Names.dateTime⟩, ⟨"s"⟩⟩,
    q]

theorem removeSnapshot_lookup_noted :
    ∃ (s t : Store) (graphs : List Iri), s.Regular ∧ s.Unmixed ⟨"s"⟩ ∧
      s.TagsOnlyIn ⟨"s"⟩ ⟨"s"⟩ ∧
      (∃ q, s.Reads q ∧ q.subject = ⟨"s"⟩ ∧ q.graph ≠ ⟨"s"⟩) ∧
      ((Connection.reliable s).catalogue .empty).removeSnapshot .recursive .standard ⟨"s"⟩ =
        .ok (graphs, t) ∧
      ⟨"s"⟩ ∈ graphs ∧ (Connection.reliable t).findSnapshot ⟨"s"⟩ = .ok none := by
  let note : Quad := ⟨⟨"s"⟩, ⟨"note"⟩, .iri ⟨"n"⟩, ⟨"z"⟩⟩
  let s : Store := .snapshotAnd note
  have hregular : s.Regular := Store.regular_ofQuads _
  have hunmixed : ∀ r ∈ s.rows.toList, ∀ r' ∈ s.rows.toList, r.subject = ⟨"s"⟩ →
      (r.predicate = Names.versionOf ∨ r.predicate = Names.created) →
        r.texts = r'.texts → r.kind = r'.kind := by
    decide +kernel
  have htags : s.TagsOnlyIn ⟨"s"⟩ ⟨"s"⟩ := by
    rintro q ⟨r, hr, hq⟩ hu hp
    have hrows : ∀ r ∈ s.rows.toList, r.subject = ⟨"s"⟩ →
        r.predicate ∈ Cascade.tagPredicates → r.graph = ⟨"s"⟩ := by
      decide +kernel
    rw [Row.subject_of_toQuad hq] at hu
    rw [Row.predicate_of_toQuad hq] at hp
    rw [Row.graph_of_toQuad hq]
    exact hrows r hr hu hp
  have hnoted : s.Reads note := ⟨_, by decide +kernel, Row.toQuad_ofQuad note⟩
  have hok : (((Connection.reliable s).catalogue .empty).removeSnapshot .recursive .standard
      ⟨"s"⟩).isOk = true := by
    decide +kernel
  obtain ⟨⟨graphs, t⟩, hremove⟩ := exists_ok_of_isOk hok
  obtain ⟨-, hfind, -, -, hone⟩ := removeSnapshot_lookup hremove
  obtain ⟨hdropped, hleft⟩ := hone hregular hunmixed ⟨"s"⟩ htags
  rw [hleft] at hfind
  exact ⟨s, t, graphs, hregular, hunmixed, htags, ⟨note, hnoted, rfl, by decide⟩, hremove,
    hdropped, hfind⟩

/-- Another graph that gives the snapshot a later time keeps it from being removed,
and yet the removal succeeds. -/
theorem removeSnapshot_lookup_redated :
    ∃ (s t : Store) (snapshot : Snapshot),
      ((Connection.reliable s).catalogue .empty).removeSnapshot .recursive .standard ⟨"s"⟩ =
        .ok ([], t) ∧
      (Connection.reliable t).findSnapshot ⟨"s"⟩ = .ok (some snapshot) := by
  let s : Store := .snapshotAnd
    ⟨⟨"s"⟩, Names.created, .literal ⟨"2030-01-01T00:00:00Z", none, some Names.dateTime⟩, ⟨"z"⟩⟩
  have hok : (((Connection.reliable s).catalogue .empty).removeSnapshot .recursive .standard
      ⟨"s"⟩ >>= fun x => do
      let found ← (Connection.reliable x.2).findSnapshot ⟨"s"⟩
      if x.1 = [] ∧ found.isSome = true then .ok () else .error (.notSnapshot ⟨"s"⟩)).isOk =
        true := by
    decide +kernel
  obtain ⟨_, hruns⟩ := exists_ok_of_isOk hok
  obtain ⟨⟨graphs, t⟩, hremove, hruns⟩ := bind_eq_ok hruns
  obtain ⟨found, hfind, hruns⟩ := bind_eq_ok hruns
  split at hruns
  · rename_i hkept
    obtain ⟨rfl, hsome⟩ := hkept
    obtain ⟨snapshot, rfl⟩ := Option.isSome_iff_exists.mp hsome
    exact ⟨s, t, snapshot, hremove, hfind⟩
  · cases hruns

end SkosArchive
