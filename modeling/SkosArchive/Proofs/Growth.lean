import SkosArchive.Proofs.Contexts
import SkosArchive.Proofs.Suffix

namespace SkosArchive

namespace Store

variable {suffix : String} {s t : Store}

theorem Avoids.live_of_reads (h : s.Avoids suffix) {q : Quad} (hq : s.Reads q) :
    ¬ q.graph.EndsWith suffix ∧ ¬ q.subject.EndsWith suffix ∧
      ∀ i, q.object = .iri i → ¬ i.EndsWith suffix := by
  obtain ⟨r, hr, hrq⟩ := hq
  obtain ⟨hgraph, hsubject, -, hobject⟩ := h r hr
  rw [Row.graph_of_toQuad hrq, Row.subject_of_toQuad hrq]
  refine ⟨hgraph, hsubject, fun i hi => ?_⟩
  obtain ⟨hkind, hi⟩ := Row.object_of_toQuad hrq hi
  rw [hi] at hobject
  exact hobject hkind

theorem Avoids.live_parentOf (h : s.Avoids suffix) {g p : Iri} (hp : s.parentOf g = some p) :
    ¬ p.EndsWith suffix := by
  obtain ⟨r, hr, -, hkind, hobject⟩ := parentOf_eq_some hp
  have hlive := (h r hr).2.2.2 hkind
  rwa [hobject] at hlive

theorem reads_of_mem_declaringGraphs {u g : Iri} (h : g ∈ s.declaringGraphs u) :
    ∃ q, s.Reads q ∧ q.graph = g := by
  obtain ⟨q, hq, rfl⟩ := List.mem_map.mp h
  obtain ⟨r, hr, -, hrq⟩ := mem_quads.mp hq
  exact ⟨q, ⟨r, hr, hrq⟩, rfl⟩

/-- The context of a vocabulary is the graph of its own name, or a graph of the store. -/
theorem Avoids.live_contextOf (h : s.Avoids suffix) {u g : Iri} (hu : ¬ u.EndsWith suffix)
    (hg : s.contextOf u = .ok g) : ¬ g.EndsWith suffix := by
  rw [contextOf] at hg
  cases hchoice : Choice.choose s.parentOf (s.rows.toList.length + 1) u (s.declaringGraphs u) with
  | ambiguous candidates =>
      rw [hchoice] at hg
      cases hg
  | graph g' =>
      rw [hchoice] at hg
      cases hg
      rcases Choice.mem_of_choose hchoice with rfl | hmem
      · exact hu
      · obtain ⟨q, hq, rfl⟩ := reads_of_mem_declaringGraphs hmem
        exact (h.live_of_reads hq).1

/-- No name in `s` ends with the suffix, and `t` has the rows of `s` and
others, whose graphs and subjects end with it, and whose glossaries do. -/
structure Grows (suffix : String) (s t : Store) : Prop where
  avoids : s.Avoids suffix
  keeps : ∀ r ∈ s.rows, r ∈ t.rows
  graph : ∀ r ∈ t.rows, r ∉ s.rows → r.graph.EndsWith suffix
  subject : ∀ r ∈ t.rows, r ∉ s.rows → r.subject.EndsWith suffix
  glossary : ∀ r ∈ t.rows, r ∉ s.rows → r.predicate = Names.hasGlossary → r.kind = "iri" →
    Iri.EndsWith ⟨r.object⟩ suffix

namespace Grows

variable (h : Grows suffix s t)

include h

theorem length_le : s.rows.toList.length ≤ t.rows.toList.length :=
  (List.subperm_of_subset s.rows.nodup h.keeps).length_le

theorem select_eq {p : Pattern} (hp : ∀ r ∈ t.rows, r ∉ s.rows → p.covers r ≠ true) :
    t.select p = s.select p := by
  refine select_eq_of_covers_iff fun r hr => ⟨fun ht => ?_, h.keeps r⟩
  exact Decidable.byContradiction fun hs => hp r ht hs hr

theorem select_graph {p : Pattern} {g : Iri} (hp : p.graph = some g) (hg : ¬ g.EndsWith suffix) :
    t.select p = s.select p := by
  refine h.select_eq fun r hr hs hcovers => hg ?_
  rw [← Pattern.graph_of_covers hp hcovers]
  exact h.graph r hr hs

theorem select_subject {p : Pattern} {u : Iri} (hp : p.subject = some u)
    (hu : ¬ u.EndsWith suffix) : t.select p = s.select p := by
  refine h.select_eq fun r hr hs hcovers => hu ?_
  rw [← Pattern.subject_of_covers hp hcovers]
  exact h.subject r hr hs

theorem select_glossary {p : Pattern} {g : Iri} (hp : p.predicate = some Names.hasGlossary)
    (ho : p.object = some (.iri g)) (hg : ¬ g.EndsWith suffix) : t.select p = s.select p := by
  refine h.select_eq fun r hr hs hcovers => hg ?_
  obtain ⟨hkind, hobject⟩ := Pattern.object_of_covers ho hcovers
  have hends := h.glossary r hr hs (Pattern.predicate_of_covers hp hcovers) hkind
  rwa [hobject] at hends

theorem contextOf_eq {u : Iri} (hu : ¬ u.EndsWith suffix) : t.contextOf u = s.contextOf u := by
  have hdeclaring : t.declaringGraphs u = s.declaringGraphs u := by
    rw [declaringGraphs, declaringGraphs, quads_congr (h.select_subject rfl hu)]
  have hparent : ∀ g, ¬ g.EndsWith suffix → t.parentOf g = s.parentOf g := by
    intro g hg
    rw [parentOf, parentOf, quads_congr (h.select_graph rfl hg)]
  refine contextOf_congr hdeclaring (fun g hg => ?_) hparent fun _ _ _ => h.avoids.live_parentOf
  obtain ⟨q, hq, rfl⟩ := reads_of_mem_declaringGraphs hg
  exact (h.avoids.live_of_reads hq).1

end Grows

end Store

end SkosArchive
