import SkosArchive.Proofs.Removal
import SkosArchive.Proofs.Written

namespace SkosArchive

namespace Store

variable {s t : Store} {g : Iri}

/-- The rows of one graph. -/
def content (s : Store) (g : Iri) : List Row := s.select { graph := some g }

theorem mem_content {r : Row} : r ∈ s.content g ↔ r ∈ s.rows ∧ r.graph = g := by
  rw [content, mem_select, Pattern.covers_graph]

theorem content_ne_nil : s.content g ≠ [] ↔ g ∈ s.graphs := by
  rw [mem_graphs]
  constructor
  · intro h
    obtain ⟨r, hr⟩ := List.exists_mem_of_ne_nil _ h
    exact ⟨r, mem_content.mp hr⟩
  · rintro ⟨r, hr⟩
    exact List.ne_nil_of_mem (mem_content.mpr hr)

theorem content_eq_nil : s.content g = [] ↔ g ∉ s.graphs := by
  rw [← content_ne_nil, Decidable.not_not]

theorem content_congr (h : ∀ r, r.graph = g → (r ∈ t.rows ↔ r ∈ s.rows)) :
    t.content g = s.content g :=
  select_eq_of_covers_iff fun r hr => h r (Pattern.covers_graph.mp hr)

theorem mem_graphs_of_content (h : t.content g = s.content g) (hg : g ∈ s.graphs) :
    g ∈ t.graphs := by
  rwa [← content_ne_nil, h, content_ne_nil]

end Store

inductive SnapshotAction where
  | create (now : Instant) (vocabulary : Iri)
  | remove (snapshot : Iri)

/-- A call to create or to remove a snapshot, with all that its outcome depends
on besides the store. -/
structure SnapshotCall where
  action : SnapshotAction
  resolver : Resolver
  config : SnapshotConfig
  service : Service
  contextOf : Iri → Except Error Iri

namespace SnapshotCall

variable {x : SnapshotCall} {s t : Store} {g : Iri}

/-- The store that a call leaves; one that fails leaves it as it was. -/
def step (s : Store) (x : SnapshotCall) : Store :=
  let c : Catalogue := ⟨⟨s, x.service⟩, x.contextOf⟩
  match x.action with
  | .create now v =>
    match c.createSnapshot x.resolver x.config now v with
    | .ok (_, t) => t
    | .error _ => s
  | .remove iri =>
    match c.removeSnapshot x.resolver x.config iri with
    | .ok (_, t) => t
    | .error _ => s

/-- The store that calls leave that are made one after the other. -/
def run (s : Store) (calls : List SnapshotCall) : Store := calls.foldl step s

/-- A call leaves the store as it was, writes new graphs, or drops whole graphs
that name something as a version. -/
theorem step_cases (s : Store) (x : SnapshotCall) :
    step s x = s ∨
      (∃ now v, x.action = .create now v) ∧ (∃ k : Cascade, k.Written s (step s x)) ∨
        (∃ iri, x.action = .remove iri) ∧ ∃ graphs : List Iri,
          (∀ g ∈ graphs, ∃ q, s.Reads q ∧ q.predicate = Names.versionOf ∧ q.graph = g) ∧
            ∀ r, r ∈ (step s x).rows ↔ r ∈ s.rows ∧ r.graph ∉ graphs := by
  obtain ⟨action, resolver, config, service, contextOf⟩ := x
  cases action with
  | create now v =>
      rw [step]
      dsimp only
      split
      · rename_i snapshot t h
        obtain ⟨-, k, -, hwritten, -⟩ := Catalogue.createSnapshot_eq_ok h
        exact .inr (.inl ⟨⟨now, v, rfl⟩, k, hwritten⟩)
      · exact .inl rfl
  | remove iri =>
      rw [step]
      dsimp only
      split
      · rename_i graphs t h
        obtain ⟨snapshot, related, -, -, -, hgraphs, -, hrows⟩ := Catalogue.removeSnapshot_eq_ok h
        refine .inr (.inr ⟨⟨iri, rfl⟩, graphs, fun g hg => ?_, hrows⟩)
        obtain ⟨w, -, i, hi, -⟩ := (hgraphs g).mp hg
        exact ⟨_, ⟨_, hi, Row.toQuad_ofQuad _⟩, rfl, rfl⟩
      · exact .inl rfl

/-- The graphs that a call writes were absent, and those that it drops held a
version; the others are untouched. -/
theorem content_step (s : Store) (x : SnapshotCall) (g : Iri) :
    (step s x).content g = s.content g ∨
      (∃ now v, x.action = .create now v) ∧ s.content g = [] ∧ (step s x).content g ≠ [] ∨
        (∃ iri, x.action = .remove iri) ∧ s.content g ≠ [] ∧ (step s x).content g = [] ∧
          ∃ q, s.Reads q ∧ q.predicate = Names.versionOf ∧ q.graph = g := by
  rcases step_cases s x with h | ⟨hcreate, k, hwritten⟩ | ⟨hremove, graphs, hversion, hrows⟩
  · rw [h]
    exact .inl rfl
  · by_cases hg : ∃ p ∈ k.plans, g = k.target p
    · obtain ⟨p, hp, rfl⟩ := hg
      exact .inr (.inl ⟨hcreate, Store.content_eq_nil.mpr (hwritten.fresh p hp),
        Store.content_ne_nil.mpr (hwritten.target_mem_graphs hp)⟩)
    · refine .inl (Store.content_congr fun r hr => ⟨fun h => ?_, hwritten.keeps⟩)
      by_cases hs : r ∈ s.rows
      · exact hs
      · obtain ⟨p, hp, htarget⟩ := hwritten.graph_of_new h hs
        exact absurd ⟨p, hp, hr.symm.trans htarget⟩ hg
  · by_cases hg : g ∈ graphs
    · obtain ⟨q, hq, hp, hqg⟩ := hversion g hg
      refine .inr (.inr ⟨hremove, ?_, ?_, q, hq, hp, hqg⟩)
      · obtain ⟨r, hr, hrq⟩ := hq
        exact Store.content_ne_nil.mpr
          (Store.mem_graphs.mpr ⟨r, hr, (Row.graph_of_toQuad hrq).symm.trans hqg⟩)
      · refine List.eq_nil_iff_forall_not_mem.mpr fun r hr => ?_
        obtain ⟨hr, hrg⟩ := Store.mem_content.mp hr
        exact ((hrows r).mp hr).2 (hrg ▸ hg)
    · refine .inl (Store.content_congr fun r hr => ?_)
      rw [hrows]
      exact and_iff_left (hr ▸ hg)

theorem content_step_of_mem (hg : g ∈ s.graphs)
    (hversion : ∀ q, s.Reads q → q.graph = g → q.predicate ≠ Names.versionOf) :
    (step s x).content g = s.content g := by
  rcases content_step s x g with h | ⟨-, h, -⟩ | ⟨-, -, -, q, hq, hp, hqg⟩
  · exact h
  · exact absurd hg (Store.content_eq_nil.mp h)
  · exact absurd hp (hversion q hq hqg)

/-- Every graph of the first store has the same rows in the second. -/
def Keeps (s₀ s : Store) : Prop := ∀ g ∈ s₀.graphs, s.content g = s₀.content g

section

variable {s₀ : Store} (hversion : ∀ q, s₀.Reads q → q.predicate ≠ Names.versionOf)

include hversion

theorem Keeps.step (h : Keeps s₀ s) (x : SnapshotCall) : Keeps s₀ (step s x) := by
  intro g hg
  have hcontent := h g hg
  refine (content_step_of_mem (Store.mem_graphs_of_content hcontent hg) ?_).trans hcontent
  -- a version named in `g` now would have been named there from the start
  rintro q ⟨r, hr, hrq⟩ hqg
  have hmem : r ∈ s₀.content g := by
    rw [← hcontent]
    exact Store.mem_content.mpr ⟨hr, (Row.graph_of_toQuad hrq).symm.trans hqg⟩
  exact hversion q ⟨r, (Store.mem_content.mp hmem).1, hrq⟩

theorem Keeps.run (h : Keeps s₀ s) (calls : List SnapshotCall) : Keeps s₀ (run s calls) := by
  induction calls generalizing s with
  | nil => exact h
  | cons x calls ih => exact ih (h.step hversion x)

end

/-- `g` has the rows it has in `s` for all the calls, or until one of them
removes it as a whole. -/
def KeptUntilRemoved (s : Store) (g : Iri) (calls : List SnapshotCall) : Prop :=
  (∀ calls', calls' <+: calls → (run s calls').content g = s.content g) ∨
    ∃ before x, before ++ [x] <+: calls ∧
      (∀ calls', calls' <+: before → (run s calls').content g = s.content g) ∧
        (∃ iri, x.action = .remove iri) ∧ (run s (before ++ [x])).content g = []

theorem prefix_kept {calls : List SnapshotCall} (h : (step s x).content g = s.content g)
    (hcalls : ∀ calls', calls' <+: calls →
      (run (step s x) calls').content g = (step s x).content g) :
    ∀ calls', calls' <+: x :: calls → (run s calls').content g = s.content g := by
  intro calls' hprefix
  cases calls' with
  | nil => rfl
  | cons y calls' =>
      obtain ⟨rfl, hrest⟩ := List.cons_prefix_cons.mp hprefix
      exact (hcalls calls' hrest).trans h

theorem keptUntilRemoved_of_mem (hg : g ∈ s.graphs) (calls : List SnapshotCall) :
    KeptUntilRemoved s g calls := by
  induction calls generalizing s with
  | nil =>
      refine .inl fun calls' hprefix => ?_
      rw [List.prefix_nil.mp hprefix]
      rfl
  | cons x calls ih =>
      rcases content_step s x g with h | ⟨-, hnil, -⟩ | ⟨hremove, -, hnil, -⟩
      · -- `g` is present in the store that the call leaves, with the same rows
        rcases ih (Store.mem_graphs_of_content h hg) with
          hkept | ⟨before, y, hprefix, hkept, hremove, hnil⟩
        · exact .inl (prefix_kept h hkept)
        · exact .inr ⟨x :: before, y, List.cons_prefix_cons.mpr ⟨rfl, hprefix⟩,
            prefix_kept h hkept, hremove, hnil⟩
      · exact absurd hg (Store.content_eq_nil.mp hnil)
      · refine .inr ⟨[], x, List.cons_prefix_cons.mpr ⟨rfl, List.nil_prefix⟩, ?_, hremove, hnil⟩
        intro calls' hprefix
        rw [List.prefix_nil.mp hprefix]
        rfl

/-- From a store without versions no sequence of calls edits a graph. At every
call a graph is untouched, or it is created and was absent, or it is removed as
a whole; the graphs of the first store stay as they are; and a graph that a
call creates keeps its rows until a removal drops it. -/
theorem run_never_edits {s₀ : Store} (hversion : ∀ q, s₀.Reads q → q.predicate ≠ Names.versionOf)
    (calls : List SnapshotCall) (x : SnapshotCall) :
    (∀ g, (step (run s₀ calls) x).content g = (run s₀ calls).content g ∨
      (∃ now v, x.action = .create now v) ∧
        (run s₀ calls).content g = [] ∧ (step (run s₀ calls) x).content g ≠ [] ∨
      (∃ iri, x.action = .remove iri) ∧
        (run s₀ calls).content g ≠ [] ∧ (step (run s₀ calls) x).content g = []) ∧
    (∀ g ∈ s₀.graphs, (run s₀ calls).content g = s₀.content g) ∧
    ∀ g, (run s₀ calls).content g = [] → (step (run s₀ calls) x).content g ≠ [] →
      ∀ later, KeptUntilRemoved (step (run s₀ calls) x) g later := by
  refine ⟨fun g => ?_, Keeps.run hversion (fun g _ => rfl) calls, fun g _ hg later => ?_⟩
  · exact (content_step _ x g).imp_right (Or.imp_right fun h => ⟨h.1, h.2.1, h.2.2.1⟩)
  · exact keptUntilRemoved_of_mem (Store.content_ne_nil.mp hg) later

theorem run_never_edits_linkedPair :
    ∃ x : SnapshotCall, (∀ q, Store.linkedPair.Reads q → q.predicate ≠ Names.versionOf) ∧
      (step .linkedPair x).content ⟨"v/version/2023-11-14T221320Z"⟩ ≠ [] ∧
        (∀ g ∈ Store.linkedPair.graphs, (run .linkedPair [x]).content g =
          Store.linkedPair.content g) ∧
        ∀ later, KeptUntilRemoved (step .linkedPair x) ⟨"v/version/2023-11-14T221320Z"⟩ later := by
  have hrows : ∀ r ∈ Store.linkedPair.rows.toList, r.predicate ≠ Names.versionOf := by
    decide +kernel
  have hversion : ∀ q, Store.linkedPair.Reads q → q.predicate ≠ Names.versionOf := by
    rintro q ⟨r, hr, hrq⟩
    rw [Row.predicate_of_toQuad hrq]
    exact hrows r hr
  let x : SnapshotCall := ⟨.create ⟨1700000000, 0, by decide, by decide⟩ ⟨"v"⟩, .skos, .standard,
    {}, (Connection.reliable .linkedPair).contextOf⟩
  have hnew : (step .linkedPair x).content ⟨"v/version/2023-11-14T221320Z"⟩ ≠ [] := by
    decide +kernel
  have hnil : Store.linkedPair.content ⟨"v/version/2023-11-14T221320Z"⟩ = [] := by
    decide +kernel
  exact ⟨x, hversion, hnew, (run_never_edits hversion [x] x).2.1,
    (run_never_edits hversion [] x).2.2 _ hnil hnew⟩

end SnapshotCall

end SkosArchive
