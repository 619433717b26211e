import SkosArchive.Context.Index
import SkosArchive.Proofs.Choice
import SkosArchive.Proofs.Storage

namespace SkosArchive

namespace Store

def declaration (vocabulary : Iri) : Pattern :=
  { subject := some vocabulary, predicate := some Names.type
    object := some (.iri Names.vocabulary) }

def derivation (graph : Iri) : Pattern :=
  { graph := some graph, subject := some graph, predicate := some Names.derivedFrom }

/-- The graphs that declare `vocabulary`, read straight from the rows. -/
def declaringGraphs (s : Store) (vocabulary : Iri) : List Iri :=
  (s.quads (declaration vocabulary)).map Quad.graph

/-- The graph that `graph` says to be derived from, read straight from the rows. -/
def parentOf (s : Store) (graph : Iri) : Option Iri :=
  (s.quads (derivation graph)).findSome? Quad.objectIri?

/-- The context of `vocabulary` by what is stored. -/
def contextOf (s : Store) (vocabulary : Iri) : Except Error Iri :=
  (Choice.choose s.parentOf (s.rows.toList.length + 1) vocabulary
    (s.declaringGraphs vocabulary)).toExcept vocabulary

theorem parentOf_eq_some {s : Store} {g p : Iri} (h : s.parentOf g = some p) :
    ∃ r ∈ s.rows, r.graph = g ∧ r.kind = "iri" ∧ r.object = p.text := by
  obtain ⟨q, hq, hp⟩ := List.exists_of_findSome?_eq_some h
  obtain ⟨r, hr, hcovers, hrq⟩ := mem_quads.mp hq
  simp only [derivation, Pattern.covers, Option.all_some, Option.all_none, Bool.and_true,
    Bool.and_eq_true, decide_eq_true_eq] at hcovers
  exact ⟨r, hr, hcovers.1.1.symm, Row.object_of_toQuad hrq (Term.iri?_eq_some.mp hp)⟩

theorem mem_graph_of_parentOf {s : Store} {g p : Iri} (h : s.parentOf g = some p) :
    g ∈ s.rows.toList.map Row.graph := by
  obtain ⟨r, hr, rfl, -⟩ := parentOf_eq_some h
  exact List.mem_map_of_mem hr

theorem mem_declaringGraphs {s : Store} {v g : Iri} :
    g ∈ s.declaringGraphs v ↔ .ofQuad ⟨v, Names.type, .iri Names.vocabulary, g⟩ ∈ s.rows := by
  rw [declaringGraphs, List.mem_map]
  constructor
  · rintro ⟨⟨u, predicate, o, graph⟩, hq, rfl⟩
    obtain ⟨ho, hr, -, hu, hpredicate⟩ := mem_quads_iri.mp hq
    simp only [Option.all_some, decide_eq_true_eq] at ho hu hpredicate
    subst ho hu hpredicate
    exact hr
  · intro hr
    exact ⟨_, mem_quads_iri.mpr ⟨rfl, hr, rfl, by simp, by simp⟩, rfl⟩

/-- Choosing by the parents stored does not depend on the steps, if there are
more of them than rows. -/
theorem choose_parentOf (s : Store) {steps : Nat} (h : s.rows.toList.length < steps)
    (vocabulary : Iri) :
    (Choice.choose s.parentOf steps vocabulary (s.declaringGraphs vocabulary)).toExcept
      vocabulary = s.contextOf vocabulary := by
  rw [contextOf, Choice.choose_eq_of_steps fun _ _ => mem_graph_of_parentOf]
  · rw [List.length_map]
    exact Nat.lt_succ_self _
  · rwa [List.length_map]

/-- The context of a vocabulary depends on the graphs that declare it and on the
parents of those that their chains meet. -/
theorem contextOf_congr {s t : Store} {v : Iri} {P : Iri → Prop}
    (hdeclaring : t.declaringGraphs v = s.declaringGraphs v)
    (hP : ∀ g ∈ s.declaringGraphs v, P g) (hparent : ∀ g, P g → t.parentOf g = s.parentOf g)
    (hclosed : ∀ g p, P g → s.parentOf g = some p → P p) : t.contextOf v = s.contextOf v := by
  have hchoose : ∀ steps, Choice.choose t.parentOf steps v (t.declaringGraphs v) =
      Choice.choose s.parentOf steps v (s.declaringGraphs v) := by
    intro steps
    rw [hdeclaring]
    refine Choice.choose_congr v (fun _ => Iff.rfl) fun g hg => ?_
    exact Choice.derives_congr hparent hclosed _ _ (hP g hg)
  obtain ⟨steps, hs, ht⟩ : ∃ n, s.rows.toList.length < n ∧ t.rows.toList.length < n :=
    ⟨s.rows.toList.length + t.rows.toList.length + 1, by omega, by omega⟩
  rw [← t.choose_parentOf ht, hchoose, s.choose_parentOf hs]

end Store

namespace Connection

theorem declaringGraphs_eq_ok {c : Connection} {v : Iri}
    (h : Uninterrupted (c.declaringGraphs v)) :
    c.declaringGraphs v = .ok (c.store.declaringGraphs v) := by
  obtain ⟨l, hl⟩ := h.first.exists_ok (c.quads_failsWith _)
  rw [declaringGraphs, hl, quads_eq_ok rfl rfl hl]
  rfl

theorem parentOf_eq_ok {c : Connection} {g : Iri} (h : Uninterrupted (c.parentOf g)) :
    c.parentOf g = .ok (c.store.parentOf g) := by
  obtain ⟨l, hl⟩ := h.first.exists_ok (c.quads_failsWith _)
  rw [parentOf, hl, quads_eq_ok rfl rfl hl]
  rfl

theorem contextOf_eq {c : Connection} {v : Iri} (h : Uninterrupted (c.contextOf v)) :
    c.contextOf v = c.store.contextOf v := by
  have hdeclaring := declaringGraphs_eq_ok h.first
  replace h := (h.second hdeclaring).first
  rw [contextOf, hdeclaring, ok_bind, Choice.among_eq_ok (fun _ => parentOf_eq_ok) _ _ _ h]
  rfl

/-- A vocabulary that only the graph of its own name declares, or none, stands
there. -/
theorem contextOf_of_own {c : Connection} {v : Iri} {l : List Iri}
    (h : c.declaringGraphs v = .ok l) (hown : ∀ g ∈ l, g = v) : c.contextOf v = .ok v := by
  rw [contextOf, h, ok_bind]
  cases l with
  | nil => rfl
  | cons g l =>
      obtain rfl := hown g List.mem_cons_self
      rw [Choice.among_of_one List.mem_cons_self hown]
      rfl

end Connection

namespace ContextIndex

variable {c : Connection} {index : ContextIndex}

theorem ofQuad?_of_literal (q : Quad) (h : q.objectIri? = none) : Derivation.ofQuad? q = none := by
  rw [Derivation.ofQuad?, h]
  split <;> rfl

/-- An index does not depend on when the rows came. -/
theorem build_eq_ok (h : build c = .ok index) :
    index = ⟨(c.store.quads { predicate := some Names.type
                              object := some (.iri Names.vocabulary) }).map fun q =>
        ⟨q.graph, q.subject⟩,
      (c.store.quads { predicate := some Names.derivedFrom }).filterMap Derivation.ofQuad?⟩ := by
  obtain ⟨declarations, hdeclarations, h⟩ := bind_eq_ok h
  obtain ⟨derivations, hderivations, h⟩ := bind_eq_ok h
  cases h
  rw [(Store.find_eq_ok rfl (Connection.attempt_eq_ok hdeclarations)).1,
    (Store.find_eq_ok rfl (Connection.attempt_eq_ok hderivations)).1,
    Store.answered_eq_quads rfl, Store.filterMap_answered ofQuad?_of_literal]

theorem contextsOf_build (h : build c = .ok index) (v g : Iri) :
    g ∈ index.contextsOf v ↔ g ∈ c.store.declaringGraphs v := by
  rw [build_eq_ok h]
  simp only [contextsOf, Store.declaringGraphs, List.mem_map, List.mem_filter,
    decide_eq_true_eq]
  constructor
  · rintro ⟨_, ⟨⟨q, hq, rfl⟩, rfl⟩, rfl⟩
    obtain ⟨r, hr, hcovers, hrq⟩ := Store.mem_quads.mp hq
    refine ⟨q, Store.mem_quads.mpr ⟨r, hr, ?_, hrq⟩, rfl⟩
    simp only [Store.declaration, Pattern.covers, Option.all_some, Option.all_none, Bool.true_and,
      Bool.and_eq_true, decide_eq_true_eq] at hcovers ⊢
    exact ⟨⟨Row.subject_of_toQuad hrq, hcovers.1⟩, hcovers.2⟩
  · rintro ⟨q, hq, rfl⟩
    obtain ⟨r, hr, hcovers, hrq⟩ := Store.mem_quads.mp hq
    simp only [Store.declaration, Pattern.covers, Option.all_some, Option.all_none, Bool.true_and,
      Bool.and_eq_true, decide_eq_true_eq] at hcovers
    refine ⟨_, ⟨⟨q, Store.mem_quads.mpr ⟨r, hr, ?_, hrq⟩, rfl⟩, ?_⟩, rfl⟩
    · simp only [Pattern.covers, Option.all_some, Option.all_none, Bool.true_and,
        Bool.and_eq_true, decide_eq_true_eq]
      exact ⟨hcovers.1.2, hcovers.2⟩
    · exact (Row.subject_of_toQuad hrq).trans hcovers.1.1.symm

theorem ofQuad?_eq_some {q : Quad} {d : Derivation} (h : Derivation.ofQuad? q = some d) :
    q.subject = q.graph ∧ d.graph = q.graph ∧ q.objectIri? = some d.parent := by
  rw [Derivation.ofQuad?] at h
  split at h
  · rename_i hself
    obtain ⟨parent, hparent, rfl⟩ := Option.map_eq_some_iff.mp h
    exact ⟨hself, rfl, hparent⟩
  · cases h

theorem ofQuad?_eq_none {q : Quad} (h : Derivation.ofQuad? q = none)
    (hself : q.subject = q.graph) : q.objectIri? = none := by
  rw [Derivation.ofQuad?, if_pos hself] at h
  exact Option.map_eq_none_iff.mp h

theorem find?_derivations (quads : List Quad) (g : Iri) :
    ((quads.filterMap Derivation.ofQuad?).find? fun d => d.graph = g).map Derivation.parent =
      (quads.filter fun q => q.graph = g ∧ q.subject = g).findSome? Quad.objectIri? := by
  induction quads with
  | nil => rfl
  | cons q quads ih =>
      by_cases hq : q.graph = g ∧ q.subject = g
      · rw [List.filter_cons_of_pos (by simpa using hq), List.findSome?_cons]
        cases hd : Derivation.ofQuad? q with
        | none =>
            rw [List.filterMap_cons_none hd, ofQuad?_eq_none hd (hq.2.trans hq.1.symm), ih]
        | some d =>
            obtain ⟨-, hgraph, hparent⟩ := ofQuad?_eq_some hd
            rw [List.filterMap_cons_some hd, hparent,
              List.find?_cons_of_pos (by simpa using hgraph.trans hq.1)]
            rfl
      · -- both sides pass over a quad that derives some other graph
        rw [List.filter_cons_of_neg (by simpa using hq)]
        cases hd : Derivation.ofQuad? q with
        | none => rw [List.filterMap_cons_none hd, ih]
        | some d =>
            obtain ⟨hself, hgraph, -⟩ := ofQuad?_eq_some hd
            have hne : ¬ d.graph = g := fun h =>
              hq ⟨hgraph.symm.trans h, hself.trans (hgraph.symm.trans h)⟩
            rw [List.filterMap_cons_some hd, List.find?_cons_of_neg (by simpa using hne), ih]

/-- Rows may be selected by graph and subject before or after they are read. -/
theorem filter_read (f : Iri → Iri → Bool) (rows : List Row) :
    (rows.filter fun r => f r.graph r.subject).filterMap (fun r => r.toQuad.toOption) =
      (rows.filterMap fun r => r.toQuad.toOption).filter fun q => f q.graph q.subject := by
  rw [List.filter_filterMap, List.filterMap_filter]
  refine congrArg (List.filterMap · rows) (funext fun r => ?_)
  cases hq : r.toQuad with
  | error e => cases f r.graph r.subject <;> rfl
  | ok q =>
      rw [← Row.graph_of_toQuad hq, ← Row.subject_of_toQuad hq]
      cases hf : f q.graph q.subject <;> simp [Except.toOption, Option.filter, hf]

theorem quads_derivation (s : Store) (g : Iri) :
    s.quads (Store.derivation g) =
      (s.quads { predicate := some Names.derivedFrom }).filter fun q =>
        q.graph = g ∧ q.subject = g := by
  refine Eq.trans ?_ (filter_read (fun a b => decide (a = g ∧ b = g)) _)
  rw [Store.quads, Store.select, Store.select, List.filter_filter]
  refine congrArg _ (List.filter_congr fun r _ => Bool.eq_iff_iff.mpr ?_)
  simp only [Store.derivation, Pattern.covers, Option.all_some, Option.all_none, Bool.and_true,
    Bool.true_and, Bool.and_eq_true, decide_eq_true_eq]
  exact and_congr (and_congr eq_comm eq_comm) Iff.rfl

theorem parentOf_build (h : build c = .ok index) : index.parentOf = c.store.parentOf := by
  funext g
  rw [build_eq_ok h, parentOf, find?_derivations, Store.parentOf, quads_derivation]

theorem contextOf_build (h : build c = .ok index) (v : Iri) :
    index.contextOf v = c.store.contextOf v := by
  have hderived : ∀ g p, c.store.parentOf g = some p →
      g ∈ index.derivations.map Derivation.graph := by
    intro g p hp
    rw [← parentOf_build h] at hp
    obtain ⟨d, hd, -⟩ := Option.map_eq_some_iff.mp hp
    exact List.mem_map.mpr ⟨d, List.mem_of_find?_eq_some hd, by simpa using List.find?_some hd⟩
  have hlength : (index.derivations.map Derivation.graph).length ≤ c.store.rows.toList.length := by
    rw [build_eq_ok h, List.length_map]
    exact Nat.le_trans (List.length_filterMap_le _ _)
      (Nat.le_trans (List.length_filterMap_le _ _) (List.length_filter_le _ _))
  have hcontexts : Choice.choose c.store.parentOf (index.derivations.length + 1) v
      (index.contextsOf v) = Choice.choose c.store.parentOf (index.derivations.length + 1) v
        (c.store.declaringGraphs v) :=
    Choice.choose_congr v (contextsOf_build h v) fun _ _ => rfl
  change (Choice.choose index.parentOf (index.derivations.length + 1) v
    (index.contextsOf v)).toExcept v = _
  rw [parentOf_build h, hcontexts, Store.contextOf,
    Choice.choose_eq_of_steps hderived (Nat.lt_succ_of_le hlength)]
  rw [List.length_map]
  exact Nat.lt_succ_self _

end ContextIndex

theorem Choice.toExcept_failsWith (v : Iri) (choice : Choice) :
    FailsWith (fun e => ∃ candidates, e = .ambiguousContext v candidates)
      (choice.toExcept v) := by
  cases choice with
  | graph g => exact FailsWith.ok g
  | ambiguous candidates => exact FailsWith.error ⟨candidates, rfl⟩

namespace ContextCache

/-- There is no index, or it is one of the contents of `s`. -/
def Reflects (cache : ContextCache) (s : Store) : Prop :=
  ∀ index, cache.index = some index → ∃ service, ContextIndex.build ⟨s, service⟩ = .ok index

theorem contextOf_cases {cache : ContextCache} {c : Connection} {s : Store} {v : Iri}
    (hcache : cache.Reflects s) (h : Uninterrupted (cache.contextOf c v)) :
    cache.contextOf c v = s.contextOf v ∨ cache.contextOf c v = c.store.contextOf v := by
  rw [contextOf] at h ⊢
  cases hindex : cache.index with
  | none =>
      rw [hindex] at h
      exact .inr (Connection.contextOf_eq h)
  | some index =>
      obtain ⟨service, hbuild⟩ := hcache index hindex
      exact .inl (ContextIndex.contextOf_build hbuild v)

theorem contextOf_failsWith (cache : ContextCache) (c : Connection) (v : Iri) :
    FailsWith (fun e => e.IsStorage ∨ ∃ candidates, e = .ambiguousContext v candidates)
      (cache.contextOf c v) := by
  rw [contextOf]
  cases cache.index with
  | none =>
      refine FailsWith.bind ?_ fun graphs _ => FailsWith.bind ?_ fun choice _ => ?_
      · refine FailsWith.mono (E := Error.IsStorage) ?_ fun e => .inl
        exact (c.quads_failsWith _).bind fun quads _ => FailsWith.ok _
      · refine (Choice.among_failsWith (fun g => ?_) _ _ _).mono fun e => .inl
        exact (c.quads_failsWith _).bind fun quads _ => FailsWith.ok _
      · exact (Choice.toExcept_failsWith v choice).mono fun e => .inr
  | some index => exact (Choice.toExcept_failsWith v _).mono fun e => .inr

end ContextCache

end SkosArchive
