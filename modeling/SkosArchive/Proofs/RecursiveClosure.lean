import Mathlib.Logic.Relation
import SkosArchive.Archive.Basic
import SkosArchive.Proofs.LoadedContexts
import SkosArchive.Proofs.Related

namespace SkosArchive

namespace Catalogue

variable {c : Catalogue} {relations : RelationSet} {u w origin : Iri}

/-- Where one hop leads from a vocabulary that its context describes: to its
imports, and to the owners of what its terms link to. -/
def LeadsTo (c : Catalogue) (relations : RelationSet) (u w : Iri) : Prop :=
  ∃ found, c.find u = .ok (some found) ∧ (w ∈ found.vocabulary.imports ∨ ∃ target,
    c.connection.store.LinksOut relations found target ∧
      c.connection.vocabularyOfTerm target = .ok (some w))

/-- Any number of hops, or none. -/
def LeadsOn (c : Catalogue) (relations : RelationSet) : Iri → Iri → Prop :=
  Relation.ReflTransGen (c.LeadsTo relations)

theorem neighbours_of_find_none (h : c.find u = .ok none) :
    c.neighbours relations u = .ok [] := by
  rw [neighbours, neighbourhood, h]
  rfl

theorem exists_find_of_neighbours {l : List Iri} (h : c.neighbours relations u = .ok l) :
    ∃ o, c.find u = .ok o := by
  obtain ⟨next, hnext, -⟩ := bind_eq_ok h
  obtain ⟨o, ho, -⟩ := bind_eq_ok hnext
  exact ⟨o, ho⟩

theorem mem_neighbours_iff {l : List Iri} (h : c.neighbours relations u = .ok l) :
    w ∈ l ↔ ∃ found, c.find u = .ok (some found) ∧ (w ∈ found.vocabulary.imports ∨ w ≠ u ∧
      ∃ target, c.connection.store.LinksOut relations found target ∧
        c.connection.vocabularyOfTerm target = .ok (some w)) := by
  obtain ⟨o, ho⟩ := exists_find_of_neighbours h
  cases o with
  | none =>
      rw [neighbours_of_find_none ho] at h
      cases h
      simp [ho]
  | some found =>
      rw [(neighbours_eq_ok ho h).1]
      simp [ho]

theorem leadsTo_of_mem_neighbours {l : List Iri} (h : c.neighbours relations u = .ok l)
    (hw : w ∈ l) : c.LeadsTo relations u w := by
  obtain ⟨found, ho, hmem⟩ := (mem_neighbours_iff h).mp hw
  exact ⟨found, ho, hmem.imp_right And.right⟩

theorem mem_neighbours_of_leadsTo {l : List Iri} (h : c.neighbours relations u = .ok l)
    (hne : w ≠ u) (hleads : c.LeadsTo relations u w) : w ∈ l := by
  obtain ⟨found, ho, hmem⟩ := hleads
  exact (mem_neighbours_iff h).mpr ⟨found, ho, hmem.imp_right (And.intro hne)⟩

theorem leadsOn_of_reachable (h : Reachable (c.neighbours relations) origin w) :
    c.LeadsOn relations origin w := by
  induction h with
  | refl => exact .refl
  | step _ hnext hb ih => exact .tail ih (leadsTo_of_mem_neighbours hnext hb)

theorem reachable_of_leadsOn
    (hfound : ∀ a, Reachable (c.neighbours relations) origin a →
      ∃ l, c.neighbours relations a = .ok l) (h : c.LeadsOn relations origin w) :
    Reachable (c.neighbours relations) origin w := by
  induction h with
  | refl => exact .refl
  | @tail a b _ hleads ih =>
      obtain ⟨l, hl⟩ := hfound a ih
      by_cases hne : b = a
      · rwa [hne]
      · exact .step ih hl (mem_neighbours_of_leadsTo hl hne hleads)

/-- The recursive related set is what the search without a bound ends with. -/
theorem exists_searches (c : Catalogue) (relations : RelationSet) (origin : Iri) :
    ∃ reached, Reachable.Searches (c.neighbours relations) [origin] [origin] reached ∧
      c.recursiveRelated relations origin = reached.map Ascending.ofList := by
  refine ⟨_, c.searches_from? relations origin, ?_⟩
  rw [recursiveRelated]
  cases Reachable.from? (c.neighbours relations)
    (2 * c.connection.store.rows.toList.length + 1) origin with
  | error e => rfl
  | ok reached => rfl

theorem recursiveRelated_leadsOn {related : IriSet}
    (h : c.recursiveRelated relations origin = .ok related) :
    (∀ y, y ∈ related ↔ c.LeadsOn relations origin y) ∧
      ∀ y, c.LeadsOn relations origin y → ∃ context, c.contextOf y = .ok context := by
  obtain ⟨hmem, hfound⟩ := recursiveRelated_eq_ok h
  have hreach : ∀ y, Reachable (c.neighbours relations) origin y ↔ c.LeadsOn relations origin y :=
    fun y => ⟨leadsOn_of_reachable,
      reachable_of_leadsOn fun a ha => hfound a ((hmem a).mpr ha)⟩
  refine ⟨fun y => (hmem y).trans (hreach y), fun y hy => ?_⟩
  obtain ⟨l, hl⟩ := hfound y ((hmem y).mpr ((hreach y).mpr hy))
  obtain ⟨o, ho⟩ := exists_find_of_neighbours hl
  obtain ⟨context, hcontext, -⟩ := find_cases ho
  exact ⟨context, hcontext⟩

theorem recursiveRelated_failsWith (c : Catalogue) (relations : RelationSet) (origin : Iri) :
    FailsWith (fun e => e.IsStorage ∨
      ∃ y, c.LeadsOn relations origin y ∧ c.contextOf y = .error e)
      (c.recursiveRelated relations origin) := by
  have hstart : ∀ y ∈ [origin], Reachable (c.neighbours relations) origin y := by
    intro y hy
    obtain rfl := List.mem_singleton.mp hy
    exact .refl
  refine FailsWith.bind (Reachable.explore_failsWith_of_reachable ?_ _ hstart _)
    fun reached _ => FailsWith.ok _
  intro y hy
  refine ((c.neighbourhood_failsWith_own relations y).bind fun next _ => FailsWith.ok _).mono ?_
  rintro e (hstorage | hcontext)
  · exact .inl hstorage
  · exact .inr ⟨y, leadsOn_of_reachable hy, hcontext⟩

section

variable {s : Store} {arrival : Row → Nat} {contextOf : Iri → Except Error Iri}

theorem find_failsWith_of_readable (hs : s.Readable) (u : Iri) :
    FailsWith (fun e => contextOf u = .error e)
      ((Catalogue.mk (.reliable s arrival) contextOf).find u) := by
  refine FailsWith.bind (fun _ he => he) fun context _ => FailsWith.mono (E := fun _ => False) ?_
    fun _ he => he.elim
  exact ((Connection.quads_succeed hs rfl).bind fun quads _ => FailsWith.ok _).bind
    fun o _ => FailsWith.ok _

theorem neighbours_failsWith_of_readable (hs : s.Readable) (relations : RelationSet) (u : Iri) :
    FailsWith (fun e => contextOf u = .error e)
      ((Catalogue.mk (.reliable s arrival) contextOf).neighbours relations u) := by
  cases hfind : (Catalogue.mk (.reliable s arrival) contextOf).find u with
  | error e =>
      rw [neighbours, neighbourhood, hfind]
      exact FailsWith.error (find_failsWith_of_readable hs u e hfind)
  | ok o =>
      have hneighbours : ∃ l,
          (Catalogue.mk (.reliable s arrival) contextOf).neighbours relations u = .ok l := by
        cases o with
        | none => exact ⟨_, neighbours_of_find_none hfind⟩
        | some found =>
            exact exists_neighbours hfind (fun r hr _ => hs r hr) fun target _ =>
              Connection.exists_vocabularyOfTerm fun r hr _ _ => hs r hr
      obtain ⟨l, hl⟩ := hneighbours
      rw [hl]
      exact FailsWith.ok l

theorem recursiveRelated_failsWith_of_readable (hs : s.Readable) (relations : RelationSet)
    (origin : Iri) :
    FailsWith (fun e => ∃ y, contextOf y = .error e)
      ((Catalogue.mk (.reliable s arrival) contextOf).recursiveRelated relations origin) := by
  refine FailsWith.bind (Reachable.explore_failsWith (fun y => ?_) _ _ _) fun reached _ =>
    FailsWith.ok _
  exact (neighbours_failsWith_of_readable hs relations y).mono fun e he => ⟨y, he⟩

end

end Catalogue

theorem ContextCache.uninterrupted_contextOf {s : Store} {arrival : Row → Nat}
    (cache : ContextCache) (hs : s.Readable) (v : Iri) :
    Uninterrupted (cache.contextOf (.reliable s arrival) v) := by
  rw [ContextCache.contextOf]
  cases cache.index with
  | none =>
      obtain ⟨index, hbuild⟩ := ContextIndex.exists_build hs arrival
      exact Connection.uninterrupted_contextOf (fun _ => rfl) hbuild (fun _ => id) v
  | some index =>
      refine (Choice.toExcept_failsWith v _).mono ?_
      rintro _ ⟨candidates, rfl⟩ ⟨cause, h⟩
      cases h

namespace Archive

variable {a : Archive} {env : Environment}

theorem overlay_failsWith (workspace : Option Workspace) (v : Iri) :
    FailsWith (fun e => e.IsStorage ∨ ∃ candidates, e = .ambiguousContext v candidates)
      (a.overlay env workspace v) := by
  rw [overlay]
  cases workspace.bind fun w => w.copy? v with
  | none => exact ContextCache.contextOf_failsWith _ _ _
  | some copy => exact FailsWith.ok _

theorem uninterrupted_overlay
    (hcalls : a.connection env = .reliable a.store env.service.arrival) (hs : a.store.Readable)
    (workspace : Option Workspace) (v : Iri) : Uninterrupted (a.overlay env workspace v) := by
  rw [overlay]
  cases workspace.bind fun w => w.copy? v with
  | some copy => exact FailsWith.ok _
  | none =>
      simp only [canonicalContext, hcalls]
      exact a.contexts.uninterrupted_contextOf hs v

theorem uninterrupted_recursiveRelated
    (hcalls : a.connection env = .reliable a.store env.service.arrival) (hs : a.store.Readable)
    (workspace : Option Workspace) (relations : RelationSet)
    (origin : Iri) :
    Uninterrupted (Catalogue.recursiveRelated ⟨a.connection env, a.overlay env workspace⟩
      relations origin) := by
  have hfails : FailsWith (fun e => ∃ y, a.overlay env workspace y = .error e)
      (Catalogue.recursiveRelated
        ⟨.reliable a.store env.service.arrival, a.overlay env workspace⟩ relations origin) :=
    Catalogue.recursiveRelated_failsWith_of_readable hs relations origin
  rw [← hcalls] at hfails
  refine hfails.mono ?_
  rintro e ⟨y, hy⟩
  exact uninterrupted_overlay hcalls hs workspace y e hy

theorem ambiguous_of_recursiveRelated {workspace : Option Workspace} {relations : RelationSet}
    {origin : Iri} {e : Error}
    (h : Catalogue.recursiveRelated ⟨a.connection env, a.overlay env workspace⟩ relations origin =
      .error e) (hcalls : ¬ e.IsStorage) :
    ∃ y candidates, Catalogue.LeadsOn ⟨a.connection env, a.overlay env workspace⟩ relations
      origin y ∧ a.overlay env workspace y = .error (.ambiguousContext y candidates) ∧
        e = .ambiguousContext y candidates := by
  rcases Catalogue.recursiveRelated_failsWith _ relations origin e h with
    hstorage | ⟨y, hy, hcontext⟩
  · exact absurd hstorage hcalls
  · rcases overlay_failsWith workspace y e hcontext with hstorage | ⟨candidates, rfl⟩
    · exact absurd hstorage hcalls
    · exact ⟨y, candidates, hy, hcontext, rfl⟩

/-- Recursive search always comes to an end. Unless a call of the storage fails
on the way, it gives what hops lead to if all of it has a context, and the
ambiguity of some vocabulary that hops lead to otherwise. -/
theorem recursiveRelated_exact (a : Archive) (env : Environment) (workspace : Option Workspace)
    (relations : RelationSet) (origin : Iri) :
    let c : Catalogue := ⟨a.connection env, a.overlay env workspace⟩
    let outcome := c.related .recursive relations origin
    (∃ reached, Reachable.Searches (c.neighbours relations) [origin] [origin] reached ∧
      outcome = reached.map Ascending.ofList) ∧
    (a.connection env = .reliable a.store env.service.arrival → a.store.Readable →
      Uninterrupted outcome) ∧
    (Uninterrupted outcome →
      ((∀ y, c.LeadsOn relations origin y → ∃ context, c.contextOf y = .ok context) →
        ∃ related, outcome = .ok related ∧ ∀ y, y ∈ related ↔ c.LeadsOn relations origin y) ∧
      ((∃ y candidates, c.LeadsOn relations origin y ∧
          c.contextOf y = .error (.ambiguousContext y candidates)) →
        ∃ y candidates, c.LeadsOn relations origin y ∧
          c.contextOf y = .error (.ambiguousContext y candidates) ∧
            outcome = .error (.ambiguousContext y candidates))) := by
  intro c outcome
  refine ⟨c.exists_searches relations origin,
    fun hcalls hs => uninterrupted_recursiveRelated hcalls hs workspace relations origin,
    fun hcalls => ⟨?_, ?_⟩⟩
  · intro hcontexts
    cases houtcome : outcome with
    | ok related => exact ⟨related, rfl, (Catalogue.recursiveRelated_leadsOn houtcome).1⟩
    | error e =>
        obtain ⟨y, candidates, hy, hambiguous, -⟩ :=
          ambiguous_of_recursiveRelated houtcome (hcalls e houtcome)
        obtain ⟨context, hcontext⟩ := hcontexts y hy
        cases hambiguous.symm.trans hcontext
  · rintro ⟨y, candidates, hy, hambiguous⟩
    cases houtcome : outcome with
    | ok related =>
        obtain ⟨context, hcontext⟩ := (Catalogue.recursiveRelated_leadsOn houtcome).2 y hy
        cases hambiguous.symm.trans hcontext
    | error e =>
        obtain ⟨z, candidates', hz, hambiguous', rfl⟩ :=
          ambiguous_of_recursiveRelated houtcome (hcalls e houtcome)
        exact ⟨z, candidates', hz, hambiguous', rfl⟩

theorem recursiveRelated_exact_linkedPair :
    ∃ (a b : Archive) (env : Environment),
      (∃ related, Catalogue.related ⟨a.connection env, a.overlay env none⟩ .recursive .standard
          ⟨"v"⟩ = .ok related ∧
        ∀ y, y ∈ related ↔
          Catalogue.LeadsOn ⟨a.connection env, a.overlay env none⟩ .standard ⟨"v"⟩ y) ∧
      ∃ y candidates,
        Catalogue.related ⟨b.connection env, b.overlay env none⟩ .recursive .standard ⟨"v"⟩ =
          .error (.ambiguousContext y candidates) := by
  let env : Environment := .reliable ⟨1700000000, 0, by decide, by decide⟩
  let a : Archive := fresh .standard .linkedPair .empty
  -- the vocabulary that is linked to is declared a second time in another graph
  let b : Archive := fresh .standard
    (Store.linkedPair.put (.ofQuad ⟨⟨"w"⟩, Names.type, .iri Names.vocabulary, ⟨"u"⟩⟩)) .empty
  obtain ⟨-, hcalls, hexact⟩ := recursiveRelated_exact a env none .standard ⟨"v"⟩
  obtain ⟨-, hcalls', hexact'⟩ := recursiveRelated_exact b env none .standard ⟨"v"⟩
  have hread : a.store.Readable := Store.readable_ofQuads _
  have hread' : b.store.Readable := by
    have hput : Store.linkedPair.apply
        [.insert [⟨⟨"w"⟩, Names.type, .iri Names.vocabulary, ⟨"u"⟩⟩]] = .ok b.store := by
      decide +kernel
    exact hread.apply hput
  have hrelated : Catalogue.recursiveRelated ⟨a.connection env, a.overlay env none⟩ .standard
      ⟨"v"⟩ = .ok (Ascending.ofList [⟨"v"⟩, ⟨"w"⟩]) := by
    decide +kernel
  refine ⟨a, b, env, (hexact (hcalls rfl hread)).1 (Catalogue.recursiveRelated_leadsOn hrelated).2,
    ?_⟩
  let found : Located :=
    ⟨⟨⟨"v"⟩, some ⟨"v/glossary"⟩, none, .empty, none⟩, ⟨"v"⟩⟩
  have hfind : Catalogue.find ⟨b.connection env, b.overlay env none⟩ ⟨"v"⟩ =
      .ok (some found) := by
    decide +kernel
  let link : Quad := ⟨⟨"v/term"⟩, SkosProperty.exactMatch.iri, .iri ⟨"w/term"⟩, ⟨"v"⟩⟩
  have hlinks : b.store.LinksOut .standard found ⟨"w/term"⟩ :=
    ⟨⟨"v/glossary"⟩, ⟨"v/term"⟩, rfl, by decide +kernel, link.predicate, by decide +kernel,
      .ofQuad link, by decide +kernel, Row.toQuad_ofQuad link⟩
  have hleads : Catalogue.LeadsTo ⟨b.connection env, b.overlay env none⟩ .standard ⟨"v"⟩ ⟨"w"⟩ :=
    ⟨found, hfind, .inr ⟨⟨"w/term"⟩, hlinks, by decide +kernel⟩⟩
  have hambiguous : b.overlay env none ⟨"w"⟩ =
      .error (.ambiguousContext ⟨"w"⟩ (Ascending.ofList [⟨"u"⟩, ⟨"w"⟩])) := by
    decide +kernel
  obtain ⟨y, candidates, -, -, houtcome⟩ :=
    (hexact' (hcalls' rfl hread')).2 ⟨⟨"w"⟩, _, .single hleads, hambiguous⟩
  exact ⟨y, candidates, houtcome⟩

end Archive

end SkosArchive
