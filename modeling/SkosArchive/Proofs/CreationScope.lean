import SkosArchive.Proofs.Contexts
import SkosArchive.Proofs.Related
import SkosArchive.Proofs.Written

namespace SkosArchive

/-- The error does not report that a snapshot exists already. -/
def Error.NoConflict (e : Error) : Prop := ∀ g, e ≠ .snapshotConflict g

namespace Catalogue

variable {c : Catalogue} {resolver : Resolver} {config : SnapshotConfig} {now : Instant}
  {v : Iri}

theorem createSnapshot_of_checked {k : Cascade} (hsnapshot : c.connection.isSnapshot v = .ok false)
    (hdeclared : c.connection.isDeclared v = .ok true)
    (hk : c.cascade resolver config now v = .ok k) {e : Error}
    (he : c.checkTargets k k.plans = .error e) :
    c.createSnapshot resolver config now v = .error e := by
  rw [createSnapshot, snapshotQuads, hsnapshot, ok_bind, hdeclared, ok_bind, hk, ok_bind, he]
  rfl

/-- `g` is the target of the least vocabulary copied whose target exists. -/
def FirstTaken (c : Catalogue) (related : IriSet) (suffix : String) (g : Iri) : Prop :=
  ∃ w, c.Copies related w ∧ g = w.withSuffix suffix ∧ g ∈ c.connection.store.graphs ∧
    ∀ w', c.Copies related w' → w' < w → w'.withSuffix suffix ∉ c.connection.store.graphs

theorem checkTargets_eq_conflict {k : Cascade} {related : IriSet}
    (hplans : c.plans v related.toList = .ok k.plans)
    (h : Uninterrupted (c.checkTargets k k.plans)) {g : Iri} :
    c.checkTargets k k.plans = .error (.snapshotConflict g) ↔
      c.FirstTaken related k.suffix g := by
  have hascending : (k.plans.map CopyPlan.iri).Pairwise (· < ·) :=
    related.ascending.sublist (of_plans_eq_ok hplans).1
  rcases checkTargets_cases h with ⟨hok, hfresh⟩ | ⟨before, p, after, hsplit, hbefore, hp, he⟩
  · rw [hok]
    refine iff_of_false (fun h => nomatch h) ?_
    rintro ⟨w, hw, rfl, htaken, -⟩
    obtain ⟨p, hp, rfl⟩ := (exists_plan_iff hplans).mpr hw
    exact hfresh p hp htaken
  · have hpcopied : c.Copies related p.iri :=
      (exists_plan_iff hplans).mp ⟨p, by simp [hsplit], rfl⟩
    rw [hsplit, List.map_append, List.map_cons, List.pairwise_append] at hascending
    obtain ⟨-, hafter, hcross⟩ := hascending
    have hleast : ∀ w', c.Copies related w' → w' < p.iri →
        w'.withSuffix k.suffix ∉ c.connection.store.graphs := by
      intro w' hw' hlt
      obtain ⟨p', hp', rfl⟩ := (exists_plan_iff hplans).mpr hw'
      rw [hsplit] at hp'
      rcases List.mem_append.mp hp' with hp' | hp'
      · exact hbefore p' hp'
      · rcases List.mem_cons.mp hp' with rfl | hp'
        · exact absurd hlt (TotalOrder.lt_irrefl _)
        · have hgt := (List.pairwise_cons.mp hafter).1 p'.iri (List.mem_map_of_mem hp')
          exact absurd (TotalOrder.lt_trans hlt hgt) (TotalOrder.lt_irrefl _)
    rw [he]
    constructor
    · intro heq
      cases heq
      exact ⟨p.iri, hpcopied, rfl, hp, hleast⟩
    · rintro ⟨w, hw, rfl, htaken, hleast'⟩
      have heq : w = p.iri := by
        refine TotalOrder.eq_of_not_lt (fun hlt => ?_) fun hlt => ?_
        · exact hleast w hw hlt htaken
        · exact hleast' p.iri hpcopied hlt hp
      subst heq
      rfl

theorem cascade_failsWith (hcontext : ∀ w, FailsWith Error.NoConflict (c.contextOf w)) :
    FailsWith Error.NoConflict (c.cascade resolver config now v) := by
  have hstorage : ∀ e : Error, e.IsStorage → e.NoConflict := by
    rintro _ ⟨cause, rfl⟩ g
    exact nofun
  refine (related_failsWith hstorage hcontext resolver config.cascade v).bind fun related _ => ?_
  refine FailsWith.bind ((c.plans_failsWith v _).mono ?_) fun plans _ => FailsWith.ok _
  rintro e (he | ⟨w, -, -, he⟩ | ⟨rfl, -, -⟩)
  · exact hstorage e he
  · exact hcontext w e he
  · exact fun g => nofun

theorem checked_of_conflict (hcontext : ∀ w, FailsWith Error.NoConflict (c.contextOf w)) {g : Iri}
    (h : c.createSnapshot resolver config now v = .error (.snapshotConflict g)) :
    c.connection.isSnapshot v = .ok false ∧ c.connection.isDeclared v = .ok true ∧
      ∃ k, c.cascade resolver config now v = .ok k ∧
        c.checkTargets k k.plans = .error (.snapshotConflict g) := by
  have hstorage : ∀ {α : Type} {x : Except Error α}, FailsWith Error.IsStorage x →
      x ≠ .error (.snapshotConflict g) := by
    intro α x hx he
    obtain ⟨cause, hcause⟩ := hx _ he
    cases hcause
  rcases bind_eq_error h with hquads | ⟨quads, -, h⟩
  · rcases bind_eq_error hquads with he | ⟨isSnapshot, hsnapshot, hquads⟩
    · exact absurd he (hstorage (c.connection.isSnapshot_failsWith v))
    · cases isSnapshot with
      | true => cases hquads
      | false =>
          rcases bind_eq_error hquads with he | ⟨isDeclared, hdeclared, hquads⟩
          · exact absurd he (hstorage (c.connection.holds_failsWith _))
          · cases isDeclared with
            | false => cases hquads
            | true =>
                rcases bind_eq_error hquads with he | ⟨k, hk, hquads⟩
                · exact absurd rfl (cascade_failsWith hcontext _ he g)
                · rcases bind_eq_error hquads with he | ⟨-, -, he⟩
                  · exact ⟨hsnapshot, hdeclared, k, hk, he⟩
                  · exact absurd he (hstorage (c.cascadeQuads_failsWith k _))
  · rcases bind_eq_error h with he | ⟨t, -, h⟩
    · cases hinsert : c.connection.insert quads with
      | error cause => rw [hinsert] at he; cases he
      | ok t => rw [hinsert] at he; cases he
    · cases h

theorem plans_of_uninterrupted {related : IriSet}
    (hcontexts : ∀ w ∈ related, ¬ c.connection.store.IsSnapshot w →
      ∃ context, c.contextOf w = .ok context)
    (horigin : ∃ context, c.contextOf v = .ok context ∧ c.connection.store.Describes context v)
    (h : Uninterrupted (c.plans v related.toList)) :
    ∃ plans, c.plans v related.toList = .ok plans := by
  cases hplans : c.plans v related.toList with
  | ok plans => exact ⟨plans, rfl⟩
  | error e =>
      rcases c.plans_failsWith v _ e hplans with he | ⟨w, hw, hlive, he⟩ | ⟨-, -, hfind⟩
      · exact absurd he (h e hplans)
      · obtain ⟨context, hcontext⟩ := hcontexts w hw hlive
        rw [hcontext] at he
        cases he
      · obtain ⟨context, hcontext, hdescribes⟩ := horigin
        obtain ⟨context', hcontext', ⟨-, hnot⟩ | ⟨_, ho, -⟩⟩ := find_cases hfind
        · rw [hcontext] at hcontext'
          cases hcontext'
          exact absurd hdescribes hnot
        · cases ho

theorem createSnapshot_eq_conflict_iff
    (hcontext : ∀ w, FailsWith Error.NoConflict (c.contextOf w))
    (h : Uninterrupted (c.createSnapshot resolver config now v)) {g : Iri} :
    c.createSnapshot resolver config now v = .error (.snapshotConflict g) ↔
      c.connection.store.Declares v ∧ ¬ c.connection.store.IsSnapshot v ∧
      ∃ related, c.related resolver config.cascade v = .ok related ∧
        (∀ w ∈ related, ¬ c.connection.store.IsSnapshot w →
          ∃ context, c.contextOf w = .ok context) ∧
        (∃ context, c.contextOf v = .ok context ∧ c.connection.store.Describes context v) ∧
        c.FirstTaken related (Snapshot.suffix config.separator now) g := by
  constructor
  · intro he
    obtain ⟨hsnapshot, hdeclared, k, hk, htargets⟩ := checked_of_conflict hcontext he
    obtain ⟨related, hrelated, hplans, -, hsuffix⟩ := cascade_eq_ok hk
    have hun : Uninterrupted (c.checkTargets k k.plans) := by
      rw [htargets]
      exact FailsWith.error fun ⟨_, h⟩ => nomatch h
    have hv := copies_origin hsnapshot (mem_related_self hrelated) hplans
    refine ⟨(Connection.isDeclared_eq_ok hdeclared).mp rfl, hv.2.1, related, hrelated, ?_,
      hv.2.2, hsuffix ▸ (checkTargets_eq_conflict hplans hun).mp htargets⟩
    intro w hw hlive
    rcases plans_cases hplans hw with hs | ⟨-, ⟨hfind, -⟩ | ⟨p, -, -, hfind⟩⟩
    · exact absurd ((Connection.isSnapshot_eq_ok hs).mp rfl) hlive
    · exact (find_cases hfind).imp fun context h => h.1
    · exact (find_cases hfind).imp fun context h => h.1
  · rintro ⟨hdeclares, hlive, related, hrelated, hcontexts, horigin, htaken⟩
    have hquads := h.first
    obtain ⟨isSnapshot, hsnapshot⟩ := hquads.first.exists_ok (c.connection.isSnapshot_failsWith v)
    obtain rfl : isSnapshot = false :=
      Bool.eq_false_iff.mpr fun h => hlive ((Connection.isSnapshot_eq_ok hsnapshot).mp h)
    replace hquads := hquads.second hsnapshot
    obtain ⟨isDeclared, hdeclared⟩ := hquads.first.exists_ok (c.connection.holds_failsWith _)
    obtain rfl : isDeclared = true := (Connection.isDeclared_eq_ok hdeclared).mpr hdeclares
    replace hquads := hquads.second hdeclared
    obtain ⟨plans, hplans⟩ := plans_of_uninterrupted hcontexts horigin
      (hquads.first.second hrelated).first
    have hk : c.cascade resolver config now v =
        .ok ⟨plans, now.truncate, Snapshot.suffix config.separator now⟩ := by
      rw [cascade, hrelated, ok_bind, hplans]
      rfl
    have htargets := (hquads.second hk).first
    exact createSnapshot_of_checked hsnapshot hdeclared hk
      ((checkTargets_eq_conflict hplans htargets).mpr htaken)

end Catalogue

/-- A creation that succeeds copies the origin, keeps every row, and adds rows
to the targets of the vocabularies copied and to no other graph; each target is
new and is a graph afterwards. Where no call to the storage fails, a creation
reports a conflict exactly if the origin is declared, no snapshot, and
described in its context, its related set and the contexts of the live members
are found, and a target exists; it names the target of the least vocabulary
whose target does. -/
theorem createSnapshot_scope (c : Connection) (cache : ContextCache) (resolver : Resolver)
    (config : SnapshotConfig) (now : Instant) (v : Iri) :
    (∀ snapshot t,
      (c.catalogue cache).createSnapshot resolver config now v = .ok (snapshot, t) →
      ∃ related, (c.catalogue cache).related resolver config.cascade v = .ok related ∧
        (c.catalogue cache).Copies related v ∧
        (∀ r ∈ c.store.rows, r ∈ t.rows) ∧
        (∀ w, (c.catalogue cache).Copies related w →
          w.withSuffix (Snapshot.suffix config.separator now) ∉ c.store.graphs ∧
            w.withSuffix (Snapshot.suffix config.separator now) ∈ t.graphs) ∧
        (∀ r ∈ t.rows, r ∉ c.store.rows → ∃ w, (c.catalogue cache).Copies related w ∧
          r.graph = w.withSuffix (Snapshot.suffix config.separator now)) ∧
        ∀ g, g ∈ t.graphs ↔ g ∈ c.store.graphs ∨ ∃ w, (c.catalogue cache).Copies related w ∧
          g = w.withSuffix (Snapshot.suffix config.separator now)) ∧
    (Uninterrupted ((c.catalogue cache).createSnapshot resolver config now v) → ∀ g,
      (c.catalogue cache).createSnapshot resolver config now v =
          .error (.snapshotConflict g) ↔
        c.store.Declares v ∧ ¬ c.store.IsSnapshot v ∧
        ∃ related, (c.catalogue cache).related resolver config.cascade v = .ok related ∧
          (∀ w ∈ related, ¬ c.store.IsSnapshot w → ∃ context, cache.contextOf c w = .ok context) ∧
          (∃ context, cache.contextOf c v = .ok context ∧ c.store.Describes context v) ∧
          (c.catalogue cache).FirstTaken related (Snapshot.suffix config.separator now) g) := by
  constructor
  · intro snapshot t h
    obtain ⟨hsnapshot, k, hk, hwritten, -⟩ := Catalogue.createSnapshot_eq_ok h
    obtain ⟨related, hrelated, hplans, -, hsuffix⟩ := Catalogue.cascade_eq_ok hk
    have htarget : ∀ p : CopyPlan,
        p.iri.withSuffix (Snapshot.suffix config.separator now) = k.target p := by
      intro p
      rw [Cascade.target, hsuffix]
    refine ⟨related, hrelated, ?_, fun r => hwritten.keeps, fun w hw => ?_, fun r hr hnew => ?_,
      fun g => ?_⟩
    · exact Catalogue.copies_origin hsnapshot (Catalogue.mem_related_self hrelated) hplans
    · obtain ⟨p, hp, rfl⟩ := (Catalogue.exists_plan_iff hplans).mpr hw
      rw [htarget]
      exact ⟨hwritten.fresh p hp, hwritten.target_mem_graphs hp⟩
    · obtain ⟨p, hp, hg⟩ := hwritten.graph_of_new hr hnew
      exact ⟨p.iri, (Catalogue.exists_plan_iff hplans).mp ⟨p, hp, rfl⟩, hg.trans (htarget p).symm⟩
    · rw [hwritten.mem_graphs]
      refine or_congr_right ⟨?_, ?_⟩
      · rintro ⟨p, hp, rfl⟩
        exact ⟨p.iri, (Catalogue.exists_plan_iff hplans).mp ⟨p, hp, rfl⟩, (htarget p).symm⟩
      · rintro ⟨w, hw, rfl⟩
        obtain ⟨p, hp, rfl⟩ := (Catalogue.exists_plan_iff hplans).mpr hw
        exact ⟨p, hp, htarget p⟩
  · intro h g
    refine Catalogue.createSnapshot_eq_conflict_iff (fun w => ?_) h
    refine (cache.contextOf_failsWith c w).mono ?_
    rintro _ (⟨cause, rfl⟩ | ⟨candidates, rfl⟩) g
    · exact nofun
    · exact nofun

theorem createSnapshot_scope_linkedPair :
    (∃ (t : Store) (related : IriSet),
      (∀ g, g ∈ t.graphs ↔ g ∈ Store.linkedPair.graphs ∨
        ∃ w, ((Connection.reliable .linkedPair).catalogue .empty).Copies related w ∧
          g = w.withSuffix "/version/2023-11-14T221320Z") ∧
      ((Connection.reliable .linkedPair).catalogue .empty).Copies related ⟨"v"⟩) ∧
    ∃ related : IriSet,
      ((Connection.reliable (.put .linkedPair (.ofQuad ⟨⟨"a"⟩, ⟨"b"⟩, .iri ⟨"c"⟩,
        ⟨"w/version/2023-11-14T221320Z"⟩⟩))).catalogue .empty).FirstTaken related
          "/version/2023-11-14T221320Z" ⟨"w/version/2023-11-14T221320Z"⟩ := by
  have hsuffix : Snapshot.suffix "/version" ⟨1700000000, 0, by decide, by decide⟩ =
      "/version/2023-11-14T221320Z" := by
    decide +kernel
  have hok : (((Connection.reliable .linkedPair).catalogue .empty).createSnapshot .skos .standard
      ⟨1700000000, 0, by decide, by decide⟩ ⟨"v"⟩).isOk = true := by
    decide +kernel
  have hconflict : ((Connection.reliable (.put .linkedPair (.ofQuad ⟨⟨"a"⟩, ⟨"b"⟩, .iri ⟨"c"⟩,
      ⟨"w/version/2023-11-14T221320Z"⟩⟩))).catalogue .empty).createSnapshot .skos .standard
        ⟨1700000000, 0, by decide, by decide⟩ ⟨"v"⟩ =
          .error (.snapshotConflict ⟨"w/version/2023-11-14T221320Z"⟩) := by
    decide +kernel
  constructor
  · obtain ⟨⟨snapshot, t⟩, h⟩ := exists_ok_of_isOk hok
    obtain ⟨related, -, hv, -, -, -, hgraphs⟩ :=
      (createSnapshot_scope _ _ _ _ _ _).1 snapshot t h
    exact ⟨t, related, by rwa [← hsuffix], hv⟩
  · obtain ⟨-, -, related, -, -, -, htaken⟩ :=
      ((createSnapshot_scope _ _ _ _ _ _).2 (by
        rw [hconflict]
        exact FailsWith.error fun ⟨_, h⟩ => nomatch h) _).mp hconflict
    exact ⟨related, hsuffix ▸ htaken⟩

end SkosArchive
