import SkosArchive.Archive.Operation
import SkosArchive.Proofs.Creation

namespace SkosArchive

namespace DropQueue

theorem pending_enqueueAll {q : DropQueue} {graphs : List Iri}
    (h : (q.pending ++ graphs).Nodup) :
    (q.enqueueAll graphs).pending = q.pending ++ graphs := by
  induction graphs generalizing q with
  | nil => simp [enqueueAll]
  | cons g graphs ih =>
      have hg : g ∉ q.pending := by
        intro hmem
        exact (List.nodup_append.mp h).2.2 g hmem g List.mem_cons_self rfl
      have hpending : (q.enqueue g).pending = q.pending ++ [g] := by simp [enqueue, hg]
      rw [enqueueAll, List.foldl_cons, ← enqueueAll, ih]
      · rw [hpending, List.append_assoc, List.singleton_append]
      · rwa [hpending, List.append_assoc, List.singleton_append]

/-- What was taken off and queued again is queued as before, in the same order. -/
theorem enqueueAll_pending (q : DropQueue) : empty.enqueueAll q.pending = q := by
  have h : (empty.enqueueAll q.pending).pending = q.pending := pending_enqueueAll q.nodup
  cases q
  cases hq : empty.enqueueAll _
  rw [hq] at h
  cases h
  rfl

theorem eq_empty_of_isEmpty {q : DropQueue} (h : q.isEmpty = true) : q = empty := by
  cases q
  cases List.isEmpty_iff.mp h
  rfl

end DropQueue

namespace Catalogue

/-- The graph of a vocabulary snapshot together with the snapshots of the same
time of all vocabularies that are related to its origin now. -/
def snapshotCascade (c : Catalogue) (resolver : Resolver) (config : SnapshotConfig) (iri : Iri) :
    Except Error (List Iri) := do
  let snapshot ← c.vocabularySnapshot iri
  let related ← c.related resolver config.cascade snapshot.versionOf
  c.cascadeGraphs snapshot.created [] related.toList

theorem removeSnapshot_eq (c : Catalogue) (resolver : Resolver) (config : SnapshotConfig)
    (iri : Iri) :
    c.removeSnapshot resolver config iri = (do
      let graphs ← c.snapshotCascade resolver config iri
      let store ← (c.connection.apply (graphs.map Update.dropGraph)).mapError .persistence
      return (graphs, store)) := by
  simp only [removeSnapshot, snapshotCascade, bind_assoc]

end Catalogue

namespace Archive

variable {env : Environment} {a a' : Archive} {op : Operation}

/-- What an operation writes in one step once it has read all that it needs, if
it is one that writes. -/
def batch (env : Environment) (a : Archive) : Operation → Except Error (Option (List Update))
  | .createSnapshot v => do
    let resolver ← a.config.relations.resolver.mapError .config
    let quads ← (a.canonical env).snapshotQuads resolver a.config.snapshots env.now v
    return some [.insert quads]
  | .removeSnapshot s => do
    let resolver ← a.config.relations.resolver.mapError .config
    let graphs ← ((a.refresh env).2.canonical env).snapshotCascade resolver a.config.snapshots s
    return some (graphs.map Update.dropGraph)
  | .flushDrops =>
    .ok (if a.drops.isEmpty then none else some (a.drops.pending.map Update.dropGraph))
  | _ => .ok none

/-- The contexts are those of an index of what is stored. -/
def Indexes (env : Environment) (a : Archive) (contexts : ContextCache) : Prop :=
  ∃ index, ContextIndex.build (a.connection env) = .ok index ∧ contexts = ⟨some index⟩

/-- What a failed operation leaves behind. Only a removal may have loaded the
contexts again before it failed. -/
structure Intact (env : Environment) (a : Archive) (op : Operation) (a' : Archive) : Prop where
  store : a'.store = a.store
  config : a'.config = a.config
  drops : a'.drops = a.drops
  selected : a'.selected = a.selected
  contexts : a'.contexts = a.contexts ∨
    (∃ snapshot, op = .removeSnapshot snapshot) ∧ a.Indexes env a'.contexts

/-- The ways in which an operation ends. -/
inductive Ends (env : Environment) (a : Archive) (op : Operation) :
    Except Error Answer × Archive → Prop where
  | failed {e : Error} {a' : Archive} : Intact env a op a' →
    (∀ updates, a.batch env op = .ok (some updates) →
      ∃ cause, (a.connection env).apply updates = .error cause) →
    Ends env a op (.error e, a')
  | answered {answer : Answer} {a' : Archive} : a.batch env op = .ok none →
    a'.store = a.store → Ends env a op (.ok answer, a')
  | committed {answer : Answer} {updates : List Update} {t : Store} {a' : Archive} :
    a.batch env op = .ok (some updates) → (a.connection env).apply updates = .ok t →
    a'.store = t → Ends env a op (.ok answer, a')

theorem Intact.of_workspaces {workspaces : WorkspaceCache} :
    Intact env a op { a with workspaces } :=
  ⟨rfl, rfl, rfl, rfl, .inl rfl⟩

theorem ends_of_answered {r : Except Error Answer × Archive}
    (hbatch : a.batch env op = .ok none) (hstore : r.2.store = a.store)
    (hintact : ∀ e, r.1 = .error e → Intact env a op r.2) : Ends env a op r := by
  obtain ⟨_ | answer, a'⟩ := r
  · apply Ends.failed (hintact _ rfl)
    intro updates h
    rw [hbatch] at h
    cases h
  · exact Ends.answered hbatch hstore

theorem ends_of_unread {e e' : Error} (hbatch : a.batch env op = .error e)
    (hintact : Intact env a op a') : Ends env a op (.error e', a') := by
  apply Ends.failed hintact
  intro updates h
  rw [hbatch] at h
  cases h

theorem ends_of_unwritten {e : Error} {updates : List Update} {cause : StorageError}
    (hbatch : a.batch env op = .ok (some updates))
    (hwrite : (a.connection env).apply updates = .error cause) (hintact : Intact env a op a') :
    Ends env a op (.error e, a') := by
  apply Ends.failed hintact
  intro updates' h
  rw [hbatch] at h
  cases h
  exact ⟨cause, hwrite⟩

theorem ends_of_workspaces {r : Except Error Answer × Archive}
    (hbatch : a.batch env op = .ok none) (h : ∃ workspaces, r.2 = { a with workspaces }) :
    Ends env a op r := by
  obtain ⟨workspaces, h⟩ := h
  apply ends_of_answered hbatch
  · rw [h]
  · intro _ _
    rw [h]
    exact .of_workspaces

section

variable (env a)

theorem workspace_eq (iri : Iri) :
    ∃ workspaces, (a.workspace env iri).2 = { a with workspaces } := ⟨_, rfl⟩

theorem reloadWorkspace_eq (iri : Iri) :
    ∃ workspaces, (a.reloadWorkspace env iri).2 = { a with workspaces } := ⟨_, rfl⟩

theorem selectedWorkspace_eq :
    ∃ workspaces, (a.selectedWorkspace env).2 = { a with workspaces } := by
  rw [selectedWorkspace]
  split
  · exact ⟨a.workspaces, rfl⟩
  · exact workspace_eq env a _

theorem related_eq (v : Iri) (relations : Option RelationSet) :
    ∃ workspaces, (a.related env v relations).2 = { a with workspaces } := by
  rw [related]
  split
  · exact ⟨a.workspaces, rfl⟩
  · exact selectedWorkspace_eq env a

theorem loadContexts_cases :
    (∃ e, a.loadContexts env = (.error e, a)) ∨
      ∃ contexts, a.loadContexts env = (.ok (), { a with contexts }) ∧
        (contexts = a.contexts ∨ a.Indexes env contexts) := by
  rw [loadContexts]
  split
  · rw [ContextCache.reload, ContextCache.load]
    cases h : ContextIndex.build (a.connection env) with
    | error e => exact .inl ⟨_, rfl⟩
    | ok index => exact .inr ⟨_, rfl, .inr ⟨index, h, rfl⟩⟩
  · exact .inr ⟨a.contexts, rfl, .inl rfl⟩

/-- A refresh touches the caches alone, and the contexts only if they were
loaded. -/
theorem refresh_cases :
    ∃ contexts, (a.refresh env).2 = { a with contexts, workspaces := .empty } ∧
      (contexts = a.contexts ∨ a.Indexes env contexts) ∧
      ∀ e, (a.refresh env).1 = .error e → contexts = a.contexts := by
  rcases a.loadContexts_cases env with ⟨e, h⟩ | ⟨contexts, h, hcontexts⟩
  · refine ⟨a.contexts, ?_, .inl rfl, ?_⟩
    · simp [refresh, h]
    · intro _ _
      rfl
  · refine ⟨contexts, ?_, hcontexts, ?_⟩
    · simp [refresh, h]
    · intro e he
      simp [refresh, h] at he

theorem store_refresh : (a.refresh env).2.store = a.store := by
  obtain ⟨contexts, h, -⟩ := a.refresh_cases env
  rw [h]

theorem config_refresh : (a.refresh env).2.config = a.config := by
  obtain ⟨contexts, h, -⟩ := a.refresh_cases env
  rw [h]

theorem connection_refresh : (a.refresh env).2.connection env = a.connection env := by
  rw [connection, store_refresh]
  rfl

/-- A creation fails before its write, fails at it, or is committed. -/
theorem createSnapshot_cases (v : Iri) :
    (∃ e, a.batch env (.createSnapshot v) = .error e ∧ a.createSnapshot env v = (.error e, a)) ∨
      ∃ updates, a.batch env (.createSnapshot v) = .ok (some updates) ∧
        ((∃ cause, (a.connection env).apply updates = .error cause ∧
          a.createSnapshot env v = (.error (.persistence cause), a)) ∨
        ∃ t, (a.connection env).apply updates = .ok t ∧ ∃ snapshot,
          a.createSnapshot env v = (.ok snapshot, (refresh { a with store := t } env).2)) := by
  simp only [createSnapshot, Catalogue.createSnapshot, batch]
  cases a.config.relations.resolver with
  | error e => exact .inl ⟨_, rfl, rfl⟩
  | ok resolver =>
      simp only [mapError_ok, ok_bind]
      cases (a.canonical env).snapshotQuads resolver a.config.snapshots env.now v with
      | error e => exact .inl ⟨e, rfl, rfl⟩
      | ok quads =>
          refine .inr ⟨[.insert quads], rfl, ?_⟩
          have hconnection : (a.canonical env).connection.insert quads =
              (a.connection env).apply [.insert quads] := rfl
          simp only [ok_bind, hconnection]
          cases (a.connection env).apply [.insert quads] with
          | error cause => exact .inl ⟨cause, rfl, rfl⟩
          | ok t => exact .inr ⟨t, rfl, _, rfl⟩

/-- So does a removal, which leaves the archive refreshed where it fails. -/
theorem removeSnapshot_cases (s : Iri) :
    (∃ e, a.batch env (.removeSnapshot s) = .error e ∧
      ((a.removeSnapshot env s) = (.error e, a) ∨
        (a.removeSnapshot env s) = (.error e, (a.refresh env).2))) ∨
      ∃ updates, a.batch env (.removeSnapshot s) = .ok (some updates) ∧
        ((∃ cause, (a.connection env).apply updates = .error cause ∧
          a.removeSnapshot env s = (.error (.persistence cause), (a.refresh env).2)) ∨
        ∃ t, (a.connection env).apply updates = .ok t ∧
          ∃ graphs, a.removeSnapshot env s =
            (.ok graphs, (refresh { (a.refresh env).2 with store := t } env).2)) := by
  simp only [removeSnapshot, Catalogue.removeSnapshot_eq, batch]
  cases a.config.relations.resolver with
  | error e => exact .inl ⟨_, rfl, .inl rfl⟩
  | ok resolver =>
      rw [config_refresh]
      simp only [mapError_ok, ok_bind]
      cases ((a.refresh env).2.canonical env).snapshotCascade resolver a.config.snapshots s with
      | error e => exact .inl ⟨e, rfl, .inr rfl⟩
      | ok graphs =>
          refine .inr ⟨graphs.map Update.dropGraph, rfl, ?_⟩
          have hconnection : ((a.refresh env).2.canonical env).connection = a.connection env :=
            a.connection_refresh env
          simp only [ok_bind, hconnection]
          cases (a.connection env).apply (graphs.map Update.dropGraph) with
          | error cause => exact .inl ⟨cause, rfl, rfl⟩
          | ok t => exact .inr ⟨t, rfl, _, rfl⟩

theorem flushDrops_cases :
    a.batch env .flushDrops = .ok none ∧ a.flushDrops env = (.ok 0, a) ∨
      ∃ updates, a.batch env .flushDrops = .ok (some updates) ∧
        ((∃ cause, (a.connection env).apply updates = .error cause ∧
          a.flushDrops env = (.error cause, a)) ∨
        ∃ t, (a.connection env).apply updates = .ok t ∧
          a.flushDrops env = (.ok a.drops.size, { a with store := t, drops := .empty })) := by
  simp only [flushDrops, batch, DropQueue.flush]
  by_cases hempty : a.drops.isEmpty = true
  · refine .inl ⟨by simp [hempty], ?_⟩
    simp only [hempty, if_true]
    rw [← DropQueue.eq_empty_of_isEmpty hempty]
    rfl
  · refine .inr ⟨a.drops.pending.map Update.dropGraph, by simp [hempty], ?_⟩
    simp only [hempty, DropQueue.enqueueAll_pending]
    cases (a.connection env).apply (a.drops.pending.map Update.dropGraph) with
    | error cause => exact .inl ⟨cause, rfl, rfl⟩
    | ok t => exact .inr ⟨t, rfl, rfl⟩

end

theorem Intact.of_refresh (s : Iri) :
    Intact env a (.removeSnapshot s) (a.refresh env).2 := by
  obtain ⟨contexts, h, hcontexts, -⟩ := a.refresh_cases env
  rw [h]
  exact ⟨rfl, rfl, rfl, rfl, hcontexts.imp_right fun hindexes => ⟨⟨s, rfl⟩, hindexes⟩⟩

theorem createSnapshot_ends (v : Iri) :
    Ends env a (.createSnapshot v) (a.perform env (.createSnapshot v)) := by
  simp only [perform]
  rcases a.createSnapshot_cases env v with ⟨e, hbatch, h⟩ | ⟨updates, hbatch, ⟨cause, hwrite, h⟩ |
    ⟨t, hwrite, snapshot, h⟩⟩
  · rw [h]
    exact ends_of_unread hbatch .of_workspaces
  · rw [h]
    exact ends_of_unwritten hbatch hwrite .of_workspaces
  · rw [h]
    exact Ends.committed hbatch hwrite (store_refresh env _)

theorem removeSnapshot_ends (s : Iri) :
    Ends env a (.removeSnapshot s) (a.perform env (.removeSnapshot s)) := by
  simp only [perform]
  rcases a.removeSnapshot_cases env s with ⟨e, hbatch, h | h⟩ | ⟨updates, hbatch,
    ⟨cause, hwrite, h⟩ | ⟨t, hwrite, graphs, h⟩⟩
  · rw [h]
    exact ends_of_unread hbatch .of_workspaces
  · rw [h]
    exact ends_of_unread hbatch (.of_refresh s)
  · rw [h]
    exact ends_of_unwritten hbatch hwrite (.of_refresh s)
  · rw [h]
    exact Ends.committed hbatch hwrite (store_refresh env _)

theorem flushDrops_ends : Ends env a .flushDrops (a.perform env .flushDrops) := by
  simp only [perform]
  rcases a.flushDrops_cases env with ⟨hbatch, h⟩ | ⟨updates, hbatch, ⟨cause, hwrite, h⟩ |
    ⟨t, hwrite, h⟩⟩
  · rw [h]
    exact Ends.answered hbatch rfl
  · rw [h]
    exact ends_of_unwritten hbatch hwrite .of_workspaces
  · rw [h]
    exact Ends.committed hbatch hwrite rfl

theorem loadContexts_ends : Ends env a .loadContexts (a.perform env .loadContexts) := by
  simp only [perform]
  rcases a.loadContexts_cases env with ⟨e, h⟩ | ⟨contexts, h, -⟩
  · rw [h]
    exact ends_of_workspaces rfl ⟨a.workspaces, rfl⟩
  · rw [h]
    exact Ends.answered rfl rfl

theorem event_ends (event : VocabularyEvent) :
    Ends env a (.event event) (a.perform env (.event event)) := by
  obtain ⟨contexts, h, -, hkept⟩ := a.refresh_cases env
  apply ends_of_answered rfl
  · exact a.store_refresh env
  · intro e he
    have hcontexts : contexts = a.contexts := by
      cases hr : (a.refresh env).1 with
      | error e => exact hkept e hr
      | ok => simp [perform, hr, Except.map] at he
    simp only [perform, h, hcontexts]
    exact .of_workspaces

theorem selectWorkspace_ends (workspace : Option Iri) :
    Ends env a (.selectWorkspace workspace) (a.perform env (.selectWorkspace workspace)) := by
  cases workspace with
  | none => exact Ends.answered rfl rfl
  | some iri =>
      simp only [perform, selectWorkspace]
      cases (a.workspace env iri).1 with
      | error e => exact ends_of_workspaces rfl (a.workspace_eq env iri)
      | ok w => exact Ends.answered rfl rfl

/-- Every operation fails with the archive intact, answers without a write, or
commits its batch. -/
theorem perform_ends (env : Environment) (a : Archive) (op : Operation) :
    Ends env a op (a.perform env op) := by
  cases op with
  | context v => exact ends_of_workspaces rfl (a.selectedWorkspace_eq env)
  | contextIn w v => exact ends_of_workspaces rfl (a.workspace_eq env w)
  | canonicalContext v => exact ends_of_workspaces rfl ⟨a.workspaces, rfl⟩
  | vocabularyIn g => exact ends_of_workspaces rfl ⟨a.workspaces, rfl⟩
  | loadContexts => exact loadContexts_ends
  | related v relations => exact ends_of_workspaces rfl (a.related_eq env v relations)
  | createSnapshot v => exact createSnapshot_ends v
  | removeSnapshot s => exact removeSnapshot_ends s
  | snapshotsOf x => exact ends_of_workspaces rfl ⟨a.workspaces, rfl⟩
  | snapshotValidAt x t => exact ends_of_workspaces rfl ⟨a.workspaces, rfl⟩
  | selectWorkspace w => exact selectWorkspace_ends w
  | workspace w => exact ends_of_workspaces rfl (a.workspace_eq env w)
  | reloadWorkspace w => exact ends_of_workspaces rfl (a.reloadWorkspace_eq env w)
  | event event => exact event_ends event
  | enqueueDrop g => exact Ends.answered rfl rfl
  | flushDrops => exact flushDrops_ends

/-- An operation that fails leaves stored quads, queue and selection as they
were. One whose batch was committed never fails, whatever becomes of the refresh
after it, and nothing else changes what is stored. -/
theorem perform_atomic (env : Environment) (a : Archive) (op : Operation) :
    (∀ e, (a.perform env op).1 = .error e → Intact env a op (a.perform env op).2) ∧
    (∀ updates t, a.batch env op = .ok (some updates) →
      (a.connection env).apply updates = .ok t →
      ∃ answer, (a.perform env op).1 = .ok answer ∧ (a.perform env op).2.store = t) ∧
    ((a.perform env op).2.store ≠ a.store →
      ∃ updates, a.batch env op = .ok (some updates) ∧
        (a.connection env).apply updates = .ok (a.perform env op).2.store) := by
  have hends := a.perform_ends env op
  generalize a.perform env op = r at hends
  cases hends with
  | failed hintact hwrite =>
      refine ⟨?_, ?_, ?_⟩
      · intro _ _
        exact hintact
      · intro updates t hbatch happly
        obtain ⟨cause, hcause⟩ := hwrite updates hbatch
        rw [hcause] at happly
        cases happly
      · intro hne
        exact absurd hintact.store hne
  | answered hbatch hstore =>
      refine ⟨?_, ?_, ?_⟩
      · rintro _ ⟨⟩
      · intro updates t hupdates
        rw [hbatch] at hupdates
        cases hupdates
      · intro hne
        exact absurd hstore hne
  | committed hbatch hwrite hstore =>
      refine ⟨?_, ?_, ?_⟩
      · rintro _ ⟨⟩
      · intro updates t hupdates happly
        rw [hbatch] at hupdates
        cases hupdates
        rw [hwrite] at happly
        cases happly
        exact ⟨_, rfl, hstore⟩
      · intro _
        subst hstore
        exact ⟨_, hbatch, hwrite⟩

/-- Scans for all vocabularies fail, so the contexts cannot be loaded again, but
the snapshot was written. -/
theorem perform_atomic_failedRefresh :
    ∃ (env : Environment) (a : Archive) (t : Store),
      (refresh { a with store := t } env).1.isOk = false ∧ t ≠ a.store ∧
      ∃ answer, (a.perform env (.createSnapshot ⟨"v"⟩)).1 = .ok answer ∧
        (a.perform env (.createSnapshot ⟨"v"⟩)).2.store = t := by
  let env : Environment :=
    ⟨⟨1700000000, 0, by decide, by decide⟩, FaultFlags.faults { typeScans := true }⟩
  let a : Archive := .fresh .standard .linkedPair
    ⟨(ContextIndex.build (.reliable .linkedPair)).toOption⟩
  let t : Store := (a.perform env (.createSnapshot ⟨"v"⟩)).2.store
  have hstale : (refresh { a with store := t } env).1.isOk = false := by decide +kernel
  have hchanged : t ≠ a.store := by decide +kernel
  obtain ⟨updates, hbatch, hwrite⟩ := (perform_atomic env a (.createSnapshot ⟨"v"⟩)).2.2 hchanged
  exact ⟨env, a, t, hstale, hchanged,
    (perform_atomic env a (.createSnapshot ⟨"v"⟩)).2.1 updates t hbatch hwrite⟩

end Archive

end SkosArchive
