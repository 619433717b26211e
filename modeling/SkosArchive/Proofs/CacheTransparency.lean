import SkosArchive.Proofs.Commitment
import SkosArchive.Proofs.LoadedContexts

namespace SkosArchive

namespace Archive

/-- The same archive without a context cache. -/
def uncached (a : Archive) : Archive :=
  { a with config := { a.config with contextCache := false }, contexts := .empty }

/-- Contexts are cached and can be loaded; unless the cache is stale, they are
those of an index of what is stored. -/
structure Caches (a : Archive) (stale : Bool) : Prop where
  enabled : a.config.contextCache = true
  readable : a.store.Readable
  current : stale = false → a.contexts.Remembers (some a.store)

variable {a a' : Archive} {stale : Bool}

namespace Caches

theorem congr (h : a.Caches stale) (hconfig : a'.config = a.config) (hstore : a'.store = a.store)
    (hcontexts : a'.contexts = a.contexts) : a'.Caches stale := by
  refine ⟨?_, ?_, fun hstale => ?_⟩
  · rw [hconfig]
    exact h.enabled
  · rw [hstore]
    exact h.readable
  · rw [hstore, hcontexts]
    exact h.current hstale

theorem weaken (h : a.Caches stale) : a.Caches true := ⟨h.enabled, h.readable, nofun⟩

theorem of_fresh (h : a.Caches false) : a.Caches stale :=
  ⟨h.enabled, h.readable, fun _ => h.current rfl⟩

/-- After a write the index may be an old one. -/
theorem write (h : a.Caches stale) {updates : List Update} {t : Store}
    (ht : a.store.apply updates = .ok t) : Caches { a with store := t } true :=
  ⟨h.enabled, h.readable.apply ht, nofun⟩

/-- Where no call fails, a load succeeds and leaves the index of what is stored. -/
theorem loadContexts (h : a.Caches stale) (now : Instant) (arrival : Row → Nat) :
    ∃ contexts, a.loadContexts (.reliable now arrival) = (.ok (), { a with contexts }) ∧
      contexts.Remembers (some a.store) := by
  obtain ⟨index, hbuild⟩ := ContextIndex.exists_build h.readable arrival
  refine ⟨⟨some index⟩, ?_, index, _, rfl, hbuild⟩
  have hload : ContextCache.load (.reliable a.store arrival) = .ok ⟨some index⟩ := by
    rw [ContextCache.load, hbuild]
  rw [Archive.loadContexts, if_pos h.enabled]
  change ((a.contexts.reload (.reliable a.store arrival)).1,
    { a with contexts := (a.contexts.reload (.reliable a.store arrival)).2 }) = _
  rw [ContextCache.reload, hload]

theorem loaded (h : a.Caches stale) (now : Instant) (arrival : Row → Nat) :
    (a.loadContexts (.reliable now arrival)).2.Caches false := by
  obtain ⟨contexts, hload, hcontexts⟩ := h.loadContexts now arrival
  rw [hload]
  exact ⟨h.enabled, h.readable, fun _ => hcontexts⟩

theorem refreshed (h : a.Caches stale) (now : Instant) (arrival : Row → Nat) :
    (a.refresh (.reliable now arrival)).2.Caches false :=
  (h.loaded now arrival).congr rfl rfl rfl

end Caches

/-- A step from `a` gives the same without the cache, now and later. -/
def SameUncached {α : Type} (step : Archive → α × Archive) (a : Archive) : Prop :=
  step a.uncached = ((step a).1, (step a).2.uncached)

theorem SameUncached.map {α β : Type} {step : Archive → α × Archive} (h : SameUncached step a)
    (f : α → β) : SameUncached (fun a => (f (step a).1, (step a).2)) a := by
  simp only [SameUncached] at h ⊢
  rw [h]

section

variable (a) (env : Environment)

theorem sameUncached_workspace (w : Iri) : SameUncached (·.workspace env w) a := rfl

theorem uncached_loadContexts :
    a.uncached.loadContexts env = (.ok (), (a.loadContexts env).2.uncached) := by
  rcases a.loadContexts_cases env with ⟨e, h⟩ | ⟨contexts, h, -⟩
  · rw [h]
    rfl
  · rw [h]
    rfl

theorem uncached_refresh : a.uncached.refresh env = (.ok (), (a.refresh env).2.uncached) := by
  rw [refresh, uncached_loadContexts]
  rfl

theorem sameUncached_selectedWorkspace : SameUncached (·.selectedWorkspace env) a := by
  obtain ⟨store, config, contexts, workspaces, selected, drops⟩ := a
  cases selected with
  | none => rfl
  | some w => rfl

theorem sameUncached_selectWorkspace (w : Option Iri) :
    SameUncached (·.selectWorkspace env w) a := by
  cases w with
  | none => rfl
  | some w =>
      have hworkspace := sameUncached_workspace a env w
      simp only [SameUncached, selectWorkspace] at hworkspace ⊢
      rw [hworkspace]
      cases (a.workspace env w).1 with
      | error e => rfl
      | ok _ => rfl

theorem sameUncached_flushDrops : SameUncached (·.flushDrops env) a := by
  have hconnection : a.uncached.connection env = a.connection env := rfl
  have hdrops : a.uncached.drops = a.drops := rfl
  simp only [SameUncached, flushDrops, hconnection, hdrops]
  cases a.drops.flush (a.connection env) with
  | mk outcome drops =>
      cases outcome with
      | error e => rfl
      | ok made => rfl

end

section

variable (hcache : a.contexts.Remembers (some a.store)) (now : Instant) (arrival : Row → Nat)

include hcache

theorem uncached_canonicalContext :
    a.uncached.canonicalContext (.reliable now arrival) =
      a.canonicalContext (.reliable now arrival) := by
  funext v
  exact (hcache.contextOf v).symm

theorem uncached_vocabularyIn :
    a.uncached.vocabularyIn (.reliable now arrival) = a.vocabularyIn (.reliable now arrival) := by
  funext g
  exact (hcache.vocabularyIn g).symm

theorem uncached_canonical :
    a.uncached.canonical (.reliable now arrival) = a.canonical (.reliable now arrival) := by
  rw [canonical, uncached_canonicalContext hcache]
  rfl

theorem uncached_overlay (w : Option Workspace) :
    a.uncached.overlay (.reliable now arrival) w = a.overlay (.reliable now arrival) w := by
  funext v
  rw [overlay, overlay, uncached_canonicalContext hcache]

theorem sameUncached_contextOf (v : Iri) :
    SameUncached (·.contextOf (.reliable now arrival) v) a := by
  obtain ⟨workspaces, h⟩ := a.selectedWorkspace_eq (.reliable now arrival)
  have hselected := sameUncached_selectedWorkspace a (.reliable now arrival)
  have hoverlay := uncached_overlay (a := { a with workspaces }) hcache now arrival
  simp only [SameUncached, contextOf] at hselected ⊢
  simp only [hselected, h, hoverlay]

theorem sameUncached_contextIn (w v : Iri) :
    SameUncached (·.contextIn (.reliable now arrival) w v) a := by
  obtain ⟨workspaces, h⟩ := a.workspace_eq (.reliable now arrival) w
  have hworkspace := sameUncached_workspace a (.reliable now arrival) w
  have hoverlay := uncached_overlay (a := { a with workspaces }) hcache now arrival
  simp only [SameUncached, contextIn] at hworkspace ⊢
  simp only [hworkspace, h, hoverlay]

theorem sameUncached_related (v : Iri) (relations : Option RelationSet) :
    SameUncached (·.related (.reliable now arrival) v relations) a := by
  have hrelations : a.uncached.config.relations = a.config.relations := rfl
  simp only [SameUncached, related, hrelations]
  cases a.config.relations.resolver with
  | error e => rfl
  | ok resolver =>
      obtain ⟨workspaces, h⟩ := a.selectedWorkspace_eq (.reliable now arrival)
      have hselected := sameUncached_selectedWorkspace a (.reliable now arrival)
      have hoverlay := uncached_overlay (a := { a with workspaces }) hcache now arrival
      simp only [SameUncached] at hselected
      simp only [hselected, h, hoverlay]
      rfl

theorem sameUncached_createSnapshot (v : Iri) :
    SameUncached (·.createSnapshot (.reliable now arrival) v) a := by
  have hrelations : a.uncached.config.relations = a.config.relations := rfl
  have hsnapshots : a.uncached.config.snapshots = a.config.snapshots := rfl
  simp only [SameUncached, createSnapshot, hrelations, hsnapshots, uncached_canonical hcache]
  cases a.config.relations.resolver with
  | error e => rfl
  | ok resolver =>
      simp only
      cases (a.canonical (.reliable now arrival)).createSnapshot resolver a.config.snapshots
        (Environment.reliable now arrival).now v with
      | error e => rfl
      | ok made =>
          obtain ⟨snapshot, store⟩ := made
          exact congrArg (fun r => (Except.ok snapshot, r.2))
            (uncached_refresh { a with store } (.reliable now arrival))

end

section

variable (h : a.Caches stale) (now : Instant) (arrival : Row → Nat)

include h

theorem Caches.sameUncached_loadContexts :
    SameUncached (·.loadContexts (.reliable now arrival)) a := by
  obtain ⟨contexts, hload, -⟩ := h.loadContexts now arrival
  simp only [SameUncached, uncached_loadContexts, hload]

theorem Caches.sameUncached_refresh : SameUncached (·.refresh (.reliable now arrival)) a := by
  have hrefresh : (a.refresh (.reliable now arrival)).1 = .ok () := by
    obtain ⟨contexts, hload, -⟩ := h.loadContexts now arrival
    rw [refresh, hload]
  simp only [SameUncached, uncached_refresh, hrefresh]

/-- A removal loads the contexts before it looks anything up. -/
theorem Caches.sameUncached_removeSnapshot (s : Iri) :
    SameUncached (·.removeSnapshot (.reliable now arrival) s) a := by
  have hrelations : a.uncached.config.relations = a.config.relations := rfl
  have hsnapshots : (a.refresh (.reliable now arrival)).2.uncached.config.snapshots =
    (a.refresh (.reliable now arrival)).2.config.snapshots := rfl
  have hcanonical := uncached_canonical ((h.refreshed now arrival).current rfl) now arrival
  simp only [SameUncached, removeSnapshot, hrelations, uncached_refresh, hsnapshots, hcanonical]
  cases a.config.relations.resolver with
  | error e => rfl
  | ok resolver =>
      simp only
      cases ((a.refresh (.reliable now arrival)).2.canonical
        (.reliable now arrival)).removeSnapshot resolver
        (a.refresh (.reliable now arrival)).2.config.snapshots s with
      | error e => rfl
      | ok removed =>
          obtain ⟨graphs, store⟩ := removed
          exact congrArg (fun r => (Except.ok graphs, r.2))
            (uncached_refresh { (a.refresh (.reliable now arrival)).2 with store }
              (.reliable now arrival))

end

end Archive

/-- An operation, or a change made to the store behind the archive's back. -/
inductive ArchiveStep where
  | operation (now : Instant) (arrival : Row → Nat) (op : Operation)
  | write (updates : List Update)

namespace ArchiveStep

/-- Everything but writes, flushes and reloads is taken to read contexts. -/
def readsContexts : ArchiveStep → Bool
  | .write _ => false
  | .operation _ _ .flushDrops => false
  | .operation _ _ .loadContexts => false
  | .operation _ _ (.event _) => false
  | .operation _ _ _ => true

/-- Whether contexts may be out of date after a step. Creating and removing
snapshots are no different here from operations that write nothing. -/
def staleAfter (stale : Bool) : ArchiveStep → Bool
  | .write _ => true
  | .operation _ _ .flushDrops => true
  | .operation _ _ .loadContexts => false
  | .operation _ _ (.event _) => false
  | .operation _ _ _ => stale

/-- After a write or a flush, nothing reads contexts until they are reloaded. -/
def Settled : (stale : Bool) → List ArchiveStep → Prop
  | _, [] => True
  | stale, step :: steps =>
    (step.readsContexts = true → stale = false) ∧ Settled (step.staleAfter stale) steps

end ArchiveStep

namespace Archive

/-- One step of a run in which no call to the storage fails. Rows may have come at
other times in each step, as they may have been written again. -/
def act (a : Archive) : ArchiveStep → Except Error Answer × Archive
  | .operation now arrival op => a.perform (.reliable now arrival) op
  | .write updates =>
    match a.store.apply updates with
    | .ok store => (.ok .done, { a with store })
    | .error e => (.error (.storage e), a)

/-- What can be seen of a step: its answer, and what is stored, queued and
selected after it. -/
structure Observation where
  answer : Except Error Answer
  store : Store
  drops : DropQueue
  selected : Option Iri
deriving DecidableEq

def trace (a : Archive) : List ArchiveStep → List Observation
  | [] => []
  | step :: steps =>
    let (answer, a) := a.act step
    ⟨answer, a.store, a.drops, a.selected⟩ :: a.trace steps

variable {a : Archive} {stale : Bool}

theorem Caches.sameUncached_act (h : a.Caches stale) {step : ArchiveStep}
    (hstep : step.readsContexts = true → stale = false) : SameUncached (·.act step) a := by
  cases step with
  | write updates =>
      have hstore : a.uncached.store = a.store := rfl
      simp only [SameUncached, act, hstore]
      cases a.store.apply updates with
      | error e => rfl
      | ok t => rfl
  | operation now arrival op =>
      have hcache := fun hreads => h.current (hstep hreads)
      cases op with
      | context v => exact (sameUncached_contextOf (hcache rfl) now arrival v).map _
      | contextIn w v => exact (sameUncached_contextIn (hcache rfl) now arrival w v).map _
      | canonicalContext v =>
          simp only [SameUncached, act, perform, uncached_canonicalContext (hcache rfl)]
      | vocabularyIn g =>
          simp only [SameUncached, act, perform, uncached_vocabularyIn (hcache rfl)]
      | loadContexts => exact (h.sameUncached_loadContexts now arrival).map _
      | related v relations =>
          exact (sameUncached_related (hcache rfl) now arrival v relations).map _
      | createSnapshot v => exact (sameUncached_createSnapshot (hcache rfl) now arrival v).map _
      | removeSnapshot s => exact (h.sameUncached_removeSnapshot now arrival s).map _
      | snapshotsOf x => rfl
      | snapshotValidAt x t => rfl
      | selectWorkspace w => exact (sameUncached_selectWorkspace a (.reliable now arrival) w).map _
      | workspace w => rfl
      | reloadWorkspace w => rfl
      | event e => exact (h.sameUncached_refresh now arrival).map _
      | enqueueDrop g => rfl
      | flushDrops =>
          exact (sameUncached_flushDrops a (.reliable now arrival)).map fun r =>
            (r.mapError Error.storage).map Answer.count

theorem Caches.of_workspaces {a' : Archive} (h : a.Caches stale)
    (ha' : ∃ workspaces, a' = { a with workspaces }) : a'.Caches stale := by
  obtain ⟨workspaces, rfl⟩ := ha'
  exact h.congr rfl rfl rfl

/-- A creation that wrote something has loaded the contexts again. -/
theorem Caches.createSnapshot (h : a.Caches stale) (now : Instant) (arrival : Row → Nat)
    (v : Iri) :
    (a.createSnapshot (.reliable now arrival) v).2.Caches stale := by
  rcases a.createSnapshot_cases (.reliable now arrival) v with ⟨e, -, hr⟩ | ⟨updates, -,
    ⟨cause, -, hr⟩ | ⟨t, hwrite, snapshot, hr⟩⟩
  · rw [hr]
    exact h
  · rw [hr]
    exact h
  · rw [hr]
    exact ((h.write hwrite).refreshed now arrival).of_fresh

theorem Caches.removeSnapshot (h : a.Caches stale) (now : Instant) (arrival : Row → Nat)
    (s : Iri) :
    (a.removeSnapshot (.reliable now arrival) s).2.Caches stale := by
  have hrefreshed : (a.refresh (.reliable now arrival)).2.Caches false := h.refreshed now arrival
  rcases a.removeSnapshot_cases (.reliable now arrival) s with ⟨e, -, hr | hr⟩ | ⟨updates, -,
    ⟨cause, -, hr⟩ | ⟨t, hwrite, graphs, hr⟩⟩
  · rw [hr]
    exact h
  · rw [hr]
    exact hrefreshed.of_fresh
  · rw [hr]
    exact hrefreshed.of_fresh
  · have hrefreshed' : (a.refresh (.reliable now arrival)).2.store.apply updates = .ok t := by
      rw [a.store_refresh]
      exact hwrite
    rw [hr]
    exact ((hrefreshed.write hrefreshed').refreshed now arrival).of_fresh

theorem Caches.selectWorkspace (h : a.Caches stale) (now : Instant) (arrival : Row → Nat)
    (w : Option Iri) :
    (a.selectWorkspace (.reliable now arrival) w).2.Caches stale := by
  cases w with
  | none => exact h.congr rfl rfl rfl
  | some w =>
      have hread := h.of_workspaces (a.workspace_eq (.reliable now arrival) w)
      simp only [Archive.selectWorkspace]
      cases (a.workspace (.reliable now arrival) w).1 with
      | error e => exact hread
      | ok _ => exact hread.congr rfl rfl rfl

theorem Caches.flushDrops (h : a.Caches stale) (now : Instant) (arrival : Row → Nat) :
    (a.flushDrops (.reliable now arrival)).2.Caches true := by
  rcases a.flushDrops_cases (.reliable now arrival) with ⟨-, hr⟩ | ⟨updates, -,
    ⟨cause, -, hr⟩ | ⟨t, hwrite, hr⟩⟩
  · rw [hr]
    exact h.weaken
  · rw [hr]
    exact h.weaken
  · rw [hr]
    exact (h.write hwrite).congr rfl rfl rfl

theorem Caches.act (h : a.Caches stale) (step : ArchiveStep) :
    (a.act step).2.Caches (step.staleAfter stale) := by
  cases step with
  | write updates =>
      simp only [Archive.act]
      cases ht : a.store.apply updates with
      | error e => exact h.weaken
      | ok t => exact h.write ht
  | operation now arrival op =>
      cases op with
      | context v => exact h.of_workspaces (a.selectedWorkspace_eq (.reliable now arrival))
      | contextIn w v => exact h.of_workspaces (a.workspace_eq (.reliable now arrival) w)
      | canonicalContext v => exact h
      | vocabularyIn g => exact h
      | loadContexts => exact h.loaded now arrival
      | related v relations =>
          exact h.of_workspaces (a.related_eq (.reliable now arrival) v relations)
      | createSnapshot v => exact h.createSnapshot now arrival v
      | removeSnapshot s => exact h.removeSnapshot now arrival s
      | snapshotsOf x => exact h
      | snapshotValidAt x t => exact h
      | selectWorkspace w => exact h.selectWorkspace now arrival w
      | workspace w => exact h.of_workspaces (a.workspace_eq (.reliable now arrival) w)
      | reloadWorkspace w => exact h.of_workspaces (a.reloadWorkspace_eq (.reliable now arrival) w)
      | event e => exact h.refreshed now arrival
      | enqueueDrop g => exact h.congr rfl rfl rfl
      | flushDrops => exact h.flushDrops now arrival

theorem Caches.trace (h : a.Caches stale) {steps : List ArchiveStep}
    (hsteps : ArchiveStep.Settled stale steps) : a.uncached.trace steps = a.trace steps := by
  induction steps generalizing a stale with
  | nil => rfl
  | cons step steps ih =>
      obtain ⟨hstep, hsteps⟩ := hsteps
      have hact : a.uncached.act step = ((a.act step).1, (a.act step).2.uncached) :=
        h.sameUncached_act hstep
      simp only [Archive.trace, hact, ih (h.act step) hsteps]
      rfl

/-- With the cache and without it, an archive gives the same answers and leaves
the same behind, step by step, if contexts are reloaded after each write that
it did not make itself and after each flush. -/
theorem contextCache_transparent (config : Config) {s : Store} (hs : s.Readable)
    (now : Instant) (arrival : Row → Nat) {steps : List ArchiveStep}
    (hsteps : ArchiveStep.Settled false steps) :
    (start (.reliable now arrival) { config with contextCache := true } s).map (·.trace steps) =
      (start (.reliable now arrival) { config with contextCache := false } s).map
        (·.trace steps) := by
  obtain ⟨index, hbuild⟩ := ContextIndex.exists_build hs arrival
  have hload : ContextCache.load ⟨s, (Environment.reliable now arrival).service⟩ =
      .ok ⟨some index⟩ := by
    change ContextCache.load (.reliable s arrival) = _
    rw [ContextCache.load, hbuild]
  have hcheck : ∀ contextCache, Config.check { config with contextCache } = config.check :=
    fun _ => rfl
  simp only [start, hcheck]
  cases config.check with
  | error e => rfl
  | ok _ =>
      let a := fresh { config with contextCache := true } s ⟨some index⟩
      have ha : a.Caches false := ⟨rfl, hs, fun _ => ⟨index, _, rfl, hbuild⟩⟩
      simp only [if_pos, hload]
      exact congrArg Except.ok (ha.trace hsteps).symm

theorem contextCache_transparent_linkedPair :
    ∃ (env : Environment) (steps : List ArchiveStep), Store.linkedPair.Readable ∧
      ArchiveStep.Settled false steps ∧
      (start env { Config.standard with contextCache := true } .linkedPair).map (·.trace steps) =
        (start env { Config.standard with contextCache := false } .linkedPair).map
          (·.trace steps) := by
  let now : Instant := ⟨1700000000, 0, by decide, by decide⟩
  let arrival : Row → Nat := fun _ => 0
  let declared : Quad := ⟨⟨"v"⟩, Names.type, .iri Names.vocabulary, ⟨"u"⟩⟩
  let steps : List ArchiveStep :=
    [.operation now arrival (.createSnapshot ⟨"v"⟩),
      .operation now arrival (.related ⟨"v"⟩ none),
      .write [.insert [declared]], .operation now arrival (.event ⟨.created, ⟨"v"⟩⟩),
      .operation now arrival (.canonicalContext ⟨"v"⟩),
      .operation now arrival (.enqueueDrop ⟨"u"⟩),
      .operation now arrival .flushDrops, .operation now arrival .loadContexts,
      .operation now arrival (.canonicalContext ⟨"v"⟩)]
  have hread : Store.linkedPair.Readable := Store.readable_ofQuads _
  have hsteps : ArchiveStep.Settled false steps := by
    simp [steps, ArchiveStep.Settled, ArchiveStep.readsContexts, ArchiveStep.staleAfter]
  exact ⟨.reliable now arrival, steps, hread, hsteps,
    contextCache_transparent .standard hread now arrival hsteps⟩

/-- A write that contexts are not reloaded after can be told. -/
example :
    let steps : List ArchiveStep :=
      [.write [.insert [⟨⟨"v"⟩, Names.type, .iri Names.vocabulary, ⟨"u"⟩⟩]],
        .operation ⟨1700000000, 0, by decide, by decide⟩ (fun _ => 0)
          (.canonicalContext ⟨"v"⟩)]
    let a := fresh .standard .linkedPair
      ⟨(ContextIndex.build (.reliable .linkedPair)).toOption⟩
    a.trace steps ≠ a.uncached.trace steps := by
  decide +kernel

end Archive

end SkosArchive
