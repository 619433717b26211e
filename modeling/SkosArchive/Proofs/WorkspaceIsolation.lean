import SkosArchive.Proofs.Commitment

namespace SkosArchive

/-- The operations that look at the selection or at a workspace. All others are
about canonical data. -/
def Operation.isOverlaid : Operation → Bool
  | .context _ => true
  | .contextIn _ _ => true
  | .related _ _ => true
  | .selectWorkspace _ => true
  | .workspace _ => true
  | .reloadWorkspace _ => true
  | _ => false

/-- An operation together with what it finds outside the archive. -/
structure ArchiveCall where
  env : Environment
  op : Operation

def ArchiveCall.isCanonical (call : ArchiveCall) : Bool := !call.op.isOverlaid

namespace Archive

/-- Two archives that may differ in the selection and in the workspaces read so
far, but in nothing else. -/
structure SameCanonical (a b : Archive) : Prop where
  store : a.store = b.store
  config : a.config = b.config
  contexts : a.contexts = b.contexts
  drops : a.drops = b.drops

namespace SameCanonical

variable {a b c : Archive}

theorem refl (a : Archive) : a.SameCanonical a := ⟨rfl, rfl, rfl, rfl⟩

theorem symm (h : a.SameCanonical b) : b.SameCanonical a :=
  ⟨h.store.symm, h.config.symm, h.contexts.symm, h.drops.symm⟩

theorem trans (h : a.SameCanonical b) (k : b.SameCanonical c) : a.SameCanonical c :=
  ⟨h.store.trans k.store, h.config.trans k.config, h.contexts.trans k.contexts,
    h.drops.trans k.drops⟩

end SameCanonical

/-- What can be told of a canonical call: its answer, and what is stored, indexed
and queued after it. -/
structure CanonicalObservation where
  answer : Except Error Answer
  store : Store
  contexts : ContextCache
  drops : DropQueue

def after (a : Archive) : List ArchiveCall → Archive
  | [] => a
  | call :: calls => after (a.perform call.env call.op).2 calls

/-- What can be told of the canonical calls of a run, in their order. -/
def canonicalTrace (a : Archive) : List ArchiveCall → List CanonicalObservation
  | [] => []
  | call :: calls =>
    let (answer, a) := a.perform call.env call.op
    if call.isCanonical then ⟨answer, a.store, a.contexts, a.drops⟩ :: a.canonicalTrace calls
    else a.canonicalTrace calls

section

variable (a : Archive) (env : Environment)

theorem sameCanonical_of_workspaces {a a' : Archive}
    (h : ∃ workspaces, a' = { a with workspaces }) : a'.SameCanonical a := by
  obtain ⟨workspaces, rfl⟩ := h
  exact ⟨rfl, rfl, rfl, rfl⟩

theorem sameCanonical_selectWorkspace (w : Option Iri) :
    (a.selectWorkspace env w).2.SameCanonical a := by
  cases w with
  | none => exact ⟨rfl, rfl, rfl, rfl⟩
  | some w =>
      obtain ⟨hstore, hconfig, hcontexts, hdrops⟩ :=
        sameCanonical_of_workspaces (a.workspace_eq env w)
      simp only [selectWorkspace]
      cases (a.workspace env w).1 with
      | error e => exact ⟨hstore, hconfig, hcontexts, hdrops⟩
      | ok _ => exact ⟨hstore, hconfig, hcontexts, hdrops⟩

theorem sameCanonical_overlaid {op : Operation} (h : op.isOverlaid = true) :
    (a.perform env op).2.SameCanonical a := by
  cases op with
  | context v => exact sameCanonical_of_workspaces (a.selectedWorkspace_eq env)
  | contextIn w v => exact sameCanonical_of_workspaces (a.workspace_eq env w)
  | related v relations => exact sameCanonical_of_workspaces (a.related_eq env v relations)
  | selectWorkspace w => exact a.sameCanonical_selectWorkspace env w
  | workspace w => exact sameCanonical_of_workspaces (a.workspace_eq env w)
  | reloadWorkspace w => exact sameCanonical_of_workspaces (a.reloadWorkspace_eq env w)
  | canonicalContext | vocabularyIn | loadContexts | createSnapshot | removeSnapshot
  | snapshotsOf | snapshotValidAt | event | enqueueDrop | flushDrops => cases h

end

/-- From `a` and from `b` a step gives the same, and it leaves archives that
agree on what is canonical. -/
def Alike {α : Type} (step : Archive → α × Archive) (a b : Archive) : Prop :=
  (step a).1 = (step b).1 ∧ (step a).2.SameCanonical (step b).2

theorem Alike.map {α β : Type} {step : Archive → α × Archive} {a b : Archive}
    (h : Alike step a b) (f : α → β) : Alike (fun a => (f (step a).1, (step a).2)) a b :=
  ⟨congrArg f h.1, h.2⟩

namespace SameCanonical

variable {a b : Archive} (h : a.SameCanonical b) (env : Environment)

include h

theorem connection : a.connection env = b.connection env := by
  rw [Archive.connection, Archive.connection, h.store]

theorem canonicalContext : a.canonicalContext env = b.canonicalContext env := by
  funext v
  rw [Archive.canonicalContext, Archive.canonicalContext, h.connection, h.contexts]

theorem canonical : a.canonical env = b.canonical env := by
  rw [Archive.canonical, Archive.canonical, h.connection, h.canonicalContext]

theorem vocabularyIn (g : Iri) : a.vocabularyIn env g = b.vocabularyIn env g := by
  rw [Archive.vocabularyIn, Archive.vocabularyIn, h.connection, h.contexts]

theorem loadContexts : Alike (·.loadContexts env) a b := by
  simp only [Alike, Archive.loadContexts, h.connection, h.config, h.contexts]
  by_cases hcache : b.config.contextCache = true
  · rw [if_pos hcache, if_pos hcache]
    exact ⟨rfl, h.store, rfl, rfl, h.drops⟩
  · rw [if_neg hcache, if_neg hcache]
    exact ⟨rfl, h⟩

theorem refresh : Alike (·.refresh env) a b := by
  obtain ⟨hanswer, hstore, hconfig, hcontexts, hdrops⟩ := h.loadContexts env
  exact ⟨hanswer, hstore, hconfig, hcontexts, hdrops⟩

theorem createSnapshot (v : Iri) : Alike (·.createSnapshot env v) a b := by
  simp only [Alike, Archive.createSnapshot, h.config, h.canonical]
  cases b.config.relations.resolver with
  | error e => exact ⟨rfl, h⟩
  | ok resolver =>
      simp only
      cases (b.canonical env).createSnapshot resolver b.config.snapshots env.now v with
      | error e => exact ⟨rfl, h⟩
      | ok made =>
          have hwritten : SameCanonical { a with store := made.2, config := b.config }
              { b with store := made.2 } := ⟨rfl, rfl, h.contexts, h.drops⟩
          exact ⟨rfl, (hwritten.refresh env).2⟩

theorem removeSnapshot (s : Iri) : Alike (·.removeSnapshot env s) a b := by
  have hrefreshed : (a.refresh env).2.SameCanonical (b.refresh env).2 := (h.refresh env).2
  simp only [Alike, Archive.removeSnapshot, h.config, hrefreshed.config, hrefreshed.canonical]
  cases b.config.relations.resolver with
  | error e => exact ⟨rfl, h⟩
  | ok resolver =>
      simp only
      cases ((b.refresh env).2.canonical env).removeSnapshot resolver
        (b.refresh env).2.config.snapshots s with
      | error e => exact ⟨rfl, hrefreshed⟩
      | ok removed =>
          have hwritten : SameCanonical
              { (a.refresh env).2 with store := removed.2, config := (b.refresh env).2.config }
              { (b.refresh env).2 with store := removed.2 } :=
            ⟨rfl, rfl, hrefreshed.contexts, hrefreshed.drops⟩
          exact ⟨rfl, (hwritten.refresh env).2⟩

theorem flushDrops : Alike (·.flushDrops env) a b := by
  simp only [Alike, Archive.flushDrops, h.connection, h.drops]
  cases b.drops.flush (b.connection env) with
  | mk outcome drops =>
      cases outcome with
      | error e => exact ⟨rfl, h.store, h.config, h.contexts, rfl⟩
      | ok made => exact ⟨rfl, rfl, h.config, h.contexts, rfl⟩

theorem enqueueDrop (g : Iri) : (a.enqueueDrop g).SameCanonical (b.enqueueDrop g) :=
  ⟨h.store, h.config, h.contexts, congrArg (·.enqueue g) h.drops⟩

theorem perform {op : Operation} (hop : op.isOverlaid = false) : Alike (·.perform env op) a b := by
  cases op with
  | canonicalContext v =>
      exact ⟨congrArg (Except.map Answer.graph) (congrFun (h.canonicalContext env) v), h⟩
  | vocabularyIn g => exact ⟨congrArg (Except.map Answer.vocabulary) (h.vocabularyIn env g), h⟩
  | loadContexts => exact (h.loadContexts env).map _
  | createSnapshot v => exact (h.createSnapshot env v).map _
  | removeSnapshot s => exact (h.removeSnapshot env s).map _
  | snapshotsOf x =>
      refine ⟨?_, h⟩
      simp only [Archive.perform, h.connection]
  | snapshotValidAt x t =>
      refine ⟨?_, h⟩
      simp only [Archive.perform, h.connection]
  | event e => exact (h.refresh env).map _
  | enqueueDrop g => exact ⟨rfl, h.enqueueDrop g⟩
  | flushDrops => exact (h.flushDrops env).map fun r => (r.mapError Error.storage).map Answer.count
  | context | contextIn | related | selectWorkspace | workspace | reloadWorkspace => cases hop

omit h in
theorem run (h : a.SameCanonical b) (calls : List ArchiveCall) :
    a.canonicalTrace calls = b.canonicalTrace (calls.filter ArchiveCall.isCanonical) ∧
      (a.after calls).SameCanonical (b.after (calls.filter ArchiveCall.isCanonical)) := by
  induction calls generalizing a b with
  | nil => exact ⟨rfl, h⟩
  | cons call calls ih =>
      cases hop : call.op.isOverlaid with
      | true =>
          have hcall : call.isCanonical = false := by rw [ArchiveCall.isCanonical, hop]; rfl
          simp only [canonicalTrace, after, List.filter_cons, hcall]
          exact ih ((a.sameCanonical_overlaid call.env hop).trans h)
      | false =>
          have hcall : call.isCanonical = true := by rw [ArchiveCall.isCanonical, hop]; rfl
          obtain ⟨hanswer, hafter⟩ := h.perform call.env hop
          obtain ⟨htrace, hend⟩ := ih hafter
          simp only [canonicalTrace, after, List.filter_cons, hcall, if_true]
          refine ⟨?_, hend⟩
          rw [hanswer, hafter.store, hafter.contexts, hafter.drops, htrace]

end SameCanonical

variable {a b : Archive}

/-- Workspaces never influence canonical data. Two archives that agree but for
the selection and the workspaces read so far, and that make the same canonical
calls, each with any calls about workspaces in between, get the same answers and
errors to the canonical calls; each of these leaves the same stored, indexed and
queued in both, and in the end the archives agree again. -/
theorem canonical_isolated (h : a.SameCanonical b) {left right : List ArchiveCall}
    (hcalls : left.filter ArchiveCall.isCanonical = right.filter ArchiveCall.isCanonical) :
    a.canonicalTrace left = b.canonicalTrace right ∧
      (a.after left).SameCanonical (b.after right) := by
  -- both runs are compared with the canonical calls alone, made from `b`
  obtain ⟨htrace, hafter⟩ := h.run left
  obtain ⟨htrace', hafter'⟩ := (SameCanonical.refl b).run right
  rw [hcalls] at htrace hafter
  exact ⟨htrace.trans htrace'.symm, hafter.trans hafter'.symm⟩

theorem canonical_isolated_linkedPair :
    ∃ (a b : Archive) (left right : List ArchiveCall), a.selected ≠ b.selected ∧
      a.workspaces ≠ b.workspaces ∧ left.length ≠ right.length ∧ a.SameCanonical b ∧
      left.filter ArchiveCall.isCanonical = right.filter ArchiveCall.isCanonical ∧
      a.canonicalTrace left = b.canonicalTrace right ∧
        (a.after left).SameCanonical (b.after right) := by
  let env : Environment := .reliable ⟨1700000000, 0, by decide, by decide⟩
  let a : Archive := fresh .standard .linkedPair .empty
  let overlaid : Workspace := (Workspace.empty ⟨"w"⟩).withCopy ⟨⟨"v"⟩, ⟨"copy"⟩, none⟩
  let b : Archive :=
    { a with workspaces := ⟨IriMap.empty.insert ⟨"w"⟩ overlaid⟩, selected := some ⟨"w"⟩ }
  let left : List ArchiveCall :=
    [⟨env, .createSnapshot ⟨"v"⟩⟩, ⟨env, .snapshotsOf ⟨"v"⟩⟩]
  let right : List ArchiveCall :=
    [⟨env, .context ⟨"v"⟩⟩, ⟨env, .createSnapshot ⟨"v"⟩⟩, ⟨env, .reloadWorkspace ⟨"w"⟩⟩,
      ⟨env, .selectWorkspace none⟩, ⟨env, .snapshotsOf ⟨"v"⟩⟩]
  have hsame : a.SameCanonical b := ⟨rfl, rfl, rfl, rfl⟩
  have hcalls : left.filter ArchiveCall.isCanonical = right.filter ArchiveCall.isCanonical := rfl
  exact ⟨a, b, left, right, by decide, by decide, by decide, hsame, hcalls,
    canonical_isolated hsame hcalls⟩

/-- The selection does influence the context that a vocabulary has within it. -/
example :
    let env : Environment := .reliable ⟨1700000000, 0, by decide, by decide⟩
    let overlaid : Workspace := (Workspace.empty ⟨"w"⟩).withCopy ⟨⟨"v"⟩, ⟨"copy"⟩, none⟩
    let a : Archive := fresh .standard .linkedPair .empty
    let b : Archive :=
      { a with workspaces := ⟨IriMap.empty.insert ⟨"w"⟩ overlaid⟩, selected := some ⟨"w"⟩ }
    (a.contextOf env ⟨"v"⟩).1 ≠ (b.contextOf env ⟨"v"⟩).1 := by
  decide +kernel

end Archive

end SkosArchive
