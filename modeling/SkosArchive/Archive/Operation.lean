import SkosArchive.Archive.Basic

namespace SkosArchive

/-- What can be asked of an archive. -/
inductive Operation where
  | context (vocabulary : Iri)
  | contextIn (workspace vocabulary : Iri)
  | canonicalContext (vocabulary : Iri)
  | vocabularyIn (context : Iri)
  | loadContexts
  | related (vocabulary : Iri) (relations : Option RelationSet)
  | createSnapshot (vocabulary : Iri)
  | removeSnapshot (snapshot : Iri)
  | snapshotsOf (asset : Iri)
  | snapshotValidAt (asset : Iri) (time : Instant)
  | selectWorkspace (workspace : Option Iri)
  | workspace (workspace : Iri)
  | reloadWorkspace (workspace : Iri)
  | event (event : VocabularyEvent)
  | enqueueDrop (graph : Iri)
  | flushDrops
deriving DecidableEq

inductive Answer where
  | done
  | graph (graph : Iri)
  | vocabulary (vocabulary : Option Iri)
  | iris (iris : List Iri)
  | snapshot (snapshot : Snapshot)
  | snapshots (snapshots : List Snapshot)
  | validSnapshot (snapshot : Option Snapshot)
  | workspace (workspace : Workspace)
  | count (n : Nat)
deriving DecidableEq

namespace Archive

/-- Carries out one operation: its answer and the archive after it. -/
def perform (env : Environment) (a : Archive) : Operation → Except Error Answer × Archive
  | .context v => let (r, a) := a.contextOf env v; (r.map .graph, a)
  | .contextIn w v => let (r, a) := a.contextIn env w v; (r.map .graph, a)
  | .canonicalContext v => ((a.canonicalContext env v).map .graph, a)
  | .vocabularyIn g => ((a.vocabularyIn env g).map .vocabulary, a)
  | .loadContexts => let (r, a) := a.loadContexts env; (r.map fun _ => .done, a)
  | .related v relations =>
    let (r, a) := a.related env v relations; (r.map fun s => .iris s.toList, a)
  | .createSnapshot v => let (r, a) := a.createSnapshot env v; (r.map .snapshot, a)
  | .removeSnapshot s => let (r, a) := a.removeSnapshot env s; (r.map .iris, a)
  | .snapshotsOf x => (((a.connection env).snapshotsOf x).map .snapshots, a)
  | .snapshotValidAt x t => (((a.connection env).snapshotValidAt x t).map .validSnapshot, a)
  | .selectWorkspace w => let (r, a) := a.selectWorkspace env w; (r.map fun _ => .done, a)
  | .workspace w => let (r, a) := a.workspace env w; (r.map .workspace, a)
  | .reloadWorkspace w => let (r, a) := a.reloadWorkspace env w; (r.map .workspace, a)
  | .event _ => let (r, a) := a.refresh env; (r.map fun _ => .done, a)
  | .enqueueDrop g => (.ok .done, a.enqueueDrop g)
  | .flushDrops => let (r, a) := a.flushDrops env; ((r.mapError .storage).map .count, a)

end Archive

end SkosArchive
