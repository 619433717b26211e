import SkosArchive.Config.Basic
import SkosArchive.Relation.Related
import SkosArchive.Snapshot.Lookup

namespace SkosArchive.Catalogue

/-- The vocabulary snapshot of the name `iri`. -/
def vocabularySnapshot (c : Catalogue) (iri : Iri) : Except Error Snapshot := do
  if !(← c.connection.holds { subject := some iri }) then .error (.notFound .snapshot iri)
  else match ← c.connection.findSnapshot iri with
    | none => .error (.notSnapshot iri)
    | some s => if s.kind = .vocabulary then return s else .error (.termSnapshot iri)

/-- The graphs that hold a snapshot of one of the vocabularies taken at the
given time, each once. -/
def cascadeGraphs (c : Catalogue) (created : Instant) (found : List Iri) :
    List Iri → Except Error (List Iri)
  | [] => .ok found
  | vocabulary :: vocabularies => do
    let graphs ← c.connection.snapshotGraphs vocabulary created
    c.cascadeGraphs created (found ++ graphs.filter fun g => g ∉ found) vocabularies

/-- Drops the graph of a vocabulary snapshot together with the snapshots of the
same time of all vocabularies that are related to its origin now. -/
def removeSnapshot (c : Catalogue) (resolver : Resolver) (config : SnapshotConfig) (iri : Iri) :
    Except Error (List Iri × Store) := do
  let snapshot ← c.vocabularySnapshot iri
  let related ← c.related resolver config.cascade snapshot.versionOf
  let graphs ← c.cascadeGraphs snapshot.created [] related.toList
  let store ← (c.connection.apply (graphs.map Update.dropGraph)).mapError .persistence
  return (graphs, store)

end SkosArchive.Catalogue
