import SkosArchive.Rdf.Literal
import SkosArchive.Snapshot.Basic
import SkosArchive.Vocabulary.Catalogue

namespace SkosArchive

namespace Snapshot

/-- The snapshot that `quads` describe under the name `iri`. The type of a
vocabulary snapshot prevails over that of a term snapshot; of several origins or
times the last one counts, and nothing is described if it is no IRI or no
time. -/
def describe? (iri : Iri) (quads : List Quad) : Option Snapshot := do
  let kinds := (Vocabulary.objectsOf quads Names.type).filterMap fun o =>
    o.iri?.bind SnapshotKind.ofType?
  let kind ← if .vocabulary ∈ kinds then some .vocabulary else kinds.head?
  let versionOf ← (Vocabulary.objectsOf quads Names.versionOf).getLast?.bind Term.iri?
  let created ← (Vocabulary.objectsOf quads Names.created).getLast?.bind fun o =>
    o.literal?.bind Literal.instant?
  some { iri, created, versionOf, kind }

/-- Newest first, and by name among those of one time. -/
def precedes (s t : Snapshot) : Bool :=
  t.created < s.created || (s.created = t.created && !decide (t.iri < s.iri))

end Snapshot

namespace Connection

def findSnapshot (c : Connection) (iri : Iri) : Except Error (Option Snapshot) := do
  let quads ← c.quads { subject := some iri }
  return Snapshot.describe? iri quads

/-- The quads that name `asset` as the origin of a version. -/
def versionsOf (c : Connection) (asset : Iri) : Except Error (List Quad) :=
  c.quads { predicate := some Names.versionOf, object := some (.iri asset) }

def describedAmong (c : Connection) : List Iri → Except Error (List Snapshot)
  | [] => .ok []
  | iri :: iris => do
    let found ← c.findSnapshot iri
    let rest ← c.describedAmong iris
    return found.toList ++ rest

/-- The snapshots of a vocabulary or a term, newest first. -/
def snapshotsOf (c : Connection) (asset : Iri) : Except Error (List Snapshot) := do
  let versions ← c.versionsOf asset
  let snapshots ← c.describedAmong (versions.map Quad.subject).eraseDups
  return snapshots.mergeSort Snapshot.precedes

/-- The latest snapshot of `asset` that is not younger than `t`. -/
def snapshotValidAt (c : Connection) (asset : Iri) (t : Instant) :
    Except Error (Option Snapshot) := do
  let snapshots ← c.snapshotsOf asset
  return snapshots.find? fun s => !decide (t < s.created)

/-- Whether what stands about `iri` within `graph` describes a vocabulary
snapshot of the given time. -/
def holdsSnapshot (c : Connection) (created : Instant) (graph iri : Iri) : Except Error Bool := do
  let quads ← c.quads { graph := some graph, subject := some iri }
  return match Snapshot.describe? iri quads with
    | some s => s.kind = .vocabulary && s.created = created
    | none => false

def graphsAmong (c : Connection) (created : Instant) (found : List Iri) :
    List Quad → Except Error (List Iri)
  | [] => .ok found
  | version :: versions => do
    if version.graph ∈ found then c.graphsAmong created found versions
    else
      let holds ← c.holdsSnapshot created version.graph version.subject
      c.graphsAmong created (if holds then found ++ [version.graph] else found) versions

/-- The graphs that hold a snapshot of `vocabulary` taken at the given time. -/
def snapshotGraphs (c : Connection) (vocabulary : Iri) (created : Instant) :
    Except Error (List Iri) := do
  let versions ← c.versionsOf vocabulary
  c.graphsAmong created [] versions

end Connection

end SkosArchive
