import SkosArchive.Store.Connection
import SkosArchive.Workspace.Basic

namespace SkosArchive

namespace Workspace

/-- The IRIs that `subject` has under `predicate`, in the order of the quads. -/
def irisOf (quads : List Quad) (subject predicate : Iri) : List Iri :=
  (quads.filter fun q => q.subject = subject ∧ q.predicate = predicate).filterMap Quad.objectIri?

/-- The working copy in `context`, if it is based on a vocabulary. -/
def copyIn? (quads : List Quad) (context : Iri) : Option WorkingCopy :=
  (irisOf quads context Names.basedOnVocabulary).head?.map fun vocabulary =>
    { vocabulary, context,
      changeTracking := (irisOf quads context Names.hasChangeTrackingContext).head? }

/-- Keeps the working copy that is there already. -/
def withFirst (w : Workspace) (copy : WorkingCopy) : Workspace :=
  if w.copies.contains copy.vocabulary then w else w.withCopy copy

/-- The workspace that its graph describes; of several copies of a vocabulary
the first one counts. -/
def describe? (iri : Iri) (quads : List Quad) : Option Workspace :=
  if Names.workspace ∈ irisOf quads iri Names.type then
    some (((irisOf quads iri Names.referencesContext).filterMap (copyIn? quads)).foldl withFirst
      (empty iri))
  else none

end Workspace

namespace Connection

def workspace (c : Connection) (iri : Iri) : Except Error Workspace := do
  let quads ← c.quads { graph := some iri }
  match Workspace.describe? iri quads with
  | some w => return w
  | none => .error (.notFound .workspace iri)

end Connection

/-- The workspaces read so far. -/
structure WorkspaceCache where
  entries : IriMap Workspace
deriving DecidableEq

namespace WorkspaceCache

def empty : WorkspaceCache := ⟨.empty⟩

def get? (cache : WorkspaceCache) (iri : Iri) : Option Workspace := cache.entries.get? iri

def isCached (cache : WorkspaceCache) (iri : Iri) : Bool := cache.entries.contains iri

/-- Reads the workspace and replaces its entry; a failure changes nothing. -/
def reload (cache : WorkspaceCache) (c : Connection) (iri : Iri) :
    Except Error Workspace × WorkspaceCache :=
  match c.workspace iri with
  | .ok w => (.ok w, ⟨cache.entries.insert iri w⟩)
  | .error e => (.error e, cache)

def getOrLoad (cache : WorkspaceCache) (c : Connection) (iri : Iri) :
    Except Error Workspace × WorkspaceCache :=
  match cache.get? iri with
  | some w => (.ok w, cache)
  | none => cache.reload c iri

/-- Whether there was an entry, and the cache without it. -/
def evict (cache : WorkspaceCache) (iri : Iri) : Bool × WorkspaceCache :=
  (cache.isCached iri, ⟨cache.entries.erase iri⟩)

end WorkspaceCache

end SkosArchive
