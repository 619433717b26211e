import SkosArchive.Context.Index
import SkosArchive.Snapshot.Creation
import SkosArchive.Snapshot.Removal
import SkosArchive.Store.DropQueue
import SkosArchive.Vocabulary.Event
import SkosArchive.Workspace.Cache

namespace SkosArchive

/-- What an operation finds outside the archive. -/
structure Environment where
  now : Instant
  service : Service

/-- No call to the storage fails. -/
def Environment.reliable (now : Instant) (arrival : Row → Nat := fun _ => 0) : Environment :=
  ⟨now, { arrival := arrival }⟩

/-- A store and what is kept beside it. Contexts are cached only if the
configuration says so. -/
structure Archive where
  store : Store
  config : Config
  contexts : ContextCache
  workspaces : WorkspaceCache
  selected : Option Iri
  drops : DropQueue
deriving DecidableEq

namespace Archive

def fresh (config : Config) (store : Store) (contexts : ContextCache) : Archive :=
  { store, config, contexts, workspaces := .empty, selected := none, drops := .empty }

/-- Checks the configuration and fills the context cache. -/
def start (env : Environment) (config : Config) (store : Store) : Except Error Archive := do
  config.check.mapError .config
  if config.contextCache then
    let contexts ← ContextCache.load ⟨store, env.service⟩
    return fresh config store contexts
  else return fresh config store .empty

def connection (a : Archive) (env : Environment) : Connection := ⟨a.store, env.service⟩

def canonicalContext (a : Archive) (env : Environment) (vocabulary : Iri) : Except Error Iri :=
  a.contexts.contextOf (a.connection env) vocabulary

def vocabularyIn (a : Archive) (env : Environment) (context : Iri) : Except Error (Option Iri) :=
  a.contexts.vocabularyIn (a.connection env) context

/-- Vocabularies in their canonical contexts. -/
def canonical (a : Archive) (env : Environment) : Catalogue :=
  ⟨a.connection env, a.canonicalContext env⟩

/-- The context of the workspace's working copy if it has one, else the
canonical context. -/
def overlay (a : Archive) (env : Environment) (workspace : Option Workspace) (vocabulary : Iri) :
    Except Error Iri :=
  match workspace.bind fun w => w.copy? vocabulary with
  | some copy => .ok copy.context
  | none => a.canonicalContext env vocabulary

def workspace (a : Archive) (env : Environment) (iri : Iri) : Except Error Workspace × Archive :=
  let (result, workspaces) := a.workspaces.getOrLoad (a.connection env) iri
  (result, { a with workspaces })

def reloadWorkspace (a : Archive) (env : Environment) (iri : Iri) :
    Except Error Workspace × Archive :=
  let (result, workspaces) := a.workspaces.reload (a.connection env) iri
  (result, { a with workspaces })

def selectedWorkspace (a : Archive) (env : Environment) :
    Except Error (Option Workspace) × Archive :=
  match a.selected with
  | none => (.ok none, a)
  | some iri =>
    let (result, a) := a.workspace env iri
    (result.map some, a)

def contextIn (a : Archive) (env : Environment) (workspace vocabulary : Iri) :
    Except Error Iri × Archive :=
  let (result, a) := a.workspace env workspace
  (result.bind fun w => a.overlay env (some w) vocabulary, a)

/-- The context of a vocabulary within the selected workspace. -/
def contextOf (a : Archive) (env : Environment) (vocabulary : Iri) : Except Error Iri × Archive :=
  let (result, a) := a.selectedWorkspace env
  (result.bind fun w => a.overlay env w vocabulary, a)

def related (a : Archive) (env : Environment) (vocabulary : Iri)
    (relations : Option RelationSet) : Except Error IriSet × Archive :=
  match a.config.relations.resolver with
  | .error e => (.error (.config e), a)
  | .ok resolver =>
    let (result, a) := a.selectedWorkspace env
    (result.bind fun w =>
      Catalogue.related ⟨a.connection env, a.overlay env w⟩ resolver
        (relations.getD a.config.relations.properties) vocabulary, a)

def loadContexts (a : Archive) (env : Environment) : Except Error Unit × Archive :=
  if a.config.contextCache then
    let (result, contexts) := a.contexts.reload (a.connection env)
    (result, { a with contexts })
  else (.ok (), a)

/-- Contexts are loaded again and workspaces forgotten, whichever vocabulary
the event is about. -/
def refresh (a : Archive) (env : Environment) : Except Error Unit × Archive :=
  let (result, a) := a.loadContexts env
  (result, { a with workspaces := .empty })

/-- What was written stays written if the refresh after it fails. -/
def createSnapshot (a : Archive) (env : Environment) (vocabulary : Iri) :
    Except Error Snapshot × Archive :=
  match a.config.relations.resolver with
  | .error e => (.error (.config e), a)
  | .ok resolver =>
    match (a.canonical env).createSnapshot resolver a.config.snapshots env.now vocabulary with
    | .error e => (.error e, a)
    | .ok (snapshot, store) => (.ok snapshot, (refresh { a with store } env).2)

/-- Refreshes before the removal, so that contexts are those of the store, and
after it. -/
def removeSnapshot (a : Archive) (env : Environment) (snapshot : Iri) :
    Except Error (List Iri) × Archive :=
  match a.config.relations.resolver with
  | .error e => (.error (.config e), a)
  | .ok resolver =>
    let a := (a.refresh env).2
    match (a.canonical env).removeSnapshot resolver a.config.snapshots snapshot with
    | .error e => (.error e, a)
    | .ok (graphs, store) => (.ok graphs, (refresh { a with store } env).2)

/-- A workspace that cannot be read is not selected. -/
def selectWorkspace (a : Archive) (env : Environment) :
    Option Iri → Except Error Unit × Archive
  | none => (.ok (), { a with selected := none })
  | some iri =>
    let (result, a) := a.workspace env iri
    match result with
    | .error e => (.error e, a)
    | .ok _ => (.ok (), { a with selected := some iri })

def enqueueDrop (a : Archive) (graph : Iri) : Archive := { a with drops := a.drops.enqueue graph }

/-- How many graphs were dropped. -/
def flushDrops (a : Archive) (env : Environment) : Except StorageError Nat × Archive :=
  match a.drops.flush (a.connection env) with
  | (.ok (n, store), drops) => (.ok n, { a with store, drops })
  | (.error e, drops) => (.error e, { a with drops })

/-- Flushes again and again, whether or not a flush fails. -/
def flushTimes (env : Environment) : Nat → Archive → Archive
  | 0, a => a
  | n + 1, a => flushTimes env n (a.flushDrops env).2

/-- The archive after the flushes that fall due from `start` to `stop`, in
milliseconds since the flushing began. -/
def flushDue (a : Archive) (env : Environment) (start stop : Nat) : Archive :=
  flushTimes env (DropQueue.flushesDue a.config.drops.period start stop) a

end Archive

end SkosArchive
