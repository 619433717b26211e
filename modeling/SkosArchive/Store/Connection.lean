import SkosArchive.Rdf.Names
import SkosArchive.Store.Basic

namespace SkosArchive

/-- A call to the storage. -/
inductive Call where
  | find (pattern : Pattern)
  | ask (pattern : Pattern)
  | apply (updates : List Update)

/-- How the storage serves the calls of an operation: which of them fail, and why,
where that may depend on what is stored; and when each row came. An operation ends
with the first call that fails, so none is made again after it failed. One made again
after it succeeded, on the same store, is served the same. -/
structure Service where
  fails : Store → Call → Option StorageError := fun _ _ => none
  arrival : Row → Nat := fun _ => 0

/-- Faults by the kind of call. A type scan looks for the instances of a class
in all graphs. -/
structure FaultFlags where
  writes : Bool := false
  finds : Bool := false
  typeScans : Bool := false
  asks : Bool := false

namespace FaultFlags

def isTypeScan (p : Pattern) : Bool :=
  p.graph = none && p.subject = none && p.predicate = some Names.type

def covers (flags : FaultFlags) : Call → Bool
  | .find p => flags.finds || (flags.typeScans && isTypeScan p)
  | .ask _ => flags.asks
  | .apply _ => flags.writes

def faults (flags : FaultFlags) : Service where
  fails _ call := if flags.covers call then some .callFailed else none

end FaultFlags

/-- A store and how it is served. -/
structure Connection where
  store : Store
  service : Service

namespace Connection

/-- No call fails. -/
def reliable (s : Store) (arrival : Row → Nat := fun _ => 0) : Connection :=
  ⟨s, { arrival := arrival }⟩

def attempt {α : Type} (c : Connection) (call : Call) (result : Except StorageError α) :
    Except StorageError α :=
  match c.service.fails c.store call with
  | some e => .error e
  | none => result

def find (c : Connection) (p : Pattern) : Except StorageError (List Quad) :=
  c.attempt (.find p) (c.store.find c.service.arrival p)

def ask (c : Connection) (p : Pattern) : Except StorageError Bool :=
  c.attempt (.ask p) (.ok (c.store.ask p))

def containsGraph (c : Connection) (graph : Iri) : Except StorageError Bool :=
  c.ask { graph := some graph }

def apply (c : Connection) (updates : List Update) : Except StorageError Store :=
  c.attempt (.apply updates) (c.store.apply updates)

def insert (c : Connection) (quads : List Quad) : Except StorageError Store :=
  c.apply [.insert quads]

def delete (c : Connection) (p : Pattern) : Except StorageError Store := c.apply [.delete p]

/-- Whether the graph existed, and the store without it. -/
def dropGraph (c : Connection) (graph : Iri) : Except StorageError (Bool × Store) := do
  let existed ← c.containsGraph graph
  let s ← c.apply [.dropGraph graph]
  return (existed, s)

/-- A query on behalf of an operation of the archive. -/
def quads (c : Connection) (p : Pattern) : Except Error (List Quad) :=
  (c.find p).mapError .persistence

def holds (c : Connection) (p : Pattern) : Except Error Bool := (c.ask p).mapError .persistence

end Connection

end SkosArchive
